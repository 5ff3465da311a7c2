/-
What the stack, the queue and the fragments have to do with each other.

Two facts hold at every moment of a run without failed steps, whatever the
table says. The entry at the bottom of the stack is the one that was there
at the start, because a reduction never takes the last entry. And there
are as many fragments as there are symbols that own one: the entries that
carry a fragment, and the reduced symbol in the queue if it has left a
node. A token is counted from the moment it is shifted and a node from the
moment it is built, while its symbol still waits.
-/
import ShiftReduce.Proofs.Engine.Move

namespace ShiftReduce

variable {σ : Type}

/-- The entry with which the stack begins. -/
def ParseTable.bottom (t : ParseTable σ) : StackEntry σ :=
  ⟨t.startSymbol, t.initial, false⟩

/-- Whether a symbol in the queue has left its fragment already. -/
def Queued.hasLeft (q : Queued) : Bool := q.reduced && q.significant

namespace Configuration

/-- How many fragments the entries of the stack and the symbols in the queue
call their own. -/
def owed (c : Configuration σ) : Nat :=
  (c.stack.filter StackEntry.carries).length
    + (c.queue.filter Queued.hasLeft).length

/-- What is taken off the stack calls for fragments of its own only. -/
theorem carries_le_owed {c : Configuration σ}
    {popped remaining : List (StackEntry σ)}
    (split : c.stack = popped ++ remaining) :
    (popped.filter StackEntry.carries).length ≤ c.owed := by
  unfold owed
  rw [split, List.filter_append, List.length_append]
  omega

/-- The bottom of the stack is where it was, and every fragment belongs to
an entry of the stack or to a symbol in the queue. -/
structure Balanced (t : ParseTable σ) (c : Configuration σ) : Prop where
  bottom : ∃ above, c.stack = above ++ [t.bottom]
  fragments : c.fragments.length
    = (c.stack.filter StackEntry.carries).length
      + (c.queue.filter Queued.hasLeft).length

theorem balanced_start (t : ParseTable σ) (tokens : List Token) :
    Balanced t (start t tokens) where
  bottom := ⟨[], rfl⟩
  fragments := by
    have hinput : ∀ q ∈ (start t tokens).queue, ¬ q.hasLeft = true := by
      intro q hq
      simp [Queued.hasLeft, (reduced_of_mem_start hq).1]
    rw [List.filter_eq_nil_iff.mpr hinput]
    rfl

end Configuration

open ShiftReduce.Configuration

/-- Entries that are taken off a stack, but not all of them, lie above its
bottom. -/
theorem above_of_split {above popped remaining : List (StackEntry σ)}
    {bottom : StackEntry σ} (split : above ++ [bottom] = popped ++ remaining)
    (hne : remaining ≠ []) :
    ∃ below, above = popped ++ below ∧ remaining = below ++ [bottom] := by
  rcases List.append_eq_append_iff.mp split with ⟨m, hpop, hm⟩ | ⟨m, hpop, hm⟩
  · rcases List.append_eq_singleton_iff.mp hm.symm with
      ⟨rfl, hlast⟩ | ⟨-, hnil⟩
    · exact ⟨[], by simpa using hpop.symm, hlast⟩
    · exact absurd hnil hne
  · exact ⟨m, hpop, hm⟩

/-- No move takes away the bottom of the stack. -/
theorem Move.bottom {t : ParseTable σ} {c c' : Configuration σ}
    {w : Option Warning} (h : Move t c c' w)
    (hc : ∃ above, c.stack = above ++ [t.bottom]) :
    ∃ above, c'.stack = above ++ [t.bottom] := by
  obtain ⟨above, habove⟩ := hc
  cases h with
  | rest done => exact ⟨above, habove⟩
  | shift going queue stack action =>
      rename_i lookahead behind top below target
      refine ⟨⟨lookahead.symbol, target, lookahead.significant⟩ :: above, ?_⟩
      rw [habove]
      rfl
  | reduce going queue stack action rule split bottom symbols
      parts count built =>
      obtain ⟨below', -, hremaining⟩ :=
        above_of_split (habove.symm.trans split) bottom
      exact ⟨below', hremaining⟩

/-- A move makes as many fragments, or uses up as many, as it changes the
number of those that are called for. -/
theorem Move.fragments_add_owed {t : ParseTable σ} {c c' : Configuration σ}
    {w : Option Warning} (h : Move t c c' w) :
    c'.fragments.length + c.owed = c.fragments.length + c'.owed := by
  unfold owed
  cases h with
  | rest done => rfl
  | shift going queue stack action =>
      rename_i lookahead behind top below target
      rw [queue]
      -- either the fragment is new, or its symbol had left it in the queue
      cases hs : lookahead.significant <;> cases hr : lookahead.reduced <;>
        simp [hs, hr, Queued.hasLeft] <;> omega
  | reduce going queue stack action rule split bottom symbols
      parts count built =>
      rename_i lookahead behind top below popped remaining children
        fragments index name p node
      have hnode :
          ((⟨p.left, lookahead.token, node.isSome, true⟩
            :: lookahead :: behind).filter Queued.hasLeft).length
          = node.toList.length
            + ((lookahead :: behind).filter Queued.hasLeft).length := by
        cases node <;> simp [Queued.hasLeft, Nat.add_comm]
      rw [parts, split, queue]
      simp only [hnode, List.length_append, List.length_map,
        List.length_reverse, List.filter_append]
      omega

/-- Every move keeps the balance. -/
theorem Move.balanced {t : ParseTable σ} {c c' : Configuration σ}
    {w : Option Warning} (h : Move t c c' w) (hc : Balanced t c) :
    Balanced t c' where
  bottom := h.bottom hc.bottom
  fragments := by
    have hfragments : c.fragments.length = c.owed := hc.fragments
    have hmove := h.fragments_add_owed
    show c'.fragments.length = c'.owed
    omega

namespace Configuration

/-- Every configuration of a run without failed steps is balanced. -/
theorem Reaches.balanced {t : ParseTable σ} {tokens : List Token}
    {c : Configuration σ} (h : Reaches t (start t tokens) c) : Balanced t c :=
  h.preserves Move.balanced (balanced_start t tokens)

/-- A balanced configuration has enough fragments for whatever is taken off
its stack. -/
theorem Balanced.enough {t : ParseTable σ} {c : Configuration σ}
    (hc : Balanced t c) {popped remaining : List (StackEntry σ)}
    (split : c.stack = popped ++ remaining) :
    (popped.filter StackEntry.carries).length ≤ c.fragments.length := by
  rw [hc.fragments]
  exact carries_le_owed split

end Configuration

end ShiftReduce
