/-
What an engine keeps up behind an error.

As long as no step fails, every fragment belongs to one symbol. A step that
fails may upset this, because what it took is lost: the symbol that was next,
whose node has been built and stays behind, or the entries and fragments of
a right-hand side. But whatever is lost this way calls for no more fragments
than go with it, so there are always enough of them, and the bottom of the
stack, which no reduction takes, stays where it is. Hence two of the errors
that a step is prepared for never occur, under no table and not even behind
other errors: that fragments are missing, and that the stack is empty.

Without errors the count is exact, and it also tells how a parse may end. The
start symbol, reduced last, is the only symbol in the queue that can have
left a fragment, for the end of the input has not been reduced; if nothing
else is on the stack, a single fragment is left at most. And that fragment is
a node, because the start symbol has left it.
-/
import ShiftReduce.Proofs.Derivation
import ShiftReduce.Proofs.Engine.Balance
import ShiftReduce.Proofs.Engine.Failure

namespace ShiftReduce

variable {σ : Type}

namespace Configuration

-- =================================================== behind an error

/-- The bottom of the stack is where it was, and there is a fragment for
every entry of the stack and every symbol in the queue that calls for one. -/
structure Provided (t : ParseTable σ) (c : Configuration σ) : Prop where
  bottom : ∃ above, c.stack = above ++ [t.bottom]
  enough : c.owed ≤ c.fragments.length

theorem Balanced.provided {t : ParseTable σ} {c : Configuration σ}
    (hc : Balanced t c) : Provided t c where
  bottom := hc.bottom
  enough := Nat.le_of_eq hc.fragments.symm

/-- To lose the symbol that is next is to lose a claim to a fragment at
most. -/
theorem owed_behind_le {c : Configuration σ} {lookahead : Queued}
    {behind : List Queued} (queue : c.queue = lookahead :: behind) :
    { c with queue := behind }.owed ≤ c.owed := by
  unfold owed
  have hsublist : (behind.filter Queued.hasLeft).Sublist
      (c.queue.filter Queued.hasLeft) := by
    rw [queue]
    exact (List.sublist_cons_self lookahead behind).filter _
  exact Nat.add_le_add_left hsublist.length_le _

theorem Provided.behind {t : ParseTable σ} {c : Configuration σ}
    (hc : Provided t c) {lookahead : Queued} {behind : List Queued}
    (queue : c.queue = lookahead :: behind) :
    Provided t { c with queue := behind } where
  bottom := hc.bottom
  enough := Nat.le_trans (owed_behind_le queue) hc.enough

/-- What is taken off the stack calls for no more fragments than there are. -/
theorem Provided.carries_le {t : ParseTable σ} {c : Configuration σ}
    (hc : Provided t c) {popped remaining : List (StackEntry σ)}
    (split : c.stack = popped ++ remaining) :
    (popped.filter StackEntry.carries).length ≤ c.fragments.length :=
  Nat.le_trans (carries_le_owed split) hc.enough

end Configuration

open ShiftReduce.Configuration

theorem Move.provided {t : ParseTable σ} {c c' : Configuration σ}
    {w : Option Warning} (h : Move t c c' w) (hc : Provided t c) :
    Provided t c' where
  bottom := h.bottom hc.bottom
  enough := by
    have hmove := h.fragments_add_owed
    have henough := hc.enough
    omega

/-- No failure leaves too few fragments, or takes the bottom of the stack. -/
theorem Failure.provided {t : ParseTable σ} {c c' : Configuration σ}
    {e : ParseError} (h : Failure t c c' e) (hc : Provided t c) :
    Provided t c' := by
  cases h with
  | exhausted going queue => exact hc
  | bottomless going queue stack => exact hc.behind queue
  | unexpected going queue stack action => exact hc.behind queue
  | unknownRule going queue stack action rule => exact hc.behind queue
  | mismatch going queue stack action rule symbols => exact hc.behind queue
  | fragmentsMissing going queue stack action rule split bottom symbols few =>
      exact absurd (hc.carries_le split) (Nat.not_le.mpr few)
  | refused going queue stack action rule split bottom symbols
      parts count built =>
      rename_i lookahead behind top below popped remaining children fragments
        index name p error
      obtain ⟨above, habove⟩ := hc.bottom
      obtain ⟨below', -, hremaining⟩ :=
        above_of_split (habove.symm.trans split) bottom
      refine ⟨⟨below', hremaining⟩, ?_⟩
      -- as many fragments are lost as the lost entries called for
      have henough := Nat.le_trans (owed_behind_le queue) hc.enough
      unfold owed at henough ⊢
      rw [parts, split] at henough
      simp only [List.filter_append, List.length_append, List.length_reverse]
        at henough ⊢
      omega

namespace Configuration

/-- However often an engine has been asked for a step, it is provided. -/
theorem Continues.provided {t : ParseTable σ} {tokens : List Token}
    {c : Configuration σ} (h : Continues t (start t tokens) c) :
    Provided t c :=
  h.preserves Move.provided Failure.provided (balanced_start t tokens).provided

theorem Provided.step_ne_emptyStack {t : ParseTable σ} {c : Configuration σ}
    (hc : Provided t c) : (c.step t).result ≠ .error (.table .emptyStack) := by
  intro herror
  obtain ⟨above, habove⟩ := hc.bottom
  have hfailure := failure_of_step_error herror
  generalize (c.step t).config = c' at hfailure
  cases hfailure with
  | bottomless going queue stack =>
      rw [stack] at habove
      exact absurd habove
        (List.append_ne_nil_of_right_ne_nil _ (List.cons_ne_nil _ _)).symm

theorem Provided.step_ne_fragmentsMissing {t : ParseTable σ}
    {c : Configuration σ} (hc : Provided t c) (rule required available : Nat) :
    (c.step t).result
      ≠ .error (.table (.fragmentsMissing rule required available)) := by
  intro herror
  have hfailure := failure_of_step_error herror
  generalize (c.step t).config = c' at hfailure
  cases hfailure with
  | fragmentsMissing going queue stack action hrule split bottom symbols few =>
      exact absurd (hc.carries_le split) (Nat.not_le.mpr few)

-- ========================================================= at the end

/-- The reduced symbols that wait are left-hand sides, and once the start
symbol has been reduced it is the next of them; if it has left a fragment,
that is the latest, and a node. -/
structure Rooted (t : ParseTable σ) (c : Configuration σ) : Prop where
  left : ∀ q ∈ c.queue, q.reduced = true →
    ∃ p, t.Produces p ∧ p.left = q.symbol
  root : c.completed = true → ∃ head behind, c.queue = head :: behind
    ∧ (head.hasLeft = true →
      ∃ root fragments, c.fragments = .node root :: fragments)

theorem rooted_start (t : ParseTable σ) (tokens : List Token) :
    Rooted t (start t tokens) where
  left := by
    intro q hq hreduced
    rw [(reduced_of_mem_start hq).1] at hreduced
    cases hreduced
  root := fun hdone => nomatch hdone

end Configuration

/-- Every move keeps the start symbol in front, once it has been reduced. -/
theorem Move.rooted {t : ParseTable σ} {c c' : Configuration σ}
    {w : Option Warning} (h : Move t c c' w) (hc : Rooted t c) :
    Rooted t c' := by
  cases h with
  | rest done => exact hc
  | shift going queue stack action =>
      refine ⟨fun q hq => hc.left q ?_, fun hdone => nomatch hdone⟩
      rw [queue]
      exact List.mem_cons_of_mem _ hq
  | reduce going queue stack action rule split bottom symbols
      parts count built =>
      rename_i lookahead behind top below popped remaining children
        fragments index name p node
      refine ⟨?_, fun _ => ⟨_, _, rfl, ?_⟩⟩
      · intro q hq hreduced
        rcases List.mem_cons.mp hq with rfl | hq
        · exact ⟨p, ⟨index, rule⟩, rfl⟩
        · exact hc.left q (queue ▸ hq) hreduced
      · intro hleft
        cases node with
        | none => cases hleft
        | some root => exact ⟨root, fragments, rfl⟩

namespace Configuration

/-- If nothing has failed, a parse ends with a single node at most. -/
theorem fragments_of_atEnd {t : ParseTable σ} {c : Configuration σ}
    (hc : Balanced t c) (hroot : Rooted t c)
    (hend : ∀ p, t.Produces p → p.left ≠ endMarker) (h : AtEnd t c) :
    c.fragments = [] ∨ ∃ root, c.fragments = [.node root] := by
  obtain ⟨hdone, ⟨bottom, stack, -⟩, head, last, queue, -, hlast⟩ := h
  have hbottom : bottom.carries = false := by
    obtain ⟨above, habove⟩ := hc.bottom
    obtain ⟨-, heq⟩ :=
      List.append_inj' (habove.symm.trans stack : above ++ [_] = [] ++ [_]) rfl
    cases heq
    rfl
  have hlast' : last.hasLeft = false := by
    -- the end of the input is no left-hand side
    have hinput : last.reduced = false := by
      rw [← Bool.not_eq_true]
      intro hreduced
      obtain ⟨p, hp, hleft⟩ := hroot.left last (by simp [queue]) hreduced
      exact hend p hp (hleft.trans hlast)
    simp [Queued.hasLeft, hinput]
  have hcount := hc.fragments
  rw [stack, queue] at hcount
  simp only [List.filter_cons, hbottom, hlast', List.filter_nil] at hcount
  obtain ⟨head', behind, queue', hnode⟩ := hroot.root hdone
  cases queue.symm.trans queue'
  cases hleft : head.hasLeft with
  | false =>
      rw [hleft] at hcount
      exact Or.inl (List.length_eq_zero_iff.mp hcount)
  | true =>
      obtain ⟨root, fragments, hfragments⟩ := hnode hleft
      rw [hleft, hfragments] at hcount
      have hnil : fragments = [] :=
        List.length_eq_zero_iff.mp (Nat.succ.inj hcount)
      exact Or.inr ⟨root, by rw [hfragments, hnil]⟩

end Configuration

/-- What an engine keeps up, under every table. At every moment, also behind
steps that have failed, the bottom of the stack is what it was at the start,
and there are at least as many fragments as entries of the stack that carry
one and reduced symbols in the queue that have left one; so neither an empty
stack nor missing fragments are ever reported. As long as no step has failed
there are exactly as many; and where no rule has the end of the input on its
left, a parse then ends with a single node or with none. -/
theorem engine_upkeep (t : ParseTable σ) (tokens : List Token) :
    (∀ c, Continues t (start t tokens) c →
      (∃ above, c.stack = above ++ [t.bottom])
      ∧ (c.stack.filter StackEntry.carries).length
          + (c.queue.filter Queued.hasLeft).length
        ≤ c.fragments.length
      ∧ (c.step t).result ≠ .error (.table .emptyStack)
      ∧ ∀ rule required available, (c.step t).result
          ≠ .error (.table (.fragmentsMissing rule required available)))
    ∧ ∀ c, Reaches t (start t tokens) c →
      c.fragments.length
        = (c.stack.filter StackEntry.carries).length
          + (c.queue.filter Queued.hasLeft).length
      ∧ ((∀ p, t.Produces p → p.left ≠ endMarker) → AtEnd t c →
          c.fragments = [] ∨ ∃ root, c.fragments = [.node root]) := by
  constructor
  · intro c hc
    have hprovided := hc.provided
    exact ⟨hprovided.bottom, hprovided.enough, hprovided.step_ne_emptyStack,
      hprovided.step_ne_fragmentsMissing⟩
  · intro c hc
    have hrooted := hc.preserves Move.rooted (rooted_start t tokens)
    exact ⟨hc.balanced.fragments, fragments_of_atEnd hc.balanced hrooted⟩

/-- A table by which identifiers are complete and numbers are reduced to a
symbol that has no place. -/
def strayTable : CellTable where
  startSymbol := "<S>"
  initial := 0
  rules := [⟨"<S>", ["id"]⟩, ⟨"<T>", ["num"]⟩]
  cells :=
    [⟨0, "id", .shift 1⟩, ⟨1, "#", .reduce 0 (some "Ident")⟩,
      ⟨0, "num", .shift 2⟩, ⟨2, "#", .reduce 1 (some "Num")⟩]

/-- A number leaves a node behind when its symbol is lost; an identifier is
parsed to its node. -/
theorem engine_upkeep_stray :
    (∃ c, Continues strayTable.parseTable
        (start strayTable.parseTable [⟨.integer, "1", .first⟩]) c
      ∧ (∃ above, c.stack = above ++ [strayTable.parseTable.bottom])
      ∧ (c.stack.filter StackEntry.carries).length
        + (c.queue.filter Queued.hasLeft).length = 0
      ∧ c.fragments.length = 1)
    ∧ (∀ p, strayTable.parseTable.Produces p → p.left ≠ endMarker)
    ∧ ∃ c, Reaches strayTable.parseTable
        (start strayTable.parseTable [⟨.identifier, "x", .first⟩]) c
      ∧ AtEnd strayTable.parseTable c
      ∧ (c.fragments = [] ∨ ∃ root, c.fragments = [.node root]) := by
  have hend : ∀ p, strayTable.parseTable.Produces p → p.left ≠ endMarker := by
    rintro p ⟨index, hp⟩
    have hmem : p ∈ strayTable.rules := List.mem_of_getElem? hp
    simp only [strayTable, List.mem_cons, List.not_mem_nil, or_false] at hmem
    rcases hmem with rfl | rfl <;> decide
  refine ⟨?_, hend, ?_⟩
  · have hsteps : Continues strayTable.parseTable
        (start strayTable.parseTable [⟨.integer, "1", .first⟩]) _ :=
      .tail (.tail (.tail .refl rfl) rfl) rfl
    exact ⟨_, hsteps, ((engine_upkeep _ _).1 _ hsteps).1, rfl, rfl⟩
  · have hstart := Reaches.refl (t := strayTable.parseTable)
      (start strayTable.parseTable [⟨.identifier, "x", .first⟩])
    have hsteps :=
      (hstart.step (s := .shifted "id") rfl).step (s := .completed) rfl
    refine ⟨_, hsteps, ?atEnd, ((engine_upkeep _ _).2 _ hsteps).2 hend ?atEnd⟩
    exact ⟨rfl, ⟨_, rfl, rfl, rfl⟩, _, _, rfl, rfl, rfl⟩

end ShiftReduce
