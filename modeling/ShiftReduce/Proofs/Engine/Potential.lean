/-
A limit for the number of steps, under every table.

Every symbol above the bottom of the stack, and every reduced symbol that
waits, is the root of a tree that has been built. A token that is shifted is
a new root; a reduction of several symbols makes one root out of several; and
a reduction of a single symbol renames a root. The weight counts the roots
and, twice, the tokens that may become one, so it falls in the first two
cases. In the third case the root comes closer to a symbol that no rule
renames, if the rules with a single symbol do not lead in a circle: there is
one symbol less that it can still be renamed to. As a root may be renamed to
at most as many symbols as there are left-hand sides of such rules, what all
roots together may still rise is worth less than one unit of weight for each
root.

Nothing is asked of the cells of the table, so a root may also be renamed or
taken up while it waits in the queue. The count is kept for each root by
itself and does not depend on where it is, apart from one unit for the shift
that is still to come.
-/
import Mathlib.Tactic.Ring
import ShiftReduce.Proofs.Collections.Rank
import ShiftReduce.Proofs.Derivation
import ShiftReduce.Proofs.Engine.Stopping

namespace ShiftReduce

open ShiftReduce.Configuration

variable {σ : Type} {t : ParseTable σ} {names : Finset Symbol}

-- =========================================================== renaming

/-- The second symbol may take the place of the first, by a rule that has
the first as its whole right-hand side. -/
def ParseTable.Renames (t : ParseTable σ) (a b : Symbol) : Prop :=
  t.Produces ⟨b, [a]⟩

/-- How far a root may rise by renaming: twice the number of symbols that
are still to come. -/
noncomputable def ParseTable.climb (t : ParseTable σ) (names : Finset Symbol)
    (a : Symbol) : Nat :=
  2 * rank names t.Renames a

theorem climb_le (a : Symbol) : t.climb names a ≤ 2 * names.card := by
  have hrank := rank_le_card (s := names) (R := t.Renames) a
  unfold ParseTable.climb
  omega

/-- A root that is renamed has less far to rise. -/
theorem climb_lt {a b : Symbol} (hrename : t.Renames a b) (hb : b ∈ names)
    (hacyclic : ¬ Relation.TransGen t.Renames b b) :
    t.climb names b + 1 < t.climb names a := by
  have hrank := rank_lt hrename hb hacyclic
  unfold ParseTable.climb
  omega

namespace Configuration

-- ========================================================= all the roots

/-- How far the roots may rise: those on the stack, and those that wait,
which have also to be shifted. -/
noncomputable def rise (t : ParseTable σ) (names : Finset Symbol)
    (c : Configuration σ) : Nat :=
  (c.stack.dropLast.map fun e => t.climb names e.symbol).sum
    + ((c.queue.filter Queued.reduced).map fun q =>
      t.climb names q.symbol + 1).sum

/-- The weight, and within the same weight how far the roots may rise. -/
noncomputable def potential (t : ParseTable σ) (names : Finset Symbol)
    (c : Configuration σ) : Nat :=
  c.weight * (2 * (names.card + 1)) + rise t names c

theorem potential_lt_of_weight_lt {c c' : Configuration σ}
    (hweight : c'.weight < c.weight)
    (hrise : rise t names c' < rise t names c + 2 * (names.card + 1)) :
    potential t names c' < potential t names c :=
  scaled_add_lt hweight hrise

theorem potential_lt_of_rise_lt {c c' : Configuration σ}
    (hweight : c'.weight = c.weight)
      (hrise : rise t names c' < rise t names c) :
    potential t names c' < potential t names c := by
  unfold potential
  rw [hweight]
  exact Nat.add_lt_add_left hrise _

-- ============================================================= the steps

variable {head lookahead : Queued} {behind : List Queued}
    {completed completed' : Bool}
  {fragments fragments' : List Fragment}

/-- A shift makes a new root, or lets one come to rest. -/
theorem potential_lt_of_shift {target : σ} {carries : Bool}
    {top : StackEntry σ} {below : List (StackEntry σ)} :
    potential t names
        ⟨behind, ⟨head.symbol, target, carries⟩ :: top :: below,
          fragments', completed'⟩
      < potential t names ⟨head :: behind, top :: below,
        fragments, completed⟩ := by
  cases hreduced : head.reduced with
  | false =>
      apply potential_lt_of_weight_lt (weight_lt_of_shift hreduced)
      have hclimb : t.climb names head.symbol ≤ 2 * names.card :=
        climb_le head.symbol
      simp only [rise, List.dropLast_cons_cons, List.map_cons, List.sum_cons,
        List.filter_cons, hreduced, Bool.false_eq_true, if_false]
      omega
  | true =>
      apply potential_lt_of_rise_lt (weight_eq_of_shift hreduced)
      simp only [rise, List.dropLast_cons_cons, List.map_cons, List.sum_cons,
        List.filter_cons, hreduced, if_true]
      omega

/-- A reduction replaces the roots of its right-hand side by one. -/
theorem rise_of_reduce (hreduced : head.reduced = true)
    {popped remaining : List (StackEntry σ)} (bottom : remaining ≠ []) :
    rise t names ⟨head :: lookahead :: behind, remaining,
      fragments', completed'⟩
        + (popped.map fun e => t.climb names e.symbol).sum
      = rise t names ⟨lookahead :: behind, popped ++ remaining,
        fragments, completed⟩
        + (t.climb names head.symbol + 1) := by
  have hstack : (popped ++ remaining).dropLast
      = popped ++ remaining.dropLast :=
    List.dropLast_append_of_ne_nil bottom
  simp only [rise, hstack, List.map_append, List.sum_append]
  rw [List.filter_cons, if_pos hreduced, List.map_cons, List.sum_cons]
  omega

/-- A reduction takes up several roots, or renames one. -/
theorem potential_lt_of_reduce (hreduced : head.reduced = true)
    {popped remaining : List (StackEntry σ)} (bottom : remaining ≠ [])
    (hne : popped ≠ [])
    (hrenames : ∀ e, popped = [e] →
      t.climb names head.symbol + 1 < t.climb names e.symbol) :
    potential t names ⟨head :: lookahead :: behind, remaining,
        fragments', completed'⟩
      < potential t names ⟨lookahead :: behind, popped ++ remaining,
          fragments, completed⟩ := by
  have hrise :
      rise t names ⟨head :: lookahead :: behind, remaining,
          fragments', completed'⟩
        + (popped.map fun e => t.climb names e.symbol).sum
      = rise t names ⟨lookahead :: behind, popped ++ remaining,
        fragments, completed⟩
        + (t.climb names head.symbol + 1) := rise_of_reduce hreduced bottom
  by_cases hsingle : popped.length = 1
  · apply potential_lt_of_rise_lt (weight_eq_of_reduce hreduced bottom hsingle)
    obtain ⟨e, rfl⟩ := List.length_eq_one_iff.mp hsingle
    have hclimb := hrenames e rfl
    rw [List.map_singleton, List.sum_singleton] at hrise
    omega
  · have hpositive := List.length_pos_iff.mpr hne
    apply potential_lt_of_weight_lt
      (weight_lt_of_reduce hreduced bottom (by omega))
    have hclimb : t.climb names head.symbol ≤ 2 * names.card :=
      climb_le head.symbol
    omega

end Configuration

/-- Every move of an engine that goes on lowers the potential. -/
theorem Move.potential_lt {c c' : Configuration σ} {w : Option Warning}
    (hreduce : ∀ state symbol index name p, t.action? state symbol
      = some (.reduce index name) → t.rule? index = some p → p.right ≠ [])
    (hnames : ∀ p, t.Produces p → p.right.length = 1 → p.left ∈ names)
    (hacyclic : ∀ a, ¬ Relation.TransGen t.Renames a a) (h : Move t c c' w)
    (going : c.completed = false) :
    potential t names c' < potential t names c := by
  cases h with
  | rest done => cases going.symm.trans done
  | shift _ queue stack action =>
      obtain ⟨_, _, _, _⟩ := c
      subst queue stack
      exact potential_lt_of_shift
  | reduce going₀ queue stack action rule split bottom symbols
      parts count built =>
      rename_i lookahead behind top below popped remaining _
        _ index name p node
      obtain ⟨_, _, _, _⟩ := c
      subst queue split
      have hright := hreduce _ _ _ _ p action rule
      apply potential_lt_of_reduce rfl bottom
      · rintro rfl
        exact hright symbols.symm
      · rintro e rfl
        have hp : p = ⟨p.left, [e.symbol]⟩ :=
          congrArg (Production.mk p.left) symbols.symm
        have hrename : t.Renames e.symbol p.left := ⟨index, by rw [rule, ← hp]⟩
        refine climb_lt hrename (hnames p ⟨index, rule⟩ ?_) (hacyclic p.left)
        rw [hp]
        rfl

-- ============================================================== the limit

theorem potential_start (tokens : List Token) :
    potential t names (start t tokens)
      = 4 * (tokens.length + 1) * (names.card + 1) := by
  have hinput : ∀ q ∈ (start t tokens).queue, ¬ q.reduced = true := by
    intro q hq
    rw [(reduced_of_mem_start hq).1]
    exact Bool.false_ne_true
  have hrise : rise t names (start t tokens) = 0 := by
    unfold rise
    rw [List.filter_eq_nil_iff.mpr hinput]
    rfl
  unfold potential
  rw [weight_start, hrise]
  ring

/-- If a table never reduces by an empty rule, and its rules with a single
symbol do not lead in a circle, an engine stops under it: within four times
the number of tokens, the end of the input included, times the number of
left-hand sides of rules with a single symbol, plus one. -/
theorem run_within_bound
    (hreduce : ∀ state symbol index name p, t.action? state symbol
      = some (.reduce index name) → t.rule? index = some p → p.right ≠ [])
    (hnames : ∀ p, t.Produces p → p.right.length = 1 → p.left ∈ names)
    (hacyclic : ∀ a,
      ¬ Relation.TransGen (fun left symbol => t.Produces ⟨left, [symbol]⟩) a a)
    (tokens : List Token) :
    ∃ r, (start t tokens).run t
      (4 * (tokens.length + 1) * (names.card + 1)) = some r
      ∧ (r.error ≠ none ∨ r.config.isDone = true) := by
  have hacyclic' : ∀ a, ¬ Relation.TransGen t.Renames a a := fun a hcircle =>
    hacyclic a (Relation.transGen_swap.mp hcircle)
  have hruns := exists_run_of_measure (t := t) (I := fun _ => True)
    (potential t names) ?_ ?_
    trivial (potential_start tokens).le
  · obtain ⟨r, hr⟩ := hruns
    exact ⟨r, hr, stopped_of_run hr⟩
  · intro c s _ hdone hs
    have going : c.completed = false := (Bool.or_eq_false_iff.mp hdone).1
    exact Or.inr ⟨trivial,
      (move_of_step_ok hs).potential_lt hreduce hnames hacyclic' going⟩
  · intro c _ hdone
    have hscaled :=
      Nat.mul_pos (weight_pos hdone) (show 0 < 2 * (names.card + 1) by omega)
    unfold potential
    omega

/-- A table for two names that reduces the first of them only when the second
has been reduced and waits. -/
def lateTable : CellTable where
  startSymbol := "<S>"
  initial := 0
  rules := [⟨"<S>", ["<A>", "<B>"]⟩, ⟨"<A>", ["id"]⟩, ⟨"<B>", ["id"]⟩]
  cells :=
    [⟨0, "id", .shift 1⟩, ⟨1, "id", .shift 2⟩, ⟨2, "#", .reduce 2 none⟩,
     ⟨1, "<B>", .reduce 1 none⟩, ⟨0, "<A>", .shift 3⟩, ⟨3, "<B>", .shift 4⟩,
     ⟨4, "#", .reduce 0 none⟩]

/-- Two rules of the table have a single symbol, so two names take 36 steps
at most. -/
theorem run_within_bound_late :
    (∀ state symbol index name p,
      lateTable.parseTable.action? state symbol = some (.reduce index name) →
      lateTable.parseTable.rule? index = some p → p.right ≠ [])
    ∧ (∀ p, lateTable.parseTable.Produces p → p.right.length = 1 →
        p.left ∈ ({"<A>", "<B>"} : Finset Symbol))
    ∧ (∀ a, ¬ Relation.TransGen
        (fun left symbol => lateTable.parseTable.Produces ⟨left,
          [symbol]⟩) a a)
    ∧ ∃ r, (start lateTable.parseTable
        [⟨.identifier, "x", .first⟩, ⟨.identifier, "y", .first⟩]).run
          lateTable.parseTable 36
          = some r ∧ (r.error ≠ none ∨ r.config.isDone = true) := by
  have hrules : ∀ p, lateTable.parseTable.Produces p →
      p = ⟨"<S>", ["<A>", "<B>"]⟩ ∨ p = ⟨"<A>", ["id"]⟩
          ∨ p = ⟨"<B>", ["id"]⟩ := by
    rintro p ⟨index, hp⟩
    have hmem : p ∈ lateTable.rules := List.mem_of_getElem? hp
    simpa [lateTable] using hmem
  have hreduce : ∀ state symbol index name p,
      lateTable.parseTable.action? state symbol = some (.reduce index name) →
      lateTable.parseTable.rule? index = some p → p.right ≠ [] := by
    intro _ _ index _ p _ hp
    rcases hrules p ⟨index, hp⟩ with rfl | rfl | rfl <;>
      exact List.cons_ne_nil _ _
  have hnames : ∀ p, lateTable.parseTable.Produces p → p.right.length = 1 →
      p.left ∈ ({"<A>", "<B>"} : Finset Symbol) := by
    intro p hp hsingle
    rcases hrules p hp with rfl | rfl | rfl
    · cases hsingle
    · decide
    · decide
  have hacyclic : ∀ a, ¬ Relation.TransGen
      (fun left symbol => lateTable.parseTable.Produces ⟨left, [symbol]⟩)
        a a := by
    intro a hcircle
    -- a circle would have to come back to the name, which is no left-hand side
    obtain ⟨b, hfirst, -⟩ := Relation.TransGen.head'_iff.mp hcircle
    obtain ⟨c, -, hlast⟩ := Relation.TransGen.tail'_iff.mp hcircle
    have hname : a = "id" := by
      rcases hrules _ hlast with h | h | h <;> cases h <;> rfl
    subst hname
    rcases hrules _ hfirst with h | h | h <;> simp at h
  exact ⟨hreduce, hnames, hacyclic, run_within_bound hreduce hnames hacyclic
    [⟨.identifier, "x", .first⟩, ⟨.identifier, "y", .first⟩]⟩

end ShiftReduce
