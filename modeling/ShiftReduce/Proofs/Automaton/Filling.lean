/-
Entering the reductions of a state.

Reductions are entered one after the other into a row whose shifts are
fixed, and an entry is read off the cell of its symbol alone: the cell
takes the rule if it holds no action, keeps what it has otherwise, and what
it turns away becomes a conflict unless it is the rule that it has. So the
shifts of a row survive, a rule in a cell stays and has been entered, and a
row without conflicts has taken every reduction.
-/
import ShiftReduce.Automaton.Reduce
import ShiftReduce.Proofs.Automaton.Cells

namespace ShiftReduce

namespace Filling

variable {key : StateKey} {filling : Filling}

-- =========================================================== one entry

@[simp] theorem row_report (filling : Filling) (conflict : Conflict) :
    (filling.report conflict).row = filling.row := by
  unfold report
  split <;> rfl

theorem conflicts_report_ne_nil (filling : Filling) (conflict : Conflict) :
    (filling.report conflict).conflicts ≠ [] := by
  unfold report
  split
  · next h =>
      obtain ⟨other, hother, -⟩ := List.any_eq_true.mp h
      exact List.ne_nil_of_mem hother
  · exact List.cons_ne_nil _ _

/-- An entry changes the cell of its symbol, and only if no action is in
it. -/
theorem cell_enter (reduction : Nat × Symbol) (symbol : Symbol) :
    Row.cell (filling.enter key reduction).row symbol
      = if symbol = reduction.2 ∧ (Row.cell filling.row symbol).shifts = []
          ∧ (Row.cell filling.row symbol).reduce = none
        then { Row.cell filling.row symbol with reduce := some reduction.1 }
        else Row.cell filling.row symbol := by
  obtain ⟨rule, on⟩ := reduction
  unfold enter
  dsimp only
  split
  · next target rest hshifts =>
      rw [row_report, if_neg]
      intro h
      obtain ⟨rfl, hnone, -⟩ := h
      exact absurd (hshifts.symm.trans hnone) (List.cons_ne_nil _ _)
  · next hshifts hreduce =>
      rw [OrderedMap.insert, Row.cell_update]
      by_cases h : symbol = on
      · subst h
        rw [if_pos rfl, if_pos ⟨rfl, hshifts, hreduce⟩]
        rfl
      · rw [if_neg h, if_neg fun h' => h h'.1]
  · next existing hshifts hreduce =>
      have hfull : ¬ (symbol = on ∧ (Row.cell filling.row symbol).shifts = []
          ∧ (Row.cell filling.row symbol).reduce = none) := by
        intro h
        obtain ⟨rfl, -, hnone⟩ := h
        cases hreduce.symm.trans hnone
      rw [if_neg hfull]
      split
      · rfl
      · rw [row_report]

/-- An entry that leaves no conflicts met none, and has put its rule into
its cell. -/
theorem of_conflicts_enter_nil {reduction : Nat × Symbol}
    (h : (filling.enter key reduction).conflicts = []) :
    filling.conflicts = [] ∧ (Row.cell filling.row reduction.2).shifts = []
      ∧ (Row.cell (filling.enter key reduction).row reduction.2).reduce
          = some reduction.1 := by
  rw [cell_enter]
  obtain ⟨rule, on⟩ := reduction
  unfold enter at h
  dsimp only at h ⊢
  split at h
  · exact absurd h (conflicts_report_ne_nil _ _)
  · next hshifts hreduce =>
      exact ⟨h, hshifts, by rw [if_pos ⟨rfl, hshifts, hreduce⟩]⟩
  · next existing hshifts hreduce =>
      split at h
      · next heq =>
          refine ⟨h, hshifts, ?_⟩
          split
          · rfl
          · rw [← heq]
            exact hreduce
      · exact absurd h (conflicts_report_ne_nil _ _)

-- ======================================================== many entries

variable {reductions : List (Nat × Symbol)}

theorem shifts_foldl_enter (symbol : Symbol) :
    (Row.cell (reductions.foldl (enter key) filling).row symbol).shifts
      = (Row.cell filling.row symbol).shifts := by
  induction reductions generalizing filling with
  | nil => rfl
  | cons reduction reductions ih =>
      rw [List.foldl_cons, ih, cell_enter]
      split <;> rfl

theorem reduce_foldl_enter_of_some {symbol : Symbol} {rule : Nat}
    (h : (Row.cell filling.row symbol).reduce = some rule) :
    (Row.cell (reductions.foldl (enter key) filling).row symbol).reduce
      = some rule := by
  induction reductions generalizing filling with
  | nil => exact h
  | cons reduction reductions ih =>
      refine ih ?_
      rw [cell_enter, if_neg]
      · exact h
      · intro h
        obtain ⟨-, -, hnone⟩ := h
        cases h.symm.trans hnone

/-- A rule that is in a cell in the end was there at first or has been
entered. -/
theorem mem_of_reduce_foldl_enter {symbol : Symbol} {rule : Nat}
    (h : (Row.cell (reductions.foldl (enter key) filling).row symbol).reduce
      = some rule) :
    (Row.cell filling.row symbol).reduce = some rule
      ∨ (rule, symbol) ∈ reductions := by
  induction reductions generalizing filling with
  | nil => exact Or.inl h
  | cons reduction reductions ih =>
      rcases ih h with hcell | hmem
      · rw [cell_enter] at hcell
        split at hcell
        · next hentered =>
            cases hcell
            obtain ⟨rfl, -⟩ := hentered
            exact Or.inr List.mem_cons_self
        · exact Or.inl hcell
      · exact Or.inr (List.mem_cons_of_mem _ hmem)

/-- If no conflict is left, every reduction is in its cell, and alone
there. -/
theorem of_conflicts_foldl_enter_nil
    (h : (reductions.foldl (enter key) filling).conflicts = []) :
    filling.conflicts = [] ∧ ∀ reduction ∈ reductions,
      (Row.cell filling.row reduction.2).shifts = []
        ∧ (Row.cell (reductions.foldl (enter key) filling).row
            reduction.2).reduce
          = some reduction.1 := by
  induction reductions generalizing filling with
  | nil => exact ⟨h, by simp⟩
  | cons first reductions ih =>
      obtain ⟨hfirst, hrest⟩ := ih h
      obtain ⟨hnone, hshifts, hreduce⟩ := of_conflicts_enter_nil hfirst
      refine ⟨hnone, fun reduction hmem => ?_⟩
      rcases List.mem_cons.mp hmem with rfl | hmem
      · refine ⟨hshifts, ?_⟩
        rw [List.foldl_cons]
        exact reduce_foldl_enter_of_some hreduce
      · obtain ⟨hclear, hentered⟩ := hrest reduction hmem
        refine ⟨?_, hentered⟩
        rw [← hclear, cell_enter]
        split <;> rfl

end Filling

-- ========================================================= the states

namespace StateKey

/-- A state reduces by the rules of which it holds the last item, on the
terminals that may follow their left-hand sides. -/
theorem mem_reductions_iff {g : Grammar} {follow : FollowSets}
    {terminals : OrderedSet Symbol} {key : StateKey} {index : Nat}
    {symbol : Symbol} :
    (index, symbol) ∈ key.reductions g follow terminals
      ↔ ∃ i ∈ key.items, i.rule = index ∧ ∃ rule, g.rule? index = some rule
          ∧ i.position = rule.right.length
          ∧ ∃ set, follow.get? rule.left = some set
          ∧ symbol ∈ set.names terminals := by
  unfold reductions
  rw [List.mem_flatMap]
  constructor
  · intro h
    obtain ⟨i, hi, hmem⟩ := h
    refine ⟨i, hi, ?_⟩
    split at hmem
    · cases hmem
    · next rule hrule =>
        split at hmem
        · cases hmem
        · next hlast =>
            split at hmem
            · cases hmem
            · next set hset =>
                obtain ⟨other, hother, heq⟩ := List.mem_map.mp hmem
                cases heq
                exact ⟨rfl, rule, hrule, Decidable.not_not.mp hlast,
                  set, hset, hother⟩
  · intro h
    obtain ⟨i, hi, rfl, rule, hrule, hlast, set, hset, hsymbol⟩ := h
    refine ⟨i, hi, ?_⟩
    simp only [hrule, hlast, hset, ne_eq, not_true_eq_false, if_false]
    exact List.mem_map_of_mem hsymbol

end StateKey

namespace Filling

variable {g : Grammar} {follow : FollowSets} {terminals : OrderedSet Symbol}
    {rows : Rows}
  {key : StateKey}

/-- A finished row has the shifts of the state. -/
theorem shifts_ofState (symbol : Symbol) :
    (Row.cell (ofState g follow terminals rows key).row symbol).shifts
      = (rows.cell key symbol).shifts :=
  shifts_foldl_enter symbol

/-- What a finished row reduces by, the state may reduce by. -/
theorem mem_reductions_of_reduce {symbol : Symbol} {rule : Nat}
    (hrows : (rows.cell key symbol).reduce = none)
    (h : (Row.cell (ofState g follow terminals rows key).row symbol).reduce
      = some rule) :
    (rule, symbol) ∈ key.reductions g follow terminals := by
  rcases mem_of_reduce_foldl_enter h with hcell | hmem
  · cases hrows.symm.trans hcell
  · exact hmem

/-- Without conflicts, what a state may reduce by is all that it does on
the symbol. -/
theorem cell_ofState_of_conflicts_nil
    (h : (ofState g follow terminals rows key).conflicts = [])
    {symbol : Symbol} {rule : Nat}
    (hmem : (rule, symbol) ∈ key.reductions g follow terminals) :
    Row.cell (ofState g follow terminals rows key).row symbol
      = ⟨[], some rule⟩ := by
  obtain ⟨-, hall⟩ :=
    of_conflicts_foldl_enter_nil (List.reverse_eq_nil_iff.mp h)
  obtain ⟨hnone, hentered⟩ := hall (rule, symbol) hmem
  have hshifts : (Row.cell (ofState g follow terminals rows key).row
      symbol).shifts = [] :=
    (shifts_ofState symbol).trans hnone
  have hreduce :
      (Row.cell (ofState g follow terminals rows key).row symbol).reduce
      = some rule := hentered
  calc Row.cell (ofState g follow terminals rows key).row symbol
      = ⟨(Row.cell (ofState g follow terminals rows key).row symbol).shifts,
          (Row.cell (ofState g follow terminals rows key).row
            symbol).reduce⟩ := rfl
    _ = ⟨[], some rule⟩ := by rw [hshifts, hreduce]

end Filling

end ShiftReduce
