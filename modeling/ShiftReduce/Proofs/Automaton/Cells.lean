/-
What the builder's writes do to a cell.

Every write to the rows of an automaton is a look-up that changes at one
place, so all of them are described by the cell that is read afterwards:
adding a shift, uniting rows, redirecting a cell. The order of the targets
in a cell is the order in which states are numbered later, but which states
and moves there are depends only on which targets a cell has. That is what
is said here, together with the fact that none of these writes enters a
reduction.
-/
import ShiftReduce.Automaton.Merge
import ShiftReduce.Proofs.Collections.Lookup

namespace ShiftReduce

-- =============================================================== cells

namespace Cell

@[simp] theorem shifts_empty : empty.shifts = [] := rfl

@[simp] theorem mem_shifts_addShift {cell : Cell} {target other : StateKey} :
    other ∈ (cell.addShift target).shifts
      ↔ other ∈ cell.shifts ∨ other = target := by
  unfold addShift
  split
  · next h => exact ⟨Or.inl, fun h' => h'.elim id fun e => e ▸ h⟩
  · simp

@[simp] theorem reduce_addShift (cell : Cell) (target : StateKey) :
    (cell.addShift target).reduce = cell.reduce := by
  unfold addShift
  split <;> rfl

theorem mem_shifts_foldl_addShift {cell : Cell} {targets : List StateKey}
    {other : StateKey} :
    other ∈ (targets.foldl addShift cell).shifts
      ↔ other ∈ cell.shifts ∨ other ∈ targets := by
  induction targets generalizing cell with
  | nil => simp
  | cons target targets ih =>
      rw [List.foldl_cons, ih, mem_shifts_addShift, List.mem_cons, or_assoc]

theorem reduce_foldl_addShift (cell : Cell) (targets : List StateKey) :
    (targets.foldl addShift cell).reduce = cell.reduce := by
  induction targets generalizing cell with
  | nil => rfl
  | cons target targets ih => rw [List.foldl_cons, ih, reduce_addShift]

end Cell

-- ================================================================ rows

namespace Row

/-- The cell of a symbol, empty if the row has none. -/
def cell (row : Row) (symbol : Symbol) : Cell :=
  (row.lookup symbol).getD Cell.empty

theorem cell_empty (symbol : Symbol) :
    cell OrderedMap.empty symbol = Cell.empty :=
  rfl

theorem cell_update (row : Row) (symbol other : Symbol)
    (f : Option Cell → Cell) :
    cell (row.update symbol f) other
      = if other = symbol then f (row.lookup symbol) else row.cell other := by
  unfold cell
  rw [OrderedMap.lookup_update]
  split <;> rfl

theorem cell_addShift (row : Row) (symbol other : Symbol) (target : StateKey) :
    (row.addShift symbol target).cell other
      = if other = symbol then (row.cell symbol).addShift target
        else row.cell other :=
  cell_update row symbol other _

/-- The targets of a cell are added to the cell of its symbol. -/
theorem cell_addCell (row : Row) (symbol other : Symbol) (added : Cell) :
    (row.addCell symbol added).cell other
      = if other = symbol
        then added.shifts.foldl Cell.addShift (row.cell symbol)
        else row.cell other :=
  cell_update row symbol other _

/-- A target of a cell is a target of an entry. -/
theorem mem_shifts_cell_iff {row : Row} {symbol : Symbol} {target : StateKey} :
    target ∈ (row.cell symbol).shifts
      ↔ ∃ c, (symbol, c) ∈ row.entries ∧ target ∈ c.shifts := by
  unfold cell
  constructor
  · intro h
    cases hlookup : row.lookup symbol with
    | none => rw [hlookup] at h; cases h
    | some c =>
        rw [hlookup] at h
        exact ⟨c, row.lookup_eq_some_iff.mp hlookup, h⟩
  · intro h
    obtain ⟨c, hentry, h⟩ := h
    rw [row.lookup_eq_some_iff.mpr hentry]
    exact h

/-- Adding the cells of another row adds exactly its targets. -/
theorem mem_shifts_foldl_addCell {row : Row} {es : List (Symbol × Cell)}
    {symbol : Symbol} {target : StateKey} :
    target ∈ ((es.foldl (fun row c => Row.addCell row c.1 c.2) row).cell
      symbol).shifts
      ↔ target ∈ (row.cell symbol).shifts
        ∨ ∃ c, (symbol, c) ∈ es ∧ target ∈ c.shifts := by
  induction es generalizing row with
  | nil => simp
  | cons e es ih =>
      obtain ⟨s, c⟩ := e
      rw [List.foldl_cons, ih, cell_addCell]
      by_cases h : symbol = s
      · subst h
        rw [if_pos rfl, Cell.mem_shifts_foldl_addShift]
        simp [or_assoc, or_and_right, exists_or]
      · simp [h]

theorem reduce_foldl_addCell {row : Row} {es : List (Symbol × Cell)}
    {symbol : Symbol} :
    ((es.foldl (fun row c => Row.addCell row c.1 c.2) row).cell symbol).reduce
      = (row.cell symbol).reduce := by
  induction es generalizing row with
  | nil => rfl
  | cons e es ih =>
      rw [List.foldl_cons, ih, cell_addCell]
      split
      · next h => rw [h, Cell.reduce_foldl_addShift]
      · rfl

end Row

namespace Rows

theorem cell_eq (rows : Rows) (key : StateKey) (symbol : Symbol) :
    rows.cell key symbol = (rows.row key).cell symbol := rfl

theorem row_update (rows : Rows) (key other : StateKey)
    (f : Option Row → Row) :
    row (rows.update key f) other
      = if other = key then f (rows.lookup key) else rows.row other := by
  unfold row
  rw [OrderedMap.lookup_update]
  split <;> rfl

theorem row_insert (rows : Rows) (key other : StateKey) (new : Row) :
    row (rows.insert key new) other = if other = key then new
      else rows.row other :=
  row_update rows key other _

/-- A cell that is redirected has one target, and the others stay. -/
theorem cell_redirect (rows : Rows) (key other : StateKey) (symbol on : Symbol)
    (target : StateKey) :
    (rows.redirect key symbol target).cell other on
      = if other = key ∧ on = symbol
        then { rows.cell key symbol with shifts := [target] }
        else rows.cell other on := by
  rw [cell_eq, redirect, row_update]
  by_cases hkey : other = key
  · subst hkey
    rw [if_pos rfl, Row.cell_update]
    by_cases hon : on = symbol
    · subst hon
      rw [if_pos rfl, if_pos ⟨rfl, rfl⟩]
      rfl
    · rw [if_neg hon, if_neg fun h => hon h.2]
      rfl
  · rw [if_neg hkey, if_neg fun h => hkey h.1]
    rfl

theorem mem_keys_redirect {rows : Rows} {key other : StateKey}
    {symbol : Symbol} {target : StateKey} :
    other ∈ (rows.redirect key symbol target).keys
      ↔ other ∈ rows.keys ∨ other = key :=
  OrderedMap.mem_keys_update rows key other _

/-- The union of some rows has exactly their targets. -/
theorem mem_shifts_unionRow {rows : Rows} {keys : List StateKey}
    {symbol : Symbol} {target : StateKey} :
    target ∈ ((rows.unionRow keys).cell symbol).shifts
      ↔ ∃ key ∈ keys, target ∈ (rows.cell key symbol).shifts := by
  suffices general : ∀ (keys : List StateKey) (row : Row),
      target ∈ ((keys.foldl (fun row key =>
          (rows.row key).entries.foldl
            (fun row c => row.addCell c.1 c.2) row) row).cell
            symbol).shifts
        ↔ target ∈ (row.cell symbol).shifts
          ∨ ∃ key ∈ keys, target ∈ (rows.cell key symbol).shifts by
    have h := general keys OrderedMap.empty
    rw [Row.cell_empty, Cell.shifts_empty] at h
    exact h.trans ⟨fun h => h.elim (fun h => nomatch h) id, Or.inr⟩
  intro keys
  induction keys with
  | nil => simp
  | cons key keys ih =>
      intro row
      rw [List.foldl_cons, ih, Row.mem_shifts_foldl_addCell,
        ← Row.mem_shifts_cell_iff, or_assoc]
      simp only [List.mem_cons, exists_eq_or_imp, cell_eq]

theorem reduce_unionRow (rows : Rows) (keys : List StateKey)
    (symbol : Symbol) : ((rows.unionRow keys).cell symbol).reduce = none := by
  suffices general : ∀ (keys : List StateKey) (row : Row),
      ((keys.foldl (fun row key =>
          (rows.row key).entries.foldl
            (fun row c => row.addCell c.1 c.2) row) row).cell
            symbol).reduce = (row.cell symbol).reduce
              from general keys OrderedMap.empty
  intro keys
  induction keys with
  | nil => exact fun row => rfl
  | cons key keys ih =>
      intro row
      rw [List.foldl_cons, ih, Row.reduce_foldl_addCell]

/-- A cell is ambiguous exactly if it has several targets. -/
theorem mem_ambiguous_iff {rows : Rows} {key : StateKey} {symbol : Symbol} :
    (key, symbol) ∈ rows.ambiguous
      ↔ 1 < (rows.cell key symbol).shifts.length := by
  unfold ambiguous
  simp only [List.mem_flatMap, List.mem_map, List.mem_filter,
    decide_eq_true_eq]
  constructor
  · intro h
    obtain ⟨⟨k, r⟩, hrow, ⟨s, c⟩, ⟨hcell, hlen⟩, heq⟩ := h
    cases heq
    rw [cell_eq, row, rows.lookup_eq_some_iff.mpr hrow, Option.getD_some,
      Row.cell, OrderedMap.lookup_eq_some_iff _ |>.mpr hcell, Option.getD_some]
    exact hlen
  · intro h
    rw [cell_eq, row] at h
    cases hrow : rows.lookup key with
    | none => rw [hrow, Option.getD_none, Row.cell_empty] at h; cases h
    | some r =>
        rw [hrow, Option.getD_some, Row.cell] at h
        cases hcell : r.lookup symbol with
        | none => rw [hcell] at h; cases h
        | some c =>
            rw [hcell] at h
            exact ⟨(key, r), rows.lookup_eq_some_iff.mp hrow, (symbol, c),
              ⟨r.lookup_eq_some_iff.mp hcell, h⟩, rfl⟩

/-- A state with a target in some cell is a state that has been entered. -/
theorem mem_keys_of_mem_shifts {rows : Rows} {key target : StateKey}
    {symbol : Symbol} (h : target ∈ (rows.cell key symbol).shifts) :
    key ∈ rows.keys := by
  rw [cell_eq, row] at h
  cases hrow : rows.lookup key with
  | none => rw [hrow, Option.getD_none, Row.cell_empty] at h; cases h
  | some r => exact rows.mem_keys_iff.mpr ⟨r, hrow⟩

theorem mem_keys_of_shifts_ne_nil {rows : Rows} {key : StateKey}
    {symbol : Symbol} (h : (rows.cell key symbol).shifts ≠ []) :
    key ∈ rows.keys := by
  obtain ⟨target, ht⟩ := List.exists_mem_of_ne_nil _ h
  exact mem_keys_of_mem_shifts ht

/-- The targets of a state are those of its cells. -/
theorem mem_targets_iff {rows : Rows} {key target : StateKey} :
    target ∈ rows.targets key
      ↔ ∃ symbol, target ∈ (rows.cell key symbol).shifts := by
  unfold targets
  rw [List.mem_flatMap]
  constructor
  · intro h
    obtain ⟨c, hc, htarget⟩ := h
    obtain ⟨symbol, hlookup⟩ := (rows.row key).mem_values_iff.mp hc
    refine ⟨symbol, ?_⟩
    rw [cell_eq, Row.cell, hlookup]
    exact htarget
  · intro h
    obtain ⟨symbol, htarget⟩ := h
    obtain ⟨c, hentry, hc⟩ := Row.mem_shifts_cell_iff.mp htarget
    refine ⟨c, (rows.row key).mem_values_iff.mpr ⟨symbol, ?_⟩, hc⟩
    exact (rows.row key).lookup_eq_some_iff.mpr hentry

end Rows

end ShiftReduce
