/-
The automaton while it is being built.

Every state has a row of cells, one for each symbol on which it can move.
While the automaton is being built a cell may have several shift targets;
they are states by key and not by number, because numbers are given only
when it is known which states remain. A cell may also hold a rule to
reduce by.
-/
import ShiftReduce.Collections.OrderedMap
import ShiftReduce.Table.StateKey

namespace ShiftReduce

/-- What a state may do on a symbol. -/
structure Cell where
  /-- The states to shift into, in the order in which they were found. -/
  shifts : List StateKey
  /-- The rule to reduce by. -/
  reduce : Option Nat
deriving DecidableEq

/-- The cell that allows nothing. -/
def Cell.empty : Cell := ⟨[], none⟩

/-- Add a shift target, unless it is there already. -/
def Cell.addShift (cell : Cell) (target : StateKey) : Cell :=
  if target ∈ cell.shifts then cell
  else { cell with shifts := cell.shifts ++ [target] }

/-- The cells of a state. -/
abbrev Row := OrderedMap Symbol Cell

/-- Add a shift target to the cell of a symbol. -/
def Row.addShift (row : Row) (symbol : Symbol) (target : StateKey) : Row :=
  row.update symbol fun cell => (cell.getD Cell.empty).addShift target

/-- Add the shift targets of a cell to the cell of a symbol, which is
created even if there are none to add. -/
def Row.addCell (row : Row) (symbol : Symbol) (cell : Cell) : Row :=
  row.update symbol fun old =>
    cell.shifts.foldl Cell.addShift (old.getD Cell.empty)

/-- The rows of all states that have been entered. -/
abbrev Rows := OrderedMap StateKey Row

namespace Rows

/-- The row of a state, without cells if the state has not been entered. -/
def row (rows : Rows) (key : StateKey) : Row :=
  (rows.lookup key).getD OrderedMap.empty

/-- The cell of a state and a symbol. -/
def cell (rows : Rows) (key : StateKey) (symbol : Symbol) : Cell :=
  ((rows.row key).lookup symbol).getD Cell.empty

/-- All states into which a state shifts, in the order of its cells. -/
def targets (rows : Rows) (key : StateKey) : List StateKey :=
  (rows.row key).values.flatMap Cell.shifts

end Rows

end ShiftReduce
