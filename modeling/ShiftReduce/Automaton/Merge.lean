/-
Merging states until every cell has one target.

A cell with several targets is ambiguous. It is made to point to one new
state, the union of its targets, whose row takes over the shifts of all of
them. The new row may be ambiguous in its turn, so merging proceeds in
rounds: a round deals with the cells that were ambiguous when it began, in
the order of the rows, and leaves the cells of the states that it creates
to the next one. A cell that is merged later in a round sees the cells that
were merged before it. Unions of the same items have the same key, so a
union that exists already is used again, and since there are only finitely
many sets of items the rounds come to an end.
-/
import ShiftReduce.Automaton.Rows

namespace ShiftReduce

namespace Rows

/-- The cells with more than one target, in the order of the rows. -/
def ambiguous (rows : Rows) : List (StateKey × Symbol) :=
  rows.entries.flatMap fun r =>
    (r.2.entries.filter fun c => decide (1 < c.2.shifts.length)).map fun c =>
      (r.1, c.1)

/-- Make a cell point to one state. -/
def redirect (rows : Rows) (key : StateKey) (symbol : Symbol)
    (target : StateKey) : Rows :=
  rows.update key fun row =>
    (row.getD OrderedMap.empty).update symbol fun cell =>
      { cell.getD Cell.empty with shifts := [target] }

/-- The row with the shifts of several states, in their order. -/
def unionRow (rows : Rows) (keys : List StateKey) : Row :=
  keys.foldl
    (fun row key =>
      (rows.row key).entries.foldl (fun row c => row.addCell c.1 c.2) row)
    OrderedMap.empty

/-- Merge the targets of a cell into one state. The cell is redirected
before the row of a new state is made, which matters if the state of the
cell is itself among the targets. -/
def mergeCell (rows : Rows) (place : StateKey × Symbol) : Rows :=
  let targets := (rows.cell place.1 place.2).shifts
  let union := StateKey.union targets
  let redirected := rows.redirect place.1 place.2 union
  if redirected.contains union then redirected
  else redirected.insert union (redirected.unionRow targets)

/-- One round of merging. -/
def mergeRound (rows : Rows) : Rows :=
  rows.ambiguous.foldl mergeCell rows

/-- The rows after each round of merging, at most one round more than the
limit. No round follows one that leaves no ambiguous cell. -/
def mergeRounds : (limit : Nat) → Rows → List Rows
  | limit, rows =>
    if rows.ambiguous.isEmpty then []
    else
      let next := rows.mergeRound
      match limit with
      | 0 => [next]
      | limit + 1 => next :: mergeRounds limit next

/-- The rows after the last of some rounds. -/
def afterRounds (rows : Rows) (rounds : List Rows) : Rows :=
  rounds.getLast?.getD rows

end Rows

end ShiftReduce
