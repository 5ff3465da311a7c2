/-
The states that remain.

Merging leaves states behind into which nothing shifts any more. Those that
can be reached from the start state are found breadth first, and their
order of discovery is the order in which states are numbered. The set that
is being filled is its own queue: a place in it says which of its states
have been dealt with, and new states arrive behind all others. Every state
that is reached has been entered into the rows, so there are no more states
to deal with than rows.
-/
import ShiftReduce.Automaton.Rows

namespace ShiftReduce

namespace Rows

/-- Add the targets of the states from a place in the set on, state by
state, for at most `limit` states. -/
def explore (rows : Rows) :
    (limit place : Nat) → OrderedSet StateKey → OrderedSet StateKey
  | 0, _, states => states
  | limit + 1, place, states =>
    match states.elements[place]? with
    | none => states
    | some key =>
        rows.explore limit (place + 1) (states.insertAll (rows.targets key))

/-- The states that can be reached from the start state, in breadth-first
order. -/
def reachable (rows : Rows) : OrderedSet StateKey :=
  rows.explore rows.size 0 (OrderedSet.ofList [.start])

end Rows

end ShiftReduce
