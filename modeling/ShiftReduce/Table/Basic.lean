/-
Action tables.

A table lists the states of an automaton and, for each, the cells that
hold an action. States are numbered by their place in the list, from the
start state, which is zero. Both the states and the cells of a state keep
the order in which they were entered.
-/
import ShiftReduce.Collections.OrderedMap
import ShiftReduce.Grammar
import ShiftReduce.Table.Action
import ShiftReduce.Table.StateKey

namespace ShiftReduce

/-- The cells of one state. -/
abbrev TableRow := OrderedMap Symbol (Action Nat)

/-- The actions of an automaton by state and symbol. -/
structure Table where
  startSymbol : Symbol
  states : OrderedMap StateKey TableRow
deriving DecidableEq

namespace Table

/-- The number of the start state. -/
def initial : Nat := 0

/-- The number of states. -/
def size (t : Table) : Nat := t.states.size

/-- The key of a state. -/
def key? (t : Table) (state : Nat) : Option StateKey :=
  (t.states.entryAt? state).map Prod.fst

/-- The number of the state with a key. -/
def find? (t : Table) (key : StateKey) : Option Nat := t.states.indexOf? key

/-- The cells of a state, none if there is no such state. -/
def row (t : Table) (state : Nat) : List (Symbol × Action Nat) :=
  match t.states.entryAt? state with
  | none => []
  | some (_, cells) => cells.entries

/-- The action in a cell. -/
def action? (t : Table) (state : Nat) (symbol : Symbol) :
    Option (Action Nat) :=
  match t.states.entryAt? state with
  | none => none
  | some (_, cells) => cells.lookup symbol

/-- Write an action into a cell. A table is not changed by a write to a
state that it does not have. -/
def insert (t : Table) (state : Nat) (symbol : Symbol) (action : Action Nat) :
    Table :=
  match t.states.entryAt? state with
  | none => t
  | some (key, cells) =>
    { t with states := t.states.insert key (cells.insert symbol action) }

/-- Whether two tables have the same states with the same cells, in
whatever order. -/
def sameCells (t u : Table) : Bool :=
  t.startSymbol == u.startSymbol
    && t.states.sameEntries (OrderedMap.sameEntries fun a b => a == b) u.states

end Table

end ShiftReduce
