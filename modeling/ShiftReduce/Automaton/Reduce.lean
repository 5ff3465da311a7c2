/-
Reductions, and the conflicts between actions.

A state that holds the last item of a rule may reduce by the rule on every
terminal that can follow its left-hand side. A cell has room for one
action: a shift is never displaced, and of several reductions the first
that is entered stays, which is the one with the least item since the items
of a state are in ascending order. What is turned away is reported as a
conflict, once for every state and symbol.
-/
import ShiftReduce.Analysis.Follow
import ShiftReduce.Automaton.Rows

namespace ShiftReduce

/-- The action that a cell holds on to. -/
inductive Kept where
  | shift (target : StateKey)
  | reduce (rule : Nat)
deriving DecidableEq

/-- A reduction that found its cell taken. -/
structure Conflict where
  state : StateKey
  symbol : Symbol
  /-- The action in the cell. -/
  kept : Kept
  /-- The rule by which the state does not reduce on the symbol. -/
  rejected : Nat
deriving DecidableEq

namespace Conflict

/-- The code under which a conflict is listed. -/
def code (conflict : Conflict) : String :=
  match conflict.kept with
  | .shift _ => "B004"
  | .reduce _ => "B005"

/-- The two kinds of action between which a conflict is. -/
def kind (conflict : Conflict) : String :=
  match conflict.kept with
  | .shift _ => "shift/reduce"
  | .reduce _ => "reduce/reduce"

/-- The text of the action in the cell. -/
def keptText (startSymbol : Symbol) (conflict : Conflict) : String :=
  match conflict.kept with
  | .shift target => target.toText startSymbol
  | .reduce rule => "R" ++ toString rule

/-- The text of a conflict. -/
def message (startSymbol : Symbol) (conflict : Conflict) : String :=
  conflict.kind ++ " conflict in state [" ++ conflict.state.toText startSymbol
    ++ "] on `" ++ conflict.symbol ++ "': kept "
    ++ conflict.keptText startSymbol
    ++ ", dropped R" ++ toString conflict.rejected

end Conflict

/-- The rules by which a state may reduce, each with the symbols on which
it may, in the order in which they are entered. -/
def StateKey.reductions (g : Grammar) (follow : FollowSets)
    (terminals : OrderedSet Symbol) (key : StateKey) : List (Nat × Symbol) :=
  key.items.flatMap fun item =>
    match g.rule? item.rule with
    | none => []
    | some rule =>
      if item.position ≠ rule.right.length then []
      else match follow.get? rule.left with
        | none => []
        | some set =>
            (set.names terminals).map fun symbol => (item.rule, symbol)

/-- A row into which reductions are being entered, and the conflicts so
far in reverse. -/
structure Filling where
  row : Row
  conflicts : List Conflict

namespace Filling

/-- Report a conflict, unless one has been reported on the same symbol. -/
def report (filling : Filling) (conflict : Conflict) : Filling :=
  if filling.conflicts.any fun other => other.symbol == conflict.symbol
    then filling
  else { filling with conflicts := conflict :: filling.conflicts }

/-- Enter a reduction of a state. -/
def enter (key : StateKey) (filling : Filling) (reduction : Nat × Symbol) :
    Filling :=
  let (rule, symbol) := reduction
  let cell := (filling.row.lookup symbol).getD Cell.empty
  match cell.shifts, cell.reduce with
  | target :: _, _ => filling.report ⟨key, symbol, .shift target, rule⟩
  | [], none =>
    { filling with
      row := filling.row.insert symbol { cell with reduce := some rule } }
  | [], some existing =>
    if existing = rule then filling
    else filling.report ⟨key, symbol, .reduce existing, rule⟩

/-- The row of a state with its reductions, and the conflicts between
them. -/
def ofState (g : Grammar) (follow : FollowSets) (terminals : OrderedSet Symbol)
    (rows : Rows) (key : StateKey) : Filling :=
  let filling :=
    (key.reductions g follow terminals).foldl (enter key) ⟨rows.row key, []⟩
  { filling with conflicts := filling.conflicts.reverse }

end Filling

end ShiftReduce
