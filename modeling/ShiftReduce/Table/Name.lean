/-
The texts by which a table refers to its states and actions.

A shift is written as the name of its target, and a reduction as `R` with
the number of the rule, followed by `~` and the name of the semantic
action if the rule has one. Reading looks for a reduction first, so a
state whose name has the form of a reduction is read as that reduction and
cannot be referred to.
-/
import ShiftReduce.Table.Basic

namespace ShiftReduce

open Text Numeral

/-- Why a text or a file does not describe a table. -/
inductive TableError where
  /-- The data are not in the interchange format. -/
  | malformed
  /-- A text is neither a reduction nor the name of any state. -/
  | invalidStateName (name : String)
  /-- A text is the name of a state that the table does not have. -/
  | unknownState (name : String)
  /-- A state is listed a second time. -/
  | duplicateState (name : String)
  /-- The list of states does not begin with the start state. -/
  | missingStart
deriving DecidableEq, Repr

/-- The text of a table error. -/
def TableError.message : TableError → String
  | .malformed => "malformed table data"
  | .invalidStateName name => "invalid state name `" ++ name ++ "'"
  | .unknownState name => "reference to unknown state `" ++ name ++ "'"
  | .duplicateState name => "state `" ++ name ++ "' is defined twice"
  | .missingStart => "the first state must be the start state"

/-- The code under which a table error is listed. -/
def TableError.code (_ : TableError) : String := "B006"

/-- Read a reduction: `R`, a rule number, and perhaps `~` and a name. -/
def Action.reduceOfText? {σ : Type} : List Char → Option (Action σ)
  | 'R' :: rest =>
    match splitFirst? '~' rest with
    | none => (readBelow? Item.ruleLimit rest).map (.reduce · none)
    | some (number, name) =>
      if name.isEmpty then none
      else (readBelow? Item.ruleLimit number).map
        (.reduce · (some (String.ofList name)))
  | _ => none

/-- The text of a reduction. -/
def Action.reduceText (rule : Nat) : Option String → String
  | none => "R" ++ toString rule
  | some name => "R" ++ toString rule ++ "~" ++ name

/-- Read an action of an automaton with the given states. -/
def Action.ofText? (startSymbol : Symbol) (keys : List StateKey)
    (text : String) : Except TableError (Action Nat) :=
  match Action.reduceOfText? text.toList with
  | some action => .ok action
  | none =>
    match StateKey.ofText? startSymbol text with
    | none => .error (.invalidStateName text)
    | some key =>
      match keys.idxOf? key with
      | none => .error (.unknownState text)
      | some state => .ok (.shift state)

namespace Table

/-- The name of a state. A number that is no state of the table is shown
as such. -/
def stateName (t : Table) (state : Nat) : String :=
  match t.key? state with
  | none => "<invalid state " ++ writeTwoDigits state ++ ">"
  | some key => key.toText t.startSymbol

/-- The text of an action. -/
def actionText (t : Table) : Action Nat → String
  | .shift target => t.stateName target
  | .reduce rule action => Action.reduceText rule action

/-- Read an action from its text. -/
def actionOfText? (t : Table) (text : String) :
    Except TableError (Action Nat) :=
  Action.ofText? t.startSymbol t.states.keys text

/-- The line that shows a cell. -/
def cellText (g : Grammar) (symbol : Symbol) : Action Nat → String
  | .shift target =>
      "- " ++ symbol ++ " => shift(" ++ writeTwoDigits target ++ ")\n"
  | .reduce rule _ =>
    match g.rule? rule with
    | some r => "- " ++ symbol ++ " => reduce(" ++ r.toText ++ ")\n"
    | none =>
        "- " ++ symbol ++ " => reduce(<unknown rule "
          ++ toString rule ++ ">)\n"

/-- The lines that show a state. -/
def stateText (t : Table) (g : Grammar) (state : Nat) (key : StateKey)
    (cells : TableRow) : String :=
  "#### State " ++ writeTwoDigits state ++ " ["
    ++ key.toText t.startSymbol ++ "]\n"
    ++ "## actions\n"
    ++ String.join (cells.entries.map fun c => cellText g c.1 c.2)

/-- The text that shows a whole table: its states in order, with a blank
line between them. -/
def toText (t : Table) (g : Grammar) : String :=
  "\n".intercalate
    (t.states.entries.zipIdx.map fun p => t.stateText g p.2 p.1.1 p.1.2)

end Table

end ShiftReduce
