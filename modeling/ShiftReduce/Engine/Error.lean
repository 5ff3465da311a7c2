/-
How parsing fails, and what is reported although it succeeds.

The input may be wrong, the table may not fit the input, or a semantic
action may refuse its children. A rule without a semantic action is
reported when it has other than one node to pass on.
-/
import ShiftReduce.Synthesis.SemanticAction
import ShiftReduce.Text.Split

namespace ShiftReduce

/-- How a table can fail to fit what it is used on. -/
inductive TableFault where
  /-- A reduction is by a rule that does not exist. -/
  | unknownRule (rule : Nat)
  /-- The right-hand side of a rule is not on top of the stack. -/
  | stackMismatch (rule : Nat) (expected found : List Symbol)
  /-- There are fewer fragments than the stack promises. -/
  | fragmentsMissing (rule required available : Nat)
  /-- The stack has lost even its bottom. -/
  | emptyStack
  /-- Parsing came to an end that is no success. -/
  | incomplete (stack input : List Symbol) (fragments : Nat)
deriving DecidableEq, Repr

/-- Symbols in brackets. -/
def bracketed (symbols : List Symbol) : String :=
  "[" ++ Text.spaced symbols ++ "]"

namespace TableFault

/-- The text of a table fault. -/
def message : TableFault → String
  | unknownRule rule =>
      "rule " ++ toString rule ++ " is not defined in the grammar"
  | stackMismatch rule expected found =>
    "rule " ++ toString rule ++ " expects " ++ bracketed expected
      ++ " on top of the stack, found " ++ bracketed found
  | fragmentsMissing rule required available =>
    "rule " ++ toString rule ++ " needs " ++ toString required
      ++ " AST entries but only "
      ++ toString available ++ " are available"
  | emptyStack => "the parser stack is empty"
  | incomplete stack input fragments =>
    "parse ended in an unexpected configuration (stack "
      ++ bracketed stack ++ ", input "
      ++ bracketed input ++ ", " ++ toString fragments ++ " AST entries)"

/-- The code under which a table fault is listed. -/
def code : TableFault → String
  | unknownRule _ => "P003"
  | stackMismatch .. => "P005"
  | fragmentsMissing .. => "P007"
  | emptyStack => "P005"
  | incomplete .. => "P006"

end TableFault

/-- Why parsing failed. -/
inductive ParseError where
  /-- The state has no action on the symbol. -/
  | unexpectedToken (state : String) (symbol : Symbol) (position : Position)
  | table (fault : TableFault)
  | synthesis (error : SynthesisError)

namespace ParseError

/-- The text of a parse error. -/
def message : ParseError → String
  | unexpectedToken state symbol position =>
    "unexpected symbol `" ++ symbol ++ "' at " ++ position.toText
      ++ " (state " ++ state ++ ")"
  | table _ => "the action table is inconsistent with the input"
  | synthesis _ => "failed to synthesize the AST"

/-- The code under which a parse error is listed. -/
def code : ParseError → String
  | unexpectedToken .. => "P008"
  | table fault => fault.code
  | synthesis error => error.code

end ParseError

/-- A rule without a semantic action had other than one node to pass on. -/
structure Warning where
  rule : Nat
  left : Symbol
  /-- The number of fragments that the rule reduced. -/
  children : Nat
  /-- Whether there was a node among them, the first of which is passed
  on. -/
  promoted : Bool
deriving DecidableEq, Repr

/-- The text of a warning. -/
def Warning.message (w : Warning) : String :=
  "rule " ++ toString w.rule ++ " (" ++ w.left
    ++ ") has no semantic action but reduced " ++ toString w.children
    ++ " AST children"
    ++ (if w.promoted then "; the first node is kept" else "; no node is kept")

end ShiftReduce
