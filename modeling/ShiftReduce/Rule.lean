/-
Production rules and their text.

A rule is written on one line, `<left> -> symbols ~action`: a nonterminal,
an arrow, the symbols that it may be replaced by, and the name of the
semantic action that builds the tree of the left-hand side. The line is
cut at its first arrow, so an arrow may also be a symbol. A last word that
begins with a tilde is the action and not a symbol. The word `e` stands
for the empty right-hand side, but only where it is the only symbol, which
is decided after the action has been taken off.

A rule carries no number: the number of a rule is its position in the
grammar.
-/
import ShiftReduce.Symbol
import ShiftReduce.Text.Blank
import ShiftReduce.Text.Split

namespace ShiftReduce

open Text

/-- A production: a nonterminal, the symbols that may replace it, and the
semantic action to run when they do. -/
structure Rule where
  left : Symbol
  right : List Symbol
  /-- The name of the semantic action, if the rule has one. -/
  action : Option String
deriving DecidableEq, Repr

/-- Why a line of text is not a rule. -/
inductive FormatError where
  /-- There is no arrow in the line. -/
  | missingArrow
  /-- What stands before the arrow is not one nonterminal. -/
  | invalidLeft
  /-- A tilde is not followed by a name. -/
  | emptyAction
deriving DecidableEq, Repr

/-- The text of a format error. -/
def FormatError.message : FormatError → String
  | .missingArrow => "missing `->' separator"
  | .invalidLeft => "the left-hand side must be a single nonterminal"
  | .emptyAction => "empty semantic action name"

namespace Rule

/-- The word that stands for the empty right-hand side. -/
def emptyWord : Symbol := "e"

/-- Whether a rule has an empty right-hand side. -/
def isEmpty (rule : Rule) : Bool := rule.right.isEmpty

-- =========================================================== reading

/-- Take the action off the words behind the arrow. -/
def takeAction (ws : List (List Char)) :
    Except FormatError (List (List Char) × Option (List Char)) :=
  match ws.getLast? with
  | some ['~'] => .error .emptyAction
  | some ('~' :: name) => .ok (ws.dropLast, some name)
  | _ => .ok (ws, none)

/-- Drop the word for the empty right-hand side where it stands alone. -/
def dropEmptyWord (symbols : List Symbol) : List Symbol :=
  if symbols = [emptyWord] then [] else symbols

/-- Read a rule from a line of text. -/
def ofText? (text : List Char) : Except FormatError Rule :=
  match splitFirstPair? '-' '>' text with
  | none => .error .missingArrow
  | some (before, after) =>
    let left := trim before
    if !isBracketed left || left.any isBlank then .error .invalidLeft
    else match takeAction (words after) with
      | .error reason => .error reason
      | .ok (symbols, action) =>
        .ok {
          left := String.ofList left
          right := dropEmptyWord (symbols.map String.ofList)
          action := action.map String.ofList }

-- =========================================================== writing

/-- The text of the right-hand side. -/
def rightText (rule : Rule) : String :=
  if rule.right.isEmpty then emptyWord else spaced rule.right

/-- The text of a rule. Reading it gives the rule back. -/
def toText (rule : Rule) : String :=
  rule.left ++ " -> " ++ rule.rightText ++
    match rule.action with
    | none => ""
    | some name => " ~" ++ name

end Rule

end ShiftReduce
