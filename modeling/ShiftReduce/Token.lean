/-
Tokens of the input.

A token has a kind, the text that it was made from, and the place where
that text stands. A grammar sees less of it: identifiers and numbers are
matched by their kind, and everything else by its text. The tokens that
matter for the tree are those that say more than the symbol which they are
matched by, and the operators.
-/
import ShiftReduce.Symbol

namespace ShiftReduce

/-- A place in a text; lines and columns are counted from one. -/
structure Position where
  line : Nat
  column : Nat
deriving DecidableEq, Repr

/-- The beginning of a text. -/
def Position.first : Position := ⟨1, 1⟩

/-- The text of a position. -/
def Position.toText (p : Position) : String :=
  toString p.line ++ ":" ++ toString p.column

/-- What sort of token a text is. -/
inductive TokenKind where
  | identifier
  | integer
  | float
  | string
  | trueWord
  | falseWord
  | nullWord
  | keyword
  | operator
  | punctuation
  | endOfInput
deriving DecidableEq, Repr

/-- A token. -/
structure Token where
  kind : TokenKind
  lexeme : String
  position : Position
deriving DecidableEq, Repr

/-- The operators that are kept for the tree, whatever kind of token they
are. -/
def significantOperators : List String :=
  ["+", "-", "*", "/", "%", "=", "==", "!=", "<", ">", "<=", ">=", "!", "&&",
    "||", "and", "or", "not", "div", "mod"]

namespace Token

/-- The token behind the last token of the input. -/
def endAt (position : Position) : Token := ⟨.endOfInput, endMarker, position⟩

/-- The terminal that a token is matched by. -/
def symbol (t : Token) : Symbol :=
  match t.kind with
  | .identifier => "id"
  | .integer | .float => "num"
  | _ => t.lexeme

/-- Whether a token is kept for the tree. -/
def isSignificant (t : Token) : Bool :=
  match t.kind with
  | .identifier | .integer | .float | .string => true
  | .trueWord | .falseWord | .nullWord => true
  | .keyword | .operator | .punctuation =>
      significantOperators.contains t.lexeme
  | .endOfInput => false

/-- The text of a token. -/
def toText (t : Token) : String :=
  "`" ++ t.lexeme ++ "' at " ++ t.position.toText

end Token

end ShiftReduce
