/-
Literals: the values that a program text can write down.
-/
import ShiftReduce.Numeral.Integer
import ShiftReduce.Numeral.Shortest
import ShiftReduce.Text.Quoted
import ShiftReduce.Token

namespace ShiftReduce

open Numeral Text

/-- A value written in a program. -/
inductive Literal where
  | integer (n : Int)
  | float (x : Float)
  | string (s : String)
  | bool (b : Bool)
  | null

/-- Why a token is not a literal. -/
inductive LiteralFault where
  | integer (lexeme : String) (reason : IntegerFault)
  | float (lexeme : String) (reason : FractionFault)
  /-- The token is of a kind that is no literal at all. -/
  | kind (lexeme : String)
deriving DecidableEq, Repr

/-- The text of a literal fault. -/
def LiteralFault.message : LiteralFault → String
  | .integer lexeme reason =>
      "invalid integer literal `" ++ lexeme ++ "': " ++ reason.message
  | .float lexeme reason =>
      "invalid float literal `" ++ lexeme ++ "': " ++ reason.message
  | .kind lexeme => "`" ++ lexeme ++ "' is not a literal"

namespace Literal

/-- The text of a literal. -/
def toText : Literal → String
  | integer n => toString n
  | float x => floatText x
  | string s => showText s
  | bool b => if b then "true" else "false"
  | null => "null"

/-- A text without the quotes around it, if it has both of them. -/
def unquote (s : String) : String :=
  match s.toList with
  | '"' :: rest =>
    if rest.getLast? = some '"' then String.ofList rest.dropLast else s
  | _ => s

/-- The literal that a token stands for. -/
def ofToken (t : Token) : Except LiteralFault Literal :=
  match t.kind with
  | .integer =>
    match readInteger t.lexeme.toList with
    | .ok n => .ok (integer n)
    | .error reason => .error (.integer t.lexeme reason)
  | .float =>
    match readFraction t.lexeme.toList with
    | .ok x => .ok (float x)
    | .error reason => .error (.float t.lexeme reason)
  | .string => .ok (string (unquote t.lexeme))
  | .trueWord => .ok (bool true)
  | .falseWord => .ok (bool false)
  | .nullWord => .ok null
  | _ => .error (.kind t.lexeme)

end Literal

end ShiftReduce
