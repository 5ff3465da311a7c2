/-
Items: positions inside rules.

An item says that the first `position` symbols of a rule have been read,
the last of them being `symbol`. It is written `symbol:rule:position`. The
symbol may itself hold colons, so the text is cut at its last two.
-/
import ShiftReduce.Symbol
import ShiftReduce.Numeral.Decimal
import ShiftReduce.Text.Split

namespace ShiftReduce

open Text Numeral

/-- A position inside the right-hand side of a rule, and the symbol before
it. -/
structure Item where
  symbol : Symbol
  /-- The number of the rule. -/
  rule : Nat
  /-- How many symbols of the right-hand side have been read. -/
  position : Nat
deriving DecidableEq, Repr

namespace Item

/-- Items are ordered by their symbol, then by their rule, then by their
position. -/
instance : Ord Item :=
  ⟨compareLex (compareOn symbol)
    (compareLex (compareOn rule) (compareOn position))⟩

instance : Std.TransOrd Item :=
  inferInstanceAs (Std.TransCmp
    (compareLex (compareOn symbol)
      (compareLex (compareOn rule) (compareOn position))))

/-- Rule numbers in a text are below this. -/
def ruleLimit : Nat := Nat.pow 2 32

/-- Positions in a text are below this. -/
def positionLimit : Nat := Nat.pow 2 64

/-- The text of an item. -/
def toText (item : Item) : String :=
  item.symbol ++ ":" ++ toString item.rule ++ ":" ++ toString item.position

/-- Read an item from its text. -/
def ofText? (text : List Char) : Option Item := do
  let (front, position) ← splitLast? ':' text
  let (symbol, rule) ← splitLast? ':' front
  let position ← readPlusBelow? positionLimit position
  let rule ← readPlusBelow? ruleLimit rule
  if symbol.isEmpty then none else some ⟨String.ofList symbol, rule, position⟩

/-- Put an item into an ascending list of items, unless it is there
already. -/
def insertSorted (item : Item) : List Item → List Item
  | [] => [item]
  | other :: rest =>
    match compare item other with
    | .lt => item :: other :: rest
    | .eq => other :: rest
    | .gt => other :: insertSorted item rest

/-- The items of a list in ascending order, each once. -/
def sorted (items : List Item) : List Item := items.foldr insertSorted []

end Item

end ShiftReduce
