/-
Texts in quotes, for people to read.

What would not be seen is written out: the common control characters, the
backslash and the quote with a backslash in front, and every other
character that does not show on its own by its code point.
-/
import ShiftReduce.Text.Invisible

namespace ShiftReduce.Text

/-- How a character is written inside quotes. -/
def showChar (c : Char) : List Char :=
  if c = '\x00' then ['\\', '0']
  else if c = '\t' then ['\\', 't']
  else if c = '\r' then ['\\', 'r']
  else if c = '\n' then ['\\', 'n']
  else if c = '\\' then ['\\', '\\']
  else if c = '"' then ['\\', '"']
  else if isInvisible c then
    ['\\', 'u', '\x7b'] ++ Nat.toDigits 16 c.toNat ++ ['\x7d']
  else [c]

/-- A text in quotes. -/
def showText (s : String) : String :=
  "\"" ++ String.ofList (s.toList.flatMap showChar) ++ "\""

/-- A list of texts in quotes. -/
def showTexts (ss : List String) : String :=
  "[" ++ ", ".intercalate (ss.map showText) ++ "]"

end ShiftReduce.Text
