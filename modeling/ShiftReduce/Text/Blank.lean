/-
Blank characters, and the ways a line of text is cut at them.

Blank means the White_Space property: twenty-five characters, among them
the no-break spaces and the line and paragraph separators, but neither the
zero-width space nor the byte order mark. Lines are trimmed and cut into
words by this one property, so a word is any run of other characters,
however odd.
-/
import ShiftReduce.Text.CharRange

namespace ShiftReduce.Text

/-- The characters with the White_Space property. -/
def blankRanges : CharRanges :=
  [(0x09, 0x0D), (0x20, 0x20), (0x85, 0x85), (0xA0, 0xA0), (0x1680, 0x1680),
   (0x2000, 0x200A), (0x2028, 0x2029), (0x202F, 0x202F), (0x205F, 0x205F),
   (0x3000, 0x3000)]

/-- Whether a character is blank. -/
def isBlank (c : Char) : Bool := blankRanges.contains c

/-- A text without the blanks at its two ends. -/
def trim (cs : List Char) : List Char :=
  ((cs.dropWhile isBlank).reverse.dropWhile isBlank).reverse

/-- The words of a text: its longest runs of characters that are not
blank, from left to right. -/
def words : List Char → List (List Char)
  | [] => []
  | [c] => if isBlank c then [] else [[c]]
  | c :: d :: rest =>
    if isBlank c then words (d :: rest)
    else if isBlank d then [c] :: words (d :: rest)
    else match words (d :: rest) with
      | [] => [[c]]
      | w :: ws => (c :: w) :: ws

end ShiftReduce.Text
