/-
Cutting a text at a separator, and joining pieces with spaces.

All cuts are made on lists of characters and by recursion on them, so each
says what it does in one equation per case. `splitOn` keeps every piece,
the empty ones too; `splitFirst?` and `splitLast?` cut once, at the first
or the last separator, and answer nothing when there is none.
-/

namespace ShiftReduce.Text

/-- The pieces between the separators, in order. A text without a
separator is one piece. -/
def splitOn (separator : Char) : List Char → List (List Char)
  | [] => [[]]
  | c :: rest =>
    if c = separator then [] :: splitOn separator rest
    else match splitOn separator rest with
      | [] => [[c]]
      | piece :: pieces => (c :: piece) :: pieces

/-- What stands before and after the first separator. -/
def splitFirst? (separator : Char) : List Char → Option (List Char × List Char)
  | [] => none
  | c :: rest =>
    if c = separator then some ([], rest)
    else (splitFirst? separator rest).map fun (before, after) =>
      (c :: before, after)

/-- What stands before and after the last separator. -/
def splitLast? (separator : Char) : List Char → Option (List Char × List Char)
  | [] => none
  | c :: rest =>
    match splitLast? separator rest with
    | some (before, after) => some (c :: before, after)
    | none => if c = separator then some ([], rest) else none

/-- What stands before and after the first occurrence of a two-character
separator. -/
def splitFirstPair? (first second : Char) :
    List Char → Option (List Char × List Char)
  | [] => none
  | [_] => none
  | c :: d :: rest =>
    if c = first ∧ d = second then some ([], rest)
    else (splitFirstPair? first second (d :: rest)).map
      fun (before, after) => (c :: before, after)

/-- The lines of a text. A carriage return before a line feed stays with
its line: it is blank, and every reader of lines trims them. -/
def lines (text : String) : List String :=
  (splitOn '\n' text.toList).map String.ofList

/-- Texts written one after the other with one space between them. -/
def spaced : List String → String
  | [] => ""
  | [s] => s
  | s :: t :: rest => s ++ " " ++ spaced (t :: rest)

end ShiftReduce.Text
