/-
The layout in which JSON is written.

Every item of a list and every member of a record has a line of its own,
indented by two spaces for each part that it is inside of; what is empty
takes no lines. In a quoted text only the quote, the backslash and the
control characters are escaped.
-/

namespace ShiftReduce.Json

/-- The lower-case hexadecimal digit of a number below sixteen. -/
def hexDigit (n : Nat) : Char := Nat.digitChar n

/-- How a character is written in a quoted text. -/
def escape (c : Char) : List Char :=
  if c = '"' then ['\\', '"']
  else if c = '\\' then ['\\', '\\']
  else if c = '\x08' then ['\\', 'b']
  else if c = '\x0c' then ['\\', 'f']
  else if c = '\n' then ['\\', 'n']
  else if c = '\r' then ['\\', 'r']
  else if c = '\t' then ['\\', 't']
  else if c.toNat < 32 then
    ['\\', 'u', '0', '0', hexDigit (c.toNat / 16), hexDigit (c.toNat % 16)]
  else [c]

/-- A text in quotes. -/
def quote (s : String) : String :=
  "\"" ++ String.ofList (s.toList.flatMap escape) ++ "\""

/-- The indentation inside of so many parts. -/
def indent (depth : Nat) : String :=
  String.ofList (List.replicate (2 * depth) ' ')

/-- Entries between two brackets, as the part at a depth. -/
def block (opening closing : String) (depth : Nat) (entries : List String) :
    String :=
  if entries.isEmpty then opening ++ closing
  else
    opening ++ "\n"
      ++ ",\n".intercalate (entries.map (indent (depth + 1) ++ ·))
      ++ "\n" ++ indent depth ++ closing

/-- A list at a depth. -/
def listBlock (depth : Nat) (items : List String) : String :=
  block "[" "]" depth items

/-- A record at a depth. -/
def recordBlock (depth : Nat) (members : List (String × String)) : String :=
  block "\x7b" "\x7d" depth
    (members.map fun (name, value) => quote name ++ ": " ++ value)

end ShiftReduce.Json
