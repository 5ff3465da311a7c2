/-
Natural numbers in decimal.

A number is written with the fewest digits. Reading is more liberal than
writing: leading zeros are accepted everywhere, a plus sign in front where
a number stands on its own, and a limit refuses the values that are too
large for the field that they are read into.
-/

namespace ShiftReduce.Numeral

/-- The value of a text of digits. The empty text is not a number. -/
def read? (cs : List Char) : Option Nat :=
  if cs ≠ [] ∧ cs.all Char.isDigit then some (Nat.ofDigitChars 10 cs 0)
    else none

/-- The value of a text of digits, if it is below a limit. -/
def readBelow? (limit : Nat) (cs : List Char) : Option Nat :=
  (read? cs).filter (· < limit)

/-- As `readBelow?`, with a plus sign allowed in front of the digits. -/
def readPlusBelow? (limit : Nat) : List Char → Option Nat
  | '+' :: rest => readBelow? limit rest
  | cs => readBelow? limit cs

/-- The decimal text of a number, with a zero in front of a single digit. -/
def writeTwoDigits (n : Nat) : String :=
  if n < 10 then "0" ++ toString n else toString n

-- ============================================================= views

/-- Writing a number and reading the text gives the number back. -/
theorem read?_toDigits (n : Nat) : read? (Nat.toDigits 10 n) = some n := by
  have hd : (Nat.toDigits 10 n).all Char.isDigit = true :=
    List.all_eq_true.2 fun c hc =>
      Nat.isDigit_of_mem_toDigits (by omega) (by omega) hc
  rw [read?, if_pos ⟨Nat.toDigits_ne_nil, hd⟩,
    Nat.ofDigitChars_toDigits (by omega) (by omega)]

end ShiftReduce.Numeral
