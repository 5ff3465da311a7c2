/-
Signed integers of sixty-four bits, read from text.

A number is an optional sign and digits. The digits are read from left to
right, and what is wrong first is what is reported: a character that is no
digit, or a digit by which the value leaves the range.
-/

namespace ShiftReduce.Numeral

/-- Why a text is not an integer. -/
inductive IntegerFault where
  | empty
  | invalidDigit
  | tooLarge
  | tooSmall
deriving DecidableEq, Repr

/-- The text of an integer fault. -/
def IntegerFault.message : IntegerFault → String
  | .empty => "cannot parse integer from empty string"
  | .invalidDigit => "invalid digit found in string"
  | .tooLarge => "number too large to fit in target type"
  | .tooSmall => "number too small to fit in target type"

/-- The largest integer. -/
def maxInteger : Nat := Nat.pow 2 63 - 1

/-- Read digits behind those that have the value `value` so far. A value
beyond `limit` is reported as `overflow`. -/
def readDigits (limit : Nat) (overflow : IntegerFault) (value : Nat) :
    List Char → Except IntegerFault Nat
  | [] => .ok value
  | c :: rest =>
    if !c.isDigit then .error .invalidDigit
    else
      let next := value * 10 + (c.toNat - '0'.toNat)
      if limit < next then .error overflow
        else readDigits limit overflow next rest

/-- Read an integer. -/
def readInteger : List Char → Except IntegerFault Int
  | [] => .error .empty
  | ['+'] => .error .invalidDigit
  | ['-'] => .error .invalidDigit
  | '+' :: digits => (readDigits maxInteger .tooLarge 0 digits).map Int.ofNat
  | '-' :: digits =>
      (readDigits (maxInteger + 1) .tooSmall 0 digits).map fun n => -(n : Int)
  | digits => (readDigits maxInteger .tooLarge 0 digits).map Int.ofNat

end ShiftReduce.Numeral
