/-
Classes of characters given as closed ranges of code points.

A property of characters that a standard fixes is carried as data: a list
of ranges in ascending order, and one function that looks a character up
in it.
-/

namespace ShiftReduce.Text

/-- Closed ranges of code points, ascending and apart. -/
abbrev CharRanges := List (Nat × Nat)

/-- Whether a code point lies in one of the ranges. The search ends at the
first range that begins behind the code point, since the ranges ascend. -/
def CharRanges.containsCode (n : Nat) : CharRanges → Bool
  | [] => false
  | (low, high) :: rest =>
    if n < low then false
    else if n ≤ high then true
    else CharRanges.containsCode n rest

/-- Whether a character lies in one of the ranges. -/
def CharRanges.contains (ranges : CharRanges) (c : Char) : Bool :=
  ranges.containsCode c.toNat

end ShiftReduce.Text
