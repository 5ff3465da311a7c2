/-
The fewest digits that read back.

A double stands for all the reals that are rounded to it: an interval that
reaches halfway to either neighbour, and whose ends belong to it exactly
when its significand is even. The text of a double is a decimal with as few
digits as there are in the interval, and of those the nearest to the exact
value, upwards from a tie. For every number of digits only the two
neighbours of the value on the grid of such decimals need to be tried: if
any point of the grid lies in the interval, one of them does. All of this
is decided exactly, in natural numbers.

Doubles are written without an exponent, however many zeros that takes,
and without a point when they are whole.
-/
import ShiftReduce.Numeral.Scientific

namespace ShiftReduce.Numeral

/-- The magnitude of a finite double, `significand * 2 ^ exponent`. -/
structure Magnitude where
  significand : Nat
  exponent : Int
  /-- Below a power of two the doubles are twice as dense as above. -/
  narrowBelow : Bool

/-- The magnitude that the bits of a finite double encode. -/
def Magnitude.ofBits (bits : UInt64) : Magnitude :=
  let biased := ((bits >>> 52) &&& 0x7FF).toNat
  let fraction := (bits &&& 0xFFFFFFFFFFFFF).toNat
  if biased = 0 then ⟨fraction, -1074, false⟩
  else ⟨Nat.pow 2 52 + fraction, (biased : Int) - 1075,
    fraction == 0 && decide (1 < biased)⟩

/-- Compare `a * 10 ^ i` with `b * 2 ^ j`. -/
def compareScaled (a : Nat) (i : Int) (b : Nat) (j : Int) : Ordering :=
  compare (a * Nat.pow 10 i.toNat * Nat.pow 2 (-j).toNat)
    (b * Nat.pow 2 j.toNat * Nat.pow 10 (-i).toNat)

namespace Magnitude

/-- Whether a decimal is rounded to a double. The ends of the interval are
given in quarters of the last binary place. -/
def readsBack (x : Magnitude) (d : Scientific) : Bool :=
  let low := if x.narrowBelow then 4 * x.significand - 1
    else 4 * x.significand - 2
  let high := 4 * x.significand + 2
  let closed := x.significand % 2 == 0
  let fromLow := compareScaled d.digits d.exponent low (x.exponent - 2)
  let fromHigh := compareScaled d.digits d.exponent high (x.exponent - 2)
  (fromLow == .gt || (closed && fromLow == .eq))
    && (fromHigh == .lt || (closed && fromHigh == .eq))

/-- The whole part of the value divided by a power of ten. -/
def floorAt (x : Magnitude) (power : Int) : Nat :=
  (x.significand * Nat.pow 2 x.exponent.toNat * Nat.pow 10 (-power).toNat)
    / (Nat.pow 2 (-x.exponent).toNat * Nat.pow 10 power.toNat)

/-- The least power of ten above a value that is not zero. Every double
that is not zero exceeds the grid on which its digits are counted. -/
def scale (x : Magnitude) : Int :=
  (Nat.toDigits 10 (x.floorAt (-magnitudeLimit))).length - magnitudeLimit

/-- The decimal with so many digits that is nearest to the value among
those that read back. -/
def withDigits? (x : Magnitude) (count : Nat) : Option Scientific :=
  let power := x.scale - count
  let below : Scientific := ⟨x.floorAt power, power⟩
  let above : Scientific := ⟨x.floorAt power + 1, power⟩
  match x.readsBack below, x.readsBack above with
  | false, false => none
  | true, false => some below
  | false, true => some above
  | true, true =>
    if compareScaled (below.digits + above.digits) power
      (2 * x.significand) x.exponent == .gt
    then some below else some above

/-- The value itself as a decimal. -/
def exactly (x : Magnitude) : Scientific :=
  if 0 ≤ x.exponent then ⟨x.significand * Nat.pow 2 x.exponent.toNat, 0⟩
  else ⟨x.significand * Nat.pow 5 (-x.exponent).toNat, x.exponent⟩

/-- The shortest decimal that reads back. Seventeen digits are always
enough. -/
def shortest (x : Magnitude) : Scientific :=
  ((List.range 17).findSome? fun i => x.withDigits? (i + 1)).getD x.exactly

end Magnitude

/-- The text of a decimal, without an exponent and without zeros behind
the last digit of a fraction. -/
def Scientific.toText (s : Scientific) : String :=
  let digits := Nat.toDigits 10 s.digits
  if 0 ≤ s.exponent then
    String.ofList (digits ++ List.replicate s.exponent.toNat '0')
  else
    let places := (-s.exponent).toNat
    let padded := List.replicate (places + 1 - digits.length) '0' ++ digits
    let whole := padded.take (padded.length - places)
    let fraction := ((padded.drop (padded.length - places)).reverse.dropWhile
      (· == '0')).reverse
    String.ofList
      (if fraction.isEmpty then whole else whole ++ '.' :: fraction)

/-- The text of a double. -/
def floatText (x : Float) : String :=
  if x.isNaN then "NaN"
  else
    let sign := if x.toBits >>> 63 == 1 then "-" else ""
    let m := Magnitude.ofBits x.toBits
    if x.isInf then sign ++ "inf"
    else if m.significand = 0 then sign ++ "0"
    else sign ++ m.shortest.toText

end ShiftReduce.Numeral
