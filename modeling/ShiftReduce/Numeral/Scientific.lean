/-
Decimal fractions, read from text.

A fraction is an optional sign and then digits with at most one point among
or beside them, and perhaps an exponent; the words for infinity and for
what is not a number are accepted in any case. The value is the nearest
double, so a fraction that is too large for a double is infinite. A
fraction whose order of magnitude is beyond any double is not computed,
since its exponent may be as long as its author likes.
-/

namespace ShiftReduce.Numeral

/-- Why a text is not a decimal fraction. -/
inductive FractionFault where
  | empty
  | invalid
deriving DecidableEq, Repr

/-- The text of a fraction fault. -/
def FractionFault.message : FractionFault → String
  | .empty => "cannot parse float from empty string"
  | .invalid => "invalid float literal"

/-- The number `digits * 10 ^ exponent`. -/
structure Scientific where
  digits : Nat
  exponent : Int
deriving DecidableEq, Repr

/-- Beyond this power of ten, in either direction, there are no doubles. -/
def magnitudeLimit : Int := 400

/-- The nearest double. -/
def Scientific.toFloat (s : Scientific) : Float :=
  if s.digits = 0 then 0.0
  else
    let magnitude := s.exponent + (Nat.toDigits 10 s.digits).length
    if magnitudeLimit < magnitude then 1.0 / 0.0
    else if magnitude < -magnitudeLimit then 0.0
    else Float.ofScientific s.digits
      (decide (s.exponent < 0)) s.exponent.natAbs

/-- Read an exponent behind its mark: an optional sign and digits. -/
def readExponent? (cs : List Char) : Option Int :=
  let (negative, digits) : Bool × List Char := match cs with
    | '-' :: rest => (true, rest)
    | '+' :: rest => (false, rest)
    | _ => (false, cs)
  if digits.isEmpty || !digits.all Char.isDigit then none
  else
    let n : Int := Nat.ofDigitChars 10 digits 0
    some (if negative then -n else n)

/-- Read the number that consists of the digits `digits`, the last
`places` of them behind the point, and the exponent in the rest of a
text. -/
def readScaled? (digits : List Char) (places : Nat) (rest : List Char) :
    Option Scientific :=
  if digits.isEmpty then none
  else
    let n := Nat.ofDigitChars 10 digits 0
    match rest with
    | [] => some ⟨n, -(places : Int)⟩
    | c :: exponent =>
      if c = 'e' ∨ c = 'E' then
        (readExponent? exponent).map fun e => ⟨n, e - places⟩
      else none

/-- Read a decimal fraction without a sign. -/
def readScientific? (cs : List Char) : Option Scientific :=
  let whole := cs.takeWhile Char.isDigit
  match cs.dropWhile Char.isDigit with
  | '.' :: rest =>
    let places := rest.takeWhile Char.isDigit
    readScaled? (whole ++ places) places.length (rest.dropWhile Char.isDigit)
  | rest => readScaled? whole 0 rest

/-- Read a double without a sign. -/
def readMagnitude? (cs : List Char) : Option Float :=
  match readScientific? cs with
  | some s => some s.toFloat
  | none =>
    let word := String.ofList (cs.map Char.toLower)
    if word = "inf" ∨ word = "infinity" then some (1.0 / 0.0)
    else if word = "nan" then some (0.0 / 0.0)
    else none

/-- Read a double. -/
def readFraction : List Char → Except FractionFault Float
  | [] => .error .empty
  | '-' :: rest =>
    match readMagnitude? rest with
    | some x => .ok (-x)
    | none => .error .invalid
  | '+' :: rest =>
    match readMagnitude? rest with
    | some x => .ok x
    | none => .error .invalid
  | cs =>
    match readMagnitude? cs with
    | some x => .ok x
    | none => .error .invalid

end ShiftReduce.Numeral
