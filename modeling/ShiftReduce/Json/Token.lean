/-
The tokens of a JSON text.

A text is given as bytes, because it may come from a file, and is cut into
tokens in one pass that looks at each byte once. Numbers and the words
`null`, `true` and `false` are checked for their form only: nothing that
this library stores is one of them. A quoted text is kept in the pieces in
which it was written and is not decoded here, so that a text which nobody
reads may hold what could not be decoded.
-/

namespace ShiftReduce.Json

/-- A piece of a quoted text. -/
inductive Piece where
  /-- A byte that stands for itself, or the byte that an escape stands
  for. -/
  | byte (b : UInt8)
  /-- A sixteen-bit unit, written with four hexadecimal digits. -/
  | unit (u : Nat)
deriving DecidableEq, Repr

/-- A token. -/
inductive Token where
  | leftBrace
  | rightBrace
  | leftBracket
  | rightBracket
  | colon
  | comma
  /-- A number, or one of the words. -/
  | scalar
  | text (pieces : List Piece)
deriving DecidableEq, Repr

-- ======================================================== characters

/-- The byte of an ASCII character. -/
def ascii (c : Char) : UInt8 := c.toNat.toUInt8

/-- Space, tab, line feed and carriage return separate tokens. -/
def isSpace (b : UInt8) : Bool :=
  b == ascii ' ' || b == ascii '\t' || b == ascii '\n' || b == ascii '\r'

/-- Whether a byte is a decimal digit. -/
def isDigit (b : UInt8) : Bool := ascii '0' ≤ b && b ≤ ascii '9'

/-- The value of a hexadecimal digit of either case. -/
def hexDigit? (b : UInt8) : Option Nat :=
  if isDigit b then some (b.toNat - 48)
  else if ascii 'a' ≤ b && b ≤ ascii 'f' then some (b.toNat - 87)
  else if ascii 'A' ≤ b && b ≤ ascii 'F' then some (b.toNat - 55)
  else none

/-- The byte that a one-letter escape stands for. -/
def escaped? (b : UInt8) : Option UInt8 :=
  if b == ascii '"' || b == ascii '\\' || b == ascii '/' then some b
  else if b == ascii 'b' then some 8
  else if b == ascii 'f' then some 12
  else if b == ascii 'n' then some 10
  else if b == ascii 'r' then some 13
  else if b == ascii 't' then some 9
  else none

-- =========================================================== numbers

/-- How far a number has been read. -/
inductive NumberPart where
  /-- A minus sign. -/
  | sign
  /-- A zero in front, behind which no digit may stand. -/
  | zero
  /-- Digits of the whole part. -/
  | whole
  /-- The point. -/
  | point
  /-- Digits behind the point. -/
  | fraction
  /-- The exponent mark. -/
  | mark
  /-- The sign of the exponent. -/
  | markSign
  /-- Digits of the exponent. -/
  | exponent

namespace NumberPart

/-- The part that a digit leads to. -/
def digit? (b : UInt8) : NumberPart → Option NumberPart
  | sign => some (if b == ascii '0' then zero else whole)
  | zero => none
  | whole => some whole
  | point => some fraction
  | fraction => some fraction
  | mark => some exponent
  | markSign => some exponent
  | exponent => some exponent

/-- The part that a byte leads to, if it belongs to the number. -/
def next? (b : UInt8) (part : NumberPart) : Option NumberPart :=
  if isDigit b then part.digit? b
  else match part with
    | zero | whole =>
      if b == ascii '.' then some point
      else if b == ascii 'e' || b == ascii 'E' then some mark
      else none
    | fraction => if b == ascii 'e' || b == ascii 'E' then some mark else none
    | mark => if b == ascii '+' || b == ascii '-' then some markSign else none
    | _ => none

/-- Whether a number may end here. -/
def isComplete : NumberPart → Bool
  | zero | whole | fraction | exponent => true
  | _ => false

end NumberPart

-- ============================================================ lexing

/-- What the bytes before have begun. -/
inductive Mode where
  /-- Nothing: the next byte begins a token. -/
  | between
  /-- A word of which these bytes are still to come. -/
  | word (rest : List UInt8)
  | number (part : NumberPart)
  /-- A quoted text, its pieces in reverse. -/
  | text (pieces : List Piece)
  /-- A quoted text, behind a backslash. -/
  | escape (pieces : List Piece)
  /-- A quoted text, inside a unit of which some digits are to come. -/
  | unit (pieces : List Piece) (digits value : Nat)

/-- The bytes of a text. -/
def bytesOf (s : String) : List UInt8 := s.toUTF8.toList

/-- Begin a token with a byte: the token, if the byte is all of it, and
what has been begun. -/
def begin? (b : UInt8) : Option (List Token × Mode) :=
  if isSpace b then some ([], .between)
  else if b == ascii '\x7b' then some ([.leftBrace], .between)
  else if b == ascii '\x7d' then some ([.rightBrace], .between)
  else if b == ascii '[' then some ([.leftBracket], .between)
  else if b == ascii ']' then some ([.rightBracket], .between)
  else if b == ascii ':' then some ([.colon], .between)
  else if b == ascii ',' then some ([.comma], .between)
  else if b == ascii '"' then some ([], .text [])
  else if b == ascii '-' then some ([], .number .sign)
  else if isDigit b
    then some ([], .number (if b == ascii '0' then .zero else .whole))
  else if b == ascii 'n' then some ([], .word (bytesOf "ull"))
  else if b == ascii 't' then some ([], .word (bytesOf "rue"))
  else if b == ascii 'f' then some ([], .word (bytesOf "alse"))
  else none

/-- Read one more byte. A byte that does not belong to a number ends the
number and begins the next token. -/
def Mode.step? (b : UInt8) : Mode → Option (List Token × Mode)
  | between => begin? b
  | word [] => begin? b
  | word (c :: rest) =>
    if b == c then some (if rest.isEmpty then ([.scalar], between)
      else ([], word rest))
    else none
  | number part =>
    match part.next? b with
    | some next => some ([], number next)
    | none =>
      if part.isComplete then (begin? b).map fun (tokens, mode) =>
        (.scalar :: tokens, mode)
      else none
  | text pieces =>
    if b == ascii '"' then some ([.text pieces.reverse], between)
    else if b == ascii '\\' then some ([], escape pieces)
    else if b < 32 then none
    else some ([], text (.byte b :: pieces))
  | escape pieces =>
    if b == ascii 'u' then some ([], unit pieces 4 0)
    else (escaped? b).map fun c => ([], text (.byte c :: pieces))
  | unit pieces digits value =>
    (hexDigit? b).map fun d =>
      let value := value * 16 + d
      if digits ≤ 1 then ([], text (.unit value :: pieces))
      else ([], unit pieces (digits - 1) value)

/-- What is left of a token when the text ends. -/
def Mode.finish? : Mode → Option (List Token)
  | between => some []
  | number part => if part.isComplete then some [.scalar] else none
  | _ => none

/-- The tokens of the rest of a text. -/
def lexFrom? (mode : Mode) : List UInt8 → Option (List Token)
  | [] => mode.finish?
  | b :: rest =>
    match mode.step? b with
    | none => none
    | some (tokens, next) => (lexFrom? next rest).map (tokens ++ ·)

/-- The tokens of a text. -/
def lex? (bytes : List UInt8) : Option (List Token) := lexFrom? .between bytes

-- ========================================================== decoding

/-- The bytes that encode a code point. -/
def encodeCode (n : Nat) : List UInt8 :=
  bytesOf (String.singleton (Char.ofNat n))

/-- Whether a unit is the first of a pair. -/
def isHighUnit (u : Nat) : Bool := decide (0xD800 ≤ u ∧ u < 0xDC00)

/-- Whether a unit is the second of a pair. -/
def isLowUnit (u : Nat) : Bool := decide (0xDC00 ≤ u ∧ u < 0xE000)

/-- The bytes of a quoted text. A pair of units stands for one code point;
half a pair stands for nothing. -/
def joinPieces? : List Piece → Option (List UInt8)
  | [] => some []
  | .byte b :: rest => (joinPieces? rest).map (b :: ·)
  | .unit u :: .unit v :: rest =>
    if isHighUnit u then
      if isLowUnit v then
        (joinPieces? rest).map
          (encodeCode (0x10000 + (u - 0xD800) * 0x400 + (v - 0xDC00)) ++ ·)
      else none
    else if isLowUnit u then none
    else (joinPieces? (.unit v :: rest)).map (encodeCode u ++ ·)
  | .unit u :: rest =>
    if isHighUnit u || isLowUnit u then none
    else (joinPieces? rest).map (encodeCode u ++ ·)

/-- The text that the pieces of a quoted text stand for. -/
def decodePieces? (pieces : List Piece) : Option String :=
  (joinPieces? pieces).bind fun bytes => String.fromUTF8? ⟨bytes.toArray⟩

end ShiftReduce.Json
