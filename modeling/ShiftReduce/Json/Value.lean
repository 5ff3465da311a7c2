/-
JSON values.

The tokens of a text are put together without recursion into the nesting
of the text: the parts that have been opened and not yet closed are kept
on a stack, the innermost first, and every token is looked at once. So a
text may be nested as deeply as it likes.
-/
import ShiftReduce.Json.Token

namespace ShiftReduce.Json

/-- A value. Texts are undecoded, and the members of a record are kept in
their order with all repetitions. -/
inductive Value where
  /-- A number, or one of the words. -/
  | scalar
  | text (pieces : List Piece)
  | list (items : List Value)
  | record (members : List (List Piece × Value))

/-- A part that is still open, with its complete contents in reverse. -/
inductive Open where
  | list (items : List Value)
  /-- A record in which the value of `key` is due. -/
  | record (members : List (List Piece × Value)) (key : List Piece)

/-- What may come next. -/
inductive Place where
  /-- A value. -/
  | value
  /-- The first item of a list, or its end. -/
  | firstItem
  /-- The first key of a record, or its end. -/
  | firstKey
  /-- A further key of a record with these members. -/
  | key (members : List (List Piece × Value))
  /-- The colon behind a key. -/
  | colon (members : List (List Piece × Value)) (key : List Piece)
  /-- What follows a complete value. -/
  | after (value : Value)

/-- Begin a value with a token. -/
def beginValue? (opened : List Open) : Token → Option (Place × List Open)
  | .scalar => some (.after .scalar, opened)
  | .text pieces => some (.after (.text pieces), opened)
  | .leftBracket => some (.firstItem, .list [] :: opened)
  | .leftBrace => some (.firstKey, opened)
  | _ => none

/-- Read one more token. -/
def Place.step? (opened : List Open) (token : Token) :
    Place → Option (Place × List Open)
  | value => beginValue? opened token
  | firstItem =>
    match token, opened with
    | .rightBracket, _ :: rest => some (after (.list []), rest)
    | _, _ => beginValue? opened token
  | firstKey =>
    match token with
    | .rightBrace => some (after (.record []), opened)
    | .text pieces => some (colon [] pieces, opened)
    | _ => none
  | key members =>
    match token with
    | .text pieces => some (colon members pieces, opened)
    | _ => none
  | colon members k =>
    match token with
    | .colon => some (value, .record members k :: opened)
    | _ => none
  | after v =>
    match opened, token with
    | .list items :: rest, .comma => some (value, .list (v :: items) :: rest)
    | .list items :: rest, .rightBracket =>
        some (after (.list (v :: items).reverse), rest)
    | .record members k :: rest, .comma => some (key ((k, v) :: members), rest)
    | .record members k :: rest, .rightBrace =>
      some (after (.record ((k, v) :: members).reverse), rest)
    | _, _ => none

/-- The value of the rest of a list of tokens. -/
def Value.ofTokensFrom? (opened : List Open) (place : Place) :
    List Token → Option Value
  | [] =>
    match place, opened with
    | .after v, [] => some v
    | _, _ => none
  | token :: rest =>
    match place.step? opened token with
    | none => none
    | some (next, stillOpen) => Value.ofTokensFrom? stillOpen next rest

/-- The value that a list of tokens forms. -/
def Value.ofTokens? (tokens : List Token) : Option Value :=
  Value.ofTokensFrom? [] .value tokens

/-- The value that a text describes. -/
def Value.ofBytes? (bytes : List UInt8) : Option Value :=
  (lex? bytes).bind Value.ofTokens?

namespace Value

/-- The decoded text, if the value is one. -/
def text? : Value → Option String
  | text pieces => decodePieces? pieces
  | _ => none

/-- The items, if the value is a list. -/
def items? : Value → Option (List Value)
  | list items => some items
  | _ => none

/-- The members with their keys decoded, if the value is a record. -/
def members? : Value → Option (List (String × Value))
  | record members => members.mapM fun (key, value) =>
      (decodePieces? key).map fun name => (name, value)
  | _ => none

/-- The value of the member that is the only one with a name. -/
def single? (name : String) (members : List (String × Value)) : Option Value :=
  match members.filter fun member => member.1 == name with
  | [(_, value)] => some value
  | _ => none

/-- The values of the fields with the given names. A structure is written
as a record, in which other members are passed over, or as the list of its
fields in order. -/
def fields? (names : List String) : Value → Option (List Value)
  | list items => if items.length = names.length then some items else none
  | v =>
      v.members?.bind fun members => names.mapM fun name =>
        single? name members

end Value

end ShiftReduce.Json
