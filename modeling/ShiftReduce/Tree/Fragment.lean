/-
Fragments: the parts from which a tree is put together.

While a program text is being parsed, what has been read but is not yet
part of a larger node is a fragment: a node that has been built, or a token
that no semantic action has used so far.
-/
import ShiftReduce.Tree.Node

namespace ShiftReduce

/-- A node that is not yet inside of another, or a token that has not been
used. -/
inductive Fragment where
  | node (node : Node)
  | token (token : Token)

namespace Fragment

/-- The node, if the fragment is one. -/
def node? : Fragment → Option Node
  | node n => some n
  | token _ => none

/-- The token, if the fragment is one. -/
def token? : Fragment → Option Token
  | node _ => none
  | token t => some t

/-- The kind of a node, or the quoted text of a token. -/
def brief : Fragment → String
  | node n => n.kind
  | token t => "`" ++ t.lexeme ++ "'"

/-- The fragments of a list in brief. -/
def describe (fragments : List Fragment) : String :=
  "[" ++ ", ".intercalate (fragments.map brief) ++ "]"

/-- The position of the first token among some fragments. Nodes do not know
where they stand. -/
def position? (fragments : List Fragment) : Option Position :=
  (fragments.findSome? token?).map Token.position

/-- The nodes among some fragments, with every list replaced by its
items. -/
def flatten (fragments : List Fragment) : List Node :=
  fragments.flatMap fun
    | node (.list items) => items
    | node n => [n]
    | token _ => []

/-- The name that a fragment gives: an identifier, whether it has become a
node or not. -/
def name? : Fragment → Option String
  | node (.identifier name) => some name
  | node _ => none
  | token t => if t.kind = .identifier then some t.lexeme else none

/-- The type that a fragment names: an identifier, or any token that was
kept. -/
def type? : Fragment → Option String
  | token t => some t.lexeme
  | node n => (node n).name?

/-- Whether a fragment is the sign of assignment. -/
def isAssignSign : Fragment → Bool
  | node _ => false
  | token t => t.lexeme == "="

end Fragment

end ShiftReduce
