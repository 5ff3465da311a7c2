/-
State keys: what identifies a state of the automaton.

A state is the start state, a single item, or the union of several items.
The key of a union lists its items in ascending order and without
repetition, so states that unite the same items have the same key however
they came about; a union of one item is that item.

The name of a state is its key written out: the start symbol for the start
state, the item, or the items with single spaces between them. A name that
is read back is taken as it stands, item by item, in the order in which
they are written.
-/
import ShiftReduce.Table.Item

namespace ShiftReduce

open Text

/-- The identity of a state. -/
inductive StateKey where
  | start
  | item (item : Item)
  /-- Several items at once, in ascending order. -/
  | merged (items : List Item)
deriving DecidableEq, Repr

namespace StateKey

/-- The items that make up a state. -/
def items : StateKey → List Item
  | start => []
  | item i => [i]
  | merged is => is

/-- The key of a list of items, taken as it stands. -/
def ofItems : List Item → StateKey
  | [i] => item i
  | is => merged is

/-- The key of the union of several states. -/
def union (keys : List StateKey) : StateKey :=
  ofItems (Item.sorted (keys.flatMap items))

/-- The start state comes first, then single items, then unions by their
lists of items. -/
protected def compare : StateKey → StateKey → Ordering
  | start, start => .eq
  | start, _ => .lt
  | _, start => .gt
  | item i, item j => compare i j
  | item _, merged _ => .lt
  | merged _, item _ => .gt
  | merged is, merged js => compare is js

instance : Ord StateKey := ⟨StateKey.compare⟩

/-- The name of a state. -/
def toText (startSymbol : Symbol) : StateKey → String
  | start => startSymbol
  | item i => i.toText
  | merged is => spaced (is.map Item.toText)

/-- Read a state key from a name. -/
def ofText? (startSymbol : Symbol) (text : String) : Option StateKey :=
  if text = startSymbol then some start
  else ((splitOn ' ' text.toList).mapM Item.ofText?).map ofItems

end StateKey

end ShiftReduce
