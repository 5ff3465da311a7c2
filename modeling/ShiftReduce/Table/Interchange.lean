/-
Tables as JSON text.

A stored table is a record of its start symbol and the list of its states,
and a state is a record of its name and its actions by symbol. When the
text is read, unknown members are passed over, and of several actions for
one symbol the last counts, at the place of the first; everything else
that is not as it is written is refused.
-/
import ShiftReduce.Json.Layout
import ShiftReduce.Json.Value
import ShiftReduce.Table.File

namespace ShiftReduce

open Json

namespace StoredState

/-- Read a state from a value. -/
def ofValue? (value : Value) : Option StoredState := do
  match ← value.fields? ["name", "actions"] with
  | [name, actions] =>
    let name ← name.text?
    let members ← actions.members?
    let actions ← members.mapM fun (symbol, action) =>
      action.text?.map fun text => (symbol, text)
    some ⟨name, OrderedMap.ofList actions⟩
  | _ => none

/-- The text of a state in the list of states. -/
def toJson (state : StoredState) : String :=
  recordBlock 2
    [("name", quote state.name),
      ("actions",
      recordBlock 3 (state.actions.entries.map fun (symbol, action) =>
        (symbol, quote action)))]

end StoredState

namespace StoredTable

/-- Read a stored table from a value. -/
def ofValue? (value : Value) : Option StoredTable := do
  match ← value.fields? ["start_symbol", "states"] with
  | [startSymbol, states] =>
    let startSymbol ← startSymbol.text?
    let states ← (← states.items?).mapM StoredState.ofValue?
    some ⟨startSymbol, states⟩
  | _ => none

/-- The text of a stored table. -/
def toJson (stored : StoredTable) : String :=
  recordBlock 0
    [("start_symbol", quote stored.startSymbol),
      ("states", listBlock 1 (stored.states.map StoredState.toJson))]

end StoredTable

namespace Table

/-- The text that stores a table. -/
def toJson (t : Table) : String := (StoredTable.ofTable t).toJson

/-- The table that a text stores, given as bytes. -/
def ofJsonBytes? (bytes : List UInt8) : Except TableError Table :=
  match (Value.ofBytes? bytes).bind StoredTable.ofValue? with
  | none => .error .malformed
  | some stored => stored.toTable?

/-- The table that a text stores. -/
def ofJson? (text : String) : Except TableError Table :=
  ofJsonBytes? (bytesOf text)

/-- The table that the contents of a file store. -/
def ofFile? (contents : Except SourceError ByteArray) :
    Except TableError Table :=
  match contents with
  | .error _ => .error .malformed
  | .ok bytes => ofJsonBytes? bytes.toList

end Table

end ShiftReduce
