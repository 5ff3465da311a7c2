/-
Stored tables as text are read back.

Every stored table is read from the text in which it is written, whatever
its names and symbols are: a quoted text is decoded to what it was before,
the members of the two kinds of records have different names, and no symbol
of a row is repeated. So if a table is not read back from its text, it is
not for the text.
-/
import ShiftReduce.Proofs.Collections.Lookup
import ShiftReduce.Proofs.Json.Parsing
import ShiftReduce.Proofs.Text.Cutting
import ShiftReduce.Table.Interchange

namespace ShiftReduce

open Text Json

namespace Json.Value

/-- A record that is written is read with the names of its members. -/
theorem members?_named (members : List (String × Value)) :
    (named members).members? = some members := by
  show List.mapM _ _ = _
  apply mapM_map_eq_some
  intro member _
  show (decodePieces? (written member.1)).map _ = _
  rw [decodePieces?_written]
  rfl

theorem fields?_named (members : List (String × Value)) (names : List String) :
    (named members).fields? names = names.mapM fun name =>
      single? name members := by
  show (named members).members?.bind _ = _
  rw [members?_named]
  rfl

end Json.Value

namespace StoredState

/-- The actions of a state with their values. -/
def actionValues (state : StoredState) : List (Symbol × Value) :=
  state.actions.entries.map fun (symbol, action) =>
    (symbol, .text (written action))

/-- The value in which a state is stored. -/
def toValue (state : StoredState) : Value :=
  .named [("name", .text (written state.name)),
    ("actions", .named state.actionValues)]

theorem writes_toJson (state : StoredState) :
    Writes state.toJson state.toValue := by
  have hactions : List.Forall₂
      (fun text member => text.1 = member.1 ∧ Writes text.2 member.2)
      (state.actions.entries.map fun (symbol, action) =>
        (symbol, quote action))
      state.actionValues := by
    unfold actionValues
    rw [List.forall₂_map_left_iff, List.forall₂_map_right_iff,
      List.forall₂_same]
    exact fun cell _ => ⟨rfl, writes_quote cell.2⟩
  apply writes_recordBlock
  exact .cons ⟨rfl, writes_quote state.name⟩
    (.cons ⟨rfl, writes_recordBlock 3 hactions⟩ .nil)

theorem ofValue?_toValue (state : StoredState) :
    ofValue? state.toValue = some state := by
  have hactions : state.actionValues.mapM
        (fun (symbol, action) => action.text?.map fun text => (symbol, text))
      = some state.actions.entries := by
    apply mapM_map_eq_some
    intro cell _
    show (decodePieces? (written cell.2)).map _ = _
    rw [decodePieces?_written]
    rfl
  have hfields : state.toValue.fields? ["name", "actions"]
      = some [.text (written state.name), .named state.actionValues] := by
    unfold toValue
    rw [Value.fields?_named]
    rfl
  have hname : (Value.text (written state.name)).text? = some state.name :=
    decodePieces?_written state.name
  unfold ofValue?
  simp only [hfields, hname, hactions, Value.members?_named,
    Option.bind_eq_bind, Option.bind_some, OrderedMap.ofList_entries]

end StoredState

namespace StoredTable

/-- The value in which a table is stored. -/
def toValue (stored : StoredTable) : Value :=
  .named
    [("start_symbol", .text (written stored.startSymbol)),
      ("states", .list (stored.states.map StoredState.toValue))]

theorem writes_toJson (stored : StoredTable) :
    Writes stored.toJson stored.toValue := by
  have hstates : List.Forall₂ Writes (stored.states.map StoredState.toJson)
      (stored.states.map StoredState.toValue) := by
    rw [List.forall₂_map_left_iff, List.forall₂_map_right_iff,
      List.forall₂_same]
    exact fun state _ => state.writes_toJson
  apply writes_recordBlock
  exact .cons ⟨rfl, writes_quote stored.startSymbol⟩
    (.cons ⟨rfl, writes_listBlock 1 hstates⟩ .nil)

theorem ofValue?_toValue (stored : StoredTable) :
    ofValue? stored.toValue = some stored := by
  have hstates :
      (stored.states.map StoredState.toValue).mapM StoredState.ofValue?
      = some stored.states :=
    mapM_map_eq_some fun state _ => state.ofValue?_toValue
  have hfields : stored.toValue.fields? ["start_symbol", "states"]
      = some [.text (written stored.startSymbol),
        .list (stored.states.map StoredState.toValue)] := by
    unfold toValue
    rw [Value.fields?_named]
    rfl
  have hsymbol : (Value.text (written stored.startSymbol)).text?
      = some stored.startSymbol :=
    decodePieces?_written stored.startSymbol
  unfold ofValue?
  simp only [hfields, hsymbol, hstates, Value.items?,
    Option.bind_eq_bind, Option.bind_some]

/-- A stored table is read from the text in which it is written. -/
theorem ofBytes?_toJson (stored : StoredTable) :
    (Value.ofBytes? (bytesOf stored.toJson)).bind ofValue? = some stored := by
  rw [stored.writes_toJson.ofBytes?]
  exact stored.ofValue?_toValue

end StoredTable

/-- What is read from the text of a table is what is read from its stored
form. -/
theorem Table.ofJson?_toJson (t : Table) :
    Table.ofJson? t.toJson = (StoredTable.ofTable t).toTable? := by
  unfold Table.ofJson? Table.ofJsonBytes? Table.toJson
  rw [StoredTable.ofBytes?_toJson]

end ShiftReduce
