/-
What reading a stored table amounts to.

Reading goes over the states twice and stops at the first thing that is
wrong. Whether it succeeds can be said without going over anything: a stored
table describes a table if every name is that of the key in the same place,
every text is that of the action in the same place, and the start state
comes first. That no state is listed twice is a property of the table. So
what holds of the tables that are read can be read off from what they are
described by, and reading back what has been written is a special case.
-/
import Mathlib.Data.List.Forall2
import ShiftReduce.Proofs.Table.Basic
import ShiftReduce.Table.File

namespace ShiftReduce

-- ============================================================== actions

/-- A text that reads as an action is a reduction, or it is none and the name
of a state, into which it is a shift. -/
theorem Action.of_ofText?_ok {startSymbol : Symbol} {keys : List StateKey}
    {text : String} {action : Action Nat}
    (h : ofText? startSymbol keys text = .ok action) :
    reduceOfText? text.toList = some action
      ∨ ((reduceOfText? text.toList : Option (Action Nat)) = none
        ∧ ∃ key state, StateKey.ofText? startSymbol text = some key
          ∧ keys.idxOf? key = some state ∧ action = .shift state) := by
  unfold ofText? at h
  split at h
  · next hreduce =>
      cases h
      exact Or.inl hreduce
  · next hreduce =>
      split at h
      · cases h
      · next key hkey =>
          split at h
          · cases h
          · next state hstate =>
              cases h
              exact Or.inr ⟨hreduce, key, state, hkey, hstate, rfl⟩

-- ========================================================= descriptions

/-- The text of a cell reads as the action of a cell for the same symbol. -/
def ReadsCell (startSymbol : Symbol) (keys : List StateKey)
    (stored : Symbol × String) (cell : Symbol × Action Nat) : Prop :=
  stored.1 = cell.1 ∧ Action.ofText? startSymbol keys stored.2 = .ok cell.2

/-- A stored state reads as a key with its cells. -/
structure StoredState.Reads (startSymbol : Symbol) (keys : List StateKey)
    (state : StoredState) (entry : StateKey × TableRow) : Prop where
  name : StateKey.ofText? startSymbol state.name = some entry.1
  cells : List.Forall₂ (ReadsCell startSymbol keys)
    state.actions.entries entry.2.entries

/-- A stored table reads as a table, state by state. -/
structure StoredTable.Describes (stored : StoredTable) (t : Table) : Prop where
  startSymbol : stored.startSymbol = t.startSymbol
  first : t.states.keys.head? = some .start
  states :
    List.Forall₂ (StoredState.Reads t.startSymbol t.states.keys) stored.states
    t.states.entries

namespace StoredTable

variable {startSymbol : Symbol} {keys : List StateKey}
    {states : List StoredState}

-- ============================================================= the passes

/-- The first pass finds the keys of all states. -/
theorem enterStates_eq_ok_iff {entered all : OrderedSet StateKey} :
    enterStates startSymbol entered states = .ok all
      ↔ ∃ found, all.elements = entered.elements ++ found
        ∧ List.Forall₂
          (fun state key => StateKey.ofText? startSymbol state.name = some key)
          states found := by
  constructor
  · intro h
    induction states generalizing entered with
    | nil =>
        cases h
        exact ⟨[], by rw [List.append_nil], .nil⟩
    | cons state states ih =>
        unfold enterStates at h
        split at h
        · cases h
        · next key hkey =>
            split at h
            · cases h
            · next hnew =>
                obtain ⟨found, hall, hfound⟩ := ih h
                rw [OrderedSet.elements_insert, if_neg hnew,
                  List.append_assoc] at hall
                exact ⟨key :: found, hall, .cons hkey hfound⟩
  · rintro ⟨found, hall, hfound⟩
    induction hfound generalizing entered with
    | nil =>
        rw [List.append_nil] at hall
        rw [OrderedSet.ext_elements hall]
        rfl
    | @cons state key states found hkey _ ih =>
        have hnew : key ∉ entered := by
          have hnodup := all.nodup
          rw [hall, List.nodup_append] at hnodup
          exact fun hmem => hnodup.2.2 key hmem key List.mem_cons_self rfl
        unfold enterStates
        rw [hkey]
        dsimp only
        rw [if_neg hnew]
        apply ih
        rw [OrderedSet.elements_insert, if_neg hnew, List.append_assoc]
        exact hall

/-- The second pass reads the cells of a row one by one. -/
theorem readCells_eq_ok_iff {texts : List (Symbol × String)}
    {cells : List (Symbol × Action Nat)} :
    readCells startSymbol keys texts = .ok cells
      ↔ List.Forall₂ (ReadsCell startSymbol keys) texts cells := by
  constructor
  · intro h
    induction texts generalizing cells with
    | nil =>
        cases h
        exact .nil
    | cons stored texts ih =>
        unfold readCells at h
        split at h
        · cases h
        · next action haction =>
            cases hrest : readCells startSymbol keys texts with
            | error e =>
                rw [hrest] at h
                cases h
            | ok others =>
                rw [hrest] at h
                cases h
                exact .cons ⟨rfl, haction⟩ (ih hrest)
  · intro h
    induction h with
    | nil => rfl
    | @cons stored cell texts cells hcell _ ih =>
        obtain ⟨symbol, action⟩ := cell
        obtain ⟨rfl, haction⟩ := hcell
        unfold readCells
        rw [haction, ih]
        rfl

/-- The symbols of a row that is read are those that are stored. -/
theorem symbols_eq {texts : List (Symbol × String)}
    {cells : List (Symbol × Action Nat)}
    (h : List.Forall₂ (ReadsCell startSymbol keys) texts cells) :
    texts.map Prod.fst = cells.map Prod.fst := by
  induction h with
  | nil => rfl
  | cons hcell _ ih => rw [List.map_cons, List.map_cons, hcell.1, ih]

/-- And it reads the rows one by one. -/
theorem readRows_eq_ok_iff {rows : List TableRow} :
    readRows startSymbol keys states = .ok rows
      ↔ List.Forall₂ (fun state row =>
        List.Forall₂ (ReadsCell startSymbol keys)
          state.actions.entries row.entries)
        states rows := by
  constructor
  · intro h
    induction states generalizing rows with
    | nil =>
        cases h
        exact .nil
    | cons state states ih =>
        unfold readRows at h
        split at h
        · cases h
        · next cells hcells =>
            cases hrest : readRows startSymbol keys states with
            | error e =>
                rw [hrest] at h
                cases h
            | ok others =>
                rw [hrest] at h
                cases h
                have hread := readCells_eq_ok_iff.mp hcells
                have hnodup := state.actions.nodup
                rw [symbols_eq hread] at hnodup
                rw [← OrderedMap.entries_ofList hnodup] at hread
                exact .cons hread (ih hrest)
  · intro h
    induction h with
    | nil => rfl
    | @cons state row states rows hrow _ ih =>
        unfold readRows
        rw [readCells_eq_ok_iff.mpr hrow, ih]
        dsimp only
        rw [OrderedMap.ofList_entries]
        rfl

-- ============================================================== the table

theorem forall₂_reads_iff {entries : List (StateKey × TableRow)} :
    List.Forall₂ (StoredState.Reads startSymbol keys) states entries
      ↔ List.Forall₂
          (fun state key => StateKey.ofText? startSymbol state.name = some key)
          states (entries.map Prod.fst)
        ∧ List.Forall₂ (fun state row =>
          List.Forall₂ (ReadsCell startSymbol keys)
            state.actions.entries row.entries)
          states (entries.map Prod.snd) := by
  rw [List.forall₂_map_right_iff, List.forall₂_map_right_iff]
  constructor
  · intro h
    exact ⟨h.imp fun _ _ hreads => hreads.name,
      h.imp fun _ _ hreads => hreads.cells⟩
  · rintro ⟨hnames, hrows⟩
    induction hnames with
    | nil => exact .nil
    | cons hname _ ih =>
        cases hrows with
        | cons hrow hrows => exact .cons ⟨hname, hrow⟩ (ih hrows)

/-- A table is read exactly from the stored tables that describe it. -/
theorem toTable?_eq_ok_iff {stored : StoredTable} {t : Table} :
    stored.toTable? = .ok t ↔ stored.Describes t := by
  constructor
  · intro h
    unfold toTable? at h
    split at h
    · cases h
    · next all hall =>
        split at h
        · cases h
        · next hfirst =>
            split at h
            · cases h
            · next rows hrows =>
                cases h
                obtain ⟨found, hfound, hnames⟩ := enterStates_eq_ok_iff.mp hall
                have hread := readRows_eq_ok_iff.mp hrows
                rw [OrderedSet.elements_empty, List.nil_append] at hfound
                rw [← hfound] at hnames
                have hlength := hnames.length_eq.symm.trans hread.length_eq
                have hkeys := OrderedMap.keys_zip all hlength
                have hvalues : (all.elements.zip rows).map Prod.snd = rows :=
                  List.map_snd_zip (by omega)
                refine ⟨rfl, ?_, ?_⟩
                · rw [hkeys]
                  exact not_not.mp hfirst
                · rw [hkeys, forall₂_reads_iff]
                  refine ⟨?_, ?_⟩
                  · show List.Forall₂ _ _ (OrderedMap.zip all rows).keys
                    rw [hkeys]
                    exact hnames
                  · show List.Forall₂ _ _
                        ((all.elements.zip rows).map Prod.snd)
                    rw [hvalues]
                    exact hread
  · intro h
    obtain ⟨hnames, hrows⟩ := forall₂_reads_iff.mp h.states
    have hall : enterStates t.startSymbol OrderedSet.empty stored.states
        = .ok ⟨t.states.keys, t.states.nodup⟩ :=
      enterStates_eq_ok_iff.mpr ⟨t.states.keys, rfl, hnames⟩
    have hread := readRows_eq_ok_iff.mpr hrows
    unfold toTable?
    rw [h.startSymbol, hall]
    dsimp only
    rw [if_neg (not_not.mpr h.first), hread]
    dsimp only
    have hzip : OrderedMap.zip ⟨t.states.keys, t.states.nodup⟩
        (t.states.entries.map Prod.snd)
        = t.states := by
      apply OrderedMap.ext_entries
      show (t.states.entries.map Prod.fst).zip (t.states.entries.map Prod.snd)
          = t.states.entries
      rw [List.zip_map', List.map_id']
    rw [hzip]

-- ======================================================= look-up by place

/-- A symbol has an action in a row exactly if it has a text, and the text
reads as the action. -/
theorem relates_lookup {texts : List (Symbol × String)}
    {cells : List (Symbol × Action Nat)}
    (h : List.Forall₂ (ReadsCell startSymbol keys) texts cells)
    (symbol : Symbol) :
    Option.Rel
      (fun text action => Action.ofText? startSymbol keys text = .ok action)
      (texts.lookup symbol) (cells.lookup symbol) := by
  induction h with
  | nil => exact .none
  | @cons stored cell _ _ hcell _ ih =>
      rw [OrderedMap.lookup_entries_cons,
        OrderedMap.lookup_entries_cons, hcell.1]
      split
      · exact .some hcell.2
      · exact ih

namespace Describes

variable {stored : StoredTable} {t : Table}

/-- A table that has been read begins with its start state. -/
theorem key?_initial (h : stored.Describes t) :
    t.key? Table.initial = some .start := by
  have hfirst := h.first
  unfold OrderedMap.keys at hfirst
  rw [List.head?_eq_getElem?, List.getElem?_map] at hfirst
  exact hfirst

/-- The key of a state is what its name reads as. -/
theorem key?_eq (h : stored.Describes t) (state : Nat) :
    t.key? state
      = (stored.states[state]?).bind fun s =>
        StateKey.ofText? t.startSymbol s.name := by
  have hentry := forall₂_getElem? h.states state
  unfold Table.key? OrderedMap.entryAt?
  generalize stored.states[state]? = found at hentry ⊢
  generalize t.states.entries[state]? = entry at hentry ⊢
  cases hentry with
  | none => rfl
  | some hreads => exact hreads.name.symm

/-- The action in a cell is what its text reads as. -/
theorem action?_rel (h : stored.Describes t) {state : Nat} {s : StoredState}
    (hs : stored.states[state]? = some s) (symbol : Symbol) :
    Option.Rel (fun text action =>
      Action.ofText? t.startSymbol t.states.keys text = .ok action)
      (s.actions.lookup symbol) (t.action? state symbol) := by
  have hentry := forall₂_getElem? h.states state
  unfold Table.action? OrderedMap.entryAt?
  rw [hs] at hentry
  generalize t.states.entries[state]? = entry at hentry ⊢
  cases hentry with
  | some hreads => exact relates_lookup hreads.cells symbol

/-- Every action has a text that reads as it. -/
theorem exists_text (h : stored.Describes t) {state : Nat} {symbol : Symbol}
    {action : Action Nat} (haction : t.action? state symbol = some action) :
    ∃ text, Action.ofText? t.startSymbol t.states.keys text = .ok action := by
  obtain ⟨key, hkey⟩ := Table.exists_key?_of_action? haction
  rw [h.key?_eq] at hkey
  obtain ⟨s, hs, -⟩ := Option.bind_eq_some_iff.mp hkey
  have hrel := h.action?_rel hs symbol
  rw [haction] at hrel
  generalize s.actions.lookup symbol = found at hrel
  cases hrel with
  | some htext => exact ⟨_, htext⟩

/-- Every key is what some name reads as. -/
theorem exists_name (h : stored.Describes t) {key : StateKey}
    (hkey : key ∈ t.states.keys) :
    ∃ name, StateKey.ofText? t.startSymbol name = some key := by
  obtain ⟨state, hentry⟩ := Table.exists_key?_of_mem_keys hkey
  rw [h.key?_eq] at hentry
  obtain ⟨s, -, hs⟩ := Option.bind_eq_some_iff.mp hentry
  exact ⟨s.name, hs⟩

end Describes

end StoredTable

end ShiftReduce
