/-
The entries of a table.

The states of a table stand in a list and are numbered by their positions,
and so the keys and the actions of the table are the entries of that list
and of its rows. A table with other actions in the same places is the same
table if every action that stands somewhere is the same.
-/
import ShiftReduce.Proofs.Collections.Lookup
import ShiftReduce.Table.Basic

namespace ShiftReduce.Table

variable {t : Table} {state : Nat} {symbol : Symbol} {action : Action Nat}

theorem mem_keys_of_key? {key : StateKey} (h : t.key? state = some key) :
    key ∈ t.states.keys := by
  obtain ⟨entry, hentry, rfl⟩ := Option.map_eq_some_iff.mp h
  exact List.mem_map_of_mem (List.mem_of_getElem? hentry)

theorem exists_key?_of_mem_keys {key : StateKey} (h : key ∈ t.states.keys) :
    ∃ state, t.key? state = some key := by
  obtain ⟨state, hstate⟩ := List.mem_iff_getElem?.mp h
  unfold OrderedMap.keys at hstate
  rw [List.getElem?_map] at hstate
  exact ⟨state, hstate⟩

theorem idxOf?_key {state : Nat} {key : StateKey}
    (h : t.key? state = some key) : t.states.keys.idxOf? key = some state := by
  have hposition : t.states.keys[state]? = some key := by
    unfold OrderedMap.keys
    rw [List.getElem?_map]
    exact h
  exact (OrderedSet.indexOf?_eq_some_iff ⟨t.states.keys, t.states.nodup⟩).mpr
    hposition

/-- No two states have the same key. -/
theorem key?_unique {state state' : Nat} {key : StateKey}
    (h : t.key? state = some key) (h' : t.key? state' = some key) :
    state = state' := by
  have hindex := idxOf?_key h
  rw [idxOf?_key h'] at hindex
  exact (Option.some.inj hindex).symm

theorem key?_of_idxOf? {key : StateKey}
    (h : t.states.keys.idxOf? key = some state) : t.key? state = some key := by
  have hposition : t.states.keys[state]? = some key :=
    (OrderedSet.indexOf?_eq_some_iff ⟨t.states.keys, t.states.nodup⟩).mp h
  unfold OrderedMap.keys at hposition
  rw [List.getElem?_map] at hposition
  exact hposition

/-- Where there is an action there is a state. -/
theorem exists_key?_of_action? (h : t.action? state symbol = some action) :
    ∃ key, t.key? state = some key := by
  unfold action? at h
  split at h
  · cases h
  · next key cells hentry =>
      refine ⟨key, ?_⟩
      unfold key?
      rw [hentry]
      rfl

/-- The entries of the rows are the actions of the table. -/
theorem forall_entries_iff {P : Action Nat → Prop} :
    (∀ e ∈ t.states.entries, ∀ cell ∈ e.2.entries, P cell.2)
      ↔ ∀ state symbol action, t.action? state symbol = some action →
        P action := by
  constructor
  · intro h state symbol action haction
    unfold action? at haction
    split at haction
    · cases haction
    · next key cells hentry =>
        exact h (key, cells) (List.mem_of_getElem? hentry) (symbol, action)
          (cells.lookup_eq_some_iff.mp haction)
  · intro h e he cell hcell
    obtain ⟨state, hstate⟩ := List.getElem?_of_mem he
    apply h state cell.1
    have hentry : t.states.entryAt? state = some e := hstate
    unfold action?
    rw [hentry]
    exact e.2.lookup_eq_some_iff.mpr hcell

/-- The table with every action replaced by its image, in the same place. -/
def mapActions (t : Table) (f : Action Nat → Action Nat) : Table :=
  { t with states := t.states.mapValues fun cells => cells.mapValues f }

theorem keys_mapActions (t : Table) (f : Action Nat → Action Nat) :
    (t.mapActions f).states.keys = t.states.keys := by
  show (t.states.entries.map _).map Prod.fst = t.states.entries.map Prod.fst
  rw [List.map_map]
  rfl

theorem mapActions_eq_self_iff {f : Action Nat → Action Nat} :
    t.mapActions f = t
      ↔ ∀ state symbol action, t.action? state symbol = some action →
        f action = action := by
  have hstates : t.mapActions f = t ↔ (t.mapActions f).states = t.states := by
    constructor
    · exact congrArg states
    · intro h
      show Table.mk t.startSymbol (t.mapActions f).states = t
      rw [h]
  rw [hstates, ← forall_entries_iff (P := fun action => f action = action)]
  unfold mapActions
  rw [OrderedMap.mapValues_eq_self_iff]
  apply forall₂_congr
  intro e _
  rw [OrderedMap.mapValues_eq_self_iff]

end ShiftReduce.Table
