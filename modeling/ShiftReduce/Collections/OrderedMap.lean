/-
Maps that remember the order in which their keys first arrived.

A row of an action table lists its cells in the order in which they were
created, and a later write to a cell changes its value but not its place.
`update` is the one writing operation and the others are cases of it: it
hands the old value of a key, if there is one, to a function and stores
what that returns, in place for a known key and at the end for a new one.
The list of entries is the view, and since no key is repeated in it,
`lookup` is membership of an entry.
-/
import ShiftReduce.Collections.OrderedSet

namespace ShiftReduce

/-- A finite map whose keys are kept in the order of their first
insertion. -/
structure OrderedMap (κ υ : Type) where
  /-- Keys with their values, earliest key first. -/
  entries : List (κ × υ)
  /-- No key has two entries. -/
  nodup : (entries.map Prod.fst).Nodup
deriving DecidableEq

namespace OrderedMap

variable {κ υ : Type}

-- =========================================================== reading

/-- The map without entries. -/
def empty : OrderedMap κ υ := ⟨[], List.nodup_nil⟩

instance : Inhabited (OrderedMap κ υ) := ⟨empty⟩

/-- The keys, earliest first. -/
def keys (m : OrderedMap κ υ) : List κ := m.entries.map Prod.fst

/-- The values, in the order of their keys. -/
def values (m : OrderedMap κ υ) : List υ := m.entries.map Prod.snd

/-- The map with the same keys and every value replaced by its image. -/
def mapValues {ω : Type} (m : OrderedMap κ υ) (f : υ → ω) : OrderedMap κ ω :=
  ⟨m.entries.map fun e => (e.1, f e.2), by
    rw [List.map_map]
    exact m.nodup⟩

/-- The entries whose values have an image, with that image for value. -/
def filterMapValues {ω : Type} (m : OrderedMap κ υ) (f : υ → Option ω) :
    OrderedMap κ ω :=
  ⟨m.entries.filterMap fun e => (f e.2).map (e.1, ·), by
    have h : ∀ es : List (κ × υ),
        ((es.filterMap fun e => (f e.2).map (e.1, ·)).map Prod.fst).Sublist
          (es.map Prod.fst) := by
      intro es
      induction es with
      | nil => simp
      | cons e es ih =>
        cases hf : f e.2 with
        | none => simpa [List.filterMap_cons, hf] using ih.cons e.1
        | some w => simpa [List.filterMap_cons, hf] using ih
    exact (h m.entries).nodup m.nodup⟩

/-- The number of entries. -/
def size (m : OrderedMap κ υ) : Nat := m.entries.length

/-- The entry at a position, counted from zero. -/
def entryAt? (m : OrderedMap κ υ) (i : Nat) : Option (κ × υ) := m.entries[i]?

variable [DecidableEq κ]

/-- The value of a key. -/
def lookup (m : OrderedMap κ υ) (k : κ) : Option υ := m.entries.lookup k

/-- Whether a key has an entry. -/
def contains (m : OrderedMap κ υ) (k : κ) : Bool := m.keys.contains k

/-- The position of a key, counted from zero. -/
def indexOf? (m : OrderedMap κ υ) (k : κ) : Option Nat := m.keys.idxOf? k

-- =========================================================== writing

/-- Change the value in the entry of a key, or append an entry. -/
def updateEntries (k : κ) (f : Option υ → υ) : List (κ × υ) → List (κ × υ)
  | [] => [(k, f none)]
  | (k', v) :: rest =>
    if k' = k then (k', f (some v)) :: rest
      else (k', v) :: updateEntries k f rest

/-- A write keeps the keys it finds and appends one it does not find. -/
theorem keys_updateEntries (k : κ) (f : Option υ → υ) (es : List (κ × υ)) :
    (updateEntries k f es).map Prod.fst
      = if k ∈ es.map Prod.fst then es.map Prod.fst
        else es.map Prod.fst ++ [k] := by
  induction es with
  | nil => simp [updateEntries]
  | cons e es ih =>
    obtain ⟨k', v⟩ := e
    by_cases h : k' = k
    · simp [updateEntries, h]
    · have h' : k ≠ k' := fun e => h e.symm
      simp only [updateEntries, h, if_false, List.map_cons, ih,
        List.mem_cons, h', false_or]
      split <;> simp

/-- Store at a key what `f` makes of its old value, in place for a known
key and at the end for a new one. -/
def update (m : OrderedMap κ υ) (k : κ) (f : Option υ → υ) : OrderedMap κ υ :=
  ⟨updateEntries k f m.entries, by
    rw [keys_updateEntries]
    split
    · exact m.nodup
    · exact OrderedSet.nodup_concat m.nodup ‹_›⟩

/-- Store a value at a key. -/
def insert (m : OrderedMap κ υ) (k : κ) (v : υ) : OrderedMap κ υ :=
  m.update k fun _ => v

/-- The map of a list of entries; of several values for one key the last
one stays, at the place of the first. -/
def ofList (es : List (κ × υ)) : OrderedMap κ υ :=
  es.foldl (fun m e => m.insert e.1 e.2) empty

omit [DecidableEq κ] in
private theorem keys_zip_sublist (ks : List κ) (vs : List υ) :
    ((ks.zip vs).map Prod.fst).Sublist ks := by
  induction ks generalizing vs with
  | nil => simp
  | cons k ks ih =>
    cases vs with
    | nil => simp
    | cons v vs => simpa using ih vs

omit [DecidableEq κ] in
/-- The map that gives the elements of a set the values of a list, one
after the other. -/
def zip (ks : OrderedSet κ) (vs : List υ) : OrderedMap κ υ :=
  ⟨ks.elements.zip vs, (keys_zip_sublist ks.elements vs).nodup ks.nodup⟩

omit [DecidableEq κ] in
/-- The entries of several maps, which have no key in common, one map after
the other. -/
def concat (maps : List (OrderedMap κ υ)) (h : (maps.flatMap keys).Nodup) :
    OrderedMap κ υ :=
  ⟨maps.flatMap entries, by
    rw [List.map_flatMap]
    exact h⟩

/-- Whether two maps have the same keys with values related by `same`, in
whatever order. -/
def sameEntries (same : υ → υ → Bool) (m n : OrderedMap κ υ) : Bool :=
  m.size == n.size
    && m.entries.all fun e => (n.lookup e.1).any (same e.2)

-- ============================================================= views

omit [DecidableEq κ] in
@[simp] theorem keys_empty : (empty : OrderedMap κ υ).keys = [] := rfl

omit [DecidableEq κ] in
/-- Two maps with the same list of entries are the same map. -/
@[ext] theorem ext_entries {m n : OrderedMap κ υ} (h : m.entries = n.entries) :
    m = n := by
  cases m
  cases n
  cases h
  rfl

/-- A write appends its key exactly when the key is new. -/
theorem keys_update (m : OrderedMap κ υ) (k : κ) (f : Option υ → υ) :
    (m.update k f).keys = if k ∈ m.keys then m.keys else m.keys ++ [k] :=
  keys_updateEntries k f m.entries

theorem mem_keys_update (m : OrderedMap κ υ) (k k' : κ) (f : Option υ → υ) :
    k' ∈ (m.update k f).keys ↔ k' ∈ m.keys ∨ k' = k := by
  rw [keys_update]
  by_cases h : k ∈ m.keys
  · rw [if_pos h]
    exact ⟨Or.inl, fun h' => h'.elim id fun e => e ▸ h⟩
  · rw [if_neg h]
    simp

/-- The keys of a map that is made from entries are those of the entries. -/
theorem mem_keys_ofList (es : List (κ × υ)) (k : κ) :
    k ∈ (ofList es).keys ↔ k ∈ es.map Prod.fst := by
  suffices key : ∀ (es : List (κ × υ)) (m : OrderedMap κ υ),
      k ∈ (es.foldl (fun m e => m.insert e.1 e.2) m).keys
        ↔ k ∈ m.keys ∨ k ∈ es.map Prod.fst by
    have h := key es empty
    rw [keys_empty] at h
    exact h.trans (by simp)
  intro es
  induction es with
  | nil => simp
  | cons e es ih =>
      intro m
      rw [List.foldl_cons, ih]
      unfold insert
      rw [mem_keys_update, List.map_cons, List.mem_cons, or_assoc]

theorem updateEntries_of_not_mem {k : κ} (f : Option υ → υ) {es : List (κ × υ)}
    (h : k ∉ es.map Prod.fst) :
    updateEntries k f es = es ++ [(k, f none)] := by
  induction es with
  | nil => rfl
  | cons e es ih =>
      rw [List.map_cons, List.mem_cons, not_or] at h
      simp [updateEntries, Ne.symm h.1, ih h.2]

/-- Entries with different keys are the entries of the map that is made from
them. -/
theorem entries_ofList {es : List (κ × υ)} (h : (es.map Prod.fst).Nodup) :
    (ofList es).entries = es := by
  suffices key : ∀ (es : List (κ × υ)) (m : OrderedMap κ υ),
      ((m.entries ++ es).map Prod.fst).Nodup →
      (es.foldl (fun m e => m.insert e.1 e.2) m).entries = m.entries ++ es from
    key es empty h
  intro es
  induction es with
  | nil => simp
  | cons e es ih =>
      intro m hnodup
      have hnew : e.1 ∉ m.entries.map Prod.fst := by
        rw [List.map_append, List.nodup_append] at hnodup
        exact fun hmem => hnodup.2.2 e.1 hmem e.1 (by simp) rfl
      have hentries : (m.insert e.1 e.2).entries = m.entries ++ [e] :=
        updateEntries_of_not_mem _ hnew
      rw [List.foldl_cons, ih, hentries, List.append_assoc]
      · rfl
      · rw [hentries, List.append_assoc]
        exact hnodup

/-- The first entry answers for its key and the others for all else. -/
theorem lookup_entries_cons (a k : κ) (v : υ) (es : List (κ × υ)) :
    ((a, v) :: es).lookup k = if k = a then some v else es.lookup k := by
  rw [List.lookup_cons]
  by_cases h : k = a
  · simp [h]
  · have hb : (k == a) = false := beq_false_of_ne h
    simp [h, hb]

/-- A write is read back at its key and changes nothing elsewhere. -/
theorem lookup_updateEntries (k k' : κ) (f : Option υ → υ)
    (es : List (κ × υ)) :
    (updateEntries k f es).lookup k'
      = if k' = k then some (f (es.lookup k)) else es.lookup k' := by
  induction es with
  | nil => simp [updateEntries, lookup_entries_cons]
  | cons e es ih =>
    obtain ⟨a, v⟩ := e
    by_cases ha : a = k
    · subst ha
      by_cases h : k' = a <;> simp [updateEntries, lookup_entries_cons, h]
    · have ha' : k ≠ a := fun e => ha e.symm
      simp only [updateEntries, ha, if_false, lookup_entries_cons, ih, ha']
      by_cases h : k' = a
      · simp [h, ha]
      · simp [h]

/-- A write is read back at its key and changes nothing elsewhere. -/
theorem lookup_update (m : OrderedMap κ υ) (k k' : κ) (f : Option υ → υ) :
    (m.update k f).lookup k' = if k' = k then some (f (m.lookup k))
      else m.lookup k' :=
  lookup_updateEntries k k' f m.entries

end OrderedMap

end ShiftReduce
