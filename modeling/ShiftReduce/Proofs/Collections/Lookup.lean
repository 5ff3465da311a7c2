/-
Reading ordered sets and maps.

A set answers by position and a map by key, and both questions are
questions about the list behind the value. The lemmas here say so once, so
that the theory of the automaton speaks of membership and look-up and not
of lists: `indexOf?` and the position are inverse to each other, and
`lookup` is membership of an entry because no key is repeated. Before them
stands what is used of lists that are related element by element.
-/
import Mathlib.Data.List.Forall2
import ShiftReduce.Collections.OrderedMap

namespace ShiftReduce

-- ===================================================== related lists

/-- Lists that are related element by element are related at every
position. -/
theorem forall₂_getElem? {α β : Type} {R : α → β → Prop} {as : List α}
    {bs : List β} (h : List.Forall₂ R as bs) (i : Nat) :
    Option.Rel R as[i]? bs[i]? := by
  induction h generalizing i with
  | nil => exact .none
  | cons hhead _ ih =>
      cases i with
      | zero => exact .some hhead
      | succ i => exact ih i

/-- And every element of the one is related to an element of the other. -/
theorem exists_left_of_forall₂ {α β : Type} {R : α → β → Prop} {as : List α}
    {bs : List β} (h : List.Forall₂ R as bs) {b : β} (hb : b ∈ bs) :
    ∃ a ∈ as, R a b := by
  induction h with
  | nil => cases hb
  | cons hhead _ ih =>
      rcases List.mem_cons.mp hb with rfl | hb
      · exact ⟨_, List.mem_cons_self, hhead⟩
      · obtain ⟨a, ha, hrel⟩ := ih hb
        exact ⟨a, List.mem_cons_of_mem _ ha, hrel⟩

theorem exists_right_of_forall₂ {α β : Type} {R : α → β → Prop} {as : List α}
    {bs : List β} (h : List.Forall₂ R as bs) {a : α} (ha : a ∈ as) :
    ∃ b ∈ bs, R a b :=
  exists_left_of_forall₂ h.flip ha

/-- A list whose elements are all related to something is related to a
list. -/
theorem exists_forall₂ {α β : Type} {R : α → β → Prop} {as : List α}
    (h : ∀ a ∈ as, ∃ b, R a b) : ∃ bs, List.Forall₂ R as bs := by
  induction as with
  | nil => exact ⟨[], .nil⟩
  | cons a as ih =>
      rw [List.forall_mem_cons] at h
      obtain ⟨b, hb⟩ := h.1
      obtain ⟨bs, hbs⟩ := ih h.2
      exact ⟨b :: bs, .cons hb hbs⟩

/-- A function that may fail has results for all elements of a list exactly if
it has one for each of them. -/
theorem mapM_eq_some_iff_forall₂ {α β : Type} {f : α → Option β} {as : List α}
    {bs : List β} :
    as.mapM f = some bs ↔ List.Forall₂ (fun a b => f a = some b) as bs := by
  constructor
  · intro h
    induction as generalizing bs with
    | nil =>
        cases h
        exact .nil
    | cons a as ih =>
        rw [List.mapM_cons] at h
        obtain ⟨b, hb, h⟩ := Option.bind_eq_some_iff.mp h
        obtain ⟨rest, hrest, h⟩ := Option.bind_eq_some_iff.mp h
        cases h
        exact .cons hb (ih hrest)
  · intro h
    induction h with
    | nil => rfl
    | cons hhead _ ih =>
        rw [List.mapM_cons, hhead, ih]
        rfl

-- ========================================================= positions

namespace OrderedSet

variable {α : Type}

theorem position_unique (s : OrderedSet α) {a : α} {i j : Nat}
    (hi : s.elements[i]? = some a) (hj : s.elements[j]? = some a) : i = j := by
  obtain ⟨hlt, -⟩ := List.getElem?_eq_some_iff.mp hi
  exact (List.getElem?_inj hlt s.nodup).mp (hi.trans hj.symm)

theorem exists_position {s : OrderedSet α} {a : α} (h : a ∈ s) :
    ∃ i : Nat, s.elements[i]? = some a :=
  List.getElem?_of_mem h

theorem mem_of_position {s : OrderedSet α} {a : α} {i : Nat}
    (h : s.elements[i]? = some a) : a ∈ s :=
  List.mem_of_getElem? h

variable [DecidableEq α]

/-- The position that is answered is the one where the element stands. -/
theorem indexOf?_eq_some_iff (s : OrderedSet α) {a : α} {i : Nat} :
    s.indexOf? a = some i ↔ s.elements[i]? = some a := by
  unfold indexOf?
  rw [List.idxOf?_eq_some_iff]
  constructor
  · intro h
    obtain ⟨hlt, heq, -⟩ := h
    rw [List.getElem?_eq_getElem hlt, heq]
  · intro h
    obtain ⟨hlt, heq⟩ := List.getElem?_eq_some_iff.mp h
    refine ⟨hlt, heq, ?_⟩
    intro j hj hja
    have hj' : s.elements[j]? = some a := by
      rw [List.getElem?_eq_getElem (by omega), hja]
    exact absurd (s.position_unique hj' h) (by omega)

@[simp] theorem mem_erase {s : OrderedSet α} {a b : α} :
    b ∈ s.erase a ↔ b ≠ a ∧ b ∈ s :=
  (swapOut_perm a s.elements).mem_iff.trans s.nodup.mem_erase_iff

end OrderedSet

-- ============================================================ entries

namespace OrderedMap

variable {κ υ : Type}

/-- The position of a key determines the key's entry. -/
theorem entryAt?_zip (ks : OrderedSet κ) (vs : List υ) (i : Nat) :
    (zip ks vs).entryAt? i
      = (ks.elements[i]?).bind fun k => (vs[i]?).map fun v => (k, v) := by
  unfold entryAt? zip
  cases hk : ks.elements[i]? with
  | none =>
      have hlen := List.getElem?_eq_none_iff.mp hk
      rw [List.getElem?_eq_none_iff.mpr (by simp; omega)]
      rfl
  | some k =>
      cases hv : vs[i]? with
      | none =>
          have hlen := List.getElem?_eq_none_iff.mp hv
          rw [List.getElem?_eq_none_iff.mpr (by simp; omega)]
          rfl
      | some v => exact List.getElem?_zip_eq_some.mpr ⟨hk, hv⟩

theorem keys_zip (ks : OrderedSet κ) {vs : List υ}
    (h : ks.elements.length = vs.length) : (zip ks vs).keys = ks.elements :=
  List.map_fst_zip (by omega)

variable [DecidableEq κ]

/-- A key has a value exactly when the two make an entry. -/
theorem lookup_eq_some_iff (m : OrderedMap κ υ) {k : κ} {v : υ} :
    m.lookup k = some v ↔ (k, v) ∈ m.entries := by
  unfold lookup
  rw [List.lookup_eq_some_iff]
  constructor
  · intro h
    obtain ⟨l₁, l₂, h, -⟩ := h
    rw [h]
    simp
  · intro h
    obtain ⟨l₁, l₂, hl⟩ := List.append_of_mem h
    refine ⟨l₁, l₂, hl, ?_⟩
    intro p hp
    have hnd := m.nodup
    rw [hl, List.map_append, List.map_cons] at hnd
    have hne :=
      (List.nodup_append.mp hnd).2.2 p.1 (List.mem_map_of_mem hp) k (by simp)
    exact bne_iff_ne.mpr fun e => hne e.symm

theorem mem_keys_iff (m : OrderedMap κ υ) {k : κ} :
    k ∈ m.keys ↔ ∃ v, m.lookup k = some v := by
  unfold keys
  rw [List.mem_map]
  constructor
  · intro h
    obtain ⟨⟨k', v⟩, hmem, rfl⟩ := h
    exact ⟨v, m.lookup_eq_some_iff.mpr hmem⟩
  · intro h
    obtain ⟨v, hv⟩ := h
    exact ⟨(k, v), m.lookup_eq_some_iff.mp hv, rfl⟩

theorem contains_iff (m : OrderedMap κ υ) {k : κ} :
    m.contains k = true ↔ k ∈ m.keys := by
  simp [contains]

/-- A value is some key's value. -/
theorem mem_values_iff (m : OrderedMap κ υ) {v : υ} :
    v ∈ m.values ↔ ∃ k, m.lookup k = some v := by
  unfold values
  rw [List.mem_map]
  constructor
  · intro h
    obtain ⟨⟨k, v'⟩, hmem, rfl⟩ := h
    exact ⟨k, m.lookup_eq_some_iff.mpr hmem⟩
  · intro h
    obtain ⟨k, hk⟩ := h
    exact ⟨(k, v), m.lookup_eq_some_iff.mp hk, rfl⟩

theorem lookup_insert (m : OrderedMap κ υ) (k k' : κ) (v : υ) :
    (m.insert k v).lookup k' = if k' = k then some v else m.lookup k' :=
  lookup_update m k k' _

theorem updateEntries_append (k : κ) (f : Option υ → υ)
    (es fs : List (κ × υ)) :
    updateEntries k f (es ++ fs)
      = if k ∈ es.map Prod.fst then updateEntries k f es ++ fs
        else es ++ updateEntries k f fs := by
  induction es with
  | nil => rfl
  | cons e es ih =>
      obtain ⟨k', v⟩ := e
      by_cases h : k' = k
      · simp [updateEntries, h]
      · have h' : k ≠ k' := fun e => h e.symm
        simp only [List.cons_append, updateEntries, h, if_false, ih,
          List.map_cons, List.mem_cons, h', false_or]
        split <;> rfl

/-- If the entries of a map are those of two others, a write at a key of the
first one leaves the second one as it is. -/
theorem entries_update_left {m left right : OrderedMap κ υ}
    (h : m.entries = left.entries ++ right.entries) {k : κ}
    (hk : k ∈ left.keys) (f : Option υ → υ) :
    (m.update k f).entries = (left.update k f).entries ++ right.entries := by
  unfold update
  dsimp only
  rw [h, updateEntries_append]
  exact if_pos hk

/-- And a write at another key leaves the first one as it is. -/
theorem entries_update_right {m left right : OrderedMap κ υ}
    (h : m.entries = left.entries ++ right.entries) {k : κ}
    (hk : k ∉ left.keys) (f : Option υ → υ) :
    (m.update k f).entries = left.entries ++ (right.update k f).entries := by
  unfold update
  dsimp only
  rw [h, updateEntries_append]
  exact if_neg hk

theorem ofList_entries (m : OrderedMap κ υ) : ofList m.entries = m :=
  ext_entries (entries_ofList m.nodup)

/-- If every entry has the same value, so has every key of the map. -/
theorem lookup_ofList_const (ks : List κ) (v : υ) (k : κ) :
    (ofList (ks.map fun k => (k, v))).lookup k = if k ∈ ks
      then some v else none := by
  suffices key : ∀ (ks : List κ) (m : OrderedMap κ υ),
      ((ks.map fun k => (k, v)).foldl (fun m e => m.insert e.1 e.2) m).lookup k
        = if k ∈ ks then some v else m.lookup k by
    exact key ks empty
  intro ks
  induction ks with
  | nil => simp
  | cons a ks ih =>
      intro m
      rw [List.map_cons, List.foldl_cons, ih, lookup_insert]
      by_cases hk : k ∈ ks
      · simp [hk]
      · by_cases ha : k = a <;> simp [hk, ha]

omit [DecidableEq κ] in
/-- A map remains the same if its values do. -/
theorem mapValues_eq_self_iff (m : OrderedMap κ υ) {f : υ → υ} :
    m.mapValues f = m ↔ ∀ e ∈ m.entries, f e.2 = e.2 := by
  have hentries : m.mapValues f = m
      ↔ m.entries.map (fun e => (e.1, f e.2)) = m.entries.map id := by
    rw [List.map_id]
    constructor
    · exact congrArg entries
    · exact fun h => ext_entries h
  rw [hentries, List.map_inj_left]
  apply forall₂_congr
  intro e _
  rw [id, Prod.ext_iff]
  exact and_iff_right rfl

/-- Filtering the values of a map filters the answers. -/
theorem lookup_filterMapValues {ω : Type} (m : OrderedMap κ υ)
    (f : υ → Option ω) (k : κ) :
    (m.filterMapValues f).lookup k = (m.lookup k).bind f := by
  suffices key : ∀ w, (m.filterMapValues f).lookup k = some w
      ↔ (m.lookup k).bind f = some w from Option.ext key
  intro w
  rw [lookup_eq_some_iff, Option.bind_eq_some_iff]
  unfold filterMapValues
  rw [List.mem_filterMap]
  constructor
  · intro h
    obtain ⟨⟨k', v⟩, hmem, hf⟩ := h
    obtain ⟨w', hw, heq⟩ := Option.map_eq_some_iff.mp hf
    cases heq
    exact ⟨v, m.lookup_eq_some_iff.mpr hmem, hw⟩
  · intro h
    obtain ⟨v, hv, hw⟩ := h
    exact ⟨(k, v), m.lookup_eq_some_iff.mp hv, by rw [hw]; rfl⟩

end OrderedMap

end ShiftReduce
