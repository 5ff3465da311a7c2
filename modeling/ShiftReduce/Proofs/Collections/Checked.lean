/-
Look-ups that must succeed.

A look-up in a map or a set may find nothing, and most functions of the
library go on with a value of their own if it does. A checked function is
written without such a value: where the look-up finds nothing, neither the
function nor anything that calls it has a result. So a checked function that
has a result has found whatever it looked for, and that result is the one of
the function it checks.

Here is what all of them are made of: a write to a key that must be there, a
fold and a repetition that end as soon as one step fails, and the lemmas by
which they have a result, given an invariant under which every step has one.
-/
import ShiftReduce.Collections.Settle
import ShiftReduce.Proofs.Collections.Lookup

namespace ShiftReduce

-- ========================================================== repetition

section

variable {α β : Type} {P : β → Prop}

/-- A fold whose steps have results while an invariant holds has a result,
and the invariant holds of it. -/
theorem foldlM_eq_some {checked : β → α → Option β} {f : β → α → β}
    {as : List α}
    (hstep : ∀ b, P b → ∀ a ∈ as, checked b a = some (f b a) ∧ P (f b a))
    {b : β} (h : P b) :
    as.foldlM checked b = some (as.foldl f b) ∧ P (as.foldl f b) := by
  induction as generalizing b with
  | nil => exact ⟨rfl, h⟩
  | cons a as ih =>
      obtain ⟨hfirst, hkept⟩ := hstep b h a List.mem_cons_self
      rw [List.foldlM_cons, hfirst, List.foldl_cons]
      exact ih
        (fun b hb a ha => hstep b hb a (List.mem_cons_of_mem _ ha)) hkept

theorem mapM_eq_some {checked : α → Option β} {f : α → β} {as : List α}
    (h : ∀ a ∈ as, checked a = some (f a)) :
    as.mapM checked = some (as.map f) := by
  rw [mapM_eq_some_iff_forall₂, List.forall₂_map_right_iff, List.forall₂_same]
  exact h

theorem mapM_eq_some_filterMap {f : α → Option β} {as : List α}
    (h : ∀ a ∈ as, ∃ b, f a = some b) : as.mapM f = some (as.filterMap f) := by
  induction as with
  | nil => rfl
  | cons a as ih =>
      rw [List.forall_mem_cons] at h
      obtain ⟨b, hb⟩ := h.1
      rw [List.mapM_cons, hb, ih h.2, List.filterMap_cons_some hb]
      rfl

/-- Repeat a pass that may fail for as long as it lowers `missing`. -/
def checkedSettle (missing : β → Nat) (pass : β → Option β) (b : β) :
    Option β :=
  match pass b with
  | none => none
  | some next =>
    if missing next < missing b then checkedSettle missing pass next
      else some b
termination_by missing b

theorem checkedSettle_eq {missing : β → Nat} {checked : β → Option β}
    {pass : β → β} (hstep : ∀ b, P b → checked b = some (pass b) ∧ P (pass b))
    (b : β) (h : P b) :
    checkedSettle missing checked b = some (settle missing pass b) := by
  obtain ⟨hpass, hkept⟩ := hstep b h
  rw [checkedSettle, settle_eq, hpass]
  by_cases hlower : missing (pass b) < missing b
  · simp only [hlower, if_true]
    exact checkedSettle_eq hstep (pass b) hkept
  · simp only [hlower, if_false]
termination_by missing b

end

-- =============================================================== writes

namespace OrderedMap

variable {κ υ ω : Type}

/-- Write to a key that must be there. -/
def checkedUpdate [DecidableEq κ] (m : OrderedMap κ υ) (k : κ) (f : υ → υ) :
    Option (OrderedMap κ υ) :=
  (m.lookup k).map fun v => m.insert k (f v)

/-- Keep the entries whose values have an image, where each value must be
known to have one or to have none. -/
def checkedFilterMapValues (m : OrderedMap κ υ) (f : υ → Option (Option ω)) :
    Option (OrderedMap κ ω) :=
  (m.values.mapM f).map fun _ => m.filterMapValues fun v => (f v).join

theorem checkedFilterMapValues_eq {m : OrderedMap κ υ}
    {checked : υ → Option (Option ω)} {f : υ → Option ω}
    (h : ∀ v ∈ m.values, checked v = some (f v)) :
    m.checkedFilterMapValues checked = some (m.filterMapValues f) := by
  unfold checkedFilterMapValues
  rw [mapM_eq_some h, Option.map_some, Option.some_inj]
  apply ext_entries
  apply List.filterMap_congr
  intro e he
  show (checked e.2).join.map (e.1, ·) = (f e.2).map (e.1, ·)
  rw [h e.2 (List.mem_map_of_mem he)]
  rfl

variable [DecidableEq κ]

theorem updateEntries_eq (k : κ) (f : Option υ → υ) (es : List (κ × υ)) :
    updateEntries k f es = updateEntries k (fun _ => f (es.lookup k)) es := by
  induction es with
  | nil => rfl
  | cons e es ih =>
      obtain ⟨a, v⟩ := e
      rw [updateEntries, updateEntries, lookup_entries_cons]
      by_cases ha : a = k
      · simp only [ha, if_true]
      · rw [if_neg ha, if_neg ha, if_neg fun hk : k = a => ha hk.symm, ih]

/-- To change the value of a key is to store the changed value. -/
theorem update_eq_insert (m : OrderedMap κ υ) (k : κ) (f : Option υ → υ) :
    m.update k f = m.insert k (f (m.lookup k)) :=
  ext_entries (updateEntries_eq k f m.entries)

theorem checkedUpdate_eq {m : OrderedMap κ υ} {k : κ} (hk : k ∈ m.keys)
    (f : Option υ → υ) :
    m.checkedUpdate k (fun v => f (some v)) = some (m.update k f) := by
  obtain ⟨v, hv⟩ := m.mem_keys_iff.mp hk
  unfold checkedUpdate
  rw [update_eq_insert, hv, Option.map_some]

end OrderedMap

end ShiftReduce
