/-
Sets that remember the order in which their elements first arrived.

The tables of this library are numbered, listed and printed in the order
in which their parts were first met, so the order is part of every value
and not an accident of a hash. A set is a list without repetition;
`insert` appends an element that is new and leaves the set alone
otherwise, and the position of an element never changes while elements
are only added. Where an element is removed, the last one fills the gap.
`elements` is the view: every operation is described by what it does to
that list.
-/

namespace ShiftReduce

/-- A finite set whose elements are kept in the order of their first
insertion. -/
structure OrderedSet (α : Type) where
  /-- The elements, earliest first. -/
  elements : List α
  /-- No element is listed twice. -/
  nodup : elements.Nodup
deriving DecidableEq

namespace OrderedSet

variable {α : Type} [DecidableEq α]

-- ======================================================== operations

/-- The set without elements. -/
def empty {α : Type} : OrderedSet α := ⟨[], List.nodup_nil⟩

instance : Inhabited (OrderedSet α) := ⟨empty⟩

instance : Membership α (OrderedSet α) := ⟨fun s a => a ∈ s.elements⟩

instance (a : α) (s : OrderedSet α) : Decidable (a ∈ s) :=
  inferInstanceAs (Decidable (a ∈ s.elements))

omit [DecidableEq α] in
/-- Appending an element that is not in a list keeps the list free of
repetitions. -/
theorem nodup_concat {as : List α} {a : α} (h : as.Nodup) (ha : a ∉ as) :
    (as ++ [a]).Nodup := by
  refine List.nodup_append.2 ⟨h, by simp, ?_⟩
  intro x hx y hy hxy
  exact ha (List.mem_singleton.1 hy ▸ hxy ▸ hx)

/-- Add an element at the end, unless it is already there. -/
def insert (s : OrderedSet α) (a : α) : OrderedSet α :=
  if h : a ∈ s.elements then s
  else ⟨s.elements ++ [a], nodup_concat s.nodup h⟩

/-- Add the elements of a list from left to right. -/
def insertAll (s : OrderedSet α) (as : List α) : OrderedSet α :=
  as.foldl insert s

/-- The elements of a list, each at its first occurrence. -/
def ofList (as : List α) : OrderedSet α :=
  empty.insertAll as

/-- Put the last element of a list into the place of an element. -/
def swapOut (a : α) : List α → List α
  | [] => []
  | b :: bs =>
      if b = a then bs.getLast?.toList ++ bs.dropLast else b :: swapOut a bs

/-- But for the order this is the list without that element. -/
theorem swapOut_perm (a : α) (as : List α) :
    (swapOut a as).Perm (as.erase a) := by
  induction as with
  | nil => exact .nil
  | cons b bs ih =>
    by_cases h : b = a
    · subst h
      simp only [swapOut, if_true, List.erase_cons_head]
      rcases List.eq_nil_or_concat bs with rfl | ⟨cs, c, rfl⟩
      · exact .nil
      · simpa using (List.perm_append_singleton c cs).symm
    · rw [List.erase_cons_tail (by simpa using h)]
      simpa [swapOut, h] using ih

/-- Remove an element; the last one takes its place, and no other moves. -/
def erase (s : OrderedSet α) (a : α) : OrderedSet α :=
  ⟨swapOut a s.elements,
    (swapOut_perm a s.elements).nodup_iff.mpr (s.nodup.erase a)⟩

/-- The number of elements. -/
def size (s : OrderedSet α) : Nat := s.elements.length

/-- The position of an element, counted from zero. -/
def indexOf? (s : OrderedSet α) (a : α) : Option Nat := s.elements.idxOf? a

-- ============================================================= views

omit [DecidableEq α] in
@[simp] theorem mem_elements {s : OrderedSet α} {a : α} :
    a ∈ s.elements ↔ a ∈ s :=
  Iff.rfl

omit [DecidableEq α] in
@[simp] theorem elements_empty : (empty : OrderedSet α).elements = [] := rfl

omit [DecidableEq α] in
/-- Two sets with the same list of elements are the same set. -/
@[ext] theorem ext_elements {s t : OrderedSet α}
    (h : s.elements = t.elements) : s = t := by
  cases s
  cases t
  cases h
  rfl

/-- A new element goes to the end, and an old one changes nothing. -/
theorem elements_insert (s : OrderedSet α) (a : α) :
    (s.insert a).elements = if a ∈ s then s.elements
      else s.elements ++ [a] := by
  unfold insert
  by_cases h : a ∈ s.elements
  · simp [h, show a ∈ s from h]
  · simp [h, show a ∉ s from h]

@[simp] theorem mem_insert {s : OrderedSet α} {a b : α} :
    b ∈ s.insert a ↔ b ∈ s ∨ b = a := by
  rw [← mem_elements, elements_insert]
  by_cases h : a ∈ s
  · simp only [h, if_true, mem_elements]
    exact ⟨Or.inl, fun hb => hb.elim id fun e => e ▸ h⟩
  · simp [h]

@[simp] theorem mem_insertAll {s : OrderedSet α} {as : List α} {b : α} :
    b ∈ s.insertAll as ↔ b ∈ s ∨ b ∈ as := by
  unfold insertAll
  induction as generalizing s with
  | nil => simp
  | cons a as ih => simp [ih, or_assoc]

@[simp] theorem mem_ofList {as : List α} {b : α} : b ∈ ofList as ↔ b ∈ as := by
  unfold ofList
  rw [mem_insertAll]
  exact ⟨fun h => h.elim (fun h => nomatch h) id, Or.inr⟩

/-- Earlier elements stay where they are when a set grows. -/
theorem elements_isPrefix_insertAll (s : OrderedSet α) (as : List α) :
    s.elements <+: (s.insertAll as).elements := by
  unfold insertAll
  induction as generalizing s with
  | nil => exact List.prefix_refl _
  | cons a as ih =>
    refine List.IsPrefix.trans ?_ (ih (s.insert a))
    rw [elements_insert]
    split
    · exact List.prefix_refl _
    · exact List.prefix_append _ _

end OrderedSet

end ShiftReduce
