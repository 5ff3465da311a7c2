/-
Numbers of terminals, and sets by their elements.

Every terminal of a grammar has a number, and by a number a terminal is
looked up that has this number. It is the only one as long as there are no
more terminals than numbers: then the look-up gives back the terminal from
which the number was taken.

A set of terminals is a number, but all that the theory asks is which
elements it has: the list of its elements has exactly them and each once,
so a larger set has at least as many, and a larger set that has no more
elements is the same set. The names of a set are the terminals that are
looked up by its elements.
-/
import Mathlib.Data.List.Nodup
import Mathlib.Data.List.Perm.Subperm
import ShiftReduce.Analysis.TerminalSet
import ShiftReduce.Proofs.Collections.Lookup

namespace ShiftReduce

-- =========================================================== numbers

namespace TerminalId

variable {terminals : OrderedSet Symbol} {symbol : Symbol} {t : TerminalId}

theorem of?_eq_some_iff :
    of? terminals symbol = some t
      ↔ ∃ i : Nat, terminals.elements[i]? = some symbol ∧ ↑i = t := by
  unfold of?
  rw [Option.map_eq_some_iff]
  simp only [OrderedSet.indexOf?_eq_some_iff]

/-- Every terminal has a number. -/
theorem exists_of? (h : symbol ∈ terminals) :
    ∃ t, of? terminals symbol = some t := by
  obtain ⟨i, hi⟩ := OrderedSet.exists_position h
  exact ⟨i, of?_eq_some_iff.mpr ⟨i, hi, rfl⟩⟩

theorem mem_of_of? (h : of? terminals symbol = some t) :
    symbol ∈ terminals := by
  obtain ⟨i, hi, -⟩ := of?_eq_some_iff.mp h
  exact OrderedSet.mem_of_position hi

theorem mem_of_name? (h : t.name? terminals = some symbol) :
    symbol ∈ terminals :=
  OrderedSet.mem_of_position h

/-- The terminal that is looked up by a number has that number. -/
theorem of?_of_name? (h : t.name? terminals = some symbol) :
    of? terminals symbol = some t :=
  of?_eq_some_iff.mpr ⟨t.position, h, t.ofPosition_position⟩

/-- A number of a terminal refers to a position that exists. -/
theorem position_lt_size (h : of? terminals symbol = some t) :
    t.position < terminals.size := by
  obtain ⟨i, hi, rfl⟩ := of?_eq_some_iff.mp h
  obtain ⟨hlt, -⟩ := List.getElem?_eq_some_iff.mp hi
  rw [position_ofPosition]
  exact Nat.lt_of_le_of_lt (Nat.mod_le i limit) hlt

/-- By the number of a terminal some terminal is looked up. -/
theorem exists_name? (h : of? terminals symbol = some t) :
    ∃ other, t.name? terminals = some other :=
  ⟨_, List.getElem?_eq_getElem (position_lt_size h)⟩

/-- If there are no more terminals than numbers, it is the same terminal. -/
theorem name?_of_of? (hsize : terminals.size ≤ limit)
    (h : of? terminals symbol = some t) : t.name? terminals = some symbol := by
  obtain ⟨i, hi, rfl⟩ := of?_eq_some_iff.mp h
  obtain ⟨hlt, -⟩ := List.getElem?_eq_some_iff.mp hi
  unfold name?
  rw [position_ofPosition, Nat.mod_eq_of_lt (Nat.lt_of_lt_of_le hlt hsize)]
  exact hi

end TerminalId

namespace TerminalSet

-- ============================================================ elements

theorem testBit_iff {s : TerminalSet} {i : Nat} :
    s.bits.testBit i = true ↔ ∃ t : TerminalId, t.position = i
      ∧ s.contains t = true := by
  constructor
  · intro h
    have hi : (TerminalId.ofPosition i).position = i := by
      rw [TerminalId.position_ofPosition, Nat.mod_eq_of_lt (s.bounded i h)]
    refine ⟨i, hi, ?_⟩
    unfold contains
    rwa [hi]
  · rintro ⟨t, rfl, h⟩
    exact h

theorem mem_toList_iff {s : TerminalSet} {t : TerminalId} :
    t ∈ s.toList ↔ s.contains t = true := by
  unfold toList
  simp only [List.mem_map, List.mem_filter, List.mem_range, testBit_iff]
  constructor
  · rintro ⟨-, ⟨-, u, rfl, hu⟩, rfl⟩
    rwa [TerminalId.ofPosition_position]
  · intro h
    have hle : 2 ^ t.position ≤ s.bits := Nat.ge_two_pow_of_testBit h
    have hpos : s.bits ≠ 0 := by
      have := Nat.two_pow_pos t.position
      omega
    refine ⟨t.position, ⟨?_, t, rfl, h⟩, t.ofPosition_position⟩
    exact Nat.lt_succ_of_le ((Nat.le_log2 hpos).mpr hle)

theorem nodup_toList (s : TerminalSet) : s.toList.Nodup := by
  refine (List.nodup_range.filter _).map_on fun i hi j hj heq => ?_
  have hi := s.bounded i (List.mem_filter.mp hi).2
  have hj := s.bounded j (List.mem_filter.mp hj).2
  have hpositions := congrArg TerminalId.position heq
  rwa [TerminalId.position_ofPosition, TerminalId.position_ofPosition,
    Nat.mod_eq_of_lt hi, Nat.mod_eq_of_lt hj] at hpositions

/-- Every element of the first set is one of the second. -/
instance : LE TerminalSet :=
  ⟨fun a b => ∀ t, a.contains t = true → b.contains t = true⟩

theorem le_refl (a : TerminalSet) : a ≤ a := fun _ h => h

theorem le_trans {a b c : TerminalSet} (h : a ≤ b) (h' : b ≤ c) : a ≤ c :=
  fun t ht => h' t (h t ht)

theorem empty_le (a : TerminalSet) : empty ≤ a := by
  intro t h
  rw [contains_empty] at h
  cases h

theorem le_union_left (a b : TerminalSet) : a ≤ a.union b := by
  intro t h
  rw [contains_union, h, Bool.true_or]

theorem le_union_right (a b : TerminalSet) : b ≤ a.union b := by
  intro t h
  rw [contains_union, h, Bool.or_true]

theorem union_le {a b c : TerminalSet} (h : a ≤ c) (h' : b ≤ c) :
    a.union b ≤ c := by
  intro t ht
  rw [contains_union, Bool.or_eq_true] at ht
  exact ht.elim (h t) (h' t)

theorem le_antisymm {a b : TerminalSet} (h : a ≤ b) (h' : b ≤ a) : a = b :=
  ext_contains fun t => Bool.eq_iff_iff.mpr ⟨h t, h' t⟩

-- ================================================================ size

theorem subperm_of_le {a b : TerminalSet} (h : a ≤ b) :
    a.toList.Subperm b.toList := by
  refine List.subperm_of_subset a.nodup_toList fun t ht => ?_
  rw [mem_toList_iff] at ht ⊢
  exact h t ht

theorem size_le_of_le {a b : TerminalSet} (h : a ≤ b) : a.size ≤ b.size :=
  (subperm_of_le h).length_le

/-- A larger set with no more elements is the same set. -/
theorem eq_of_le_of_size_le {a b : TerminalSet} (h : a ≤ b)
    (hsize : b.size ≤ a.size) : a = b := by
  refine le_antisymm h fun t ht => ?_
  have hperm := (subperm_of_le h).perm_of_length_le hsize
  rw [← mem_toList_iff] at ht ⊢
  exact hperm.mem_iff.mpr ht

-- =============================================================== names

/-- The names of a set are the terminals that are looked up by its
elements. -/
theorem mem_names_iff {terminals : OrderedSet Symbol} {s : TerminalSet}
    {symbol : Symbol} :
    symbol ∈ s.names terminals
      ↔ ∃ t, s.contains t = true ∧ t.name? terminals = some symbol := by
  unfold names
  rw [List.mem_filterMap]
  simp only [mem_toList_iff]

theorem mem_of_mem_names {terminals : OrderedSet Symbol} {s : TerminalSet}
    {symbol : Symbol} (h : symbol ∈ s.names terminals) :
    symbol ∈ terminals := by
  obtain ⟨t, -, ht⟩ := mem_names_iff.mp h
  exact TerminalId.mem_of_name? ht

end TerminalSet

end ShiftReduce
