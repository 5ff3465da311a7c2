/-
Terminals by number, and sets of them.

A terminal is referred to by a number of sixteen bits, which are the lower
bits of its position among the terminals of a grammar. Among the first 65536
terminals no two have the same number. A terminal behind them shares its
number with an earlier one, and a number that is read as a name again is the
name of the earlier one.

A set of terminals is a natural number with one bit for each terminal
number. Union is the bitwise disjunction, so equal sets are equal numbers
whatever the order in which their elements arrived, and the elements are
listed in the order of their numbers.
-/
import ShiftReduce.Grammar

namespace ShiftReduce

-- =========================================================== numbers

/-- The number of a terminal. -/
structure TerminalId where
  raw : UInt16
deriving DecidableEq, Repr

namespace TerminalId

/-- How many numbers there are. -/
def limit : Nat := 65536

/-- The number of the terminal at a position. -/
@[coe] def ofPosition (position : Nat) : TerminalId := ⟨position.toUInt16⟩

instance : Coe Nat TerminalId := ⟨ofPosition⟩

/-- The position at which the terminal with a number is looked up. -/
def position (t : TerminalId) : Nat := t.raw.toNat

/-- The number of a terminal, if the grammar has it. -/
def of? (terminals : OrderedSet Symbol) (symbol : Symbol) :
    Option TerminalId :=
  (terminals.indexOf? symbol).map ofPosition

/-- The terminal that is looked up by a number. -/
def name? (terminals : OrderedSet Symbol) (t : TerminalId) : Option Symbol :=
  terminals.elements[t.position]?

theorem position_lt (t : TerminalId) : t.position < limit :=
  t.raw.toNat_lt

/-- Positions that are a multiple of the limit apart have one number. -/
@[simp] theorem position_ofPosition (i : Nat) :
    (ofPosition i).position = i % limit :=
  UInt16.toNat_ofNat'

@[simp] theorem ofPosition_position (t : TerminalId) :
    ofPosition t.position = t :=
  congrArg mk (UInt16.ofNat_toNat)

theorem position_inj {t u : TerminalId} : t.position = u.position ↔ t = u := by
  refine ⟨fun h => ?_, congrArg position⟩
  rw [← ofPosition_position t, h, ofPosition_position]

end TerminalId

-- ============================================================== sets

/-- A set of terminal numbers. -/
structure TerminalSet where
  /-- Bit `t` is set when terminal `t` is an element. -/
  bits : Nat
  /-- There are no bits but those of terminal numbers. -/
  bounded : ∀ i, bits.testBit i = true → i < TerminalId.limit
deriving DecidableEq, Repr

namespace TerminalSet

/-- The set without elements. -/
def empty : TerminalSet := ⟨0, by simp⟩

/-- Whether a terminal is an element. -/
def contains (s : TerminalSet) (t : TerminalId) : Bool :=
  s.bits.testBit t.position

/-- The union of two sets. -/
def union (s t : TerminalSet) : TerminalSet :=
  ⟨s.bits ||| t.bits, fun i h => by
    rw [Nat.testBit_or, Bool.or_eq_true] at h
    exact h.elim (s.bounded i) (t.bounded i)⟩

/-- The set with one element. -/
def singleton (t : TerminalId) : TerminalSet :=
  ⟨Nat.pow 2 t.position, fun i h => by
    have hi : t.position = i :=
      of_decide_eq_true (Nat.testBit_two_pow.symm.trans h)
    exact hi ▸ t.position_lt⟩

/-- Add an element. -/
def insert (s : TerminalSet) (t : TerminalId) : TerminalSet :=
  s.union (singleton t)

/-- The set of the terminals at the positions in a list. -/
def ofList (positions : List Nat) : TerminalSet :=
  positions.foldl (fun s (position : Nat) => s.insert position) empty

/-- The elements in ascending order. No element exceeds the binary
logarithm of the number that holds the bits. -/
def toList (s : TerminalSet) : List TerminalId :=
  ((List.range (s.bits.log2 + 1)).filter s.bits.testBit).map
    TerminalId.ofPosition

/-- The number of elements. -/
def size (s : TerminalSet) : Nat := s.toList.length

/-- Whether there is no element. -/
def isEmpty (s : TerminalSet) : Bool := s.bits == 0

/-- Whether every element of the first set is one of the second. -/
def isSubset (s t : TerminalSet) : Bool := s.union t == t

/-- The names of the elements, given the terminals of the grammar. -/
def names (terminals : OrderedSet Symbol) (s : TerminalSet) : List Symbol :=
  s.toList.filterMap (TerminalId.name? terminals)

/-- The text of a set: the names of its elements in braces. -/
def toText (terminals : OrderedSet Symbol) (s : TerminalSet) : String :=
  "\x7b" ++ Text.spaced (s.names terminals) ++ "\x7d"

-- ============================================================= views

@[simp] theorem contains_empty (t : TerminalId) :
    empty.contains t = false := by
  simp [contains, empty]

@[simp] theorem contains_union (a b : TerminalSet) (t : TerminalId) :
    (a.union b).contains t = (a.contains t || b.contains t) := by
  simp [contains, union]

@[simp] theorem contains_singleton (t u : TerminalId) :
    (singleton u).contains t = decide (u = t) := by
  simp [contains, singleton, Nat.testBit_two_pow, TerminalId.position_inj]

/-- Sets with the same elements are equal. -/
theorem ext_contains {a b : TerminalSet}
    (h : ∀ t, a.contains t = b.contains t) : a = b := by
  have hbits : a.bits = b.bits := by
    apply Nat.eq_of_testBit_eq
    intro i
    by_cases hi : i < TerminalId.limit
    · have hcontains := h (TerminalId.ofPosition i)
      unfold contains at hcontains
      rwa [TerminalId.position_ofPosition, Nat.mod_eq_of_lt hi] at hcontains
    · rw [Bool.eq_false_iff.mpr fun ha => hi (a.bounded i ha),
        Bool.eq_false_iff.mpr fun hb => hi (b.bounded i hb)]
  cases a
  cases b
  cases hbits
  rfl

end TerminalSet

end ShiftReduce
