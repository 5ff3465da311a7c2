/-
How far one can go in a relation.

In a finite set the elements that can be reached from an element are
finitely many, and an element that is not on a circle can reach fewer of
them than one that leads to it. So the number of elements that can be
reached is a rank that falls with every step, as long as no circle is met.
-/
import Mathlib.Data.Finset.Card
import Mathlib.Logic.Relation

namespace ShiftReduce

variable {α : Type} {s : Finset α} {R : α → α → Prop}

open Classical in
/-- How many elements of a set can be reached from an element in one step or
more. -/
noncomputable def rank (s : Finset α) (R : α → α → Prop) (a : α) : Nat :=
  (s.filter fun b => Relation.TransGen R a b).card

theorem rank_le_card (a : α) : rank s R a ≤ s.card := by
  classical
  unfold rank
  exact Finset.card_filter_le s _

/-- A step to an element that is not on a circle lowers the rank. -/
theorem rank_lt {a b : α} (hstep : R a b) (hb : b ∈ s)
    (hcircle : ¬ Relation.TransGen R b b) : rank s R b < rank s R a := by
  classical
  unfold rank
  apply Finset.card_lt_card
  rw [Finset.ssubset_iff_of_subset]
  · refine ⟨b, ?_, ?_⟩
    · simp [hb, Relation.TransGen.single hstep]
    · simp [hcircle]
  · intro c hc
    rw [Finset.mem_filter] at hc ⊢
    exact ⟨hc.1, Relation.TransGen.head hstep hc.2⟩

end ShiftReduce
