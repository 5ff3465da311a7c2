/-
Derivations.

What a list of symbols stands for is told by rewriting: any occurrence of
the left-hand side of a production may be replaced by its right-hand side,
and a list derives another if finitely many replacements lead from the one
to the other. Which productions may be used is a parameter, because the
engine is judged by the rules of its table whatever they are, and a grammar
sometimes only by those of its rules that are not empty.

Two properties carry the theory. Derivations go on inside of longer lists,
and a derivation from two lists side by side is two derivations side by
side, since every replacement happens in one of them.
-/
import Mathlib.Logic.Relation
import ShiftReduce.Engine.ParseTable

namespace ShiftReduce

/-- The second list of symbols is the first with one left-hand side of a
production replaced by its right-hand side. -/
inductive Rewrites (P : Production → Prop) :
    List Symbol → List Symbol → Prop where
  | replace (before after : List Symbol) {p : Production} (h : P p) :
      Rewrites P (before ++ p.left :: after) (before ++ p.right ++ after)

/-- Finitely many replacements lead from the first list of symbols to the
second. -/
def Derives (P : Production → Prop) : List Symbol → List Symbol → Prop :=
  Relation.ReflTransGen (Rewrites P)

/-- The productions by which a table can reduce. -/
def ParseTable.Produces {σ : Type} (t : ParseTable σ) (p : Production) :
    Prop :=
  ∃ index, t.rule? index = some p

/-- The productions of a grammar that are not empty. -/
def Grammar.Produces (g : Grammar) (p : Production) : Prop :=
  p.right ≠ [] ∧ ∃ rule ∈ g.rules, rule.left = p.left ∧ rule.right = p.right

variable {P : Production → Prop}

-- ============================================================= contexts

namespace Rewrites

/-- A replacement may be made behind other symbols. -/
theorem append_left {u v : List Symbol} (h : Rewrites P u v)
    (w : List Symbol) : Rewrites P (w ++ u) (w ++ v) := by
  cases h with
  | replace before after hp =>
      simpa only [List.append_assoc]
        using Rewrites.replace (w ++ before) after hp

theorem append_right {u v : List Symbol} (h : Rewrites P u v)
    (w : List Symbol) : Rewrites P (u ++ w) (v ++ w) := by
  cases h with
  | replace before after hp =>
      simpa only [List.append_assoc, List.cons_append]
        using Rewrites.replace before (after ++ w) hp

/-- A replacement in two lists side by side is made in one of them. -/
theorem of_append {u v w : List Symbol} (h : Rewrites P (u ++ v) w) :
    (∃ u', w = u' ++ v ∧ Rewrites P u u')
      ∨ ∃ v', w = u ++ v' ∧ Rewrites P v v' := by
  generalize huv : u ++ v = uv at h
  cases h with
  | replace before after hp =>
      rename_i p
      -- the replaced symbol lies in `u` or in `v`
      rcases List.append_eq_append_iff.mp huv with ⟨m, rfl, rfl⟩ | ⟨m, rfl, hm⟩
      · refine Or.inr ⟨m ++ p.right ++ after, ?_, .replace m after hp⟩
        simp only [List.append_assoc]
      · cases m with
        | nil =>
            rw [List.nil_append] at hm
            subst hm
            refine Or.inr ⟨p.right ++ after, ?_, ?_⟩
            · simp only [List.append_nil, List.append_assoc]
            · exact .replace [] after hp
        | cons s m =>
            rw [List.cons_append, List.cons.injEq] at hm
            obtain ⟨rfl, rfl⟩ := hm
            refine Or.inl ⟨before ++ p.right ++ m, ?_, .replace before m hp⟩
            simp only [List.append_assoc]

/-- A single symbol is replaced by the right-hand side of one of its
productions. -/
theorem of_singleton {s : Symbol} {v : List Symbol} (h : Rewrites P [s] v) :
    ∃ p, P p ∧ p.left = s ∧ p.right = v := by
  generalize hu : [s] = u at h
  cases h with
  | replace before after hp =>
      rename_i p
      have hlen := congrArg List.length hu
      simp only [List.length_cons, List.length_nil, List.length_append] at hlen
      obtain rfl :=
        List.length_eq_zero_iff.mp (show before.length = 0 by omega)
      obtain rfl := List.length_eq_zero_iff.mp (show after.length = 0 by omega)
      refine ⟨p, hp, ?_, by simp⟩
      exact (List.cons.inj hu).1.symm

end Rewrites

-- ========================================================== derivations

namespace Derives

theorem refl (u : List Symbol) : Derives P u u := Relation.ReflTransGen.refl

theorem trans {u v w : List Symbol} (h : Derives P u v) (h' : Derives P v w) :
    Derives P u w := Relation.ReflTransGen.trans h h'

theorem single {u v : List Symbol} (h : Rewrites P u v) : Derives P u v :=
  Relation.ReflTransGen.single h

/-- A production derives its right-hand side from its left-hand side, in
any surroundings. -/
theorem replace (before after : List Symbol) {p : Production} (h : P p) :
    Derives P (before ++ p.left :: after) (before ++ p.right ++ after) :=
  single (.replace before after h)

/-- A derivation may go on behind other symbols. -/
theorem append_left {u v : List Symbol} (h : Derives P u v) (w : List Symbol) :
    Derives P (w ++ u) (w ++ v) := by
  induction h with
  | refl => exact refl _
  | tail _ hlast ih => exact ih.trans (single (hlast.append_left w))

theorem append_right {u v : List Symbol} (h : Derives P u v)
    (w : List Symbol) : Derives P (u ++ w) (v ++ w) := by
  induction h with
  | refl => exact refl _
  | tail _ hlast ih => exact ih.trans (single (hlast.append_right w))

/-- What two lists side by side derive is what they derive one by one. -/
theorem of_append {u v w : List Symbol} (h : Derives P (u ++ v) w) :
    ∃ u' v', w = u' ++ v' ∧ Derives P u u' ∧ Derives P v v' := by
  induction h with
  | refl => exact ⟨u, v, rfl, refl u, refl v⟩
  | tail _ hlast ih =>
      obtain ⟨u', v', rfl, hu, hv⟩ := ih
      rcases hlast.of_append with ⟨u'', rfl, h''⟩ | ⟨v'', rfl, h''⟩
      · exact ⟨u'', v', rfl, hu.trans (single h''), hv⟩
      · exact ⟨u', v'', rfl, hu, hv.trans (single h'')⟩

/-- A symbol without productions derives only itself. -/
theorem eq_of_irreducible {s : Symbol} (hs : ∀ p, P p → p.left ≠ s)
    {v : List Symbol} (h : Derives P [s] v) : v = [s] := by
  induction h with
  | refl => rfl
  | tail _ hlast ih =>
      subst ih
      obtain ⟨p, hp, hleft, -⟩ := hlast.of_singleton
      exact absurd hleft (hs p hp)

end Derives

end ShiftReduce
