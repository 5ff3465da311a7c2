/-
What waits in a worklist.

A worklist keeps its values twice, and a push asks the set whether to touch
the queue. As long as the two agree, which every operation sees to, a push
lets its value wait and changes nothing else, and what is served has waited
and waits no longer.
-/
import ShiftReduce.Collections.Worklist
import ShiftReduce.Proofs.Collections.Lookup

namespace ShiftReduce

namespace Worklist

variable {α : Type} [DecidableEq α]

/-- The set holds what waits, and nothing waits twice. -/
structure Coherent (w : Worklist α) : Prop where
  nodup : w.waiting.Nodup
  queued : ∀ a, a ∈ w.queued ↔ a ∈ w.waiting

omit [DecidableEq α] in
theorem coherent_empty : Coherent (empty : Worklist α) where
  nodup := List.nodup_nil
  queued := fun _ => Iff.rfl

/-- A push keeps the queue and the set together. -/
theorem Coherent.push {w : Worklist α} (h : w.Coherent) (a : α) :
    (w.push a).Coherent := by
  unfold Worklist.push
  split
  · exact h
  · next ha =>
    refine ⟨OrderedSet.nodup_concat h.nodup fun hmem =>
      ha ((h.queued a).mpr hmem), ?_⟩
    intro b
    simp [h.queued b]

theorem Coherent.pushAll {w : Worklist α} (h : w.Coherent) (as : List α) :
    (w.pushAll as).Coherent := by
  unfold Worklist.pushAll
  induction as generalizing w with
  | nil => exact h
  | cons a as ih => exact ih (h.push a)

theorem Coherent.of_pop? {w rest : Worklist α} {a : α} (h : w.Coherent)
    (hpop : w.pop? = some (a, rest)) : rest.Coherent := by
  unfold pop? at hpop
  split at hpop
  · cases hpop
  · next b bs hw =>
    cases hpop
    have hnodup := h.nodup
    rw [hw] at hnodup
    refine ⟨(List.nodup_cons.mp hnodup).2, fun c => ?_⟩
    rw [OrderedSet.mem_erase, h.queued c, hw, List.mem_cons]
    constructor
    · intro h
      obtain ⟨hne, hc | hc⟩ := h
      · exact absurd hc hne
      · exact hc
    · intro hc
      exact ⟨fun e => (List.nodup_cons.mp hnodup).1 (e ▸ hc), Or.inr hc⟩

/-- After a push its value waits, with all that waited before. -/
theorem Coherent.mem_waiting_push {w : Worklist α} (h : w.Coherent) {a b : α} :
    b ∈ (w.push a).waiting ↔ b ∈ w.waiting ∨ b = a := by
  unfold Worklist.push
  split
  · next ha =>
      exact ⟨Or.inl, fun hb => hb.elim id fun e => e ▸ (h.queued a).mp ha⟩
  · simp

theorem Coherent.mem_waiting_pushAll {w : Worklist α} (h : w.Coherent)
    {as : List α} {b : α} :
    b ∈ (w.pushAll as).waiting ↔ b ∈ w.waiting ∨ b ∈ as := by
  unfold Worklist.pushAll
  induction as generalizing w with
  | nil => simp
  | cons a as ih =>
      rw [List.foldl_cons, ih (h.push a), h.mem_waiting_push,
        List.mem_cons, or_assoc]

/-- What is served is what waited first, and the others wait on. -/
theorem waiting_of_pop? {w rest : Worklist α} {a : α}
    (h : w.pop? = some (a, rest)) : w.waiting = a :: rest.waiting := by
  unfold pop? at h
  split at h
  · cases h
  · next b bs hw =>
    cases h
    exact hw

theorem waiting_of_pop?_none {w : Worklist α} (h : w.pop? = none) :
    w.waiting = [] := by
  unfold pop? at h
  split at h
  · next hw => exact hw
  · cases h

end Worklist

end ShiftReduce
