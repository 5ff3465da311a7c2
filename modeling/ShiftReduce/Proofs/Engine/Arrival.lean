/-
Where an engine arrives.

An engine has no choices, so of two configurations that it reaches one is
reached from the other. To say where it arrives is therefore to say all
about its run. It may be stopped on the way by a semantic action that
refuses its children, which no table can prevent, and so whatever is
claimed of a run is claimed up to that.
-/
import ShiftReduce.Proofs.Engine.Move

namespace ShiftReduce

namespace Configuration

variable {σ : Type} {t : ParseTable σ}

/-- Of two configurations that are reached from the same one, one is
reached from the other. -/
theorem Reaches.total {c c' c'' : Configuration σ} (h : Reaches t c c')
    (h' : Reaches t c c'') : Reaches t c' c'' ∨ Reaches t c'' c' := by
  refine Relation.ReflTransGen.total_of_right_unique ?_ h h'
  rintro a b b' ⟨_, -, rfl⟩ ⟨_, -, rfl⟩
  rfl

/-- What is reached from a configuration is the configuration, or its step
succeeds. -/
theorem Reaches.eq_or_step {c c' : Configuration σ} (h : Reaches t c c') :
    c = c' ∨ ∃ s, (c.step t).result = .ok s := by
  rcases Relation.ReflTransGen.cases_head h with rfl | ⟨_, ⟨s, hs, -⟩, -⟩
  · exact Or.inl rfl
  · exact Or.inr ⟨s, hs⟩

/-- A step of a completed configuration succeeds and changes nothing. -/
theorem step_of_completed {c : Configuration σ} (h : c.completed = true) :
    (c.step t).result = .ok .completed ∧ (c.step t).config = c := by
  unfold step
  rw [if_pos h]
  exact ⟨rfl, rfl⟩

/-- A configuration that is done takes no step, or stays where it is. -/
theorem step_of_isDone {c : Configuration σ} {s : Step}
    (hdone : c.isDone = true) (hs : (c.step t).result = .ok s) :
    (c.step t).config = c := by
  unfold isDone at hdone
  rw [Bool.or_eq_true, List.isEmpty_iff] at hdone
  by_cases hcompleted : c.completed = true
  · exact (step_of_completed hcompleted).2
  · rw [step, if_neg hcompleted, hdone.resolve_left hcompleted] at hs
    cases hs

theorem step_ok_of_isSome {c : Configuration σ}
    (h : (c.step t).result.toOption.isSome = true) :
    ∃ s, (c.step t).result = .ok s := by
  cases hresult : (c.step t).result with
  | error e =>
      rw [hresult] at h
      cases h
  | ok s => exact ⟨s, rfl⟩

/-- From a completed configuration no other is reached. -/
theorem Reaches.eq_of_completed {c c' : Configuration σ} (h : Reaches t c c')
    (hdone : c.completed = true) : c' = c := by
  induction h with
  | refl => rfl
  | tail _ hlast ih =>
      obtain ⟨_, -, rfl⟩ := hlast
      rw [ih, (step_of_completed hdone).2]

/-- On the way to a completed configuration no step fails. -/
theorem Reaches.step_ok {c c' last : Configuration σ}
    (hlast : Reaches t c last) (hdone : last.completed = true)
    (h : Reaches t c c') : ∃ s, (c'.step t).result = .ok s := by
  rcases h.total hlast with hbefore | hafter
  · rcases hbefore.eq_or_step with rfl | hstep
    · exact ⟨_, (step_of_completed hdone).1⟩
    · exact hstep
  · rw [hafter.eq_of_completed hdone]
    exact ⟨_, (step_of_completed hdone).1⟩

/-- There is at most one configuration on the way whose step fails. -/
theorem Reaches.eq_of_error {c c' c'' : Configuration σ} (h : Reaches t c c')
    (h' : Reaches t c c'') {error error' : ParseError}
    (herror : (c'.step t).result = .error error)
    (herror' : (c''.step t).result = .error error') : c' = c'' := by
  rcases h.total h' with hbefore | hafter
  · rcases hbefore.eq_or_step with heq | ⟨s, hs⟩
    · exact heq
    · rw [hs] at herror
      cases herror
  · rcases hafter.eq_or_step with heq | ⟨s, hs⟩
    · exact heq.symm
    · rw [hs] at herror'
      cases herror'

/-- The engine comes from a configuration to one with a property, unless a
semantic action fails on the way. -/
def Arrives (t : ParseTable σ) (c : Configuration σ)
    (Q : Configuration σ → Prop) : Prop :=
  (∃ c', Reaches t c c' ∧ Q c')
    ∨ ∃ c' e, Reaches t c c' ∧ (c'.step t).result = .error (.synthesis e)

namespace Arrives

variable {c : Configuration σ} {Q R : Configuration σ → Prop}

theorem here (h : Q c) : Arrives t c Q := Or.inl ⟨c, .refl c, h⟩

/-- The engine goes on from where it has come. -/
theorem andThen {c' : Configuration σ} (h : Reaches t c c')
    (h' : Arrives t c' Q) : Arrives t c Q := by
  rcases h' with ⟨last, hlast, hq⟩ | ⟨last, e, hlast, herror⟩
  · exact Or.inl ⟨last, h.trans hlast, hq⟩
  · exact Or.inr ⟨last, e, h.trans hlast, herror⟩

/-- From wherever the engine arrives it goes on. -/
theorem bind (h : Arrives t c Q)
    (h' : ∀ c', Reaches t c c' → Q c' → Arrives t c' R) : Arrives t c R := by
  rcases h with ⟨c', hreach, hq⟩ | herror
  · exact andThen hreach (h' c' hreach hq)
  · exact Or.inr herror

/-- If the engine arrives at completed configurations only, no step of the
run fails for another reason than a semantic action. -/
theorem error_synthesis (h : Arrives t c Q)
    (hdone : ∀ c', Q c' → c'.completed = true) {c' : Configuration σ}
    (hreach : Reaches t c c') {error : ParseError}
    (herror : (c'.step t).result = .error error) :
    ∃ e, error = .synthesis e := by
  rcases h with ⟨last, hlast, hq⟩ | ⟨last, e, hlast, hfails⟩
  · obtain ⟨s, hs⟩ := hlast.step_ok (hdone last hq) hreach
    rw [hs] at herror
    cases herror
  · rw [hreach.eq_of_error hlast herror hfails, hfails] at herror
    exact ⟨e, (Except.error.inj herror).symm⟩

end Arrives

end Configuration

end ShiftReduce
