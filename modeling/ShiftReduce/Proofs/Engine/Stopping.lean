/-
Engines that stop within a limit.

To show that an engine stops, a number is given to every configuration which
each successful step lowers; what it is at the start is then a limit for the
number of steps. A part of every such number is the weight: a token that
waits counts twice, and a symbol that has been shifted or reduced once. A
shift never adds to it, and a reduction does so only if the rule is empty.
What remains to be counted, so that a shift of a reduced symbol and a
reduction of a single symbol lower the number too, depends on what is known
of the table.
-/
import ShiftReduce.Proofs.Engine.Move

namespace ShiftReduce

namespace Configuration

variable {σ : Type} {t : ParseTable σ} {c : Configuration σ}

-- ============================================================== stopping

theorem run_of_isDone (h : c.isDone = true) (limit : Nat) :
    c.run t limit = some ⟨c, none, [], []⟩ := by
  unfold run
  rw [if_pos h]

/-- A run that has an answer has met an error or has nothing left to do. -/
theorem stopped_of_run {limit : Nat} {r : Run σ} (h : c.run t limit = some r) :
    r.error ≠ none ∨ r.config.isDone = true := by
  induction limit generalizing c r with
  | zero =>
      unfold run at h
      split at h
      · next hdone =>
          cases h
          exact Or.inr hdone
      · cases h
  | succ limit ih =>
      unfold run at h
      split at h
      · next hdone =>
          cases h
          exact Or.inr hdone
      · simp only at h
        split at h
        · cases h
          exact Or.inl (by simp)
        · obtain ⟨r', hr', rfl⟩ := Option.map_eq_some_iff.mp h
          show r'.error ≠ none ∨ r'.config.isDone = true
          exact ih hr'

/-- If every step that succeeds lowers a measure, or leaves nothing to do,
the measure is a limit within which the engine stops. -/
theorem exists_run_of_measure {I : Configuration σ → Prop}
    (μ : Configuration σ → Nat)
    (lowers : ∀ c s, I c → c.isDone = false → (c.step t).result = .ok s →
      (c.step t).config.isDone = true
        ∨ I (c.step t).config ∧ μ (c.step t).config < μ c)
    (positive : ∀ c, I c → c.isDone = false → 0 < μ c) (hc : I c) {limit : Nat}
    (hlimit : μ c ≤ limit) : ∃ r, c.run t limit = some r := by
  induction limit generalizing c with
  | zero =>
      cases hdone : c.isDone with
      | true => exact ⟨_, run_of_isDone hdone 0⟩
      | false =>
          have hpositive := positive c hc hdone
          omega
  | succ limit ih =>
      cases hdone : c.isDone with
      | true => exact ⟨_, run_of_isDone hdone _⟩
      | false =>
          unfold run
          rw [if_neg (by simp [hdone])]
          dsimp only
          cases hresult : (c.step t).result with
          | error e => exact ⟨_, rfl⟩
          | ok s =>
              dsimp only
              rcases lowers c s hc hdone hresult with hlast | ⟨hnext, hlower⟩
              · rw [run_of_isDone hlast]
                exact ⟨_, rfl⟩
              · obtain ⟨r, hr⟩ := ih hnext (by omega)
                rw [hr]
                exact ⟨_, rfl⟩

-- ============================================================== weight

/-- What is lost in weight is worth more than what the rest may gain. -/
theorem scaled_add_lt {weight weight' worth rest rest' : Nat}
    (hweight : weight' < weight) (hrest : rest' < rest + worth) :
    weight' * worth + rest' < weight * worth + rest := by
  have hscaled : (weight' + 1) * worth ≤ weight * worth :=
    Nat.mul_le_mul_right worth hweight
  rw [Nat.add_one_mul] at hscaled
  omega

/-- How many tokens of the input wait. -/
def pending (c : Configuration σ) : Nat :=
  (c.queue.filter fun q => !q.reduced).length

/-- How many reduced symbols wait. -/
def ready (c : Configuration σ) : Nat := (c.queue.filter Queued.reduced).length

/-- A token that waits counts twice, a symbol above the bottom of the stack
or on its way there once. -/
def weight (c : Configuration σ) : Nat :=
  2 * c.pending + c.ready + (c.stack.length - 1)

theorem weight_start (tokens : List Token) :
    (start t tokens).weight = 2 * (tokens.length + 1) := by
  have hinput : ∀ q ∈ (start t tokens).queue, q.reduced = false :=
    fun q hq => (reduced_of_mem_start hq).1
  have hpending : (start t tokens).pending = tokens.length + 1 := by
    unfold pending
    rw [List.filter_eq_self.mpr (by simpa using hinput)]
    simp [start]
  have hready : (start t tokens).ready = 0 := by
    unfold ready
    rw [List.filter_eq_nil_iff.mpr (by simpa using hinput)]
    rfl
  have hstack : (start t tokens).stack.length = 1 := rfl
  unfold weight
  rw [hpending, hready, hstack]
  rfl

/-- What waits has a weight. -/
theorem weight_pos (hdone : c.isDone = false) : 0 < c.weight := by
  obtain ⟨queue, stack, fragments, completed⟩ := c
  cases queue with
  | nil => simp [isDone] at hdone
  | cons head behind =>
      unfold weight pending ready
      cases hreduced : head.reduced <;>
        simp only [List.filter_cons, hreduced, Bool.not_false, Bool.not_true,
          Bool.false_eq_true, if_true, if_false, List.length_cons] <;> omega

variable {head lookahead : Queued} {behind : List Queued}
    {completed completed' : Bool}
  {fragments fragments' : List Fragment}

/-- A token that is shifted counts once instead of twice. -/
theorem weight_lt_of_shift (hinput : head.reduced = false)
    {entry top : StackEntry σ} {below : List (StackEntry σ)} :
    weight ⟨behind, entry :: top :: below, fragments', completed'⟩
      < weight ⟨head :: behind, top :: below, fragments, completed⟩ := by
  simp [weight, pending, ready, hinput]
  omega

/-- A reduced symbol that is shifted counts as before. -/
theorem weight_eq_of_shift (hreduced : head.reduced = true)
    {entry top : StackEntry σ} {below : List (StackEntry σ)} :
    weight ⟨behind, entry :: top :: below, fragments', completed'⟩
      = weight ⟨head :: behind, top :: below, fragments, completed⟩ := by
  simp [weight, pending, ready, hreduced]
  omega

variable {popped remaining : List (StackEntry σ)}

/-- A reduction puts one symbol in the place of those that it takes off the
stack. -/
theorem weight_of_reduce (hreduced : head.reduced = true)
    (bottom : remaining ≠ []) :
    weight ⟨head :: lookahead :: behind, remaining, fragments', completed'⟩
      + popped.length
      = weight ⟨lookahead :: behind, popped ++ remaining, fragments,
        completed⟩ + 1 := by
  have hlength := List.length_pos_iff.mpr bottom
  cases hlookahead : lookahead.reduced <;>
    simp [weight, pending, ready, hreduced, hlookahead] <;> omega

theorem weight_lt_of_reduce (hreduced : head.reduced = true)
    (bottom : remaining ≠ []) (hmany : 1 < popped.length) :
    weight ⟨head :: lookahead :: behind, remaining, fragments', completed'⟩
      < weight ⟨lookahead :: behind, popped ++ remaining,
        fragments, completed⟩ := by
  have hweight :=
    @weight_of_reduce σ head lookahead behind completed completed' fragments
    fragments' popped remaining hreduced bottom
  omega

theorem weight_eq_of_reduce (hreduced : head.reduced = true)
    (bottom : remaining ≠ []) (hsingle : popped.length = 1) :
    weight ⟨head :: lookahead :: behind, remaining, fragments', completed'⟩
      = weight ⟨lookahead :: behind, popped ++ remaining,
        fragments, completed⟩ := by
  have hweight :=
    @weight_of_reduce σ head lookahead behind completed completed' fragments
    fragments' popped remaining hreduced bottom
  omega

end Configuration

end ShiftReduce
