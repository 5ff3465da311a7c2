/-
Repeating an improvement until it stops improving.

FIRST and FOLLOW sets are found the same way: a pass adds what is still
missing, and passes are repeated until one adds nothing. What is missing is
a number that a pass can only lower, so the repetition ends without a bound
on the number of passes being given.
-/

namespace ShiftReduce

/-- Repeat `pass` from `x` for as long as it lowers `missing`, and return
the first value that it does not lower. -/
def settle {α : Type} (missing : α → Nat) (pass : α → α) (x : α) : α :=
  let next := pass x
  if missing next < missing x then settle missing pass next else x
termination_by missing x

/-- One unfolding: take a pass if it lowers `missing`, and stop otherwise. -/
theorem settle_eq {α : Type} (missing : α → Nat) (pass : α → α) (x : α) :
    settle missing pass x
      = if missing (pass x) < missing x then settle missing pass (pass x)
        else x := by
  rw [settle]

/-- A property that every pass keeps holds of the settled value. -/
theorem settle_induction {α : Type} {missing : α → Nat} {pass : α → α}
    {P : α → Prop} (step : ∀ x, P x → P (pass x)) (x : α) (h : P x) :
    P (settle missing pass x) := by
  rw [settle_eq]
  split
  · exact settle_induction step (pass x) (step x h)
  · exact h
termination_by missing x

/-- Another pass over the settled value misses no less than before. -/
theorem missing_le_pass_settle {α : Type} (missing : α → Nat) (pass : α → α)
    (x : α) :
    missing (settle missing pass x)
      ≤ missing (pass (settle missing pass x)) := by
  rw [settle_eq]
  split
  · exact missing_le_pass_settle missing pass (pass x)
  · exact Nat.le_of_not_lt ‹_›
termination_by missing x

end ShiftReduce
