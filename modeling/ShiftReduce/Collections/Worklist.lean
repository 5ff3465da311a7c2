/-
Work that is handed out first come, first served.

A value that is still waiting is not queued a second time; once it has
been handed out it may come back. The values that wait are kept twice, in
the order of service and as a set that answers whether a value is already
waiting, and every operation moves both together.
-/
import ShiftReduce.Collections.OrderedSet

namespace ShiftReduce

/-- A queue that holds each waiting value once. -/
structure Worklist (α : Type) where
  /-- The waiting values, the next one to serve first. -/
  waiting : List α
  /-- The same values, for the question whether one of them waits. -/
  queued : OrderedSet α
deriving DecidableEq

namespace Worklist

variable {α : Type} [DecidableEq α]

/-- The queue in which nothing waits. -/
def empty {α : Type} : Worklist α := ⟨[], OrderedSet.empty⟩

/-- Let a value wait behind all others, unless it is waiting already. -/
def push (w : Worklist α) (a : α) : Worklist α :=
  if a ∈ w.queued then w else ⟨w.waiting ++ [a], w.queued.insert a⟩

/-- Serve the value that has waited longest. -/
def pop? (w : Worklist α) : Option (α × Worklist α) :=
  match w.waiting with
  | [] => none
  | a :: rest => some (a, ⟨rest, w.queued.erase a⟩)

/-- Let the values of a list wait, from left to right. -/
def pushAll (w : Worklist α) (as : List α) : Worklist α :=
  as.foldl push w

/-- The queue in which the values of a list wait. -/
def ofList (as : List α) : Worklist α := empty.pushAll as

-- ============================================================== size

/-- A push lets at most one more value wait. -/
theorem length_waiting_push_le (w : Worklist α) (a : α) :
    (w.push a).waiting.length ≤ w.waiting.length + 1 := by
  unfold push
  split
  · exact Nat.le_succ _
  · simp

/-- Pushing a list lets at most its length more values wait. -/
theorem length_waiting_pushAll_le (w : Worklist α) (as : List α) :
    (w.pushAll as).waiting.length ≤ w.waiting.length + as.length := by
  unfold pushAll
  induction as generalizing w with
  | nil => simp
  | cons a as ih =>
    have h := ih (w.push a)
    have hp := length_waiting_push_le w a
    simp only [List.foldl_cons, List.length_cons]
    omega

/-- Serving a value leaves one value fewer waiting. -/
theorem length_waiting_of_pop? {w rest : Worklist α} {a : α}
    (h : w.pop? = some (a, rest)) :
    w.waiting.length = rest.waiting.length + 1 := by
  unfold pop? at h
  split at h
  · cases h
  · next b bs hw =>
    cases h
    simp [hw]

end Worklist

end ShiftReduce
