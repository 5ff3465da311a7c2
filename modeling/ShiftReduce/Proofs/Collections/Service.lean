/-
First come, first served.

A worklist is asked to let a value wait or to serve the next one. Two
sequences tell what comes of it: the values that it has accepted, each by a
push that changed it, and the values that it has served. For every single
request, what waited before and the value that is accepted now are, in this
order, the value that is served now and what waits afterwards. Request after
request this adds up to the rule of a queue: what has been served and what
waits are together what has been accepted, and in the same order.

That much holds of any worklist, whatever its set holds. The set matters for
the question which pushes are accepted. It holds what waits after any
sequence of requests, and so a push is refused exactly if its value is
waiting, and a value that has just been served is accepted again.
-/
import ShiftReduce.Proofs.Collections.Waiting

namespace ShiftReduce

namespace Worklist

/-- What a worklist can be asked for. -/
inductive Request (α : Type) where
  /-- Let a value wait. -/
  | push (value : α)
  /-- Serve the value that has waited longest. -/
  | pop

variable {α : Type} [DecidableEq α] {w : Worklist α} {a : α}

-- =========================================================== one request

/-- The worklist after a request. If nothing waits, nothing is served and
nothing changes. -/
def handle (w : Worklist α) : Request α → Worklist α
  | .push a => w.push a
  | .pop => (w.pop?.map Prod.snd).getD w

/-- The value that a request adds to the queue, if it is a push that changes
the worklist. -/
def admits (w : Worklist α) : Request α → List α
  | .push a => if w.push a = w then [] else [a]
  | .pop => []

/-- The value that a request takes from the queue, if it asks for one and one
waits. -/
def serves (w : Worklist α) : Request α → List α
  | .push _ => []
  | .pop => (w.pop?.map Prod.fst).toList

/-- A push that changes the worklist puts its value behind all others. -/
theorem waiting_push_of_ne (h : w.push a ≠ w) :
    (w.push a).waiting = w.waiting ++ [a] := by
  unfold push at h ⊢
  split at h
  · exact absurd rfl h
  · next hnew => rw [if_neg hnew]

/-- Values come in behind and go out in front. -/
theorem waiting_handle (w : Worklist α) (request : Request α) :
    w.waiting ++ w.admits request
      = w.serves request ++ (w.handle request).waiting := by
  cases request with
  | push a =>
      show w.waiting ++ (if w.push a = w then [] else [a]) = (w.push a).waiting
      by_cases h : w.push a = w
      · rw [if_pos h, h, List.append_nil]
      · rw [if_neg h, waiting_push_of_ne h]
  | pop =>
      show w.waiting ++ []
        = (w.pop?.map Prod.fst).toList
          ++ ((w.pop?.map Prod.snd).getD w).waiting
      rw [List.append_nil]
      cases hpop : w.pop? with
      | none => rfl
      | some answer => exact waiting_of_pop? hpop

theorem Coherent.handle (h : w.Coherent) (request : Request α) :
    (w.handle request).Coherent := by
  cases request with
  | push a => exact h.push a
  | pop =>
      show ((w.pop?.map Prod.snd).getD w).Coherent
      cases hpop : w.pop? with
      | none => exact h
      | some answer => exact h.of_pop? hpop

-- ============================================================= acceptance

/-- A push is refused exactly if its value is waiting. -/
theorem Coherent.push_eq_self_iff (h : w.Coherent) :
    w.push a = w ↔ a ∈ w.waiting := by
  constructor
  · intro heq
    rw [← heq]
    exact h.mem_waiting_push.mpr (Or.inr rfl)
  · intro hwaits
    unfold Worklist.push
    rw [if_pos ((h.queued a).mpr hwaits)]

/-- A value that has just been served is accepted again. -/
theorem Coherent.push_served_ne {rest : Worklist α} (h : w.Coherent)
    (hpop : w.pop? = some (a, rest)) : rest.push a ≠ rest := by
  intro heq
  have hwaits := (h.of_pop? hpop).push_eq_self_iff.mp heq
  have hnodup := h.nodup
  rw [waiting_of_pop? hpop, List.nodup_cons] at hnodup
  exact hnodup.1 hwaits

/-- A value is served whenever one waits. -/
theorem pop?_eq_none_iff : w.pop? = none ↔ w.waiting = [] := by
  constructor
  · exact waiting_of_pop?_none
  · intro h
    unfold pop?
    rw [h]

-- ====================================================== many requests

/-- The worklist after some requests. -/
def after (w : Worklist α) (requests : List (Request α)) : Worklist α :=
  requests.foldl handle w

/-- The values of the pushes that change the worklist, earliest first. -/
def accepted : Worklist α → List (Request α) → List α
  | _, [] => []
  | w, request :: requests =>
      w.admits request ++ (w.handle request).accepted requests

/-- The values that are served, earliest first. -/
def served : Worklist α → List (Request α) → List α
  | _, [] => []
  | w, request :: requests =>
      w.serves request ++ (w.handle request).served requests

/-- What has been served and what waits is what waited and what has been
accepted. -/
theorem served_append_waiting (w : Worklist α) (requests : List (Request α)) :
    w.served requests ++ (w.after requests).waiting
      = w.waiting ++ w.accepted requests := by
  induction requests generalizing w with
  | nil => exact (List.append_nil _).symm
  | cons request requests ih =>
      calc w.serves request ++ (w.handle request).served requests
            ++ ((w.handle request).after requests).waiting
          = w.serves request ++ ((w.handle request).waiting
              ++ (w.handle request).accepted requests) := by
                rw [List.append_assoc, ih]
        _ = w.waiting ++ w.admits request
            ++ (w.handle request).accepted requests := by
              rw [← List.append_assoc, waiting_handle]
        _ = w.waiting
            ++ (w.admits request ++ (w.handle request).accepted requests) :=
              List.append_assoc _ _ _

theorem Coherent.after (h : w.Coherent) (requests : List (Request α)) :
    (w.after requests).Coherent := by
  unfold Worklist.after
  induction requests generalizing w with
  | nil => exact h
  | cons request requests ih => exact ih (h.handle request)

/-- Pushes alone serve nothing. -/
theorem served_pushes (w : Worklist α) (as : List α) :
    w.served (as.map .push) = [] := by
  induction as generalizing w with
  | nil => rfl
  | cons a as ih => exact ih (w.push a)

/-- What waits in the worklist of a list are the values that were accepted
from it. -/
theorem waiting_ofList (as : List α) :
    (ofList as).waiting = empty.accepted (as.map .push) := by
  have hafter : empty.after (as.map .push) = ofList as := List.foldl_map
  have h := empty.served_append_waiting (as.map .push)
  rwa [served_pushes, hafter] at h

/-- A worklist that starts with the values of a list, or empty if that is the
empty list, is a queue without repetitions after any requests. Its set holds
what waits, and nothing waits twice. A push changes it exactly if its value is
not waiting, and so a value is accepted again once it has been served. A value
is served whenever one waits. What has been served, followed by what waits, is
what has been accepted, from the list at first and then from the requests. -/
theorem first_come_first_served (as : List α) (requests : List (Request α)) :
    let w := (ofList as).after requests
    (∀ a, a ∈ w.queued ↔ a ∈ w.waiting)
    ∧ w.waiting.Nodup
    ∧ (∀ a, w.push a ≠ w ↔ a ∉ w.waiting)
    ∧ (∀ a rest, w.pop? = some (a, rest) → rest.push a ≠ rest)
    ∧ (w.pop? = none ↔ w.waiting = [])
    ∧ (ofList as).served requests ++ w.waiting
      = empty.accepted (as.map .push) ++ (ofList as).accepted requests := by
  intro w
  have hstart : (ofList as).Coherent := coherent_empty.pushAll as
  have hw : w.Coherent := hstart.after requests
  refine ⟨hw.queued, hw.nodup, fun a => not_congr hw.push_eq_self_iff,
    fun a rest => hw.push_served_ne, pop?_eq_none_iff, ?_⟩
  rw [← waiting_ofList]
  exact served_append_waiting (ofList as) requests

/-- The value 1 is refused while it waits and accepted after it has been
served, and 2 can come back as soon as it is taken out. -/
theorem first_come_first_served_again :
    ∃ rest, ((ofList [1, 2, 3, 1]).after [.pop, .push 2, .push 1]).pop?
      = some (2, rest)
      ∧ rest.push 2 ≠ rest
      ∧ [1] ++ [2, 3, 1]
        = empty.accepted ([1, 2, 3, 1].map .push)
          ++ (ofList [1, 2, 3, 1]).accepted [.pop, .push 2, .push 1] := by
  have h := first_come_first_served [1, 2, 3, 1] [.pop, .push 2, .push 1]
  exact ⟨_, rfl, h.2.2.2.1 2 _ rfl, h.2.2.2.2.2⟩

end Worklist

end ShiftReduce
