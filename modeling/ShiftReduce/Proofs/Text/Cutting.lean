/-
Cutting what has been joined.

A text that has been put together from pieces falls apart into the same
pieces again if the separator is in none of them, or, where the text is cut
only once, if it is not in the piece on the far side of the cut.
-/
import ShiftReduce.Proofs.Collections.Lookup
import ShiftReduce.Text.Split

namespace ShiftReduce.Text

variable {separator : Char} {before after cs : List Char}

-- ========================================================== a single cut

theorem splitFirst?_eq_none (h : separator ∉ cs) :
    splitFirst? separator cs = none := by
  induction cs with
  | nil => rfl
  | cons c cs ih =>
      rw [List.mem_cons, not_or] at h
      unfold splitFirst?
      rw [if_neg (Ne.symm h.1), ih h.2]
      rfl

/-- A text is cut at the first separator if there is none before it. -/
theorem splitFirst?_append (h : separator ∉ before) :
    splitFirst? separator (before ++ separator :: after)
      = some (before, after) := by
  induction before with
  | nil => simp [splitFirst?]
  | cons c before ih =>
      rw [List.mem_cons, not_or] at h
      rw [List.cons_append]
      unfold splitFirst?
      rw [if_neg (Ne.symm h.1), ih h.2]
      rfl

theorem splitLast?_eq_none (h : separator ∉ cs) :
    splitLast? separator cs = none := by
  induction cs with
  | nil => rfl
  | cons c cs ih =>
      rw [List.mem_cons, not_or] at h
      simp [splitLast?, ih h.2, Ne.symm h.1]

/-- A text is cut at the last separator if there is none after it. -/
theorem splitLast?_append (h : separator ∉ after) :
    splitLast? separator (before ++ separator :: after)
      = some (before, after) := by
  induction before with
  | nil => simp [splitLast?, splitLast?_eq_none h]
  | cons c before ih =>
      rw [List.cons_append]
      simp [splitLast?, ih]

/-- A cut at the last separator takes nothing away but the separator. -/
theorem eq_of_splitLast?_eq_some
    (h : splitLast? separator cs = some (before, after)) :
    cs = before ++ separator :: after := by
  induction cs generalizing before after with
  | nil => cases h
  | cons c cs ih =>
      unfold splitLast? at h
      split at h
      · next front back hcut =>
          cases h
          rw [ih hcut, List.cons_append]
      · split at h
        · next hc =>
            cases h
            rw [hc, List.nil_append]
        · cases h

-- ============================================================ many cuts

theorem splitOn_of_not_mem (h : separator ∉ cs) :
    splitOn separator cs = [cs] := by
  induction cs with
  | nil => rfl
  | cons c cs ih =>
      rw [List.mem_cons, not_or] at h
      simp [splitOn, ih h.2, Ne.symm h.1]

theorem splitOn_append (h : separator ∉ before) :
    splitOn separator (before ++ separator :: after)
      = before :: splitOn separator after := by
  induction before with
  | nil => simp [splitOn]
  | cons c before ih =>
      rw [List.mem_cons, not_or] at h
      rw [List.cons_append]
      simp [splitOn, ih h.2, Ne.symm h.1]

/-- There is always a first piece, with which the text begins. -/
theorem exists_splitOn_eq_cons (separator : Char) (cs : List Char) :
    ∃ piece pieces rest, splitOn separator cs = piece :: pieces
      ∧ cs = piece ++ rest := by
  induction cs with
  | nil => exact ⟨[], [], [], rfl, rfl⟩
  | cons c cs ih =>
      obtain ⟨piece, pieces, rest, hsplit, rfl⟩ := ih
      unfold splitOn
      split
      · exact ⟨[], _, _, rfl, rfl⟩
      · rw [hsplit]
        exact ⟨c :: piece, pieces, rest, rfl, rfl⟩

/-- No piece has the separator in it. -/
theorem not_mem_of_mem_splitOn {piece : List Char}
    (h : piece ∈ splitOn separator cs) : separator ∉ piece := by
  induction cs generalizing piece with
  | nil =>
      rw [List.mem_singleton.mp h]
      exact List.not_mem_nil
  | cons c cs ih =>
      obtain ⟨first, pieces, rest, hsplit, -⟩ :=
        exists_splitOn_eq_cons separator cs
      unfold splitOn at h
      rw [hsplit] at h ih
      split at h
      · rcases List.mem_cons.mp h with rfl | h
        · exact List.not_mem_nil
        · exact ih h
      · next hc =>
          rcases List.mem_cons.mp h with rfl | h
          · rw [List.mem_cons, not_or]
            exact ⟨Ne.symm hc, ih List.mem_cons_self⟩
          · exact ih (List.mem_cons_of_mem _ h)

/-- Texts with spaces between them fall apart at the spaces. -/
theorem splitOn_spaced {pieces : List String} (hne : pieces ≠ [])
    (h : ∀ piece ∈ pieces, ' ' ∉ piece.toList) :
    splitOn ' ' (spaced pieces).toList = pieces.map String.toList := by
  induction pieces with
  | nil => exact absurd rfl hne
  | cons piece pieces ih =>
      rw [List.forall_mem_cons] at h
      cases pieces with
      | nil => exact splitOn_of_not_mem h.1
      | cons next pieces =>
          have hspaced : (spaced (piece :: next :: pieces)).toList
              = piece.toList ++ ' ' :: (spaced (next :: pieces)).toList := by
            simp [spaced]
          rw [hspaced, splitOn_append h.1, ih (List.cons_ne_nil _ _) h.2]
          rfl

/-- Pieces that are read back one by one are read back together. -/
theorem mapM_map_eq_some {α β : Type} {write : α → β} {read : β → Option α}
    {xs : List α} (h : ∀ x ∈ xs, read (write x) = some x) :
    (xs.map write).mapM read = some xs := by
  rw [mapM_eq_some_iff_forall₂, List.forall₂_map_left_iff, List.forall₂_same]
  exact h

end ShiftReduce.Text
