/-
Words and lines put together and taken apart.

A word is a text that is not empty and has no blank in it. Words that are
written with spaces between them are the words of what is written, and a text
that begins and ends with characters of words is not changed by trimming it.
An arrow is found where it was put if there is none before it and what is
before it does not end like the beginning of one.
-/
import ShiftReduce.Proofs.Text.Cutting
import ShiftReduce.Text.Blank

namespace ShiftReduce.Text

variable {cs rest : List Char}

-- ============================================================== words

/-- A text that is not empty and has no blank in it. -/
def IsWord (w : List Char) : Prop := w ≠ [] ∧ ∀ c ∈ w, isBlank c = false

theorem isWord_of_mem_words {w : List Char} (h : w ∈ words cs) : IsWord w := by
  unfold IsWord
  induction cs using words.induct generalizing w with
  | case1 => cases h
  | case2 c hblank => simp [words, hblank] at h
  | case3 c hblank =>
      simp only [words, hblank, Bool.false_eq_true, if_false,
        List.mem_singleton] at h
      subst h
      simp [hblank]
  | case4 c d rest hblank ih =>
      simp only [words, hblank, if_true] at h
      exact ih h
  | case5 c d rest hc hd ih =>
      simp only [words, hc, hd, Bool.false_eq_true, if_false, if_true,
        List.mem_cons] at h
      rcases h with rfl | h
      · simp [hc]
      · exact ih h
  | case6 c d rest hc hd hnil ih =>
      simp only [words, hc, hd, hnil, Bool.false_eq_true, if_false,
        List.mem_singleton] at h
      subst h
      simp [hc]
  | case7 c d rest hc hd first others hwords ih =>
      simp only [words, hc, hd, hwords, Bool.false_eq_true, if_false,
        List.mem_cons] at h
      rw [hwords] at ih
      rcases h with rfl | h
      · -- a character that is not blank goes in front of a word
        have hfirst := (ih List.mem_cons_self).2
        simpa [hc] using hfirst
      · exact ih (List.mem_cons_of_mem _ h)

theorem words_blank_cons {c : Char} (hc : isBlank c = true) :
    words (c :: rest) = words rest := by
  cases rest with
  | nil => simp [words, hc]
  | cons d rest => simp [words, hc]

/-- A word at the end of a text. -/
theorem words_of_isWord {w : List Char} (h : IsWord w) : words w = [w] := by
  induction w with
  | nil => exact absurd rfl h.1
  | cons c w ih =>
      obtain ⟨-, hblank⟩ := h
      rw [List.forall_mem_cons] at hblank
      cases w with
      | nil => simp [words, hblank.1]
      | cons d w =>
          have hw : words (d :: w) = [d :: w] :=
            ih ⟨List.cons_ne_nil d w, hblank.2⟩
          simp [words, hblank.1, hblank.2 d List.mem_cons_self, hw]

/-- A word with a blank behind it. -/
theorem words_append {w : List Char} (h : IsWord w) {c : Char}
    (hc : isBlank c = true) : words (w ++ c :: rest) = w :: words rest := by
  induction w with
  | nil => exact absurd rfl h.1
  | cons d w ih =>
      obtain ⟨-, hblank⟩ := h
      rw [List.forall_mem_cons] at hblank
      cases w with
      | nil =>
          rw [List.cons_append, List.nil_append]
          simp [words, hblank.1, hc, words_blank_cons hc]
      | cons e w =>
          have hw : words (e :: (w ++ c :: rest)) = (e :: w) :: words rest :=
            ih ⟨List.cons_ne_nil e w, hblank.2⟩
          rw [List.cons_append, List.cons_append]
          simp [words, hblank.1, hblank.2 e List.mem_cons_self, hw]

theorem isBlank_space : isBlank ' ' = true := by decide

theorem toList_spaced_cons (piece next : String) (pieces : List String) :
    (spaced (piece :: next :: pieces)).toList
      = piece.toList ++ ' ' :: (spaced (next :: pieces)).toList := by
  simp [spaced]

/-- Words with spaces between them are the words of the text. -/
theorem words_spaced {pieces : List String}
    (h : ∀ piece ∈ pieces, IsWord piece.toList) :
    words (spaced pieces).toList = pieces.map String.toList := by
  induction pieces with
  | nil => rfl
  | cons piece pieces ih =>
      rw [List.forall_mem_cons] at h
      cases pieces with
      | nil => exact words_of_isWord h.1
      | cons next pieces =>
          rw [toList_spaced_cons, words_append h.1 isBlank_space, ih h.2]
          rfl

/-- One more piece goes behind a space. -/
theorem spaced_concat {pieces : List String} (hne : pieces ≠ [])
    (piece : String) :
    spaced (pieces ++ [piece]) = spaced pieces ++ " " ++ piece := by
  induction pieces with
  | nil => exact absurd rfl hne
  | cons first pieces ih =>
      cases pieces with
      | nil => rfl
      | cons next pieces =>
          have hrest := ih (List.cons_ne_nil next pieces)
          rw [List.cons_append] at hrest
          rw [List.cons_append, List.cons_append, spaced, hrest, spaced]
          simp [String.append_assoc]

/-- Words with spaces between them begin and end with characters of words. -/
theorem ends_spaced {pieces : List String} (hne : pieces ≠ [])
    (h : ∀ piece ∈ pieces, IsWord piece.toList) :
    ∃ c, (spaced pieces).toList.getLast? = some c ∧ isBlank c = false := by
  induction pieces with
  | nil => exact absurd rfl hne
  | cons piece pieces ih =>
      rw [List.forall_mem_cons] at h
      cases pieces with
      | nil =>
          obtain ⟨hpiece, hblank⟩ := h.1
          exact ⟨_, List.getLast?_eq_some_getLast hpiece,
            hblank _ (List.getLast_mem hpiece)⟩
      | cons next pieces =>
          obtain ⟨c, hlast, hc⟩ := ih (List.cons_ne_nil next pieces) h.2
          refine ⟨c, ?_, hc⟩
          rw [toList_spaced_cons, List.getLast?_append,
            List.getLast?_cons, hlast]
          rfl

-- =========================================================== trimming

theorem dropWhile_isBlank_eq_self {c : Char} (hfirst : cs.head? = some c)
    (hc : isBlank c = false) : cs.dropWhile isBlank = cs := by
  cases cs with
  | nil => rfl
  | cons d cs =>
      cases hfirst
      exact List.dropWhile_cons_of_neg (by simp [hc])

/-- Nothing is trimmed off a text that neither begins nor ends with a blank. -/
theorem trim_eq_self {first last : Char} (hfirst : cs.head? = some first)
    (hlast : cs.getLast? = some last) (hfirstBlank : isBlank first = false)
    (hlastBlank : isBlank last = false) : trim cs = cs := by
  unfold trim
  rw [dropWhile_isBlank_eq_self hfirst hfirstBlank,
    dropWhile_isBlank_eq_self (List.head?_reverse.trans hlast) hlastBlank,
    List.reverse_reverse]

/-- What is trimmed off are the ends. -/
theorem trim_isInfix (cs : List Char) : trim cs <:+: cs := by
  have hfront : cs.dropWhile isBlank <:+: cs :=
    (List.dropWhile_suffix isBlank).isInfix
  have hback : trim cs <:+: cs.dropWhile isBlank := by
    unfold trim
    rw [← List.reverse_infix, List.reverse_reverse]
    exact (List.dropWhile_suffix isBlank).isInfix
  exact hback.trans hfront

/-- A blank behind a word is trimmed off. -/
theorem trim_concat_blank {w : List Char} (h : IsWord w) {c : Char}
    (hc : isBlank c = true) : trim (w ++ [c]) = w := by
  obtain ⟨hne, hblank⟩ := h
  have hfirst : (w ++ [c]).head? = some (w.head hne) := by
    rw [List.head?_append_of_ne_nil _ hne, List.head?_eq_some_head hne]
  have hlast : w.reverse.head? = some (w.getLast hne) := by
    rw [List.head?_reverse, List.getLast?_eq_some_getLast hne]
  unfold trim
  rw [dropWhile_isBlank_eq_self hfirst (hblank _ (List.head_mem hne)),
    List.reverse_append, List.reverse_singleton, List.singleton_append,
    List.dropWhile_cons_of_pos hc,
    dropWhile_isBlank_eq_self hlast (hblank _ (List.getLast_mem hne)),
    List.reverse_reverse]

-- ============================================================== arrows

section

variable {a b : Char} {before after : List Char}

/-- A text is cut at its beginning if the pair is there, and behind it
otherwise. -/
theorem splitFirstPair?_cons (a b c : Char) (cs : List Char) :
    splitFirstPair? a b (c :: cs)
      = if c = a ∧ cs.head? = some b then some ([], cs.tail)
        else (splitFirstPair? a b cs).map fun p => (c :: p.1, p.2) := by
  cases cs with
  | nil => simp [splitFirstPair?]
  | cons d cs => simp [splitFirstPair?]

theorem pair_infix_cons_iff {c : Char} :
    [a, b] <:+: c :: cs ↔ (c = a ∧ cs.head? = some b) ∨ [a, b] <:+: cs := by
  rw [List.infix_cons_iff, List.cons_prefix_cons, List.prefix_iff_eq_take]
  cases cs with
  | nil => simp
  | cons d cs => simp [eq_comm]

/-- A cut takes away the pair, and leaves none before it. -/
theorem of_splitFirstPair?_eq_some
    (h : splitFirstPair? a b cs = some (before, after)) :
    cs = before ++ a :: b :: after ∧ ¬ [a, b] <:+: before := by
  induction cs generalizing before with
  | nil => cases h
  | cons c cs ih =>
      rw [splitFirstPair?_cons] at h
      split at h
      · next hpair =>
          cases h
          obtain ⟨rfl, hhead⟩ := hpair
          obtain ⟨rest, rfl⟩ := List.head?_eq_some_iff.mp hhead
          exact ⟨rfl, fun hpart => by simpa using hpart.length_le⟩
      · next hpair =>
          obtain ⟨⟨front, back⟩, hcut, heq⟩ := Option.map_eq_some_iff.mp h
          cases heq
          obtain ⟨rfl, hfront⟩ := ih hcut
          refine ⟨rfl, fun hpart => ?_⟩
          rcases pair_infix_cons_iff.mp hpart with ⟨rfl, hhead⟩ | hpart
          · -- a pair at the beginning would have been the first
            obtain ⟨rest, rfl⟩ := List.head?_eq_some_iff.mp hhead
            exact hpair ⟨rfl, rfl⟩
          · exact hfront hpart

/-- A text is cut at a pair if there is none before it. -/
theorem splitFirstPair?_append (hne : a ≠ b) (h : ¬ [a, b] <:+: before) :
    splitFirstPair? a b (before ++ a :: b :: after)
      = some (before, after) := by
  induction before with
  | nil => simp [splitFirstPair?_cons]
  | cons c before ih =>
      rw [pair_infix_cons_iff, not_or] at h
      rw [List.cons_append, splitFirstPair?_cons, if_neg, ih h.2]
      · rfl
      · -- what is before the pair does not go on with its second half
        cases before with
        | nil => simp [hne]
        | cons d before => exact h.1

end

end ShiftReduce.Text
