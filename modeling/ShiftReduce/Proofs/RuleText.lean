/-
Rules are read back.

Reading a rule takes its line apart in a fixed order: it is cut at the first
arrow, the left-hand side is trimmed, the last word behind the arrow is taken
for an action if it looks like one, and the word for the empty right-hand side
is dropped if nothing else is left. Whatever comes out of this has a form that
writing inverts. There is no arrow in the left-hand side, so the arrow that is
written behind it is the first one. The last word that is written is the action
if there is one, and otherwise a symbol that does not look like one. And the
word for the empty right-hand side is written where there are no symbols, but
is never the only symbol.

So a rule is read back from its text exactly if it can be read at all, and so
is a list of rules, one to a line.
-/
import ShiftReduce.Proofs.Text.Words
import ShiftReduce.Proofs.Vocabulary

namespace ShiftReduce

open Text

namespace Rule

variable {rule : Rule} {ws symbols : List (List Char)}
    {action : Option (List Char)}

/-- A rule that a line can express. The parts are words, and none of them is
taken for something else: the left-hand side has no arrow in it, a last symbol
that looks like an action has one behind it, and the word for the empty
right-hand side is not the only symbol. -/
structure Expressible (rule : Rule) : Prop where
  left : isNonterminal rule.left = true
  leftWord : IsWord rule.left.toList
  leftArrow : ¬ ['-', '>'] <:+: rule.left.toList
  right : ∀ symbol ∈ rule.right, IsWord symbol.toList
  action : ∀ name ∈ rule.action, IsWord name.toList
  last : rule.action = none → ∀ symbol ∈ rule.right.getLast?,
    symbol.toList.head? ≠ some '~'
  plain : rule.right ≠ [emptyWord]

-- ============================================================ the action

/-- Either the last word does not look like an action, or it is one and has a
name. -/
theorem takeAction_eq_ok_iff :
    takeAction ws = .ok (symbols, action)
      ↔ (action = none ∧ symbols = ws ∧ ∀ w ∈ ws.getLast?, w.head? ≠ some '~')
        ∨ ∃ name, name ≠ [] ∧ action = some name
          ∧ ws = symbols ++ ['~' :: name] := by
  constructor
  · intro h
    unfold takeAction at h
    split at h
    · cases h
    · next name hname hlast =>
        cases h
        refine Or.inr ⟨name, ?_, rfl, ?_⟩
        · rintro rfl
          exact hname rfl
        · obtain ⟨front, rfl⟩ := List.getLast?_eq_some_iff.mp hlast
          rw [List.dropLast_concat]
    · next hplain =>
        cases h
        refine Or.inl ⟨rfl, rfl, fun w hw hhead => ?_⟩
        obtain ⟨name, rfl⟩ := List.head?_eq_some_iff.mp hhead
        exact hplain name hw
  · rintro (⟨rfl, rfl, hplain⟩ | ⟨name, hname, rfl, rfl⟩)
    · unfold takeAction
      split
      · next hlast => exact absurd rfl (hplain _ hlast)
      · next name _ hlast => exact absurd rfl (hplain _ hlast)
      · rfl
    · unfold takeAction
      rw [List.getLast?_concat]
      split
      · next heq =>
          cases heq
          exact absurd rfl hname
      · next heq =>
          cases heq
          rw [List.dropLast_concat]
      · next hplain => exact absurd rfl (hplain name)

-- ============================================================= reading

theorem dropEmptyWord_ne (symbols : List Symbol) :
    dropEmptyWord symbols ≠ [emptyWord] := by
  unfold dropEmptyWord
  split
  · exact List.cons_ne_nil _ _ ∘ Eq.symm
  · assumption

theorem dropEmptyWord_eq_self {symbols : List Symbol}
    (h : symbols ≠ [emptyWord]) : dropEmptyWord symbols = symbols :=
  if_neg h

/-- The symbols that are left are symbols that were there. -/
theorem mem_of_mem_dropEmptyWord {symbols : List Symbol} {symbol : Symbol}
    (h : symbol ∈ dropEmptyWord symbols) : symbol ∈ symbols := by
  unfold dropEmptyWord at h
  split at h
  · cases h
  · exact h

/-- The symbols before an action are among the words, and its name is a word
too. -/
theorem isWord_of_takeAction (hws : ∀ w ∈ ws, IsWord w)
    (h : takeAction ws = .ok (symbols, action)) :
    (∀ w ∈ symbols, IsWord w) ∧ ∀ name ∈ action, IsWord name := by
  rcases takeAction_eq_ok_iff.mp h with ⟨rfl, rfl, -⟩ | ⟨name, hname, rfl, rfl⟩
  · exact ⟨hws, nofun⟩
  · obtain ⟨hsymbols, hlast⟩ := List.forall_mem_append.mp hws
    refine ⟨hsymbols, fun name' hname' => ?_⟩
    obtain rfl := Option.some.inj hname'
    exact ⟨hname, fun c hc =>
      (List.forall_mem_singleton.mp hlast).2 c (List.mem_cons_of_mem _ hc)⟩

/-- Without an action the last word does not look like one. -/
theorem head?_getLast?_of_takeAction
    (h : takeAction ws = .ok (symbols, none)) :
    ∀ w ∈ symbols.getLast?, w.head? ≠ some '~' := by
  rcases takeAction_eq_ok_iff.mp h with ⟨-, rfl, hplain⟩ | ⟨_, _, hsome, -⟩
  · exact hplain
  · cases hsome

/-- What is read from a line a line can express. -/
theorem expressible_of_ofText? {text : List Char}
    (h : ofText? text = .ok rule) : rule.Expressible := by
  have hleft := isNonterminal_left h
  obtain ⟨before, after, symbols, action, hcut, hbracketed,
      hblank, htake, rfl⟩ :=
    ofText?_eq_ok_iff.mp h
  obtain ⟨-, harrow⟩ := of_splitFirstPair?_eq_some hcut
  obtain ⟨hsymbols, haction⟩ :=
    isWord_of_takeAction (fun _ => isWord_of_mem_words) htake
  refine ⟨hleft, ?leftWord, ?leftArrow, ?right, ?action, ?last,
    dropEmptyWord_ne _⟩
  case leftWord =>
    rw [String.toList_ofList]
    refine ⟨fun hnil => ?_,
      fun c hc => Bool.not_eq_true _ ▸ List.any_eq_false.mp hblank c hc⟩
    rw [hnil] at hbracketed
    cases hbracketed
  case leftArrow =>
    rw [String.toList_ofList]
    exact fun hpart => harrow (hpart.trans (trim_isInfix before))
  case right =>
    intro symbol hsymbol
    obtain ⟨w, hw, rfl⟩ := List.mem_map.mp (mem_of_mem_dropEmptyWord hsymbol)
    rw [String.toList_ofList]
    exact hsymbols w hw
  case action =>
    intro name hname
    obtain ⟨cs, hcs, rfl⟩ := Option.map_eq_some_iff.mp hname
    rw [String.toList_ofList]
    exact haction cs hcs
  case last =>
    intro hnone symbol hsymbol
    rw [Option.map_eq_none_iff.mp hnone] at htake
    dsimp only at hsymbol
    unfold dropEmptyWord at hsymbol
    split at hsymbol
    · cases hsymbol
    · rw [List.getLast?_map] at hsymbol
      obtain ⟨w, hw, rfl⟩ := Option.map_eq_some_iff.mp hsymbol
      rw [String.toList_ofList]
      exact head?_getLast?_of_takeAction htake w hw

-- ============================================================= writing

/-- The words that are written for the right-hand side. -/
def rightWords (rule : Rule) : List Symbol :=
  if rule.right.isEmpty then [emptyWord] else rule.right

theorem rightText_eq (rule : Rule) :
    rule.rightText = spaced rule.rightWords := by
  unfold rightText rightWords
  split <;> rfl

theorem rightWords_ne_nil (rule : Rule) : rule.rightWords ≠ [] := by
  unfold rightWords
  split
  · exact List.cons_ne_nil _ _
  · next h => simpa using h

/-- The words that are written behind the arrow. -/
def bodyWords (rule : Rule) : List String :=
  rule.rightWords ++ (rule.action.map ("~" ++ ·)).toList

theorem bodyWords_ne_nil (rule : Rule) : rule.bodyWords ≠ [] :=
  List.append_ne_nil_of_left_ne_nil rule.rightWords_ne_nil _

theorem toText_eq (rule : Rule) :
    rule.toText = rule.left ++ " -> " ++ spaced rule.bodyWords := by
  unfold toText bodyWords
  rw [rightText_eq]
  cases rule.action with
  | none => simp
  | some name =>
      have htilde : " " ++ ("~" ++ name) = " ~" ++ name :=
        (String.append_assoc ..).symm
      rw [Option.map_some, Option.toList_some,
        spaced_concat rule.rightWords_ne_nil]
      simp only [String.append_assoc, htilde]

theorem toList_toText (rule : Rule) :
    rule.toText.toList
      = (rule.left.toList ++ [' '])
        ++ '-' :: '>' :: ' ' :: (spaced rule.bodyWords).toList := by
  rw [toText_eq]
  simp

theorem isWord_emptyWord : IsWord emptyWord.toList := by
  have htext : emptyWord.toList = ['e'] := rfl
  rw [htext]
  exact ⟨List.cons_ne_nil _ _, List.forall_mem_singleton.mpr (by decide)⟩

theorem Expressible.isWord_rightWords (h : rule.Expressible) :
    ∀ w ∈ rule.rightWords, IsWord w.toList := by
  unfold rightWords
  split
  · exact List.forall_mem_singleton.mpr isWord_emptyWord
  · exact h.right

theorem Expressible.isWord_bodyWords (h : rule.Expressible) :
    ∀ w ∈ rule.bodyWords, IsWord w.toList := by
  refine List.forall_mem_append.mpr ⟨h.isWord_rightWords, fun w hw => ?_⟩
  obtain ⟨name, hname, rfl⟩ :=
    Option.map_eq_some_iff.mp (Option.mem_toList.mp hw)
  have htext : ("~" ++ name).toList = '~' :: name.toList :=
    String.toList_append
  rw [htext]
  exact ⟨List.cons_ne_nil _ _,
    List.forall_mem_cons.mpr ⟨by decide, (h.action name hname).2⟩⟩

/-- The words behind the arrow are taken apart into symbols and action, the
word for the empty right-hand side being one of the symbols. -/
theorem Expressible.takeAction_bodyWords (h : rule.Expressible) :
    takeAction (rule.bodyWords.map String.toList)
      = .ok (rule.rightWords.map String.toList,
        rule.action.map String.toList) := by
  rw [takeAction_eq_ok_iff]
  unfold bodyWords
  cases haction : rule.action with
  | none =>
      refine Or.inl ⟨rfl, by simp, fun w hw => ?_⟩
      simp only [Option.map_none, Option.toList_none, List.append_nil,
        List.getLast?_map] at hw
      obtain ⟨symbol, hsymbol, rfl⟩ := Option.map_eq_some_iff.mp hw
      unfold rightWords at hsymbol
      split at hsymbol
      · cases hsymbol
        decide
      · exact h.last haction symbol hsymbol
  | some name =>
      refine Or.inr ⟨name.toList, (h.action name haction).1, rfl, ?_⟩
      simp

theorem Expressible.dropEmptyWord_rightWords (h : rule.Expressible) :
    dropEmptyWord rule.rightWords = rule.right := by
  unfold rightWords
  split
  · next hempty =>
      rw [List.isEmpty_iff.mp hempty]
      rfl
  · exact dropEmptyWord_eq_self h.plain

/-- A rule that a line can express is read back from its text. -/
theorem Expressible.ofText?_toText (h : rule.Expressible) :
    ofText? rule.toText.toList = .ok rule := by
  have harrow : ¬ ['-', '>'] <:+: rule.left.toList ++ [' '] := by
    intro hpart
    rcases List.infix_concat_iff.mp hpart with ⟨front, heq⟩ | hpart
    · have hlast := congrArg List.getLast? heq
      simp at hlast
    · exact h.leftArrow hpart
  have hcut : splitFirstPair? '-' '>' rule.toText.toList
      = some (rule.left.toList ++ [' '],
        ' ' :: (spaced rule.bodyWords).toList) := by
    rw [toList_toText]
    exact splitFirstPair?_append (by decide) harrow
  have htrim : trim (rule.left.toList ++ [' ']) = rule.left.toList :=
    trim_concat_blank h.leftWord isBlank_space
  have hblank : rule.left.toList.any isBlank = false :=
    List.any_eq_false.mpr fun c hc => by simp [h.leftWord.2 c hc]
  have htake := h.takeAction_bodyWords
  rw [← words_spaced h.isWord_bodyWords,
    ← words_blank_cons isBlank_space] at htake
  refine ofText?_eq_ok_iff.mpr ⟨_, _, _, _, hcut, ?_, ?_, htake, ?_⟩
  · rw [htrim]
    exact h.left
  · rw [htrim]
    exact hblank
  · simp only [htrim, List.map_map, Option.map_map,
      Function.comp_def, String.ofList_toList, List.map_id', Option.map_id',
      h.dropEmptyWord_rightWords]

/-- A rule is read back from its text exactly if a line can express it. -/
theorem ofText?_toText_iff :
    ofText? rule.toText.toList = .ok rule ↔ rule.Expressible :=
  ⟨expressible_of_ofText?, Expressible.ofText?_toText⟩

/-- The text of a rule begins and ends with characters of words. -/
theorem Expressible.trim_toText (h : rule.Expressible) :
    trim rule.toText.toList = rule.toText.toList := by
  obtain ⟨hne, hblank⟩ := h.leftWord
  obtain ⟨last, hlast, hlastBlank⟩ :=
    ends_spaced rule.bodyWords_ne_nil h.isWord_bodyWords
  refine trim_eq_self ?_ ?_ (hblank _ (List.head_mem hne)) hlastBlank
  · rw [toList_toText, List.head?_append_of_ne_nil _ (by simp),
      List.head?_append_of_ne_nil _ hne, List.head?_eq_some_head hne]
  · rw [toList_toText, List.getLast?_append, List.getLast?_cons_cons,
      List.getLast?_cons_cons, List.getLast?_cons, hlast]
    rfl

/-- Rules that lines can express are read back, one from each line. -/
theorem ofLinesFrom?_toText {rules : List Rule}
    (h : ∀ rule ∈ rules, rule.Expressible) (number : Nat) :
    ofLinesFrom? number (rules.map toText) = .ok rules := by
  induction rules generalizing number with
  | nil => rfl
  | cons rule rules ih =>
      rw [List.forall_mem_cons] at h
      have hne : rule.toText.toList.isEmpty = false := by
        rw [toList_toText]
        simp
      rw [List.map_cons, ofLinesFrom?]
      simp only [h.1.trim_toText, hne, Bool.false_eq_true, if_false,
        h.1.ofText?_toText, ih h.2]
      rfl

end Rule

-- ============================================================ the theorem

namespace Grammar

/-- A grammar that is written one rule to a line is read back: there are lines
from which it can be read exactly if it is read from its own. This is so
exactly if each of its rules can be expressed by a line, and is then read back
from its text alone. -/
theorem reads_back (g : Grammar) :
    ((∃ lines, ofLines? lines = .ok g)
      ↔ ofLines? (g.rules.map Rule.toText) = .ok g)
    ∧ ((∃ lines, ofLines? lines = .ok g) ↔ ∀ rule ∈ g.rules, rule.Expressible)
    ∧ ((∃ lines, ofLines? lines = .ok g)
      ↔ ∀ rule ∈ g.rules, Rule.ofText? rule.toText.toList = .ok rule) := by
  have hread : (∃ lines, ofLines? lines = .ok g) → ∀ rule ∈ g.rules,
      rule.Expressible := by
    rintro ⟨lines, hlines⟩ rule hrule
    obtain ⟨text, htext⟩ := exists_text hlines rule hrule
    exact Rule.expressible_of_ofText? htext
  have hback : (∀ rule ∈ g.rules, rule.Expressible) →
      ofLines? (g.rules.map Rule.toText) = .ok g := by
    intro hrules
    unfold ofLines? Rule.ofLines?
    rw [Rule.ofLinesFrom?_toText hrules]
    exact dif_neg g.rules_ne_nil
  have hexpressible : (∃ lines, ofLines? lines = .ok g) ↔ ∀ rule ∈ g.rules,
      rule.Expressible :=
    ⟨hread, fun hrules => ⟨_, hback hrules⟩⟩
  refine ⟨⟨fun hlines => hback (hread hlines), fun h => ⟨_, h⟩⟩,
    hexpressible, ?_⟩
  rw [hexpressible]
  exact forall₂_congr fun rule _ => Rule.ofText?_toText_iff.symm

/-- Only the first arrow separates, only the last tilde marks an action, and
the word for the empty right-hand side is a symbol beside others. -/
example :
    (Rule.ofText? "<A>-> -> e ~b ~a".toList).map
      (fun rule => (rule.right, rule.action))
    = .ok (["->", "e", "~b"], some "a") := by
  decide +kernel

end Grammar

end ShiftReduce
