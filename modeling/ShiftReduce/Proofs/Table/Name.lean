/-
Names are read back.

The name of an item is cut from behind, where there are only numbers and
the two colons that belong to them, so it does not matter what the symbol
looks like as long as it has no space in it. The name of a union is cut at
its spaces. The start symbol is a name as well, but it ends with a bracket
and all others end with a digit.

The text of a reduction is read back too. The one thing that is not is a
shift into a state whose name begins like a reduction with a semantic
action. Since a name begins with a symbol, this is a matter of the symbol:
behind an `R` and a number it must have a tilde.
-/
import ShiftReduce.Proofs.Text.Cutting
import ShiftReduce.Table.Name

namespace ShiftReduce

open Text Numeral

/-- A nonterminal ends with a bracket. -/
theorem getLast?_of_isNonterminal {symbol : Symbol}
    (h : isNonterminal symbol = true) : symbol.toList.getLast? = some '>' := by
  unfold isNonterminal isBracketed at h
  split at h
  · next inner hinner =>
      rw [Bool.and_eq_true, beq_iff_eq] at h
      rw [hinner, List.getLast?_cons, h.2]
      rfl
  · cases h

-- ============================================================== numbers

namespace Numeral

theorem isDigit_of_mem {n : Nat} {c : Char} (h : c ∈ Nat.toDigits 10 n) :
    c.isDigit = true :=
  Nat.isDigit_of_mem_toDigits (by omega) (by omega) h

theorem not_mem_toDigits {n : Nat} {c : Char} (h : c.isDigit = false) :
    c ∉ Nat.toDigits 10 n := by
  intro hmem
  rw [isDigit_of_mem hmem] at h
  cases h

theorem isDigit_of_readBelow? {limit n : Nat} {cs : List Char}
    (h : readBelow? limit cs = some n) : ∀ c ∈ cs, c.isDigit = true := by
  obtain ⟨hread, -⟩ := Option.filter_eq_some_iff.mp h
  unfold read? at hread
  split at hread
  · next hall => exact List.all_eq_true.mp hall.2
  · cases hread

theorem lt_of_readBelow? {limit n : Nat} {cs : List Char}
    (h : readBelow? limit cs = some n) : n < limit :=
  of_decide_eq_true (Option.filter_eq_some_iff.mp h).2

theorem lt_of_readPlusBelow? {limit n : Nat} {cs : List Char}
    (h : readPlusBelow? limit cs = some n) : n < limit := by
  unfold readPlusBelow? at h
  split at h
  · exact lt_of_readBelow? h
  · exact lt_of_readBelow? h

theorem readBelow?_toDigits {limit n : Nat} (h : n < limit) :
    readBelow? limit (Nat.toDigits 10 n) = some n := by
  unfold readBelow?
  rw [read?_toDigits]
  simp [h]

theorem readPlusBelow?_toDigits {limit n : Nat} (h : n < limit) :
    readPlusBelow? limit (Nat.toDigits 10 n) = some n := by
  have hread := readBelow?_toDigits h
  cases hdigits : Nat.toDigits 10 n with
  | nil => exact absurd hdigits Nat.toDigits_ne_nil
  | cons c cs =>
      have hc : c.isDigit = true :=
        isDigit_of_mem (hdigits ▸ List.mem_cons_self)
      rw [hdigits] at hread
      unfold readPlusBelow?
      split
      · next heq =>
          -- a digit is not a plus sign
          cases heq
          exact absurd hc (by decide)
      · exact hread

end Numeral

-- ================================================================ items

namespace Item

/-- An item whose name can be read: a symbol without spaces, and numbers
below the limits. -/
structure Legible (i : Item) : Prop where
  symbol_ne : i.symbol ≠ ""
  solid : ' ' ∉ i.symbol.toList
  rule_lt : i.rule < ruleLimit
  position_lt : i.position < positionLimit

theorem toList_toText (i : Item) :
    i.toText.toList = i.symbol.toList
      ++ ':'
        :: (Nat.toDigits 10 i.rule ++ ':' :: Nat.toDigits 10 i.position) := by
  unfold toText
  simp

/-- The name of an item has no other characters than its symbol, digits and
colons. -/
theorem mem_toText {i : Item} {c : Char} (h : c ∈ i.toText.toList) :
    c ∈ i.symbol.toList ∨ c = ':' ∨ c.isDigit = true := by
  simp only [toList_toText, List.mem_append, List.mem_cons] at h
  rcases h with h | h | h | h | h
  · exact Or.inl h
  · exact Or.inr (Or.inl h)
  · exact Or.inr (Or.inr (isDigit_of_mem h))
  · exact Or.inr (Or.inl h)
  · exact Or.inr (Or.inr (isDigit_of_mem h))

theorem not_mem_toText {i : Item} {c : Char} (hsymbol : c ∉ i.symbol.toList)
    (hcolon : c ≠ ':') (hdigit : c.isDigit = false) : c ∉ i.toText.toList := by
  intro h
  rcases mem_toText h with h | h | h
  · exact hsymbol h
  · exact hcolon h
  · rw [hdigit] at h
    cases h

/-- The name of an item ends with a digit. -/
theorem getLast?_toText (i : Item) :
    ∃ c, i.toText.toList.getLast? = some c ∧ c.isDigit = true := by
  have hne := Nat.toDigits_ne_nil (n := i.position) (b := 10)
  refine ⟨(Nat.toDigits 10 i.position).getLast hne, ?_,
    isDigit_of_mem (List.getLast_mem hne)⟩
  rw [toList_toText, List.getLast?_append_of_ne_nil _ (List.cons_ne_nil _ _),
    List.getLast?_cons,
    List.getLast?_append_of_ne_nil _ (List.cons_ne_nil _ _),
    List.getLast?_cons, List.getLast?_eq_some_getLast hne]
  rfl

/-- A colon with a number behind it is the last one. -/
theorem splitLast?_number (front : List Char) (n : Nat) :
    splitLast? ':' (front ++ ':' :: Nat.toDigits 10 n)
      = some (front, Nat.toDigits 10 n) :=
  splitLast?_append (not_mem_toDigits (by decide))

theorem splitLast?_toText (i : Item) :
    splitLast? ':' i.toText.toList
      = some (i.symbol.toList ++ ':' :: Nat.toDigits 10 i.rule,
        Nat.toDigits 10 i.position) := by
  rw [← splitLast?_number, toList_toText, List.append_assoc, List.cons_append]

/-- The name of an item is read back. -/
theorem ofText?_toText {i : Item} (h : i.Legible) :
    ofText? i.toText.toList = some i := by
  have hsymbol : i.symbol.toList ≠ [] := by
    rw [ne_eq, String.toList_eq_nil_iff]
    exact h.symbol_ne
  unfold ofText?
  simp [splitLast?_toText, splitLast?_number,
    readPlusBelow?_toDigits h.position_lt,
    readPlusBelow?_toDigits h.rule_lt, hsymbol]

/-- Names with spaces between them fall apart into the names again. -/
theorem splitOn_spaced_toText {items : List Item} (hne : items ≠ [])
    (h : ∀ i ∈ items, ' ' ∉ i.symbol.toList) :
    splitOn ' ' (spaced (items.map toText)).toList = items.map fun i =>
      i.toText.toList := by
  have hsolid : ∀ piece ∈ items.map toText, ' ' ∉ piece.toList := by
    intro piece hpiece
    obtain ⟨i, hi, rfl⟩ := List.mem_map.mp hpiece
    exact not_mem_toText (h i hi) (by decide) (by decide)
  rw [splitOn_spaced (by simpa using hne) hsolid, List.map_map]
  rfl

end Item

-- ================================================================= keys

namespace StateKey

/-- A state whose name can be read: the start state, an item, or at least
two of them. -/
def Legible : StateKey → Prop
  | start => True
  | item i => i.Legible
  | merged is => 2 ≤ is.length ∧ ∀ i ∈ is, i.Legible

/-- A state whose name can be told from other names: the start state, an item,
or at least two of them, with symbols that have no spaces in them. -/
def Solid : StateKey → Prop
  | start => True
  | item i => ' ' ∉ i.symbol.toList
  | merged is => 2 ≤ is.length ∧ ∀ i ∈ is, ' ' ∉ i.symbol.toList

theorem Legible.of_mem {key : StateKey} (h : key.Legible) {i : Item}
    (hi : i ∈ key.items) : i.Legible := by
  cases key with
  | start => cases hi
  | item j => exact List.mem_singleton.mp hi ▸ h
  | merged is => exact h.2 i hi

theorem Legible.solid {key : StateKey} (h : key.Legible) : key.Solid := by
  cases key with
  | start => trivial
  | item i => exact Item.Legible.solid h
  | merged is => exact ⟨h.1, fun i hi => (h.2 i hi).solid⟩

theorem Solid.legible {key : StateKey} (h : key.Solid)
    (hitems : ∀ i ∈ key.items, i.Legible) : key.Legible := by
  cases key with
  | start => trivial
  | item i => exact hitems i (List.mem_singleton_self i)
  | merged is => exact ⟨h.1, hitems⟩

/-- Apart from the start state, a name is made of the names of the items,
and the items make up the state. -/
theorem Solid.name_eq {key : StateKey} (h : key.Solid) (hkey : key ≠ start)
    (startSymbol : Symbol) :
    key.items ≠ []
      ∧ key.toText startSymbol = spaced (key.items.map Item.toText)
      ∧ ofItems key.items = key := by
  cases key with
  | start => exact absurd rfl hkey
  | item i => exact ⟨List.cons_ne_nil _ _, rfl, rfl⟩
  | merged is =>
      match is, h.1 with
      | i :: j :: rest, _ => exact ⟨List.cons_ne_nil _ _, rfl, rfl⟩

/-- The name falls apart into the names of the items. -/
theorem Solid.splitOn_toText {key : StateKey} (h : key.Solid)
    (hkey : key ≠ start) (startSymbol : Symbol) :
    splitOn ' ' (key.toText startSymbol).toList = key.items.map fun i =>
      i.toText.toList := by
  obtain ⟨hne, htext, -⟩ := h.name_eq hkey startSymbol
  rw [htext, Item.splitOn_spaced_toText hne]
  cases key with
  | start => exact absurd rfl hkey
  | item i => exact fun j hj => List.mem_singleton.mp hj ▸ h
  | merged is => exact h.2

/-- The name of a state that is not the start state ends with a digit. -/
theorem getLast?_spaced {is : List Item} (hne : is ≠ []) :
    ∃ c, (spaced (is.map Item.toText)).toList.getLast? = some c
      ∧ c.isDigit = true := by
  induction is with
  | nil => exact absurd rfl hne
  | cons i is ih =>
      cases is with
      | nil => exact i.getLast?_toText
      | cons j is =>
          obtain ⟨c, hlast, hc⟩ := ih (List.cons_ne_nil _ _)
          refine ⟨c, ?_, hc⟩
          rw [List.map_cons, List.map_cons, spaced, String.toList_append,
            List.getLast?_append]
          rw [List.map_cons] at hlast
          rw [hlast]
          rfl

/-- So it is not the name of the start state. -/
theorem Solid.toText_ne {startSymbol : Symbol}
    (hstart : isNonterminal startSymbol = true) {key : StateKey}
    (h : key.Solid) (hkey : key ≠ start) :
    key.toText startSymbol ≠ startSymbol := by
  obtain ⟨hne, htext, -⟩ := h.name_eq hkey startSymbol
  intro heq
  obtain ⟨c, hlast, hc⟩ := getLast?_spaced hne
  rw [← htext, heq, getLast?_of_isNonterminal hstart] at hlast
  cases hlast
  exact absurd hc (by decide)

/-- The name of a state is read back. -/
theorem ofText?_toText {startSymbol : Symbol}
    (hstart : isNonterminal startSymbol = true) {key : StateKey}
    (h : key.Legible) :
    ofText? startSymbol (key.toText startSymbol) = some key := by
  by_cases hkey : key = start
  · subst hkey
    exact if_pos rfl
  · obtain ⟨-, -, hitems⟩ := h.solid.name_eq hkey startSymbol
    unfold ofText?
    rw [if_neg (h.solid.toText_ne hstart hkey), h.solid.splitOn_toText hkey,
      mapM_map_eq_some fun i hi => Item.ofText?_toText (h.of_mem hi),
      Option.map_some, hitems]

end StateKey

-- ============================================================= reductions

/-- The text of a reduction is read back, if the number of the rule is below
the limit and the action has a name that is not empty. -/
theorem Action.reduceOfText?_reduceText {σ : Type} {rule : Nat}
    (hrule : rule < Item.ruleLimit) {action : Option String}
    (haction : action ≠ some "") :
    (reduceOfText? (reduceText rule action).toList : Option (Action σ))
      = some (.reduce rule action) := by
  have htilde : '~' ∉ Nat.toDigits 10 rule := not_mem_toDigits (by decide)
  cases action with
  | none =>
      have htext : (reduceText rule none).toList
          = 'R' :: Nat.toDigits 10 rule := by
        unfold reduceText
        simp
      rw [htext]
      simp [reduceOfText?, splitFirst?_eq_none htilde,
        readBelow?_toDigits hrule]
  | some name =>
      have htext : (reduceText rule (some name)).toList
          = 'R' :: (Nat.toDigits 10 rule ++ '~' :: name.toList) := by
        unfold reduceText
        simp
      have hname : name.toList ≠ [] := by
        rw [ne_eq, String.toList_eq_nil_iff]
        rintro rfl
        exact haction rfl
      rw [htext]
      simp [reduceOfText?, splitFirst?_append htilde,
        readBelow?_toDigits hrule, hname]

/-- A symbol that begins like a reduction with a semantic action. -/
def LooksReduced (symbol : Symbol) : Prop :=
  ∃ digits rest rule, symbol.toList = 'R' :: (digits ++ '~' :: rest)
    ∧ readBelow? Item.ruleLimit digits = some rule

/-- A text with a tilde is cut at the first one, and looks like a reduction
if there is a number before it. -/
theorem exists_number_iff {digits others : List Char} (h : '~' ∉ digits) :
    (∃ number rest rule,
        'R' :: (digits ++ '~' :: others) = 'R' :: (number ++ '~' :: rest)
        ∧ readBelow? Item.ruleLimit number = some rule)
      ↔ ∃ rule, readBelow? Item.ruleLimit digits = some rule := by
  constructor
  · rintro ⟨number, rest, rule, heq, hrule⟩
    have hnumber : '~' ∉ number := by
      intro hmem
      exact absurd (isDigit_of_readBelow? hrule _ hmem) (by decide)
    have hcut : splitFirst? '~' (digits ++ '~' :: others)
        = some (digits, others) :=
      splitFirst?_append h
    rw [(List.cons.inj heq).2, splitFirst?_append hnumber] at hcut
    cases hcut
    exact ⟨rule, hrule⟩
  · rintro ⟨rule, hrule⟩
    exact ⟨digits, others, rule, rfl, hrule⟩

/-- A text in which a colon stands before any tilde is no reduction. -/
theorem Action.reduceOfText?_of_colon {σ : Type} {cs rest : List Char}
    (htilde : '~' ∉ cs) :
    (reduceOfText? ('R' :: (cs ++ ':' :: rest)) : Option (Action σ))
      = none := by
  have hread :
      ∀ more, readBelow? Item.ruleLimit (cs ++ ':' :: more) = none := by
    intro more
    rw [Option.eq_none_iff_forall_ne_some]
    intro rule hrule
    exact absurd (isDigit_of_readBelow? hrule ':' (by simp)) (by decide)
  by_cases hmem : '~' ∈ rest
  · -- what is cut off at the first tilde has the colon in it
    obtain ⟨front, name, rfl, hfront⟩ := List.eq_append_cons_of_mem hmem
    have hcut : splitFirst? '~' (cs ++ ':' :: (front ++ '~' :: name))
        = some (cs ++ ':' :: front, name) := by
      have hnumber : '~' ∉ cs ++ ':' :: front := by simp [htilde, hfront]
      have happend : splitFirst? '~' ((cs ++ ':' :: front) ++ '~' :: name)
          = some (cs ++ ':' :: front, name) := splitFirst?_append hnumber
      simpa using happend
    simp [reduceOfText?, hcut, hread]
  · have hnone : '~' ∉ cs ++ ':' :: rest := by simp [htilde, hmem]
    simp [reduceOfText?, splitFirst?_eq_none hnone, hread]

/-- Whether a name is taken for a reduction depends on the symbol with which
it begins. -/
theorem reduceOfText?_eq_none_iff {symbol : Symbol} {rest : List Char} :
    (Action.reduceOfText? (symbol.toList ++ ':' :: rest) : Option (Action Nat))
      = none
      ↔ ¬ LooksReduced symbol := by
  unfold LooksReduced
  generalize symbol.toList = cs
  match cs with
  | [] => simp [Action.reduceOfText?]
  | c :: cs =>
      by_cases hR : c = 'R'
      case neg => simp [Action.reduceOfText?, hR]
      subst hR
      by_cases htilde : '~' ∈ cs
      · -- the name is cut at the first tilde of the symbol
        obtain ⟨digits, others, rfl, hdigits⟩ :=
          List.eq_append_cons_of_mem htilde
        have hread : (Action.reduceOfText?
              ('R' :: (digits ++ '~' :: (others ++ ':' :: rest))) :
                Option (Action Nat))
            = (readBelow? Item.ruleLimit digits).map
              (.reduce · (some (String.ofList (others ++ ':' :: rest)))) := by
          simp [Action.reduceOfText?, splitFirst?_append hdigits]
        rw [exists_number_iff hdigits, List.cons_append, List.append_assoc,
          List.cons_append, hread]
        cases readBelow? Item.ruleLimit digits <;> simp
      · constructor
        · rintro - ⟨digits, others, rule, heq, -⟩
          rw [(List.cons.inj heq).2] at htilde
          exact htilde (by simp)
        · intro _
          exact Action.reduceOfText?_of_colon htilde

/-- The name of a state other than the start state begins with the symbol of
its first item. -/
theorem StateKey.Legible.exists_toList_toText {key : StateKey}
    (h : key.Legible) {i : Item} (hi : key.items.head? = some i)
    (startSymbol : Symbol) :
    ∃ rest,
      (key.toText startSymbol).toList = i.symbol.toList ++ ':' :: rest := by
  have hkey : key ≠ .start := by
    rintro rfl
    cases hi
  obtain ⟨-, htext, -⟩ := h.solid.name_eq hkey startSymbol
  rw [htext]
  match key.items, hi with
  | i :: others, rfl =>
      cases others with
      | nil => exact ⟨_, i.toList_toText⟩
      | cons j others =>
          rw [List.map_cons, List.map_cons, spaced, String.toList_append,
            String.toList_append, i.toList_toText, List.append_assoc,
            List.append_assoc]
          exact ⟨_, rfl⟩

/-- So it is taken for a reduction exactly if that symbol looks like one. -/
theorem StateKey.Legible.reduceOfText?_toText_eq_none_iff {key : StateKey}
    (h : key.Legible) {i : Item} (hi : key.items.head? = some i)
    (startSymbol : Symbol) :
    (Action.reduceOfText? (key.toText startSymbol).toList :
      Option (Action Nat)) = none
      ↔ ¬ LooksReduced i.symbol := by
  obtain ⟨rest, hrest⟩ := h.exists_toList_toText hi startSymbol
  rw [hrest]
  exact reduceOfText?_eq_none_iff

end ShiftReduce
