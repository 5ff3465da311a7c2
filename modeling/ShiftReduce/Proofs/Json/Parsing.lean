/-
What is written is put together again.

The tokens of a written value form that value wherever a value may stand:
inside of whatever has been opened, and whatever follows. This is all that
has to be known of the items of a list and of the members of a record, so
the two blocks need one induction each over what stands between their
brackets. A text that writes a value is then read as the value.
-/
import Mathlib.Data.List.Forall2
import ShiftReduce.Json.Value
import ShiftReduce.Proofs.Json.Lexing

namespace ShiftReduce.Json

variable {opened : List Open} {rest tokens : List Token} {value : Value}

-- ======================================================= between brackets

/-- The tokens of several entries with commas between them. -/
def separated : List (List Token) → List Token
  | [] => []
  | first :: others => first ++ others.flatMap (.comma :: ·)

/-- The lines of a block are cut into the tokens of its entries. -/
theorem lexes_lines (depth : Nat) {entries : List String}
    {parts : List (List Token)} (h : List.Forall₂ Lexes entries parts) :
    Lexes (",\n".intercalate (entries.map (indent depth ++ ·)))
      (separated parts) := by
  induction h with
  | nil =>
      intro rest
      show lexFrom? .between (bytesOf "" ++ rest) = _
      rw [bytesOf_eq]
      simp [separated]
  | cons hfirst hothers ih =>
      have hline := (lexes_indent depth).append hfirst
      cases hothers with
      | nil =>
          rw [List.map_singleton, String.intercalate_singleton]
          simpa [separated] using hline
      | cons hnext hothers =>
          rw [List.map_cons] at ih ⊢
          rw [List.map_cons, String.intercalate_cons_cons]
          simpa [separated] using (hline.append lexes_comma).append ih

/-- A block is cut into its brackets and the tokens of its entries. -/
theorem lexes_block {opening closing : String} {left right : Token}
    (hleft : Lexes opening [left]) (hright : Lexes closing [right])
    (depth : Nat) {entries : List String} {parts : List (List Token)}
    (h : List.Forall₂ Lexes entries parts) :
    Lexes (block opening closing depth entries)
      (left :: (separated parts ++ [right])) := by
  unfold block
  by_cases hempty : entries = []
  · subst hempty
    cases h
    simpa [separated] using hleft.append hright
  · rw [if_neg (by simpa using hempty)]
    have hlines :=
      (hleft.append lexes_newline).append (lexes_lines (depth + 1) h)
    simpa using ((hlines.append lexes_newline).append
      (lexes_indent depth)).append hright

-- ================================================================= values

/-- Some tokens are read as a value, wherever a value may stand. -/
def Forms (tokens : List Token) (value : Value) : Prop :=
  ∀ opened rest, Value.ofTokensFrom? opened .value (tokens ++ rest)
    = Value.ofTokensFrom? opened (.after value) rest

/-- A value does not begin with the end of a list. -/
theorem Forms.ofTokensFrom?_firstItem (h : Forms tokens value) :
    Value.ofTokensFrom? opened .firstItem (tokens ++ rest)
      = Value.ofTokensFrom? opened (.after value) rest := by
  have halone : Value.ofTokensFrom? [] .value (tokens ++ [])
    = some value := h [] []
  rw [← h]
  match tokens with
  | [] => cases halone
  | .rightBracket :: _ => cases halone
  | .scalar :: _ | .text _ :: _ | .leftBracket :: _ | .leftBrace :: _ => rfl
  | .rightBrace :: _ | .colon :: _ | .comma :: _ => rfl

/-- The items behind an item are put behind it. -/
theorem ofTokensFrom?_items {parts : List (List Token)} {values : List Value}
    (h : List.Forall₂ Forms parts values) (items : List Value) :
    Value.ofTokensFrom? (.list items :: opened) (.after value)
        (parts.flatMap (.comma :: ·) ++ .rightBracket :: rest)
      = Value.ofTokensFrom? opened
        (.after (.list (items.reverse ++ value :: values))) rest := by
  induction h generalizing items value with
  | nil =>
      have hclosed : (value :: items).reverse = items.reverse ++ [value] :=
        List.reverse_cons
      rw [← hclosed]
      rfl
  | @cons part next parts values hpart hparts ih =>
      rw [List.flatMap_cons, List.append_assoc, List.cons_append]
      show Value.ofTokensFrom? (.list (value :: items) :: opened)
          .value (part ++ _) = _
      rw [hpart, ih, List.reverse_cons, List.append_assoc]
      rfl

theorem forms_list {parts : List (List Token)} {values : List Value}
    (h : List.Forall₂ Forms parts values) :
    Forms (.leftBracket :: (separated parts ++ [.rightBracket]))
      (.list values) := by
  intro opened rest
  cases h with
  | nil => rfl
  | @cons part value parts values hpart hparts =>
      show Value.ofTokensFrom? (.list [] :: opened) .firstItem
        (part ++ parts.flatMap (.comma :: ·) ++ [.rightBracket] ++ rest) = _
      rw [List.append_assoc, List.append_assoc, hpart.ofTokensFrom?_firstItem]
      exact ofTokensFrom?_items hparts []

/-- Some tokens are read as a member of a record: its key, a colon and its
value. -/
def FormsMember (tokens : List Token) (member : List Piece × Value) : Prop :=
  ∃ others, tokens = .text member.1 :: .colon :: others ∧ Forms others member.2

/-- The members behind a member are put behind it. -/
theorem ofTokensFrom?_members {parts : List (List Token)}
    {others : List (List Piece × Value)}
    (h : List.Forall₂ FormsMember parts others) (key : List Piece)
    (members : List (List Piece × Value)) :
    Value.ofTokensFrom? (.record members key :: opened) (.after value)
        (parts.flatMap (.comma :: ·) ++ .rightBrace :: rest)
      = Value.ofTokensFrom? opened
        (.after (.record (members.reverse ++ (key, value) :: others)))
          rest := by
  induction h generalizing key members value with
  | nil =>
      have hclosed : ((key, value) :: members).reverse
          = members.reverse ++ [(key, value)] :=
        List.reverse_cons
      rw [← hclosed]
      rfl
  | @cons part next parts others hpart hparts ih =>
      obtain ⟨tokens, rfl, hforms⟩ := hpart
      rw [List.flatMap_cons, List.append_assoc, List.cons_append]
      show Value.ofTokensFrom?
          (.record ((key, value) :: members) next.1 :: opened) .value
        (tokens ++ _) = _
      rw [hforms, ih, List.reverse_cons, List.append_assoc]
      rfl

theorem forms_record {parts : List (List Token)}
    {members : List (List Piece × Value)}
    (h : List.Forall₂ FormsMember parts members) :
    Forms (.leftBrace :: (separated parts ++ [.rightBrace]))
      (.record members) := by
  intro opened rest
  cases h with
  | nil => rfl
  | @cons part member parts members hpart hparts =>
      obtain ⟨tokens, rfl, hforms⟩ := hpart
      show Value.ofTokensFrom? (.record [] member.1 :: opened) .value
        (tokens ++ parts.flatMap (.comma :: ·) ++ [.rightBrace] ++ rest) = _
      rw [List.append_assoc, List.append_assoc, hforms]
      exact ofTokensFrom?_members hparts member.1 []

-- ================================================================== texts

/-- A text in which a value is written. -/
def Writes (text : String) (value : Value) : Prop :=
  ∃ tokens, Lexes text tokens ∧ Forms tokens value

theorem writes_quote (s : String) : Writes (quote s) (.text (written s)) :=
  ⟨_, lexes_quote s, fun _ _ => rfl⟩

theorem writes_listBlock (depth : Nat) {texts : List String}
    {values : List Value} (h : List.Forall₂ Writes texts values) :
    Writes (listBlock depth texts) (.list values) := by
  have hparts : ∃ parts, List.Forall₂ Lexes texts parts
      ∧ List.Forall₂ Forms parts values := by
    induction h with
    | nil => exact ⟨[], .nil, .nil⟩
    | cons hfirst _ ih =>
        obtain ⟨tokens, hlexes, hforms⟩ := hfirst
        obtain ⟨parts, hlexes', hforms'⟩ := ih
        exact ⟨tokens :: parts, .cons hlexes hlexes', .cons hforms hforms'⟩
  obtain ⟨parts, hlexes, hforms⟩ := hparts
  refine ⟨_, ?_, forms_list hforms⟩
  apply lexes_block _ _ _ hlexes
  · exact lexes_singleton (c := '[') (by decide) rfl
  · exact lexes_singleton (c := ']') (by decide) rfl

/-- The record of some members, with their keys as they are written. -/
def Value.named (members : List (String × Value)) : Value :=
  .record (members.map fun member => (written member.1, member.2))

theorem writes_recordBlock (depth : Nat) {texts : List (String × String)}
    {members : List (String × Value)}
    (h : List.Forall₂ (fun text member => text.1 = member.1
      ∧ Writes text.2 member.2) texts members) :
    Writes (recordBlock depth texts) (.named members) := by
  have hparts : ∃ parts, List.Forall₂ Lexes
        (texts.map fun text => quote text.1 ++ ": " ++ text.2) parts
      ∧ List.Forall₂ FormsMember parts
        (members.map fun member => (written member.1, member.2)) := by
    induction h with
    | nil => exact ⟨[], .nil, .nil⟩
    | cons hfirst _ ih =>
        obtain ⟨hname, tokens, hlexes, hforms⟩ := hfirst
        obtain ⟨parts, hlexes', hforms'⟩ := ih
        refine ⟨_,
          .cons (((lexes_quote _).append lexes_colon).append hlexes) hlexes',
          .cons ⟨tokens, ?_, hforms⟩ hforms'⟩
        rw [hname]
        rfl
  obtain ⟨parts, hlexes, hforms⟩ := hparts
  refine ⟨_, ?_, forms_record hforms⟩
  apply lexes_block _ _ _ hlexes
  · exact lexes_singleton (c := '\x7b') (by decide) rfl
  · exact lexes_singleton (c := '\x7d') (by decide) rfl

/-- A text in which a value is written is read as the value. -/
theorem Writes.ofBytes? {text : String} (h : Writes text value) :
    Value.ofBytes? (bytesOf text) = some value := by
  obtain ⟨tokens, hlexes, hforms⟩ := h
  have hlex : lex? (bytesOf text) = some tokens := by
    have hall := hlexes []
    rw [List.append_nil] at hall
    show lexFrom? .between (bytesOf text) = _
    rw [hall]
    show some (tokens ++ []) = _
    rw [List.append_nil]
  have hvalue : Value.ofTokens? tokens = some value := by
    have hall := hforms [] []
    rw [List.append_nil] at hall
    exact hall
  unfold Value.ofBytes?
  rw [hlex]
  exact hvalue

end ShiftReduce.Json
