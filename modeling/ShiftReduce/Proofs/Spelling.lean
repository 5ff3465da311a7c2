/-
Spelling a list of symbols by tokens.

A derivation chooses freely where to rewrite next, and for parsing that
freedom is in the way. Tokens spell a list of symbols if they can be cut up
along the list, a terminal being spelled by a token with that symbol and a
nonterminal by whatever spells the right-hand side of one of its rules.
This is the shape that an engine follows, symbol by symbol. Only rules that
are not empty take part, so every symbol is spelled by at least one token.
-/
import ShiftReduce.Proofs.Derivation
import ShiftReduce.Proofs.Vocabulary
import ShiftReduce.Token

namespace ShiftReduce

namespace Grammar

/-- The tokens spell the symbols, by rules that are not empty. -/
inductive Spells (g : Grammar) : List Symbol → List Token → Prop where
  | nil : Spells g [] []
  | token (token : Token) {symbols : List Symbol} {tokens : List Token}
      (terminal : isNonterminal token.symbol = false)
      (rest : Spells g symbols tokens) :
      Spells g (token.symbol :: symbols) (token :: tokens)
  | rule {index : Nat} {rule : Rule} {symbols : List Symbol}
      {front tokens : List Token}
      (hrule : g.rule? index = some rule) (nonempty : rule.right ≠ [])
      (inner : Spells g rule.right front) (rest : Spells g symbols tokens) :
      Spells g (rule.left :: symbols) (front ++ tokens)

namespace Spells

variable {g : Grammar}

-- ============================================================= lists

/-- Lists side by side are spelled side by side. -/
theorem append {u v : List Symbol} {front tokens : List Token}
    (h : g.Spells u front) (h' : g.Spells v tokens) :
    g.Spells (u ++ v) (front ++ tokens) := by
  induction h with
  | nil => exact h'
  | token token terminal _ ih => exact .token token terminal ih
  | rule hrule nonempty inner _ _ ih =>
      rw [List.append_assoc]
      exact .rule hrule nonempty inner ih

/-- What spells two lists side by side can be cut up between them. -/
theorem of_append {u v : List Symbol} {tokens : List Token}
    (h : g.Spells (u ++ v) tokens) :
    ∃ front back, tokens = front ++ back ∧ g.Spells u front
      ∧ g.Spells v back := by
  generalize huv : u ++ v = symbols at h
  induction h generalizing u with
  | nil =>
      obtain ⟨rfl, rfl⟩ := List.append_eq_nil_iff.mp huv
      exact ⟨[], [], rfl, .nil, .nil⟩
  | @token token symbols tokens terminal rest ih =>
      cases u with
      | nil =>
          rw [List.nil_append] at huv
          exact ⟨[], _, rfl, .nil, huv ▸ .token token terminal rest⟩
      | cons s u =>
          rw [List.cons_append, List.cons.injEq] at huv
          obtain ⟨rfl, huv⟩ := huv
          obtain ⟨front, back, rfl, hu, hv⟩ := ih huv
          exact ⟨token :: front, back, rfl, .token token terminal hu, hv⟩
  | @rule index rule symbols inner tokens hrule nonempty hinner rest _ ih =>
      cases u with
      | nil =>
          rw [List.nil_append] at huv
          exact ⟨[], _, rfl, .nil, huv ▸ .rule hrule nonempty hinner rest⟩
      | cons s u =>
          rw [List.cons_append, List.cons.injEq] at huv
          obtain ⟨rfl, huv⟩ := huv
          obtain ⟨front, back, rfl, hu, hv⟩ := ih huv
          exact ⟨inner ++ front, back, (List.append_assoc _ _ _).symm,
            .rule hrule nonempty hinner hu, hv⟩

theorem eq_nil {tokens : List Token} (h : g.Spells [] tokens) :
    tokens = [] := by
  cases h with
  | nil => rfl

/-- A list that is not empty is spelled by at least one token. -/
theorem ne_nil {symbols : List Symbol} {tokens : List Token}
    (h : g.Spells symbols tokens) (hne : symbols ≠ []) : tokens ≠ [] := by
  induction h with
  | nil => exact absurd rfl hne
  | token => exact List.cons_ne_nil _ _
  | rule _ nonempty _ _ ih =>
      exact List.append_ne_nil_of_left_ne_nil (ih nonempty) _

-- ========================================================= derivations

theorem of_tokens {tokens : List Token}
    (h : ∀ token ∈ tokens, isNonterminal token.symbol = false) :
    g.Spells (tokens.map Token.symbol) tokens := by
  induction tokens with
  | nil => exact .nil
  | cons token tokens ih =>
      rw [List.forall_mem_cons] at h
      exact .token token h.1 (ih h.2)

/-- What spells a list after a replacement spells it before. -/
theorem of_rewrites {u v : List Symbol} {tokens : List Token}
    (h : Rewrites g.Produces u v) (hv : g.Spells v tokens) :
    g.Spells u tokens := by
  cases h with
  | replace before after hp =>
      obtain ⟨nonempty, rule, hmem, hleft, hright⟩ := hp
      obtain ⟨index, hindex⟩ := List.getElem?_of_mem hmem
      rw [List.append_assoc] at hv
      obtain ⟨front, back, rfl, hbefore, hback⟩ := hv.of_append
      obtain ⟨inner, rest, rfl, hinner, hafter⟩ := hback.of_append
      rw [← hleft]
      rw [← hright] at nonempty hinner
      exact hbefore.append (.rule hindex nonempty hinner hafter)

/-- Tokens spell every list of symbols that derives theirs. -/
theorem of_derives {symbols : List Symbol} {tokens : List Token}
    (hterminals : ∀ token ∈ tokens, isNonterminal token.symbol = false)
    (h : Derives g.Produces symbols (tokens.map Token.symbol)) :
    g.Spells symbols tokens := by
  induction h using Relation.ReflTransGen.head_induction_on with
  | refl => exact of_tokens hterminals
  | head hstep _ ih => exact ih.of_rewrites hstep

-- =========================================================== vocabulary

/-- If the terminals in a list are terminals of the grammar, so are the
symbols of the tokens that spell it. -/
theorem mem_terminals {symbols : List Symbol} {tokens : List Token}
    (h : g.Spells symbols tokens)
    (hsymbols : ∀ s ∈ symbols, isNonterminal s = false → s ∈ g.terminals) :
    ∀ token ∈ tokens, token.symbol ∈ g.terminals := by
  induction h with
  | nil => exact fun token htoken => nomatch htoken
  | token token terminal _ ih =>
      rw [List.forall_mem_cons] at hsymbols ⊢
      exact ⟨hsymbols.1 terminal, ih hsymbols.2⟩
  | @rule _ rule _ _ _ hrule _ _ _ ihinner ihrest =>
      rw [List.forall_mem_cons] at hsymbols
      rw [List.forall_mem_append]
      refine ⟨ihinner fun s hs hterminal => ?_, ihrest hsymbols.2⟩
      exact mem_terminals_iff.mpr
        (Or.inr ⟨⟨rule, List.mem_of_getElem? hrule, hs⟩, hterminal⟩)

end Spells

end Grammar

end ShiftReduce
