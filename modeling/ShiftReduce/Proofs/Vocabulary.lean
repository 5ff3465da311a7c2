/-
The two kinds of symbols of a grammar.

A grammar that has been read from lines has a nonterminal on the left of
each of its rules, since a line with anything else there is not a rule. The
terminals and the nonterminals that are listed for it are, apart from the
end marker, the symbols of its rules sorted by their form. So no terminal
is the left-hand side of a rule.
-/
import ShiftReduce.Proofs.Collections.Lookup
import ShiftReduce.Grammar

namespace ShiftReduce

open Text

/-- A text is a rule if it has an arrow, a nonterminal in front of the first
one, and words behind it of which the last may be an action. -/
theorem Rule.ofText?_eq_ok_iff {text : List Char} {rule : Rule} :
    Rule.ofText? text = .ok rule ↔ ∃ before after symbols action,
      splitFirstPair? '-' '>' text = some (before, after)
      ∧ isBracketed (trim before) = true ∧ (trim before).any isBlank = false
      ∧ takeAction (words after) = .ok (symbols, action)
      ∧ rule = ⟨String.ofList (trim before),
        dropEmptyWord (symbols.map String.ofList),
        action.map String.ofList⟩ := by
  unfold Rule.ofText?
  constructor
  · intro h
    split at h
    · cases h
    · next before after hcut =>
        dsimp only at h
        split at h
        · cases h
        · next hleft =>
            split at h
            · cases h
            · next symbols action htake =>
                cases h
                simp only [Bool.or_eq_true, Bool.not_eq_true', not_or,
                  Bool.not_eq_false, Bool.not_eq_true] at hleft
                exact ⟨before, after, symbols, action, hcut, hleft.1,
                  hleft.2, htake, rfl⟩
  · rintro ⟨before, after, symbols, action, hcut, hbracketed,
      hblank, htake, rfl⟩
    simp [hcut, hbracketed, hblank, htake]

theorem Rule.isNonterminal_left {text : List Char} {rule : Rule}
    (h : Rule.ofText? text = .ok rule) : isNonterminal rule.left = true := by
  obtain ⟨before, after, symbols, action, -, hbracketed, -, -, rfl⟩ :=
    Rule.ofText?_eq_ok_iff.mp h
  unfold isNonterminal
  rw [String.toList_ofList]
  exact hbracketed

/-- Rules that are read from lines are written there. -/
theorem Rule.exists_text_of_lines {number : Nat} {lines : List String}
    {rules : List Rule} (h : Rule.ofLinesFrom? number lines = .ok rules) :
    ∀ rule ∈ rules, ∃ text, Rule.ofText? text = .ok rule := by
  induction lines generalizing number rules with
  | nil =>
      cases h
      exact fun rule hrule => nomatch hrule
  | cons line rest ih =>
      unfold Rule.ofLinesFrom? at h
      dsimp only at h
      split at h
      · exact ih h
      · split at h
        · cases h
        · next first hfirst =>
            cases hrest : Rule.ofLinesFrom? (number + 1) rest with
            | error e => rw [hrest] at h; cases h
            | ok others =>
                rw [hrest] at h
                cases h
                intro rule hrule
                rcases List.mem_cons.mp hrule with rfl | hrule
                · exact ⟨_, hfirst⟩
                · exact ih hrest rule hrule

namespace Grammar

variable {g : Grammar}

/-- The rules of a grammar that is read from lines are written there. -/
theorem exists_text {lines : List String} (h : ofLines? lines = .ok g) :
    ∀ rule ∈ g.rules, ∃ text, Rule.ofText? text = .ok rule := by
  unfold ofLines? at h
  split at h
  · cases h
  · next rules hrules =>
      unfold ofRules? at h
      split at h
      · cases h
      · cases h
        exact Rule.exists_text_of_lines hrules

/-- A grammar that is read from lines has nonterminals on the left. -/
theorem isNonterminal_left {lines : List String} (h : ofLines? lines = .ok g) :
    ∀ rule ∈ g.rules, isNonterminal rule.left = true := by
  intro rule hrule
  obtain ⟨text, htext⟩ := exists_text h rule hrule
  exact Rule.isNonterminal_left htext

theorem isNonterminal_startSymbol
    (hleft : ∀ rule ∈ g.rules, isNonterminal rule.left = true) :
    isNonterminal g.startSymbol = true :=
  hleft _ (List.head_mem g.rules_ne_nil)

/-- The terminals are the end marker and the symbols on the right of rules
that are not nonterminals. -/
theorem mem_terminals_iff {symbol : Symbol} :
    symbol ∈ g.terminals ↔ symbol = endMarker
      ∨ ((∃ rule ∈ g.rules, symbol ∈ rule.right)
        ∧ isNonterminal symbol = false) := by
  unfold terminals rightSymbols
  rw [OrderedSet.ofWords_eq]
  simp [List.mem_flatMap]

/-- The nonterminals are the left-hand sides of rules and the nonterminals
on the right of rules. -/
theorem mem_nonterminals_iff {symbol : Symbol} :
    symbol ∈ g.nonterminals ↔ (∃ rule ∈ g.rules, rule.left = symbol)
      ∨ ((∃ rule ∈ g.rules, symbol ∈ rule.right)
        ∧ isNonterminal symbol = true) := by
  unfold nonterminals definedSymbols rightSymbols
  simp [List.mem_flatMap]

theorem isNonterminal_of_mem_terminals {symbol : Symbol}
    (h : symbol ∈ g.terminals) : isNonterminal symbol = false := by
  rcases mem_terminals_iff.mp h with rfl | ⟨-, h⟩
  · decide
  · exact h

end Grammar

end ShiftReduce
