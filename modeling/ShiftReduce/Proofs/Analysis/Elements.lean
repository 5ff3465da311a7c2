/-
How terminals come into the sets.

The families of sets are the least that satisfy a list of inclusions, and
inclusions are about numbers. Seen from the rules, a terminal is in the FIRST
set of a left-hand side because a rule begins with it, or begins with a
nonterminal that has it. And it is in the FOLLOW set of a nonterminal because
it is the end marker and the nonterminal the start symbol, or because what is
behind the nonterminal in a rule may begin with it, or because what is behind
may vanish and the left-hand side has it. These are two principles of
induction, and whatever holds of the elements of the sets is proved by them.
-/
import ShiftReduce.Proofs.Analysis.Ahead

namespace ShiftReduce

namespace Grammar

variable {g : Grammar} {P : Symbol → Symbol → Prop} {nonterminal : Symbol}
  {n : TerminalId}

/-- The FIRST sets of the grammar. -/
abbrev first (g : Grammar) : FirstSets := FirstSets.ofGrammar g

-- ============================================================== FIRST

theorem eq_of_contains_ofTerminal {terminals : OrderedSet Symbol}
    {symbol : Symbol}
    (h : (FirstSets.ofTerminal terminals symbol).contains n = true) :
    TerminalId.of? terminals symbol = some n := by
  unfold FirstSets.ofTerminal at h
  split at h
  · rw [TerminalSet.contains_empty] at h
    cases h
  · next number hnumber =>
      rw [TerminalSet.contains_singleton, decide_eq_true_eq] at h
      exact h ▸ hnumber

/-- A demand on a FIRST set is that of a rule, for the symbol with which the
rule begins. -/
theorem exists_rule_of_first_inclusion {inclusion : Inclusion}
    (h : inclusion ∈ g.rules.filterMap (FirstSets.inclusion? g.terminals)) :
    ∃ rule ∈ g.rules, ∃ symbol rest, rule.right = symbol :: rest
      ∧ ((isNonterminal symbol = true
          ∧ inclusion = ⟨rule.left, TerminalSet.empty, some symbol⟩)
        ∨ (isNonterminal symbol = false
          ∧ inclusion = ⟨rule.left, FirstSets.ofTerminal g.terminals symbol,
            none⟩)) := by
  obtain ⟨rule, hrule, hinclusion⟩ := List.mem_filterMap.mp h
  unfold FirstSets.inclusion? at hinclusion
  split at hinclusion
  · cases hinclusion
  · next symbol rest hright =>
      refine ⟨rule, hrule, symbol, rest, hright, ?_⟩
      split at hinclusion
      · next hsymbol =>
          cases hinclusion
          exact Or.inl ⟨hsymbol, rfl⟩
      · next hsymbol =>
          cases hinclusion
          exact Or.inr ⟨Bool.eq_false_iff.mpr hsymbol, rfl⟩

/-- Induction on how a terminal came into a FIRST set. -/
theorem first_induction
    (hterminal : ∀ rule ∈ g.rules, ∀ symbol rest, rule.right = symbol :: rest →
      isNonterminal symbol = false → P rule.left symbol)
    (hnonterminal : ∀ rule ∈ g.rules, ∀ symbol rest,
      rule.right = symbol :: rest → isNonterminal symbol = true → ∀ terminal,
      P symbol terminal → P rule.left terminal)
    (h : (g.first.sets.setAt nonterminal).contains n = true) :
    ∃ terminal, TerminalId.of? g.terminals terminal = some n
      ∧ P nonterminal terminal := by
  refine TerminalFamily.least_induction (P := fun nonterminal n => ∃ terminal,
    TerminalId.of? g.terminals terminal = some n
      ∧ P nonterminal terminal) ?_ ?_ h
  · intro inclusion hmem n hn
    obtain ⟨rule, hrule, symbol, rest, hright, ⟨-, rfl⟩ | ⟨hsymbol, rfl⟩⟩ :=
      exists_rule_of_first_inclusion hmem
    · rw [TerminalSet.contains_empty] at hn
      cases hn
    · exact ⟨symbol, eq_of_contains_ofTerminal hn,
        hterminal rule hrule symbol rest hright hsymbol⟩
  · intro inclusion hmem source hsource n hn
    obtain ⟨terminal, hnumber, hP⟩ := hn
    obtain ⟨rule, hrule, symbol, rest, hright, ⟨hsymbol, rfl⟩ | ⟨-, rfl⟩⟩ :=
      exists_rule_of_first_inclusion hmem
    · cases hsource
      exact ⟨terminal, hnumber,
        hnonterminal rule hrule source rest hright hsymbol terminal hP⟩
    · cases hsource

-- ============================================================= FOLLOW

theorem exists_before_of_mem_occurrences {symbols after : List Symbol}
    {symbol : Symbol} (h : (symbol, after) ∈ FollowSets.occurrences symbols) :
    ∃ before, symbols = before ++ symbol :: after := by
  induction symbols with
  | nil => cases h
  | cons other symbols ih =>
      have hrest : (symbol, after) ∈ FollowSets.occurrences symbols →
          ∃ before, other :: symbols = before ++ symbol :: after := by
        intro hmem
        obtain ⟨before, rfl⟩ := ih hmem
        exact ⟨other :: before, rfl⟩
      rw [FollowSets.occurrences] at h
      split at h
      · rcases List.mem_cons.mp h with heq | h
        · cases heq
          exact ⟨[], rfl⟩
        · exact hrest h
      · exact hrest h

/-- A demand on a FOLLOW set is that of the end of the input, or that of an
occurrence of a nonterminal in a rule. -/
theorem exists_occurrence_of_follow_inclusion {inclusion : Inclusion}
    (h : inclusion ∈ FollowSets.inclusions g g.first) :
    inclusion = ⟨g.startSymbol,
      FirstSets.ofTerminal g.terminals endMarker, none⟩
      ∨ ∃ rule ∈ g.rules, ∃ before symbol after,
        rule.right = before ++ symbol :: after
        ∧ isNonterminal symbol = true
        ∧ inclusion = FollowSets.inclusion g.first g.terminals rule.left
          (symbol, after) := by
  rcases List.mem_cons.mp h with rfl | h
  · exact Or.inl rfl
  · obtain ⟨rule, hrule, hmem⟩ := List.mem_flatMap.mp h
    obtain ⟨⟨symbol, after⟩, hoccurrence, rfl⟩ := List.mem_map.mp hmem
    obtain ⟨before, hright⟩ := exists_before_of_mem_occurrences hoccurrence
    exact Or.inr ⟨rule, hrule, before, symbol, after, hright,
      (mem_of_mem_occurrences hoccurrence).2, rfl⟩

/-- Induction on how a terminal came into a FOLLOW set. -/
theorem follow_induction (hend : P g.startSymbol endMarker)
    (hbehind : ∀ rule ∈ g.rules, ∀ before symbol after, rule.right
      = before ++ symbol :: after → isNonterminal symbol = true → ∀ n,
      (g.first.ofSequence g.terminals after).1.contains n = true → ∃ terminal,
      TerminalId.of? g.terminals terminal = some n ∧ P symbol terminal)
    (hlast : ∀ rule ∈ g.rules, ∀ before symbol after,
      rule.right = before ++ symbol :: after → isNonterminal symbol = true →
        (g.first.ofSequence g.terminals after).2 = true → ∀ terminal,
      P rule.left terminal → P symbol terminal)
    (h : (g.follow.setAt nonterminal).contains n = true) :
    ∃ terminal, TerminalId.of? g.terminals terminal = some n
      ∧ P nonterminal terminal := by
  refine TerminalFamily.least_induction (P := fun nonterminal n => ∃ terminal,
    TerminalId.of? g.terminals terminal = some n
      ∧ P nonterminal terminal) ?_ ?_ h
  · intro inclusion hmem n hn
    obtain rfl | ⟨rule, hrule, before, symbol, after, hright, hsymbol, rfl⟩ :=
      exists_occurrence_of_follow_inclusion hmem
    · exact ⟨endMarker, eq_of_contains_ofTerminal hn, hend⟩
    · exact hbehind rule hrule before symbol after hright hsymbol n hn
  · intro inclusion hmem source hsource n hn
    obtain ⟨terminal, hnumber, hP⟩ := hn
    obtain rfl | ⟨rule, hrule, before, symbol, after, hright, hsymbol, rfl⟩ :=
      exists_occurrence_of_follow_inclusion hmem
    · cases hsource
    · unfold FollowSets.inclusion at hsource
      dsimp only at hsource
      split at hsource
      · next hvanishes =>
          cases hsource
          exact ⟨terminal, hnumber,
            hlast rule hrule before symbol after hright hsymbol
              hvanishes terminal hP⟩
      · cases hsource

end Grammar

end ShiftReduce
