/-
More rules allow for more.

The FIRST and FOLLOW sets of a grammar refer to terminals by their numbers,
and these depend on the order of the rules. What the sets say does not: it is
determined by which rules there are. Every inclusion that a rule demands in
one grammar it demands, in other numbers, in every grammar that has the rule.
So if one grammar has all rules of another, its sets cover those of the other,
since those are the least that satisfy the inclusions. Two grammars with the
same rules cover each other, in whatever order the rules are listed.

To cover a set is to have, for each of its numbers, that of a terminal which
the number stands for. This needs no bound on the number of terminals. A
bound comes in with the lookahead, where a number of the larger grammar has
to be the number of one terminal only.
-/
import ShiftReduce.Proofs.Analysis.Meaning

namespace ShiftReduce

-- ============================================================ covering

/-- Every element of the one set is the number of a terminal that the other
set has, by a numbering of its own. -/
def TerminalSet.Covered (terminals terminals' : OrderedSet Symbol)
    (s s' : TerminalSet) : Prop :=
  ∀ n, s.contains n = true →
    ∃ symbol, TerminalId.of? terminals symbol = some n
      ∧ s'.Has terminals' symbol

namespace TerminalSet

variable {terminals terminals' : OrderedSet Symbol} {s s' : TerminalSet}

theorem Has.mono {symbol : Symbol} (h : s.Has terminals symbol)
    (hle : s ≤ s') : s'.Has terminals symbol := by
  obtain ⟨n, hn, hcontains⟩ := h
  exact ⟨n, hn, hle n hcontains⟩

theorem has_ofTerminal {symbol : Symbol} (h : symbol ∈ terminals) :
    (FirstSets.ofTerminal terminals symbol).Has terminals symbol := by
  obtain ⟨n, hn⟩ := TerminalId.exists_of? h
  exact ⟨n, hn, FirstSets.contains_ofTerminal hn⟩

theorem Covered.mono {larger : TerminalSet}
    (h : Covered terminals terminals' s s') (hle : s' ≤ larger) :
    Covered terminals terminals' s larger := by
  intro n hn
  obtain ⟨symbol, hsymbol, hhas⟩ := h n hn
  exact ⟨symbol, hsymbol, hhas.mono hle⟩

theorem Covered.union {other : TerminalSet}
    (h : Covered terminals terminals' s s')
    (hother : Covered terminals terminals' other s') :
    Covered terminals terminals' (s.union other) s' := by
  intro n hn
  rw [contains_union, Bool.or_eq_true] at hn
  exact hn.elim (h n) (hother n)

theorem covered_empty : Covered terminals terminals' TerminalSet.empty s' := by
  intro n hn
  rw [contains_empty] at hn
  cases hn

end TerminalSet

-- ======================================================= more rules

/-- The other grammar has the same start symbol and at least the same
rules. -/
structure Grammar.Within (g g' : Grammar) : Prop where
  startSymbol : g.startSymbol = g'.startSymbol
  rules : ∀ rule ∈ g.rules, rule ∈ g'.rules

namespace Grammar.Within

variable {g g' : Grammar}

theorem mem_terminals (h : g.Within g') {symbol : Symbol}
    (hsymbol : symbol ∈ g.terminals) : symbol ∈ g'.terminals := by
  rw [mem_terminals_iff] at hsymbol ⊢
  rcases hsymbol with rfl | ⟨⟨rule, hrule, hmem⟩, hterminal⟩
  · exact Or.inl rfl
  · exact Or.inr ⟨⟨rule, h.rules rule hrule, hmem⟩, hterminal⟩

/-- More rules have no fewer terminals. -/
theorem size_terminals_le (h : g.Within g') :
    g.terminals.size ≤ g'.terminals.size :=
  (List.subperm_of_subset g.terminals.nodup
    fun _ hsymbol => h.mem_terminals hsymbol).length_le

theorem mem_nonterminals (h : g.Within g') {symbol : Symbol}
    (hsymbol : symbol ∈ g.nonterminals) : symbol ∈ g'.nonterminals := by
  rw [mem_nonterminals_iff] at hsymbol ⊢
  rcases hsymbol with ⟨rule, hrule, hleft⟩
    | ⟨⟨rule, hrule, hmem⟩, hnonterminal⟩
  · exact Or.inl ⟨rule, h.rules rule hrule, hleft⟩
  · exact Or.inr ⟨⟨rule, h.rules rule hrule, hmem⟩, hnonterminal⟩

-- ============================================================== FIRST

theorem ofTerminal (h : g.Within g') (symbol : Symbol) :
    TerminalSet.Covered g.terminals g'.terminals
      (FirstSets.ofTerminal g.terminals symbol)
      (FirstSets.ofTerminal g'.terminals symbol) := by
  intro n hn
  have hnumber := eq_of_contains_ofTerminal hn
  have hmem := h.mem_terminals (TerminalId.mem_of_of? hnumber)
  exact ⟨symbol, hnumber, TerminalSet.has_ofTerminal hmem⟩

theorem first (h : g.Within g') (nonterminal : Symbol) :
    TerminalSet.Covered g.terminals g'.terminals
      (g.first.sets.setAt nonterminal)
      (g'.first.sets.setAt nonterminal) := by
  intro n hn
  refine first_induction (P := fun nonterminal terminal =>
    (g'.first.sets.setAt nonterminal).Has g'.terminals terminal) ?_ ?_ hn
  · intro rule hrule symbol rest hright hterminal
    have hle :=
      FirstSets.beginning_le (h.rules rule hrule) (congrArg List.head? hright)
    rw [FirstSets.beginning_of_terminal hterminal] at hle
    have hmem : symbol ∈ g'.terminals :=
      mem_terminals_iff.mpr
        (Or.inr ⟨⟨rule, h.rules rule hrule, by simp [hright]⟩, hterminal⟩)
    exact (TerminalSet.has_ofTerminal hmem).mono hle
  · intro rule hrule symbol rest hright hsymbol terminal hhas
    have hle :=
      FirstSets.beginning_le (h.rules rule hrule) (congrArg List.head? hright)
    rw [FirstSets.beginning_of_nonterminal hsymbol] at hle
    exact hhas.mono hle

theorem vanishes (h : g.Within g') {symbol : Symbol}
    (hvanishes : g.first.vanishes symbol = true) :
    g'.first.vanishes symbol = true := by
  unfold FirstSets.vanishes at hvanishes ⊢
  rw [decide_eq_true_eq] at hvanishes ⊢
  have hmem := OrderedSet.mem_ofList.mp hvanishes
  obtain ⟨rule, hrule, hleft⟩ := List.mem_map.mp hmem
  obtain ⟨hrule, hempty⟩ := List.mem_filter.mp hrule
  exact OrderedSet.mem_ofList.mpr
    (List.mem_map.mpr ⟨rule,
      List.mem_filter.mpr ⟨h.rules rule hrule, hempty⟩, hleft⟩)

/-- What a list may begin with, and that it may vanish. -/
theorem ofSequence (h : g.Within g') (symbols : List Symbol) :
    TerminalSet.Covered g.terminals g'.terminals
        (g.first.ofSequence g.terminals symbols).1
        (g'.first.ofSequence g'.terminals symbols).1
      ∧ ((g.first.ofSequence g.terminals symbols).2 = true →
        (g'.first.ofSequence g'.terminals symbols).2 = true) := by
  induction symbols with
  | nil => exact ⟨TerminalSet.covered_empty, id⟩
  | cons symbol rest ih =>
      unfold FirstSets.ofSequence
      cases hsymbol : isNonterminal symbol with
      | false =>
          refine ⟨h.ofTerminal symbol, ?_⟩
          intro hvanishes
          cases hvanishes
      | true =>
          have hhere : TerminalSet.Covered g.terminals g'.terminals
              ((g.first.get? symbol).getD TerminalSet.empty)
              ((g'.first.get? symbol).getD TerminalSet.empty) := h.first symbol
          simp only [Bool.not_true, Bool.false_eq_true, if_false]
          cases hvanishes : g.first.vanishes symbol with
          | true =>
              simp only [h.vanishes hvanishes, if_true]
              refine ⟨?_, ih.2⟩
              exact (hhere.mono (TerminalSet.le_union_left _ _)).union
                (ih.1.mono (TerminalSet.le_union_right _ _))
          | false =>
              simp only [Bool.false_eq_true, if_false]
              constructor
              · split
                · exact hhere.mono (TerminalSet.le_union_left _ _)
                · exact hhere
              · intro hfalse
                cases hfalse

-- ============================================================= FOLLOW

theorem follow (h : g.Within g') (nonterminal : Symbol) :
    TerminalSet.Covered g.terminals g'.terminals (g.follow.setAt nonterminal)
      (g'.follow.setAt nonterminal) := by
  intro n hn
  refine follow_induction (P := fun nonterminal terminal =>
    (g'.follow.setAt nonterminal).Has g'.terminals terminal) ?_ ?_ ?_ hn
  · have hmem : endMarker ∈ g'.terminals := mem_terminals_iff.mpr (Or.inl rfl)
    rw [h.startSymbol]
    exact (TerminalSet.has_ofTerminal hmem).mono
      (demand_le_follow List.mem_cons_self)
  · intro rule hrule before symbol after hright hsymbol n hn
    have hle := ofSequence_le_follow (h.rules rule hrule) hright hsymbol
    exact (h.ofSequence after).1.mono hle n hn
  · intro rule hrule before symbol after hright hsymbol hvanishes terminal hhas
    have hvanishes' := (h.ofSequence after).2 hvanishes
    exact hhas.mono
      (follow_left_le_follow (h.rules rule hrule) hright hsymbol hvanishes')

/-- What may stand behind a nonterminal still may with more rules, unless
there are more terminals than numbers. -/
theorem ahead (h : g.Within g') (hsize : g'.terminals.size ≤ TerminalId.limit)
    {nonterminal terminal : Symbol} (hahead : g.Ahead nonterminal terminal) :
    g'.Ahead nonterminal terminal := by
  obtain ⟨n, hn, hcontains⟩ := hahead.contains
  obtain ⟨symbol, hsymbol, m, hm, hcontains'⟩ :=
    h.follow nonterminal n hcontains
  have hsize' := h.size_terminals_le.trans hsize
  cases (TerminalId.name?_of_of? hsize' hsymbol).symm.trans hn
  obtain ⟨set, hset, -⟩ := hahead
  have hkey : nonterminal ∈ g.follow.keys :=
    (OrderedMap.mem_keys_iff _).mpr ⟨set, hset⟩
  have hmem := (TerminalFamily.keys_least fun _ =>
    follow_target_mem_nonterminals).mp hkey
  exact ahead_of_contains (h.mem_nonterminals hmem)
    (TerminalId.name?_of_of? hsize hm) hcontains'

end Grammar.Within

end ShiftReduce
