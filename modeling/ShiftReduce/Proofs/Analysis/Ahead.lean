/-
What may stand behind a nonterminal.

FIRST looks at the first symbol of a rule only, and FOLLOW passes over a
symbol only if it has an empty rule of its own, so with empty rules in play
both may miss something. For what is spelled by rules that are not empty
they miss nothing: the first token always comes out of the first symbol,
and a nonterminal is followed by what the next symbol begins with or, at
the end of a rule, by what follows the left-hand side. That is all an
engine relies on when it looks ahead. It asks for the token by its name, so
the number that is in the set has to be read as the same terminal again.
-/
import ShiftReduce.Analysis.Follow
import ShiftReduce.Proofs.Analysis.Solution
import ShiftReduce.Proofs.Spelling

namespace ShiftReduce

-- ============================================================== FIRST

namespace FirstSets

/-- What a single symbol begins with. -/
def beginning (first : FirstSets) (terminals : OrderedSet Symbol)
    (symbol : Symbol) : TerminalSet :=
  if isNonterminal symbol then first.sets.setAt symbol
    else ofTerminal terminals symbol

theorem beginning_of_nonterminal {first : FirstSets}
    {terminals : OrderedSet Symbol} {symbol : Symbol}
    (h : isNonterminal symbol = true) :
    first.beginning terminals symbol = first.sets.setAt symbol :=
  if_pos h

theorem beginning_of_terminal {first : FirstSets}
    {terminals : OrderedSet Symbol} {symbol : Symbol}
    (h : isNonterminal symbol = false) :
    first.beginning terminals symbol = ofTerminal terminals symbol :=
  if_neg (Bool.eq_false_iff.mp h)

theorem contains_ofTerminal {terminals : OrderedSet Symbol} {symbol : Symbol}
    {n : TerminalId} (h : TerminalId.of? terminals symbol = some n) :
    (ofTerminal terminals symbol).contains n = true := by
  unfold ofTerminal
  rw [h]
  simp

theorem beginning_le_ofSequence (first : FirstSets)
    (terminals : OrderedSet Symbol) (symbol : Symbol) (rest : List Symbol) :
    first.beginning terminals symbol
      ≤ (first.ofSequence terminals (symbol :: rest)).1 := by
  unfold beginning ofSequence
  cases hsymbol : isNonterminal symbol with
  | false => exact TerminalSet.le_refl _
  | true =>
      simp only [if_true, Bool.not_true, Bool.false_eq_true, if_false]
      split
      · exact TerminalSet.le_union_left _ _
      · exact TerminalSet.le_refl _

variable {g : Grammar}

theorem target_mem_nonterminals {inclusion : Inclusion}
    (h : inclusion ∈ g.rules.filterMap (inclusion? g.terminals)) :
    inclusion.target ∈ g.nonterminals := by
  obtain ⟨rule, hrule, hinclusion⟩ := List.mem_filterMap.mp h
  have htarget : inclusion.target = rule.left := by
    unfold inclusion? at hinclusion
    split at hinclusion
    · cases hinclusion
    · split at hinclusion <;> cases hinclusion <;> rfl
  rw [htarget]
  exact Grammar.mem_nonterminals_iff.mpr (Or.inl ⟨rule, hrule, rfl⟩)

/-- The left-hand side of a rule begins with what the first symbol on the
right begins with. -/
theorem beginning_le {rule : Rule} (hrule : rule ∈ g.rules) {symbol : Symbol}
    (hsymbol : rule.right.head? = some symbol) :
    (ofGrammar g).beginning g.terminals symbol
      ≤ (ofGrammar g).sets.setAt rule.left := by
  obtain ⟨rest, hright⟩ := List.head?_eq_some_iff.mp hsymbol
  have hall := TerminalFamily.least_satisfies
    fun inclusion
        (h : inclusion ∈ g.rules.filterMap (inclusion? g.terminals)) =>
      target_mem_nonterminals h
  unfold beginning
  split
  · next hnonterminal =>
      have hmem : ⟨rule.left, TerminalSet.empty, some symbol⟩
          ∈ g.rules.filterMap (inclusion? g.terminals) :=
        List.mem_filterMap.mpr ⟨rule, hrule,
          by simp [inclusion?, hright, hnonterminal]⟩
      exact TerminalSet.le_trans (TerminalSet.le_union_right _ _) (hall _ hmem)
  · next hterminal =>
      have hmem : ⟨rule.left, ofTerminal g.terminals symbol, none⟩
          ∈ g.rules.filterMap (inclusion? g.terminals) :=
        List.mem_filterMap.mpr ⟨rule, hrule,
          by simp [inclusion?, hright, hterminal]⟩
      exact hall _ hmem

/-- The first token that spells a list is one with which its first symbol
begins. -/
theorem contains_beginning
    (hleft : ∀ rule ∈ g.rules, isNonterminal rule.left = true)
    {symbols : List Symbol} {tokens : List Token} (h : g.Spells symbols tokens)
    {symbol : Symbol} {rest : List Symbol}
    (hsymbols : symbols = symbol :: rest) {token : Token}
    (htoken : tokens.head? = some token) {n : TerminalId}
    (hn : TerminalId.of? g.terminals token.symbol = some n) :
    ((ofGrammar g).beginning g.terminals symbol).contains n = true := by
  induction h generalizing symbol rest token with
  | nil => cases hsymbols
  | token first terminal _ _ =>
      cases hsymbols
      cases htoken
      rw [beginning_of_terminal terminal]
      exact contains_ofTerminal hn
  | @rule index rule _ front _ hrule nonempty inner _ ihinner _ =>
      cases hsymbols
      have hmem := List.mem_of_getElem? hrule
      obtain ⟨head, behind, hright⟩ := List.exists_cons_of_ne_nil nonempty
      -- the token comes out of the right-hand side, which is not empty
      rw [List.head?_append_of_ne_nil _ (inner.ne_nil nonempty)] at htoken
      have hhead : rule.right.head? = some head := by rw [hright]; rfl
      have hcontains := ihinner hright htoken hn
      rw [beginning_of_nonterminal (hleft rule hmem)]
      exact beginning_le hmem hhead n hcontains

end FirstSets

-- ============================================================= FOLLOW

namespace Grammar

variable {g : Grammar}

/-- The terminal may stand behind the nonterminal, as far as FOLLOW
knows. -/
def Ahead (g : Grammar) (nonterminal terminal : Symbol) : Prop :=
  ∃ set, (FollowSets.ofGrammar g (FirstSets.ofGrammar g)).get? nonterminal
    = some set
    ∧ terminal ∈ set.names g.terminals

/-- The FOLLOW sets of the grammar. -/
abbrev follow (g : Grammar) : TerminalFamily :=
  (FollowSets.ofGrammar g (FirstSets.ofGrammar g)).sets

theorem mem_occurrences {before after : List Symbol} {symbol : Symbol}
    (h : isNonterminal symbol = true) :
    (symbol, after) ∈ FollowSets.occurrences (before ++ symbol :: after) := by
  induction before with
  | nil =>
      rw [List.nil_append, FollowSets.occurrences, if_pos h]
      exact List.mem_cons_self
  | cons other before ih =>
      rw [List.cons_append, FollowSets.occurrences]
      split
      · exact List.mem_cons_of_mem _ ih
      · exact ih

theorem mem_of_mem_occurrences {symbols after : List Symbol} {symbol : Symbol}
    (h : (symbol, after) ∈ FollowSets.occurrences symbols) :
    symbol ∈ symbols ∧ isNonterminal symbol = true := by
  induction symbols with
  | nil => cases h
  | cons other symbols ih =>
      rw [FollowSets.occurrences] at h
      split at h
      · next hother =>
          rcases List.mem_cons.mp h with heq | h
          · cases heq
            exact ⟨List.mem_cons_self, hother⟩
          · exact ⟨List.mem_cons_of_mem _ (ih h).1, (ih h).2⟩
      · exact ⟨List.mem_cons_of_mem _ (ih h).1, (ih h).2⟩

/-- The inclusions are about nonterminals of the grammar. -/
theorem follow_target_mem_nonterminals {first : FirstSets}
    {inclusion : Inclusion} (h : inclusion ∈ FollowSets.inclusions g first) :
    inclusion.target ∈ g.nonterminals := by
  unfold FollowSets.inclusions at h
  rcases List.mem_cons.mp h with rfl | h
  · exact mem_nonterminals_iff.mpr
      (Or.inl ⟨_, List.head_mem g.rules_ne_nil, rfl⟩)
  · obtain ⟨rule, hrule, hmem⟩ := List.mem_flatMap.mp h
    obtain ⟨⟨symbol, after⟩, hoccurs, rfl⟩ := List.mem_map.mp hmem
    obtain ⟨hsymbol, hnonterminal⟩ := mem_of_mem_occurrences hoccurs
    exact mem_nonterminals_iff.mpr
      (Or.inr ⟨⟨rule, hrule, hsymbol⟩, hnonterminal⟩)

/-- Every demand on a FOLLOW set is met. -/
theorem demand_le_follow {inclusion : Inclusion}
    (h : inclusion ∈ FollowSets.inclusions g (FirstSets.ofGrammar g)) :
    inclusion.demand g.follow ≤ g.follow.setAt inclusion.target :=
  TerminalFamily.least_satisfies
    (fun _ => follow_target_mem_nonterminals) inclusion h

/-- The demand of an occurrence of a nonterminal in a rule is met. -/
theorem demand_le_follow_of_occurrence {rule : Rule} (hrule : rule ∈ g.rules)
    {before after : List Symbol} {symbol : Symbol}
    (hright : rule.right = before ++ symbol :: after)
    (hsymbol : isNonterminal symbol = true) :
    (FollowSets.inclusion (FirstSets.ofGrammar g) g.terminals rule.left
        (symbol, after)).demand g.follow ≤ g.follow.setAt symbol := by
  refine demand_le_follow
    (List.mem_cons_of_mem _ (List.mem_flatMap.mpr ⟨rule, hrule, ?_⟩))
  rw [hright]
  exact List.mem_map_of_mem (mem_occurrences hsymbol)

/-- Behind an occurrence of a nonterminal there may stand what the rest of the
rule may begin with. -/
theorem ofSequence_le_follow {rule : Rule} (hrule : rule ∈ g.rules)
    {before after : List Symbol} {symbol : Symbol}
    (hright : rule.right = before ++ symbol :: after)
    (hsymbol : isNonterminal symbol = true) :
    ((FirstSets.ofGrammar g).ofSequence g.terminals after).1
      ≤ g.follow.setAt symbol := by
  refine TerminalSet.le_trans ?_
    (demand_le_follow_of_occurrence hrule hright hsymbol)
  unfold FollowSets.inclusion Inclusion.demand
  dsimp only
  split
  · exact TerminalSet.le_refl _
  · exact TerminalSet.le_union_left _ _

/-- And if the rest may vanish, whatever may stand behind the left-hand
side. -/
theorem follow_left_le_follow {rule : Rule} (hrule : rule ∈ g.rules)
    {before after : List Symbol} {symbol : Symbol}
    (hright : rule.right = before ++ symbol :: after)
    (hsymbol : isNonterminal symbol = true)
    (hvanishes : ((FirstSets.ofGrammar g).ofSequence g.terminals after).2
      = true) :
    g.follow.setAt rule.left ≤ g.follow.setAt symbol := by
  have hdemand := demand_le_follow_of_occurrence hrule hright hsymbol
  unfold FollowSets.inclusion at hdemand
  dsimp only at hdemand
  rw [if_pos hvanishes] at hdemand
  exact TerminalSet.le_trans (TerminalSet.le_union_right _ _) hdemand

theorem follow_le_of_last {rule : Rule} (hrule : rule ∈ g.rules)
    {before : List Symbol} {symbol : Symbol}
    (hright : rule.right = before ++ [symbol])
    (hsymbol : isNonterminal symbol = true) :
    g.follow.setAt rule.left ≤ g.follow.setAt symbol := by
  refine follow_left_le_follow hrule hright hsymbol ?_
  rw [FirstSets.ofSequence]

/-- A terminal that is looked up by a number in the FOLLOW set of a
nonterminal may stand behind it. -/
theorem ahead_of_contains {symbol terminal : Symbol}
    (hsymbol : symbol ∈ g.nonterminals) {n : TerminalId}
    (hn : n.name? g.terminals = some terminal)
    (h : (g.follow.setAt symbol).contains n = true) :
    g.Ahead symbol terminal := by
  have hkey : symbol ∈ g.follow.keys :=
    (TerminalFamily.keys_least fun _ => follow_target_mem_nonterminals).mpr
      hsymbol
  obtain ⟨set, hset⟩ := (OrderedMap.mem_keys_iff _).mp hkey
  refine ⟨set, hset, TerminalSet.mem_names_iff.mpr ⟨n, ?_, hn⟩⟩
  unfold TerminalFamily.setAt at h
  rw [hset] at h
  exact h

/-- What may stand behind a nonterminal is looked up by a number in its FOLLOW
set. -/
theorem Ahead.contains {symbol terminal : Symbol}
    (h : g.Ahead symbol terminal) :
    ∃ n : TerminalId, n.name? g.terminals = some terminal
      ∧ (g.follow.setAt symbol).contains n = true := by
  obtain ⟨set, hset, hname⟩ := h
  obtain ⟨n, hcontains, hn⟩ := TerminalSet.mem_names_iff.mp hname
  refine ⟨n, hn, ?_⟩
  unfold TerminalFamily.setAt
  rw [show g.follow.lookup symbol = some set from hset]
  exact hcontains

/-- The end marker has the first position among the terminals. -/
theorem name?_zero :
    (TerminalId.ofPosition 0).name? g.terminals = some endMarker := by
  have hfirst : g.terminals.elements.head? = some endMarker := by
    unfold terminals
    rw [OrderedSet.ofWords_eq]
    unfold OrderedSet.ofList OrderedSet.insertAll
    rw [List.foldl_cons]
    have hprefix := OrderedSet.elements_isPrefix_insertAll
      (OrderedSet.empty.insert endMarker)
      (g.rightSymbols.filter fun s => !isNonterminal s)
    rw [OrderedSet.elements_insert] at hprefix
    obtain ⟨rest, hrest⟩ := hprefix
    unfold OrderedSet.insertAll at hrest
    rw [← hrest]
    rfl
  unfold TerminalId.name?
  rw [TerminalId.position_ofPosition, Nat.zero_mod, ← List.head?_eq_getElem?]
  exact hfirst

/-- The end of the input may stand behind the start symbol. -/
theorem ahead_start : g.Ahead g.startSymbol endMarker := by
  refine ahead_of_contains ?_ name?_zero ?_
  · exact mem_nonterminals_iff.mpr
      (Or.inl ⟨_, List.head_mem g.rules_ne_nil, rfl⟩)
  · have hnumber := TerminalId.of?_of_name? (name?_zero (g := g))
    exact demand_le_follow List.mem_cons_self _
      (FirstSets.contains_ofTerminal hnumber)

/-- Behind a nonterminal at the end of a rule there may stand whatever may
stand behind the left-hand side. -/
theorem ahead_of_last {rule : Rule} (hrule : rule ∈ g.rules)
    {before : List Symbol} {symbol terminal : Symbol}
    (hright : rule.right = before ++ [symbol])
    (hsymbol : isNonterminal symbol = true) (h : g.Ahead rule.left terminal) :
    g.Ahead symbol terminal := by
  obtain ⟨n, hn, hcontains⟩ := h.contains
  refine ahead_of_contains ?_ hn ?_
  · exact mem_nonterminals_iff.mpr
      (Or.inr ⟨⟨rule, hrule, by simp [hright]⟩, hsymbol⟩)
  · exact follow_le_of_last hrule hright hsymbol n hcontains

/-- Behind a nonterminal within a rule there may stand the first token that
spells what is behind it, unless there are more terminals than numbers. -/
theorem ahead_of_spells
    (hleft : ∀ rule ∈ g.rules, isNonterminal rule.left = true)
    (hsize : g.terminals.size ≤ TerminalId.limit) {rule : Rule}
    (hrule : rule ∈ g.rules) {before after : List Symbol} {symbol : Symbol}
    (hright : rule.right = before ++ symbol :: after)
    (hsymbol : isNonterminal symbol = true) {token : Token}
    {tokens : List Token} (h : g.Spells after (token :: tokens)) :
    g.Ahead symbol token.symbol := by
  have hterminal : token.symbol ∈ g.terminals := by
    refine h.mem_terminals (fun s hs hs' => ?_) token List.mem_cons_self
    exact mem_terminals_iff.mpr
      (Or.inr ⟨⟨rule, hrule, by simp [hright, hs]⟩, hs'⟩)
  obtain ⟨n, hn⟩ := TerminalId.exists_of? hterminal
  refine ahead_of_contains ?_ (TerminalId.name?_of_of? hsize hn) ?_
  · exact mem_nonterminals_iff.mpr
      (Or.inr ⟨⟨rule, hrule, by simp [hright]⟩, hsymbol⟩)
  · refine ofSequence_le_follow hrule hright hsymbol n ?_
    cases after with
    | nil => cases h
    | cons next after =>
        have hbegins := FirstSets.contains_beginning hleft h rfl rfl hn
        exact FirstSets.beginning_le_ofSequence _ g.terminals
          next after n hbegins

end Grammar

end ShiftReduce
