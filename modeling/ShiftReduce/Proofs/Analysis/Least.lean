/-
FIRST and FOLLOW as least families.

The rules of a grammar make demands on families of sets of terminals. A
left-hand side begins as the first symbol of its right-hand side begins. The
end marker follows the start symbol; and an occurrence of a nonterminal is
followed by what its trailer begins with, and by whatever follows the
left-hand side if all of the trailer is passed over. Only nonterminals with an
empty rule of their own are passed over.

The sets that are computed, read as names, meet these demands, and every family
that meets them contains the sets. But they are sets of numbers, and so a
terminal counts in the demands as the one that is looked up by its number. As
long as there are no more terminals than numbers this is the terminal itself,
the demands are a matter of names only, and the sets do not depend on the order
of the rules, although the numbers of the terminals do and the passes in which
the sets are found.
-/
import Mathlib.Order.Bounds.Basic
import ShiftReduce.Proofs.Analysis.Passes

namespace ShiftReduce

-- =============================================================== names

/-- The names in the set of a symbol. A symbol without a set has none. -/
def TerminalFamily.namesAt (family : TerminalFamily)
    (terminals : OrderedSet Symbol) (symbol : Symbol) : Set Symbol :=
  {terminal | terminal ∈ (family.setAt symbol).names terminals}

namespace Grammar

variable {g g' : Grammar} {here first family : Symbol → Set Symbol}

/-- The terminal that is looked up by the number of a terminal. -/
def reread (g : Grammar) (symbol : Symbol) : Set Symbol :=
  {terminal | ∃ n, TerminalId.of? g.terminals symbol = some n
    ∧ n.name? g.terminals = some terminal}

/-- A terminal that counts as itself. -/
def itself (symbol : Symbol) : Set Symbol := {symbol}

/-- What a single symbol begins with: a terminal with what it counts as. -/
def opening (here family : Symbol → Set Symbol) (symbol : Symbol) :
    Set Symbol :=
  if isNonterminal symbol then family symbol else here symbol

/-- A nonterminal with an empty rule, over which the scan of a trailer goes
on. -/
def Passable (g : Grammar) (symbol : Symbol) : Prop :=
  isNonterminal symbol = true
    ∧ ∃ rule ∈ g.rules, rule.left = symbol ∧ rule.right = []

/-- What a trailer begins with: what a symbol of it begins with if all those
before it are passed over. -/
def trailerOpening (g : Grammar) (here first : Symbol → Set Symbol)
    (trailer : List Symbol) : Set Symbol :=
  {terminal | ∃ passed symbol rest, trailer = passed ++ symbol :: rest
    ∧ (∀ s ∈ passed, g.Passable s) ∧ terminal ∈ opening here first symbol}

/-- A family that meets the demands of the rules on FIRST sets. -/
def FirstClosed (g : Grammar) (here family : Symbol → Set Symbol) : Prop :=
  ∀ rule ∈ g.rules, ∀ symbol rest, rule.right = symbol :: rest →
    opening here family symbol ⊆ family rule.left

/-- A family that meets the demands on FOLLOW sets, given the FIRST sets. -/
structure FollowClosed (g : Grammar)
    (here first family : Symbol → Set Symbol) : Prop where
  ending : endMarker ∈ family g.startSymbol
  trailer : ∀ rule ∈ g.rules, ∀ before symbol trailer,
    rule.right = before ++ symbol :: trailer → isNonterminal symbol = true →
    g.trailerOpening here first trailer ⊆ family symbol
  exhausted : ∀ rule ∈ g.rules, ∀ before symbol trailer,
    rule.right = before ++ symbol :: trailer → isNonterminal symbol = true →
    (∀ s ∈ trailer, g.Passable s) → family rule.left ⊆ family symbol

/-- The FIRST sets, read as names. -/
def firstNames (g : Grammar) : Symbol → Set Symbol :=
  (FirstSets.ofGrammar g).sets.namesAt g.terminals

/-- The FOLLOW sets, read as names. -/
def followNames (g : Grammar) : Symbol → Set Symbol :=
  (FollowSets.ofGrammar g (FirstSets.ofGrammar g)).sets.namesAt g.terminals

theorem mem_names_of_le {terminals : OrderedSet Symbol} {s s' : TerminalSet}
    {symbol : Symbol} (h : symbol ∈ s.names terminals) (hle : s ≤ s') :
    symbol ∈ s'.names terminals := by
  obtain ⟨n, hn, hname⟩ := TerminalSet.mem_names_iff.mp h
  exact TerminalSet.mem_names_iff.mpr ⟨n, hle n hn, hname⟩

theorem Within.refl (g : Grammar) : g.Within g := ⟨rfl, fun _ hrule => hrule⟩

theorem mem_names_ofTerminal {symbol terminal : Symbol} :
    terminal ∈ (FirstSets.ofTerminal g.terminals symbol).names g.terminals
      ↔ terminal ∈ g.reread symbol := by
  rw [TerminalSet.mem_names_iff]
  constructor
  · rintro ⟨n, hn, hname⟩
    exact ⟨n, eq_of_contains_ofTerminal hn, hname⟩
  · rintro ⟨n, hn, hname⟩
    exact ⟨n, FirstSets.contains_ofTerminal hn, hname⟩

/-- A set whose elements are all numbers of terminals that count as members of
another set has only names of that set. -/
theorem of_mem_names {s : TerminalSet} {F : Set Symbol}
    (helements : ∀ n, s.contains n = true → ∃ terminal,
      TerminalId.of? g.terminals terminal = some n ∧ g.reread terminal ⊆ F)
    {terminal : Symbol} (h : terminal ∈ s.names g.terminals) :
    terminal ∈ F := by
  obtain ⟨n, hn, hname⟩ := TerminalSet.mem_names_iff.mp h
  obtain ⟨other, hother, hF⟩ := helements n hn
  exact hF ⟨n, hother, hname⟩

/-- As long as there are no more terminals than numbers, a terminal counts as
itself. -/
theorem reread_eq (hsize : g.terminals.size ≤ TerminalId.limit)
    {symbol : Symbol} (h : symbol ∈ g.terminals) :
    g.reread symbol = itself symbol := by
  obtain ⟨n, hn⟩ := TerminalId.exists_of? h
  have hname := TerminalId.name?_of_of? hsize hn
  ext terminal
  constructor
  · rintro ⟨m, hm, hterminal⟩
    cases hn.symm.trans hm
    exact (Option.some.inj (hname.symm.trans hterminal)).symm
  · intro heq
    cases Set.mem_singleton_iff.mp heq
    exact ⟨n, hn, hname⟩

theorem opening_reread (hsize : g.terminals.size ≤ TerminalId.limit)
    {rule : Rule} (hrule : rule ∈ g.rules) {symbol : Symbol}
    (hsymbol : symbol ∈ rule.right) :
    opening g.reread family symbol = opening itself family symbol := by
  unfold opening
  split
  · rfl
  · next hkind =>
      apply reread_eq hsize
      exact mem_terminals_iff.mpr
        (Or.inr ⟨⟨rule, hrule, hsymbol⟩, Bool.eq_false_iff.mpr hkind⟩)

-- =============================================================== FIRST

/-- The names of what a symbol begins with. -/
theorem names_beginning {symbol terminal : Symbol} :
    terminal ∈ (g.first.beginning g.terminals symbol).names g.terminals
      ↔ terminal ∈ opening g.reread g.firstNames symbol := by
  cases hkind : isNonterminal symbol with
  | true =>
      rw [FirstSets.beginning_of_nonterminal hkind, opening, if_pos hkind]
      exact Iff.rfl
  | false =>
      rw [FirstSets.beginning_of_terminal hkind, opening,
        if_neg (by simp [hkind]), mem_names_ofTerminal]

/-- The FIRST sets meet the demands of the rules. -/
theorem firstClosed_firstNames (g : Grammar) :
    g.FirstClosed g.reread g.firstNames := by
  intro rule hrule symbol rest hright terminal hterminal
  have hle := FirstSets.beginning_le hrule (congrArg List.head? hright)
  exact mem_names_of_le (names_beginning.mpr hterminal) hle

/-- Every family that meets them contains the FIRST sets. -/
theorem firstNames_subset (h : g.FirstClosed g.reread family)
    (symbol : Symbol) : g.firstNames symbol ⊆ family symbol := by
  refine fun terminal => of_mem_names fun n hn => ?_
  refine first_induction
    (P := fun symbol terminal => g.reread terminal ⊆ family symbol) ?_ ?_ hn
  · intro rule hrule symbol rest hright hkind
    have hopening := h rule hrule symbol rest hright
    rwa [opening, if_neg (by simp [hkind])] at hopening
  · intro rule hrule symbol rest hright hkind terminal hterminal
    have hopening := h rule hrule symbol rest hright
    rw [opening, if_pos hkind] at hopening
    exact hterminal.trans hopening

-- =========================================================== a trailer

theorem vanishes_iff {symbol : Symbol} :
    g.first.vanishes symbol = true
      ↔ ∃ rule ∈ g.rules, rule.left = symbol ∧ rule.right = [] := by
  have hvanishing : g.first.vanishing
      = OrderedSet.ofList ((g.rules.filter Rule.isEmpty).map Rule.left) := rfl
  rw [FirstSets.vanishes, decide_eq_true_eq, hvanishing,
    OrderedSet.mem_ofList, List.mem_map]
  simp only [List.mem_filter, Rule.isEmpty, List.isEmpty_iff]
  constructor
  · rintro ⟨rule, ⟨hrule, hempty⟩, hleft⟩
    exact ⟨rule, hrule, hleft, hempty⟩
  · rintro ⟨rule, hrule, hleft, hempty⟩
    exact ⟨rule, ⟨hrule, hempty⟩, hleft⟩

theorem trailerOpening_nil : g.trailerOpening here first [] = ∅ := by
  apply Set.eq_empty_of_forall_notMem
  rintro terminal ⟨passed, symbol, rest, heq, -⟩
  exact absurd heq.symm
    (List.append_ne_nil_of_right_ne_nil _ (List.cons_ne_nil _ _))

/-- A trailer begins as its first symbol begins, and as the rest begins if that
symbol is passed over. -/
theorem mem_trailerOpening_cons {symbol terminal : Symbol}
    {rest : List Symbol} :
    terminal ∈ g.trailerOpening here first (symbol :: rest)
      ↔ terminal ∈ opening here first symbol
        ∨ g.Passable symbol
          ∧ terminal ∈ g.trailerOpening here first rest := by
  constructor
  · rintro ⟨passed, s, behind, heq, hpassed, hterminal⟩
    cases passed with
    | nil =>
        cases heq
        exact Or.inl hterminal
    | cons head passed =>
        cases heq
        rw [List.forall_mem_cons] at hpassed
        exact Or.inr ⟨hpassed.1, passed, s, behind, rfl, hpassed.2, hterminal⟩
  · rintro (hterminal | ⟨hsymbol, passed, s, behind, rfl, hpassed, hterminal⟩)
    · exact ⟨[], symbol, rest, rfl, by simp, hterminal⟩
    · exact ⟨symbol :: passed, s, behind, rfl,
        List.forall_mem_cons.mpr ⟨hsymbol, hpassed⟩, hterminal⟩

theorem mem_names_union {s s' : TerminalSet} {terminal : Symbol} :
    terminal ∈ (s.union s').names g.terminals
      ↔ terminal ∈ s.names g.terminals ∨ terminal ∈ s'.names g.terminals := by
  simp only [TerminalSet.mem_names_iff, TerminalSet.contains_union,
    Bool.or_eq_true, or_and_right, exists_or]

/-- What the scan of a trailer finds: the names with which it begins, and
whether it is exhausted. -/
theorem ofSequence_trailer (trailer : List Symbol) :
    (∀ terminal,
      terminal ∈ (g.first.ofSequence g.terminals trailer).1.names g.terminals
        ↔ terminal ∈ g.trailerOpening g.reread g.firstNames trailer)
      ∧ ((g.first.ofSequence g.terminals trailer).2 = true
        ↔ ∀ s ∈ trailer, g.Passable s) := by
  induction trailer with
  | nil =>
      refine ⟨fun terminal => ?_, by simp [FirstSets.ofSequence]⟩
      rw [trailerOpening_nil, TerminalSet.mem_names_iff]
      simp [FirstSets.ofSequence]
  | cons symbol rest ih =>
      obtain ⟨ihnames, ihvanishes⟩ := ih
      have hhere : ∀ terminal,
          terminal ∈ (g.first.beginning g.terminals symbol).names g.terminals
            ↔ terminal ∈ opening g.reread g.firstNames symbol :=
        fun _ => names_beginning
      cases hkind : isNonterminal symbol with
      | false =>
          -- a terminal ends the scan
          have hstop : ¬ g.Passable symbol := by
            rintro ⟨hnonterminal, -⟩
            rw [hkind] at hnonterminal
            cases hnonterminal
          have hscan : g.first.ofSequence g.terminals (symbol :: rest)
              = (g.first.beginning g.terminals symbol, false) := by
            rw [FirstSets.beginning_of_terminal hkind, FirstSets.ofSequence]
            simp [hkind]
          rw [hscan]
          refine ⟨fun terminal => ?_, by simp [hstop]⟩
          rw [mem_trailerOpening_cons, hhere]
          simp [hstop]
      | true =>
          have hset : (g.first.get? symbol).getD TerminalSet.empty
              = g.first.beginning g.terminals symbol :=
            (FirstSets.beginning_of_nonterminal hkind).symm
          by_cases hvanishes : g.first.vanishes symbol = true
          · have hpass : g.Passable symbol :=
              ⟨hkind, vanishes_iff.mp hvanishes⟩
            have hscan : g.first.ofSequence g.terminals (symbol :: rest)
                = ((g.first.beginning g.terminals symbol).union
                    (g.first.ofSequence g.terminals rest).1,
                  (g.first.ofSequence g.terminals rest).2) := by
              rw [FirstSets.ofSequence, hset]
              simp [hkind, hvanishes]
            rw [hscan]
            refine ⟨fun terminal => ?_, ?_⟩
            · rw [mem_trailerOpening_cons, mem_names_union, hhere, ihnames]
              simp [hpass]
            · rw [ihvanishes, List.forall_mem_cons]
              simp [hpass]
          · have hstop : ¬ g.Passable symbol :=
              fun hpass => hvanishes (vanishes_iff.mpr hpass.2)
            have hscan : g.first.ofSequence g.terminals (symbol :: rest)
                = (g.first.beginning g.terminals symbol, false) := by
              rw [FirstSets.ofSequence, hset]
              simp [hkind, hvanishes]
            rw [hscan]
            refine ⟨fun terminal => ?_, by simp [hstop]⟩
            rw [mem_trailerOpening_cons, hhere]
            simp [hstop]

-- ============================================================== FOLLOW

/-- The FOLLOW sets meet the demands of the rules. -/
theorem followClosed_followNames (g : Grammar) :
    g.FollowClosed g.reread g.firstNames g.followNames where
  ending := by
    have hmarker := TerminalId.of?_of_name? (name?_zero (g := g))
    refine mem_names_of_le
      (mem_names_ofTerminal.mpr ⟨_, hmarker, name?_zero⟩) ?_
    exact demand_le_follow List.mem_cons_self
  trailer := by
    intro rule hrule before symbol trailer hright hkind terminal hterminal
    exact mem_names_of_le
      (((ofSequence_trailer trailer).1 terminal).mpr hterminal)
      (ofSequence_le_follow hrule hright hkind)
  exhausted := by
    intro rule hrule before symbol trailer hright hkind hpassed
      terminal hterminal
    exact mem_names_of_le hterminal (follow_left_le_follow hrule hright hkind
      ((ofSequence_trailer trailer).2.mpr hpassed))

/-- Every family that meets them contains the FOLLOW sets. -/
theorem followNames_subset (h : g.FollowClosed g.reread g.firstNames family)
    (symbol : Symbol) : g.followNames symbol ⊆ family symbol := by
  refine fun terminal => of_mem_names fun n hn => ?_
  refine follow_induction
    (P := fun symbol terminal => g.reread terminal ⊆ family symbol)
    ?_ ?_ ?_ hn
  · rintro terminal ⟨n, hn, hname⟩
    cases (TerminalId.of?_of_name? (name?_zero (g := g))).symm.trans hn
    cases name?_zero.symm.trans hname
    exact h.ending
  · intro rule hrule before symbol trailer hright hkind n hn
    obtain ⟨terminal, hnumber, -⟩ :=
      ((Within.refl g).ofSequence trailer).1 n hn
    refine ⟨terminal, hnumber, ?_⟩
    rintro other ⟨m, hm, hname⟩
    cases hnumber.symm.trans hm
    apply h.trailer rule hrule before symbol trailer hright hkind
    exact ((ofSequence_trailer trailer).1 other).mp
      (TerminalSet.mem_names_iff.mpr ⟨n, hn, hname⟩)
  · intro rule hrule before symbol trailer hright hkind hexhausted terminal
      hterminal
    exact hterminal.trans (h.exhausted rule hrule before symbol trailer hright
      hkind ((ofSequence_trailer trailer).2.mp hexhausted))

-- =========================================================== the passes

/-- What inclusions mention is no more than the terminals of the grammar if all
of it is numbered there. -/
theorem size_mentioned_le {inclusions : List Inclusion}
    (h : ∀ inclusion ∈ inclusions, ∀ n,
      inclusion.terminals.contains n = true →
      ∃ terminal, TerminalId.of? g.terminals terminal = some n) :
    (TerminalFamily.mentioned inclusions).size ≤ g.terminals.size := by
  apply TerminalSet.size_le_of_exists_of?
  intro n hn
  obtain ⟨inclusion, hmem, hn⟩ :=
    TerminalFamily.exists_of_contains_mentioned hn
  exact h inclusion hmem n hn

theorem exists_first_passes (g : Grammar) :
    ∃ passes ≤ g.nonterminals.size * g.terminals.size,
      TerminalFamily.SettlesIn g.nonterminals
        (g.rules.filterMap (FirstSets.inclusion? g.terminals)) passes
          g.first.sets := by
  obtain ⟨passes, hle, hsettles⟩ := TerminalFamily.exists_settlesIn
    fun inclusion (h : inclusion ∈ g.rules.filterMap
        (FirstSets.inclusion? g.terminals)) =>
      FirstSets.target_mem_nonterminals h
  refine ⟨passes, hle.trans (Nat.mul_le_mul_left _ (size_mentioned_le ?_)),
    hsettles⟩
  intro inclusion hmem n hn
  obtain ⟨rule, -, symbol, rest, -, ⟨-, rfl⟩ | ⟨-, rfl⟩⟩ :=
    exists_rule_of_first_inclusion hmem
  · rw [TerminalSet.contains_empty] at hn
    cases hn
  · exact ⟨symbol, eq_of_contains_ofTerminal hn⟩

theorem exists_follow_passes (g : Grammar) :
    ∃ passes ≤ g.nonterminals.size * g.terminals.size,
      TerminalFamily.SettlesIn g.nonterminals
        (FollowSets.inclusions g g.first) passes
        g.follow := by
  obtain ⟨passes, hle, hsettles⟩ := TerminalFamily.exists_settlesIn
    fun inclusion (h : inclusion ∈ FollowSets.inclusions g g.first) =>
      follow_target_mem_nonterminals h
  refine ⟨passes, hle.trans (Nat.mul_le_mul_left _ (size_mentioned_le ?_)),
    hsettles⟩
  intro inclusion hmem n hn
  obtain rfl | ⟨rule, -, before, symbol, trailer, -, -, rfl⟩ :=
    exists_occurrence_of_follow_inclusion hmem
  · exact ⟨endMarker, eq_of_contains_ofTerminal hn⟩
  · obtain ⟨terminal, hterminal, -⟩ :=
      ((Within.refl g).ofSequence trailer).1 n hn
    exact ⟨terminal, hterminal⟩

-- ============================================================= the order

/-- As long as there are no more terminals than numbers, the demands on FIRST
sets are those in which a terminal counts as itself. -/
theorem firstClosed_reread_iff (hsize : g.terminals.size ≤ TerminalId.limit) :
    g.FirstClosed g.reread family ↔ g.FirstClosed itself family := by
  unfold FirstClosed
  refine forall₂_congr fun rule hrule => ?_
  refine forall₂_congr fun symbol rest => ?_
  refine forall_congr' fun hright => ?_
  rw [opening_reread hsize hrule (by simp [hright])]

/-- And so are those on FOLLOW sets. -/
theorem followClosed_reread_iff
    (hsize : g.terminals.size ≤ TerminalId.limit) :
    g.FollowClosed g.reread first family
      ↔ g.FollowClosed itself first family := by
  have htrailer : ∀ rule ∈ g.rules, ∀ before symbol trailer,
      rule.right = before ++ symbol :: trailer →
      g.trailerOpening g.reread first trailer
        = g.trailerOpening itself first trailer := by
    intro rule hrule before symbol trailer hright
    ext terminal
    refine exists₃_congr fun passed s rest => ?_
    refine and_congr_right fun heq => ?_
    rw [opening_reread hsize hrule (by simp [hright, heq])]
  constructor
  · intro h
    refine ⟨h.ending, ?_, h.exhausted⟩
    intro rule hrule before symbol trailer hright hkind
    rw [← htrailer rule hrule before symbol trailer hright]
    exact h.trailer rule hrule before symbol trailer hright hkind
  · intro h
    refine ⟨h.ending, ?_, h.exhausted⟩
    intro rule hrule before symbol trailer hright hkind
    rw [htrailer rule hrule before symbol trailer hright]
    exact h.trailer rule hrule before symbol trailer hright hkind

/-- The demands on FIRST sets are made by the rules, in whatever order they are
listed. -/
theorem firstClosed_congr (h : ∀ rule, rule ∈ g.rules ↔ rule ∈ g'.rules) :
    g.FirstClosed itself family ↔ g'.FirstClosed itself family := by
  unfold FirstClosed
  simp only [h]

theorem passable_congr (h : ∀ rule, rule ∈ g.rules ↔ rule ∈ g'.rules)
    {symbol : Symbol} : g.Passable symbol ↔ g'.Passable symbol := by
  unfold Passable
  simp only [h]

/-- And so are those on FOLLOW sets, but for the one on that of the start
symbol. -/
theorem FollowClosed.of_congr (h : ∀ rule, rule ∈ g.rules ↔ rule ∈ g'.rules)
    (hstart : g.startSymbol = g'.startSymbol)
    (hclosed : g.FollowClosed itself first family) :
    g'.FollowClosed itself first family where
  ending := hstart ▸ hclosed.ending
  trailer := by
    intro rule hrule before symbol trailer hright hkind terminal hterminal
    apply hclosed.trailer rule ((h rule).mpr hrule) before symbol trailer
      hright hkind
    obtain ⟨passed, s, rest, heq, hpassed, hopening⟩ := hterminal
    exact ⟨passed, s, rest, heq,
      fun s hs => (passable_congr h).mpr (hpassed s hs), hopening⟩
  exhausted := by
    intro rule hrule before symbol trailer hright hkind hpassed
    exact hclosed.exhausted rule ((h rule).mpr hrule) before symbol trailer
      hright hkind fun s hs => (passable_congr h).mpr (hpassed s hs)

theorem isLeast_firstNames (g : Grammar) :
    IsLeast {F | g.FirstClosed g.reread F} g.firstNames :=
  ⟨g.firstClosed_firstNames,
    fun _ hclosed symbol => firstNames_subset hclosed symbol⟩

theorem isLeast_followNames (g : Grammar) :
    IsLeast {F | g.FollowClosed g.reread g.firstNames F} g.followNames :=
  ⟨g.followClosed_followNames,
    fun _ hclosed symbol => followNames_subset hclosed symbol⟩

theorem isLeast_firstNames_itself
    (hsize : g.terminals.size ≤ TerminalId.limit) :
    IsLeast {F | g.FirstClosed itself F} g.firstNames := by
  simp only [← firstClosed_reread_iff hsize]
  exact g.isLeast_firstNames

theorem isLeast_followNames_itself
    (hsize : g.terminals.size ≤ TerminalId.limit) :
    IsLeast {F | g.FollowClosed itself g.firstNames F} g.followNames := by
  simp only [← followClosed_reread_iff hsize]
  exact g.isLeast_followNames

/-- Grammars with the same rules and the same start symbol have the same sets:
there is only one least family. -/
theorem names_eq_of_perm (hsize : g.terminals.size ≤ TerminalId.limit)
    (hperm : g.rules.Perm g'.rules) (hstart : g.startSymbol = g'.startSymbol) :
    g'.firstNames = g.firstNames ∧ g'.followNames = g.followNames := by
  have hrules : ∀ rule, rule ∈ g.rules ↔ rule ∈ g'.rules :=
    fun rule => hperm.mem_iff
  have hwithin : g'.Within g :=
    ⟨hstart.symm, fun rule hrule => (hrules rule).mpr hrule⟩
  have hsize' := hwithin.size_terminals_le.trans hsize
  have hfirst : {F | g.FirstClosed itself F} = {F | g'.FirstClosed itself F} :=
    Set.ext fun F => firstClosed_congr hrules
  have hsame : g'.firstNames = g.firstNames :=
    (hfirst ▸ isLeast_firstNames_itself hsize').unique
      (isLeast_firstNames_itself hsize)
  have hfollow : {F | g.FollowClosed itself g.firstNames F}
      = {F | g'.FollowClosed itself g'.firstNames F} := by
    rw [hsame]
    exact Set.ext fun F => ⟨.of_congr hrules hstart,
      .of_congr (fun rule => (hrules rule).symm) hstart.symm⟩
  exact ⟨hsame, (hfollow ▸ isLeast_followNames_itself hsize').unique
    (isLeast_followNames_itself hsize)⟩

-- ============================================================ the theorem

/-- A set of the grammar has only numbers that refer to terminals of it. -/
def Numbered (g : Grammar) (s : TerminalSet) : Prop :=
  ∀ n ∈ s.toList, n.position < g.terminals.size

/-- FIRST and FOLLOW are the least families that meet the demands of the rules.
The passes in which they are found come to an end, each nonterminal gets a set
of either kind, and no family that meets the demands has less in it; a terminal
counts as the one that is looked up by its number. If there are no more
terminals than numbers, it counts as itself, and the sets are the same, read as
names, for all grammars with these rules and this start symbol, in whatever
order the rules are listed. -/
theorem first_follow_least (g : Grammar) :
    (∃ passes ≤ g.nonterminals.size * g.terminals.size,
      TerminalFamily.SettlesIn g.nonterminals
        (g.rules.filterMap (FirstSets.inclusion? g.terminals)) passes
        (FirstSets.ofGrammar g).sets)
    ∧ (∃ passes ≤ g.nonterminals.size * g.terminals.size,
      TerminalFamily.SettlesIn g.nonterminals
        (FollowSets.inclusions g (FirstSets.ofGrammar g)) passes
        (FollowSets.ofGrammar g (FirstSets.ofGrammar g)).sets)
    ∧ (∀ nonterminal ∈ g.nonterminals, ∃ first follow,
      (FirstSets.ofGrammar g).get? nonterminal = some first
      ∧ g.Numbered first
      ∧ (FollowSets.ofGrammar g (FirstSets.ofGrammar g)).get? nonterminal
        = some follow
      ∧ g.Numbered follow)
    ∧ IsLeast {F | g.FirstClosed g.reread F} g.firstNames
    ∧ IsLeast {F | g.FollowClosed g.reread g.firstNames F} g.followNames
    ∧ (g.terminals.size ≤ TerminalId.limit →
      (∀ symbol ∈ g.terminals, g.reread symbol = itself symbol)
      ∧ IsLeast {F | g.FirstClosed itself F} g.firstNames
      ∧ IsLeast {F | g.FollowClosed itself g.firstNames F} g.followNames
      ∧ ∀ g' : Grammar, g.rules.Perm g'.rules →
        g.startSymbol = g'.startSymbol →
        g'.firstNames = g.firstNames ∧ g'.followNames = g.followNames) := by
  refine ⟨g.exists_first_passes, g.exists_follow_passes, ?_,
    g.isLeast_firstNames, g.isLeast_followNames, fun hsize =>
    ⟨fun _ => reread_eq hsize, isLeast_firstNames_itself hsize,
      isLeast_followNames_itself hsize, fun g' => names_eq_of_perm hsize⟩⟩
  intro nonterminal hnonterminal
  obtain ⟨first, hfirst⟩ := FirstSets.exists_get?_ofGrammar hnonterminal
  obtain ⟨follow, hfollow⟩ := FollowSets.exists_get?_ofGrammar hnonterminal
  refine ⟨first, follow, hfirst, fun n hn => ?_, hfollow, fun n hn => ?_⟩
  · have hcontains : (g.first.sets.setAt nonterminal).contains n = true := by
      unfold TerminalFamily.setAt
      rw [show g.first.sets.lookup nonterminal = some first from hfirst]
      exact TerminalSet.mem_toList_iff.mp hn
    obtain ⟨terminal, hterminal, -⟩ :=
      (Within.refl g).first nonterminal n hcontains
    exact TerminalId.position_lt_size hterminal
  · obtain ⟨terminal, hterminal⟩ :=
      FollowSets.exists_terminal_of_get? hfollow n hn
    exact (List.getElem?_eq_some_iff.mp hterminal).1

/-- Names with commas between them; what is behind a name may be missing. -/
def separated : Grammar where
  rules :=
    [⟨"<list>", ["<name>", "<rest>"], none⟩, ⟨"<rest>", [], none⟩,
      ⟨"<rest>", [",", "<list>"], none⟩, ⟨"<name>", ["name"], none⟩]
  rules_ne_nil := List.cons_ne_nil _ _

/-- The same with the rules of the parts in the opposite order. -/
def separatedNameFirst : Grammar where
  rules :=
    [⟨"<list>", ["<name>", "<rest>"], none⟩, ⟨"<name>", ["name"], none⟩,
      ⟨"<rest>", [",", "<list>"], none⟩, ⟨"<rest>", [], none⟩]
  rules_ne_nil := List.cons_ne_nil _ _

/-- The terminals have other numbers in the other order, and the sets are the
same. The end marker follows a name in both, because the rest of a list may be
missing. -/
theorem first_follow_least_separated :
    separated.rules.Perm separatedNameFirst.rules
    ∧ separated.terminals.elements ≠ separatedNameFirst.terminals.elements
    ∧ separatedNameFirst.firstNames = separated.firstNames
    ∧ separatedNameFirst.followNames = separated.followNames
    ∧ endMarker ∈ separatedNameFirst.followNames "<name>" := by
  have hperm : separated.rules.Perm separatedNameFirst.rules := by
    decide +kernel
  have hsize : separated.terminals.size ≤ TerminalId.limit := by
    decide +kernel
  obtain ⟨-, -, -, -, -, hnames⟩ := first_follow_least separated
  obtain ⟨-, -, hfollow, hsame⟩ := hnames hsize
  obtain ⟨hfirst, hfollows⟩ := hsame separatedNameFirst hperm rfl
  refine ⟨hperm, by decide +kernel, hfirst, hfollows, ?_⟩
  rw [hfollows]
  have hrest : separated.Passable "<rest>" :=
    ⟨by decide, ⟨"<rest>", [], none⟩, by decide, rfl, rfl⟩
  have hmem : ⟨"<list>", ["<name>", "<rest>"], none⟩ ∈ separated.rules := by
    decide
  exact hfollow.1.exhausted _ hmem [] "<name>" ["<rest>"] rfl (by decide)
    (by simpa using hrest) hfollow.1.ending

end Grammar

end ShiftReduce
