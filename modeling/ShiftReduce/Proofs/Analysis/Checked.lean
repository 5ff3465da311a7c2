/-
FIRST and FOLLOW without look-ups that fail.

The inclusions are solved by looking up the sets of their targets and of
their sources, and are made by looking up terminals by name and the FIRST
sets of nonterminals. Every target and every source is a nonterminal of the
grammar, which has a set from the beginning and keeps it; and every symbol in
a rule is listed among the terminals or among the nonterminals, according to
its form. A left-hand side is listed whatever its form is. So the checked
functions have results for every grammar.
-/
import ShiftReduce.Proofs.Analysis.Monotone
import ShiftReduce.Proofs.Collections.Checked

namespace ShiftReduce

-- ========================================================= inclusions

namespace Inclusion

/-- The terminals that an inclusion demands of its target; its source must
have a set. -/
def checkedDemand (family : TerminalFamily) (inclusion : Inclusion) :
    Option TerminalSet :=
  match inclusion.source with
  | none => some inclusion.terminals
  | some source => (family.lookup source).map inclusion.terminals.union

/-- Add to the target what the inclusion demands; the target must have a
set. -/
def checkedApply (family : TerminalFamily) (inclusion : Inclusion) :
    Option TerminalFamily :=
  (inclusion.checkedDemand family).bind fun demanded =>
    family.checkedUpdate inclusion.target fun old => old.union demanded

/-- The inclusion is about nonterminals that are listed. -/
structure About (listed : List Symbol) (inclusion : Inclusion) : Prop where
  target : inclusion.target ∈ listed
  source : ∀ source, inclusion.source = some source → source ∈ listed

theorem checkedDemand_eq {family : TerminalFamily} {inclusion : Inclusion}
    (h : inclusion.About family.keys) :
    inclusion.checkedDemand family = some (inclusion.demand family) := by
  unfold checkedDemand demand
  cases hsource : inclusion.source with
  | none => rfl
  | some source =>
      obtain ⟨set, hset⟩ := family.mem_keys_iff.mp (h.source source hsource)
      simp only [hset, Option.map_some, Option.getD_some]

theorem checkedApply_eq {family : TerminalFamily} {inclusion : Inclusion}
    (h : inclusion.About family.keys) :
    inclusion.checkedApply family = some (inclusion.apply family) := by
  unfold checkedApply
  rw [checkedDemand_eq h]
  exact OrderedMap.checkedUpdate_eq h.target
    fun old => (old.getD TerminalSet.empty).union (inclusion.demand family)

end Inclusion

namespace TerminalFamily

/-- Apply every inclusion once. -/
def checkedPass (inclusions : List Inclusion) (family : TerminalFamily) :
    Option TerminalFamily :=
  inclusions.foldlM Inclusion.checkedApply family

/-- Apply the inclusions, pass after pass, until nothing is added. -/
def checkedLeast (nonterminals : OrderedSet Symbol)
    (inclusions : List Inclusion) : Option TerminalFamily :=
  checkedSettle (missing (mentioned inclusions).size) (checkedPass inclusions)
    (empties nonterminals)

theorem keys_empties (nonterminals : OrderedSet Symbol) :
    (empties nonterminals).keys = nonterminals.elements := by
  have hfirst :
      (nonterminals.elements.map fun n => (n, TerminalSet.empty)).map Prod.fst
      = nonterminals.elements := by
    rw [List.map_map]
    exact List.map_id _
  unfold empties OrderedMap.keys
  rw [OrderedMap.entries_ofList, hfirst]
  rw [hfirst]
  exact nonterminals.nodup

/-- If the inclusions are about the given nonterminals, every set that is
looked up is there. -/
theorem checkedLeast_eq {nonterminals : OrderedSet Symbol}
    {inclusions : List Inclusion}
    (h : ∀ inclusion ∈ inclusions, inclusion.About nonterminals.elements) :
    checkedLeast nonterminals inclusions
      = some (least nonterminals inclusions) := by
  have hpass : ∀ family : TerminalFamily, family.keys = nonterminals.elements →
      checkedPass inclusions family = some (pass inclusions family)
        ∧ (pass inclusions family).keys = nonterminals.elements := by
    intro family hkeys
    apply foldlM_eq_some (P := fun family : TerminalFamily =>
      family.keys = nonterminals.elements) _ hkeys
    intro family hkeys inclusion hmem
    have habout := h inclusion hmem
    rw [← hkeys] at habout
    refine ⟨Inclusion.checkedApply_eq habout, ?_⟩
    show (family.update inclusion.target _).keys = nonterminals.elements
    rw [OrderedMap.keys_update, if_pos habout.target, hkeys]
  exact checkedSettle_eq hpass _ (keys_empties nonterminals)

end TerminalFamily

-- ============================================================== FIRST

namespace FirstSets

variable {g : Grammar}

/-- The set of the one terminal with a name, which must be listed. -/
def checkedTerminal (terminals : OrderedSet Symbol) (symbol : Symbol) :
    Option TerminalSet :=
  (TerminalId.of? terminals symbol).map TerminalSet.singleton

/-- What a rule demands of the FIRST set of its left-hand side, which is
nothing if the rule is empty; the terminal with which it begins must be
listed. -/
def checkedInclusion (terminals : OrderedSet Symbol) (rule : Rule) :
    Option (Option Inclusion) :=
  match rule.right with
  | [] => some none
  | symbol :: _ =>
    if isNonterminal symbol
      then some (some ⟨rule.left, TerminalSet.empty, some symbol⟩)
    else (checkedTerminal terminals symbol).map fun set =>
      some ⟨rule.left, set, none⟩

/-- The FIRST sets of a grammar. -/
def checkedOfGrammar (g : Grammar) : Option FirstSets := do
  let inclusions ← g.rules.mapM (checkedInclusion g.terminals)
  let sets ← TerminalFamily.checkedLeast g.nonterminals
      (inclusions.filterMap id)
  return {
    sets
    vanishing :=
      OrderedSet.ofList ((g.rules.filter Rule.isEmpty).map Rule.left) }

/-- What a sequence of symbols can begin with, and whether it can vanish.
The terminal that ends the scan must be listed, and the nonterminals before
it must have FIRST sets. -/
def checkedSequence (first : FirstSets) (terminals : OrderedSet Symbol) :
    List Symbol → Option (TerminalSet × Bool)
  | [] => some (TerminalSet.empty, true)
  | symbol :: rest =>
    if !isNonterminal symbol
      then (checkedTerminal terminals symbol).map fun set => (set, false)
    else do
      let here ← first.get? symbol
      if first.vanishes symbol then
        let (more, vanishes) ← first.checkedSequence terminals rest
        return (here.union more, vanishes)
      else return (here, false)

theorem checkedTerminal_eq {terminals : OrderedSet Symbol} {symbol : Symbol}
    (h : symbol ∈ terminals) :
    checkedTerminal terminals symbol = some (ofTerminal terminals symbol) := by
  obtain ⟨n, hn⟩ := TerminalId.exists_of? h
  unfold checkedTerminal ofTerminal
  rw [hn]
  rfl

/-- The demands of the rules on FIRST sets are about nonterminals of the
grammar. -/
theorem about_of_mem_inclusions {inclusion : Inclusion}
    (h : inclusion ∈ g.rules.filterMap (inclusion? g.terminals)) :
    inclusion.About g.nonterminals.elements := by
  refine ⟨target_mem_nonterminals h, ?_⟩
  intro source hsource
  obtain ⟨rule, hrule, symbol, rest, hright, ⟨hsymbol, rfl⟩ | ⟨-, rfl⟩⟩ :=
    Grammar.exists_rule_of_first_inclusion h
  · cases hsource
    have hmem : source ∈ rule.right := by simp [hright]
    exact Grammar.mem_nonterminals_iff.mpr
      (Or.inr ⟨⟨rule, hrule, hmem⟩, hsymbol⟩)
  · cases hsource

theorem checkedInclusion_eq {rule : Rule} (hrule : rule ∈ g.rules) :
    checkedInclusion g.terminals rule
      = some (inclusion? g.terminals rule) := by
  unfold checkedInclusion inclusion?
  cases hright : rule.right with
  | nil => rfl
  | cons symbol rest =>
      dsimp only
      by_cases hsymbol : isNonterminal symbol = true
      · rw [if_pos hsymbol, if_pos hsymbol]
      · have hmem : symbol ∈ rule.right := by simp [hright]
        have hlisted : symbol ∈ g.terminals := by
          apply Grammar.mem_terminals_iff.mpr
          exact Or.inr ⟨⟨rule, hrule, hmem⟩, Bool.eq_false_iff.mpr hsymbol⟩
        rw [if_neg hsymbol, if_neg hsymbol, checkedTerminal_eq hlisted]
        rfl

theorem checkedOfGrammar_eq (g : Grammar) :
    checkedOfGrammar g = some (ofGrammar g) := by
  unfold checkedOfGrammar
  rw [mapM_eq_some fun rule hrule => checkedInclusion_eq hrule]
  show ((TerminalFamily.checkedLeast g.nonterminals _).bind fun sets => some _)
      = _
  rw [List.filterMap_map]
  show ((TerminalFamily.checkedLeast g.nonterminals
    (g.rules.filterMap (inclusion? g.terminals))).bind fun sets => some _) = _
  rw [TerminalFamily.checkedLeast_eq fun inclusion hmem =>
    about_of_mem_inclusions hmem]
  rfl

/-- Every nonterminal of the grammar has a FIRST set. -/
theorem exists_get?_ofGrammar {symbol : Symbol} (h : symbol ∈ g.nonterminals) :
    ∃ set, (ofGrammar g).get? symbol = some set := by
  apply (OrderedMap.mem_keys_iff _).mp
  exact (TerminalFamily.keys_least fun _ => target_mem_nonterminals).mpr h

/-- A sequence of symbols of a rule is scanned without a look-up that
fails. -/
theorem checkedSequence_eq {rule : Rule} (hrule : rule ∈ g.rules)
    {symbols : List Symbol} (h : ∀ symbol ∈ symbols, symbol ∈ rule.right) :
    (ofGrammar g).checkedSequence g.terminals symbols
      = some ((ofGrammar g).ofSequence g.terminals symbols) := by
  induction symbols with
  | nil => rfl
  | cons symbol rest ih =>
      rw [List.forall_mem_cons] at h
      unfold checkedSequence ofSequence
      by_cases hsymbol : isNonterminal symbol = true
      · have hlisted : symbol ∈ g.nonterminals :=
          Grammar.mem_nonterminals_iff.mpr
            (Or.inr ⟨⟨rule, hrule, h.1⟩, hsymbol⟩)
        obtain ⟨set, hset⟩ := exists_get?_ofGrammar hlisted
        rw [ih h.2, hset, hsymbol]
        by_cases hvanishes : (ofGrammar g).vanishes symbol = true
        · simp [hvanishes]
        · simp [hvanishes]
      · have hlisted : symbol ∈ g.terminals := by
          apply Grammar.mem_terminals_iff.mpr
          exact Or.inr ⟨⟨rule, hrule, h.1⟩, Bool.eq_false_iff.mpr hsymbol⟩
        rw [checkedTerminal_eq hlisted]
        simp [hsymbol]

end FirstSets

-- ============================================================= FOLLOW

namespace FollowSets

variable {g : Grammar}

/-- What an occurrence in a rule for `left` demands of the FOLLOW set of
the nonterminal that occurs. -/
def checkedInclusion (first : FirstSets) (terminals : OrderedSet Symbol)
    (left : Symbol) (occurrence : Symbol × List Symbol) :
    Option Inclusion := do
  let (begins, vanishes) ← first.checkedSequence terminals occurrence.2
  return ⟨occurrence.1, begins, if vanishes then some left else none⟩

/-- All that the rules demand of the FOLLOW sets; the end marker must be
listed. -/
def checkedInclusions (g : Grammar) (first : FirstSets) :
    Option (List Inclusion) := do
  let ending ← FirstSets.checkedTerminal g.terminals endMarker
  let demands ← g.rules.mapM fun rule =>
    (occurrences rule.right).mapM
    (checkedInclusion first g.terminals rule.left)
  return ⟨g.startSymbol, ending, none⟩ :: demands.flatten

/-- The FOLLOW sets of a grammar. -/
def checkedOfGrammar (g : Grammar) (first : FirstSets) :
    Option FollowSets := do
  let inclusions ← checkedInclusions g first
  let sets ← TerminalFamily.checkedLeast g.nonterminals inclusions
  return ⟨sets⟩

/-- The demands of the rules on FOLLOW sets are about nonterminals of the
grammar. -/
theorem about_of_mem_inclusions {inclusion : Inclusion}
    (h : inclusion ∈ inclusions g g.first) :
    inclusion.About g.nonterminals.elements := by
  refine ⟨Grammar.follow_target_mem_nonterminals h, ?_⟩
  intro source hsource
  obtain rfl | ⟨rule, hrule, before, symbol, after, hright, hsymbol, rfl⟩ :=
    Grammar.exists_occurrence_of_follow_inclusion h
  · cases hsource
  · have hleft : source = rule.left := by
      unfold inclusion at hsource
      dsimp only at hsource
      split at hsource
      · exact (Option.some.inj hsource).symm
      · cases hsource
    rw [hleft]
    exact Grammar.mem_nonterminals_iff.mpr (Or.inl ⟨rule, hrule, rfl⟩)

theorem checkedInclusions_eq (g : Grammar) :
    checkedInclusions g g.first = some (inclusions g g.first) := by
  have hdemands : ∀ rule ∈ g.rules,
      (occurrences rule.right).mapM
      (checkedInclusion g.first g.terminals rule.left)
        = some ((occurrences rule.right).map
          (inclusion g.first g.terminals rule.left)) := by
    intro rule hrule
    apply mapM_eq_some
    rintro ⟨symbol, after⟩ hmem
    obtain ⟨before, hright⟩ := Grammar.exists_before_of_mem_occurrences hmem
    have hafter : ∀ other ∈ after, other ∈ rule.right := by
      intro other hother
      simp [hright, hother]
    unfold checkedInclusion
    rw [FirstSets.checkedSequence_eq hrule hafter]
    rfl
  have hending : endMarker ∈ g.terminals :=
    Grammar.mem_terminals_iff.mpr (Or.inl rfl)
  unfold checkedInclusions
  rw [FirstSets.checkedTerminal_eq hending, mapM_eq_some hdemands]
  rfl

theorem checkedOfGrammar_eq (g : Grammar) :
    checkedOfGrammar g g.first = some (ofGrammar g g.first) := by
  unfold checkedOfGrammar
  rw [checkedInclusions_eq]
  show ((TerminalFamily.checkedLeast g.nonterminals
      (inclusions g g.first)).bind fun sets =>
    some _) = _
  rw [TerminalFamily.checkedLeast_eq fun inclusion hmem =>
    about_of_mem_inclusions hmem]
  rfl

/-- Every nonterminal of the grammar has a FOLLOW set. -/
theorem exists_get?_ofGrammar {symbol : Symbol} (h : symbol ∈ g.nonterminals) :
    ∃ set, (ofGrammar g g.first).get? symbol = some set := by
  apply (OrderedMap.mem_keys_iff _).mp
  exact (TerminalFamily.keys_least fun _ =>
    Grammar.follow_target_mem_nonterminals).mpr h

/-- By every element of a FOLLOW set a terminal is looked up. -/
theorem exists_terminal_of_get? {symbol : Symbol} {set : TerminalSet}
    (h : (ofGrammar g g.first).get? symbol = some set) :
    ∀ n ∈ set.toList, ∃ terminal, n.name? g.terminals = some terminal := by
  intro n hn
  have hcontains : (g.follow.setAt symbol).contains n = true := by
    unfold TerminalFamily.setAt
    rw [show g.follow.lookup symbol = some set from h]
    exact TerminalSet.mem_toList_iff.mp hn
  have hwithin : g.Within g := ⟨rfl, fun _ hrule => hrule⟩
  obtain ⟨terminal, hterminal, -⟩ := hwithin.follow symbol n hcontains
  exact TerminalId.exists_name? hterminal

end FollowSets

end ShiftReduce
