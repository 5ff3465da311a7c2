/-
The solution satisfies its inclusions.

A pass never takes an element away, and no set ever outgrows the terminals
that are mentioned. The passes end when one of them does not lower the
number of missing elements, and since that number is a sum of what is
missing in each set, the pass has left every set as it was. It has applied
every inclusion on the way, so each of them is satisfied. And as a pass adds
nothing but what is demanded, no solution is smaller.
-/
import Mathlib.Algebra.GroupWithZero.Nat
import Mathlib.Algebra.Order.BigOperators.Group.List
import Mathlib.Algebra.Order.Group.Nat
import ShiftReduce.Analysis.Inclusion
import ShiftReduce.Proofs.Analysis.Terminals

namespace ShiftReduce

namespace TerminalFamily

/-- The set of a nonterminal, empty if there is none. -/
def setAt (family : TerminalFamily) (symbol : Symbol) : TerminalSet :=
  (family.lookup symbol).getD TerminalSet.empty

-- ============================================================== a pass

theorem setAt_apply (inclusion : Inclusion) (family : TerminalFamily)
    (symbol : Symbol) :
    setAt (inclusion.apply family) symbol
      = if symbol = inclusion.target
        then (family.setAt symbol).union (inclusion.demand family)
          else family.setAt symbol := by
  unfold setAt Inclusion.apply
  rw [OrderedMap.lookup_update]
  split
  · next h =>
      rw [h]
      rfl
  · rfl

theorem le_apply (inclusion : Inclusion) (family : TerminalFamily)
    (symbol : Symbol) :
    family.setAt symbol ≤ setAt (inclusion.apply family) symbol := by
  rw [setAt_apply]
  split
  · exact TerminalSet.le_union_left _ _
  · exact TerminalSet.le_refl _

theorem le_pass (inclusions : List Inclusion) (family : TerminalFamily)
    (symbol : Symbol) :
    family.setAt symbol ≤ setAt (pass inclusions family) symbol := by
  unfold pass
  induction inclusions generalizing family with
  | nil => exact TerminalSet.le_refl _
  | cons inclusion inclusions ih =>
      exact TerminalSet.le_trans (le_apply inclusion family symbol) (ih _)

/-- A pass makes no new sets if all targets have one. -/
theorem keys_pass {inclusions : List Inclusion} {family : TerminalFamily}
    (h : ∀ inclusion ∈ inclusions, inclusion.target ∈ family.keys) :
    (pass inclusions family).keys = family.keys := by
  unfold pass
  induction inclusions generalizing family with
  | nil => rfl
  | cons inclusion inclusions ih =>
      rw [List.forall_mem_cons] at h
      have hkeys : (inclusion.apply family).keys = family.keys := by
        unfold Inclusion.apply
        rw [OrderedMap.keys_update, if_pos h.1]
      rw [List.foldl_cons, ih, hkeys]
      rw [hkeys]
      exact h.2

/-- No demand exceeds a bound for the sets and the terminals of the
inclusion. -/
theorem demand_le {inclusion : Inclusion} {family : TerminalFamily}
    {bound : TerminalSet} (hinclusion : inclusion.terminals ≤ bound)
    (h : ∀ symbol, family.setAt symbol ≤ bound) :
    inclusion.demand family ≤ bound := by
  unfold Inclusion.demand
  split
  · exact hinclusion
  · next source _ => exact TerminalSet.union_le hinclusion (h source)

/-- A pass keeps to a bound for its inclusions. -/
theorem pass_le {inclusions : List Inclusion} {family : TerminalFamily}
    {bound : TerminalSet}
    (hinclusions : ∀ inclusion ∈ inclusions, inclusion.terminals ≤ bound)
    (h : ∀ symbol, family.setAt symbol ≤ bound) (symbol : Symbol) :
    setAt (pass inclusions family) symbol ≤ bound := by
  unfold pass
  induction inclusions generalizing family with
  | nil => exact h symbol
  | cons inclusion inclusions ih =>
      rw [List.forall_mem_cons] at hinclusions
      refine ih hinclusions.2 fun other => ?_
      rw [setAt_apply]
      split
      · exact TerminalSet.union_le (h other) (demand_le hinclusions.1 h)
      · exact h other

theorem terminals_le_mentioned {inclusions : List Inclusion}
    {inclusion : Inclusion} (h : inclusion ∈ inclusions) :
    inclusion.terminals ≤ mentioned inclusions := by
  suffices general : ∀ (inclusions : List Inclusion) (all : TerminalSet),
      all ≤ inclusions.foldl (fun all inclusion =>
        all.union inclusion.terminals) all
        ∧ ∀ inclusion ∈ inclusions, inclusion.terminals
          ≤ inclusions.foldl
            (fun all inclusion => all.union inclusion.terminals) all from
    (general inclusions TerminalSet.empty).2 inclusion h
  intro inclusions
  induction inclusions with
  | nil => exact fun all => ⟨TerminalSet.le_refl all, by simp⟩
  | cons first inclusions ih =>
      intro all
      obtain ⟨hall, hrest⟩ := ih (all.union first.terminals)
      refine ⟨TerminalSet.le_trans (TerminalSet.le_union_left _ _) hall, ?_⟩
      rw [List.forall_mem_cons]
      exact ⟨TerminalSet.le_trans (TerminalSet.le_union_right _ _) hall, hrest⟩

/-- A pass that changes nothing finds its inclusions satisfied. -/
theorem satisfied_of_pass_le {inclusions : List Inclusion}
    {family : TerminalFamily}
    (h : ∀ symbol,
      setAt (pass inclusions family) symbol ≤ family.setAt symbol) :
    ∀ inclusion ∈ inclusions,
      inclusion.demand family ≤ family.setAt inclusion.target := by
  induction inclusions generalizing family with
  | nil => exact fun inclusion hmem => nomatch hmem
  | cons first inclusions ih =>
      -- the first inclusion changes nothing, so the others find what it found
      have hpass :
          ∀ symbol, setAt (pass inclusions (first.apply family)) symbol
          ≤ family.setAt symbol := h
      have hsame : ∀ symbol,
          setAt (first.apply family) symbol = family.setAt symbol := by
        intro symbol
        exact TerminalSet.le_antisymm
          (TerminalSet.le_trans (le_pass inclusions _ symbol) (hpass symbol))
          (le_apply first family symbol)
      have hdemand : ∀ inclusion : Inclusion,
          inclusion.demand (first.apply family) = inclusion.demand family := by
        intro inclusion
        unfold Inclusion.demand
        split
        · rfl
        · next source _ => exact congrArg _ (hsame source)
      rw [List.forall_mem_cons]
      constructor
      · have htarget := hsame first.target
        rw [setAt_apply, if_pos rfl] at htarget
        rw [← htarget]
        exact TerminalSet.le_union_right _ _
      · intro inclusion hmem
        have hrest :=
          ih (fun symbol => by rw [hsame]; exact hpass symbol) inclusion hmem
        rwa [hdemand, hsame] at hrest

-- ======================================================= the last pass

/-- What is missing is counted key by key. -/
theorem missing_eq (bound : Nat) (family : TerminalFamily) :
    missing bound family
      = (family.keys.map fun symbol =>
        bound - (family.setAt symbol).size).sum := by
  unfold missing OrderedMap.values OrderedMap.keys
  show List.sum _ = List.sum _
  rw [List.map_map, List.map_map]
  refine congrArg List.sum (List.map_congr_left fun e he => ?_)
  simp only [Function.comp_apply, setAt, (family.lookup_eq_some_iff).mpr he,
    Option.getD_some]

/-- If a family lacks no less than a larger family within the bound that has
the same keys, the two have the same sets. -/
theorem setAt_le_of_missing_le {family larger : TerminalFamily}
    {bound : TerminalSet} (hkeys : larger.keys = family.keys)
    (hle : ∀ symbol, family.setAt symbol ≤ larger.setAt symbol)
    (hbound : ∀ symbol, larger.setAt symbol ≤ bound)
    (hmissing : missing bound.size family ≤ missing bound.size larger)
    (symbol : Symbol) : larger.setAt symbol ≤ family.setAt symbol := by
  by_cases hsymbol : symbol ∈ family.keys
  · by_contra hmore
    refine absurd hmissing (Nat.not_le.mpr ?_)
    rw [missing_eq, missing_eq, hkeys]
    refine List.sum_lt_sum _ _ (fun other _ => ?_) ⟨symbol, hsymbol, ?_⟩
    · exact Nat.sub_le_sub_left (TerminalSet.size_le_of_le (hle other)) _
    · have hsize : (family.setAt symbol).size
          < (larger.setAt symbol).size := by
        by_contra hsize
        have heq :=
          TerminalSet.eq_of_le_of_size_le (hle symbol) (Nat.not_lt.mp hsize)
        exact hmore (heq ▸ TerminalSet.le_refl _)
      have hfits := TerminalSet.size_le_of_le (hbound symbol)
      omega
  · have hnone : larger.lookup symbol = none := by
      rw [← hkeys] at hsymbol
      cases hlookup : larger.lookup symbol with
      | none => rfl
      | some set =>
          exact absurd (larger.mem_keys_iff.mpr ⟨set, hlookup⟩) hsymbol
    unfold setAt
    rw [hnone]
    exact TerminalSet.empty_le _

/-- The family that is found has a set for each of the nonterminals. -/
theorem keys_least {nonterminals : OrderedSet Symbol}
    {inclusions : List Inclusion}
    (h : ∀ inclusion ∈ inclusions, inclusion.target ∈ nonterminals)
    {symbol : Symbol} :
    symbol ∈ (least nonterminals inclusions).keys ↔ symbol ∈ nonterminals := by
  have hkeys : ∀ other, other ∈ (empties nonterminals).keys
      ↔ other ∈ nonterminals := by
    intro other
    unfold empties
    rw [OrderedMap.mem_keys_ofList, List.map_map]
    simp [Function.comp_def]
  suffices hsame : ∀ other, other ∈ (least nonterminals inclusions).keys
      ↔ other ∈ (empties nonterminals).keys
        from (hsame symbol).trans (hkeys symbol)
  unfold least
  refine settle_induction (P := fun family : TerminalFamily =>
    ∀ other, other ∈ family.keys
      ↔ other ∈ (empties nonterminals).keys) ?_ _ fun _ => Iff.rfl
  intro family hfamily other
  rw [keys_pass fun inclusion hmem =>
    (hfamily _).mpr ((hkeys _).mpr (h inclusion hmem))]
  exact hfamily other

/-- The family that is found satisfies the inclusions. -/
theorem least_satisfies {nonterminals : OrderedSet Symbol}
    {inclusions : List Inclusion}
    (h : ∀ inclusion ∈ inclusions, inclusion.target ∈ nonterminals) :
    ∀ inclusion ∈ inclusions, inclusion.demand (least nonterminals inclusions)
      ≤ setAt (least nonterminals inclusions) inclusion.target := by
  have hbound : ∀ symbol, setAt (least nonterminals inclusions) symbol
      ≤ mentioned inclusions := by
    unfold least
    refine settle_induction (P := fun family : TerminalFamily =>
      ∀ symbol, family.setAt symbol ≤ mentioned inclusions) ?_ _ ?_
    · intro family hfamily
      exact pass_le (fun inclusion => terminals_le_mentioned) hfamily
    · intro symbol
      unfold setAt empties
      rw [OrderedMap.lookup_ofList_const]
      split <;> exact TerminalSet.empty_le _
  refine satisfied_of_pass_le fun symbol => ?_
  refine setAt_le_of_missing_le ?_ (le_pass inclusions _)
    (pass_le (fun inclusion => terminals_le_mentioned) hbound) ?_ symbol
  · exact keys_pass fun inclusion hmem => (keys_least h).mpr (h inclusion hmem)
  · exact missing_le_pass_settle _ _ _

-- ============================================================ leastness

/-- A pass adds only what the inclusions demand. -/
theorem pass_induction {inclusions : List Inclusion}
    {P : Symbol → TerminalId → Prop}
    (hterminals : ∀ inclusion ∈ inclusions, ∀ n,
      inclusion.terminals.contains n = true → P inclusion.target n)
    (hsource : ∀ inclusion ∈ inclusions, ∀ source,
      inclusion.source = some source → ∀ n, P source n → P inclusion.target n)
    {family : TerminalFamily}
    (h : ∀ symbol n, (family.setAt symbol).contains n = true → P symbol n)
    (symbol : Symbol) (n : TerminalId)
    (hn : (setAt (pass inclusions family) symbol).contains n = true) :
    P symbol n := by
  unfold pass at hn
  induction inclusions generalizing family with
  | nil => exact h symbol n hn
  | cons first inclusions ih =>
      rw [List.forall_mem_cons] at hterminals hsource
      refine ih hterminals.2 hsource.2 (fun other m hm => ?_) hn
      rw [setAt_apply] at hm
      split at hm
      · next heq =>
          subst heq
          rw [TerminalSet.contains_union, Bool.or_eq_true] at hm
          rcases hm with hm | hm
          · exact h _ m hm
          · unfold Inclusion.demand at hm
            split at hm
            · exact hterminals.1 m hm
            · next source hsome =>
                rw [TerminalSet.contains_union, Bool.or_eq_true] at hm
                rcases hm with hm | hm
                · exact hterminals.1 m hm
                · exact hsource.1 source hsome m (h source m hm)
      · exact h other m hm

/-- The family that is found is the least one: what the inclusions demand
has every property that they pass on. -/
theorem least_induction {nonterminals : OrderedSet Symbol}
    {inclusions : List Inclusion} {P : Symbol → TerminalId → Prop}
    (hterminals : ∀ inclusion ∈ inclusions, ∀ n,
      inclusion.terminals.contains n = true → P inclusion.target n)
    (hsource : ∀ inclusion ∈ inclusions, ∀ source,
      inclusion.source = some source → ∀ n, P source n → P inclusion.target n)
    {symbol : Symbol} {n : TerminalId}
    (h : (setAt (least nonterminals inclusions) symbol).contains n = true) :
    P symbol n := by
  suffices hall : ∀ symbol n,
      (setAt (least nonterminals inclusions) symbol).contains n
        = true → P symbol n from
    hall symbol n h
  unfold least
  refine settle_induction (P := fun family : TerminalFamily =>
    ∀ symbol n, (family.setAt symbol).contains n = true → P symbol n) ?_ _ ?_
  · intro family hfamily
    exact pass_induction hterminals hsource hfamily
  · intro symbol n hn
    unfold setAt empties at hn
    rw [OrderedMap.lookup_ofList_const] at hn
    split at hn <;> simp at hn

end TerminalFamily

end ShiftReduce
