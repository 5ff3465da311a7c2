/-
How the passes come to an end.

FIRST and FOLLOW sets are made by passing over a list of inclusions again and
again. During a pass each target is given, in its turn, what its inclusion
demands and it lacks, and it is noted whether anything was lacking at all; a
pass in which nothing was lacking is the last one. A repetition that looks at
the number of missing elements instead stops at the same pass, because what is
added in a pass is no longer missing afterwards, and a pass in which nothing
was lacking leaves every set as it was.

No set grows beyond the terminals that are mentioned, and every pass but the
last one makes a set grow. So there are at most as many passes as there are
nonterminals times terminals, and one more.
-/
import Mathlib.Logic.Function.Iterate
import ShiftReduce.Proofs.Analysis.Checked

namespace ShiftReduce

-- ========================================================== repetition

/-- What has settled is an iterate: all passes up to it lowered `missing`, and
the next one does not. -/
theorem exists_settle_eq_iterate {α : Type} (missing : α → Nat) (pass : α → α)
    (x : α) :
    ∃ n, n + missing (pass^[n] x) ≤ missing x
      ∧ settle missing pass x = pass^[n] x
      ∧ (∀ k < n, missing (pass (pass^[k] x)) < missing (pass^[k] x))
      ∧ ¬ missing (pass (pass^[n] x)) < missing (pass^[n] x) := by
  rw [settle_eq]
  by_cases hlower : missing (pass x) < missing x
  · obtain ⟨n, hbound, hsettle, hbefore, hlast⟩ :=
      exists_settle_eq_iterate missing pass (pass x)
    refine ⟨n + 1, ?_, ?_, ?_, hlast⟩
    · rw [Function.iterate_succ_apply]
      omega
    · rw [if_pos hlower]
      exact hsettle
    · intro k hk
      cases k with
      | zero => exact hlower
      | succ k => exact hbefore k (Nat.lt_of_succ_lt_succ hk)
  · refine ⟨0, Nat.le_of_eq (Nat.zero_add _), ?_,
      fun k hk => absurd hk (Nat.not_lt_zero k), hlower⟩
    rw [if_neg hlower]
    rfl
termination_by missing x

namespace TerminalSet

theorem isSubset_iff {a b : TerminalSet} : a.isSubset b = true ↔ a ≤ b := by
  unfold isSubset
  rw [beq_iff_eq]
  constructor
  · intro h
    rw [← h]
    exact le_union_left a b
  · exact fun h => le_antisymm (union_le h (le_refl b)) (le_union_right a b)

/-- A set of numbers that terminals have has no more elements than there are
terminals. -/
theorem size_le_of_exists_of? {s : TerminalSet} {terminals : OrderedSet Symbol}
    (h : ∀ n, s.contains n = true →
      ∃ terminal, TerminalId.of? terminals terminal = some n) :
    s.size ≤ terminals.size := by
  have hsubset :
      s.toList ⊆ terminals.elements.filterMap (TerminalId.of? terminals) := by
    intro n hn
    obtain ⟨terminal, hterminal⟩ := h n (mem_toList_iff.mp hn)
    exact List.mem_filterMap.mpr
      ⟨terminal, TerminalId.mem_of_of? hterminal, hterminal⟩
  have hle := (List.subperm_of_subset s.nodup_toList hsubset).length_le
  exact hle.trans (List.length_filterMap_le _ _)

end TerminalSet

namespace TerminalFamily

variable {nonterminals : OrderedSet Symbol} {inclusions : List Inclusion}
  {family : TerminalFamily}

-- ============================================================== a pass

/-- Whether a pass finds anything lacking: some inclusion demands, when it is
its turn, what its target does not have. -/
def lacks : List Inclusion → TerminalFamily → Bool
  | [], _ => false
  | inclusion :: rest, family =>
    !(inclusion.demand family).isSubset (family.setAt inclusion.target)
      || lacks rest (inclusion.apply family)

/-- An inclusion that is satisfied adds nothing to any set. -/
theorem setAt_apply_of_le {inclusion : Inclusion}
    (h : inclusion.demand family ≤ family.setAt inclusion.target)
    (symbol : Symbol) :
    setAt (inclusion.apply family) symbol = family.setAt symbol := by
  rw [setAt_apply]
  split
  · next htarget =>
      subst htarget
      exact TerminalSet.le_antisymm
        (TerminalSet.union_le (TerminalSet.le_refl _) h)
        (TerminalSet.le_union_left _ _)
  · rfl

/-- Nothing is lacking exactly if the pass leaves every set as it was. -/
theorem lacks_eq_false_iff :
    lacks inclusions family = false
      ↔ ∀ symbol,
        setAt (pass inclusions family) symbol ≤ family.setAt symbol := by
  induction inclusions generalizing family with
  | nil => exact ⟨fun _ symbol => TerminalSet.le_refl _, fun _ => rfl⟩
  | cons first rest ih =>
      rw [lacks, Bool.or_eq_false_iff, Bool.not_eq_false',
        TerminalSet.isSubset_iff, ih]
      have hpass : pass (first :: rest) family
        = pass rest (first.apply family) := rfl
      rw [hpass]
      constructor
      · rintro ⟨hfirst, hrest⟩ symbol
        rw [← setAt_apply_of_le hfirst symbol]
        exact hrest symbol
      · intro h
        have hfirst : ∀ symbol,
            setAt (first.apply family) symbol ≤ family.setAt symbol :=
          fun symbol => TerminalSet.le_trans (le_pass rest _ symbol) (h symbol)
        refine ⟨?_, fun symbol =>
          TerminalSet.le_trans (h symbol) (le_apply first family symbol)⟩
        have htarget := hfirst first.target
        rw [setAt_apply, if_pos rfl] at htarget
        exact TerminalSet.le_trans (TerminalSet.le_union_right _ _) htarget

/-- Two families with the same sets lack the same number of elements. -/
theorem missing_congr {family' : TerminalFamily} {bound : Nat}
    (hkeys : family'.keys = family.keys)
    (h : ∀ symbol, family'.setAt symbol = family.setAt symbol) :
    missing bound family' = missing bound family := by
  rw [missing_eq, missing_eq, hkeys]
  exact congrArg List.sum
    (List.map_congr_left fun symbol _ => by rw [h symbol])

/-- While the sets keep to the terminals that are mentioned, a pass finds
something lacking exactly if it lowers the number of missing elements. -/
theorem lacks_iff_missing_lt (htargets : ∀ inclusion ∈ inclusions,
      inclusion.target ∈ family.keys)
    (hbound : ∀ symbol, family.setAt symbol ≤ mentioned inclusions) :
    lacks inclusions family = true
      ↔ missing (mentioned inclusions).size (pass inclusions family)
        < missing (mentioned inclusions).size family := by
  have hkeys := keys_pass htargets
  rw [← not_iff_not, Bool.not_eq_true, lacks_eq_false_iff, Nat.not_lt]
  constructor
  · intro h
    refine Nat.le_of_eq (missing_congr hkeys fun symbol => ?_).symm
    exact TerminalSet.le_antisymm (h symbol) (le_pass inclusions family symbol)
  · exact setAt_le_of_missing_le hkeys (le_pass inclusions family)
      (pass_le (fun _ => terminals_le_mentioned) hbound)

-- ============================================================ the passes

/-- From the empty sets on, so many passes find something lacking. The next one
does not, and the sets are then those of the result. -/
structure SettlesIn (nonterminals : OrderedSet Symbol)
    (inclusions : List Inclusion) (passes : Nat) (result : TerminalFamily) :
    Prop where
  result : result = (pass inclusions)^[passes] (empties nonterminals)
  before : ∀ k < passes,
    lacks inclusions ((pass inclusions)^[k] (empties nonterminals)) = true
  last : lacks inclusions
    ((pass inclusions)^[passes] (empties nonterminals)) = false

theorem setAt_empties (nonterminals : OrderedSet Symbol) (symbol : Symbol) :
    setAt (empties nonterminals) symbol = TerminalSet.empty := by
  unfold setAt empties
  rw [OrderedMap.lookup_ofList_const]
  split <;> rfl

/-- All passes are made over the sets of the nonterminals, and none exceeds the
terminals that are mentioned. -/
theorem keys_and_bound_iterate
    (htargets : ∀ inclusion ∈ inclusions, inclusion.target ∈ nonterminals)
    (n : Nat) :
    ((pass inclusions)^[n] (empties nonterminals)).keys = nonterminals.elements
      ∧ ∀ symbol, setAt ((pass inclusions)^[n] (empties nonterminals)) symbol
        ≤ mentioned inclusions := by
  induction n with
  | zero =>
      refine ⟨keys_empties nonterminals, fun symbol => ?_⟩
      rw [Function.iterate_zero_apply, setAt_empties]
      exact TerminalSet.empty_le _
  | succ n ih =>
      obtain ⟨hkeys, hbound⟩ := ih
      rw [Function.iterate_succ_apply']
      refine ⟨?_, pass_le (fun _ => terminals_le_mentioned) hbound⟩
      rw [keys_pass fun inclusion hmem => hkeys ▸ htargets inclusion hmem,
        hkeys]

theorem missing_empties_le (nonterminals : OrderedSet Symbol) (bound : Nat) :
    missing bound (empties nonterminals) ≤ nonterminals.size * bound := by
  rw [missing_eq, keys_empties]
  have hsum := List.sum_le_card_nsmul
    (nonterminals.elements.map fun symbol =>
      bound - (setAt (empties nonterminals) symbol).size)
    bound (by simp)
  simpa [OrderedSet.size] using hsum

/-- The passes come to an end. -/
theorem exists_settlesIn
    (htargets : ∀ inclusion ∈ inclusions, inclusion.target ∈ nonterminals) :
    ∃ passes ≤ nonterminals.size * (mentioned inclusions).size,
      SettlesIn nonterminals inclusions passes
        (least nonterminals inclusions) := by
  obtain ⟨n, hlength, hresult, hbefore, hlast⟩ := exists_settle_eq_iterate
    (missing (mentioned inclusions).size) (pass inclusions)
    (empties nonterminals)
  have hlacks : ∀ k,
      lacks inclusions ((pass inclusions)^[k] (empties nonterminals)) = true
      ↔ missing (mentioned inclusions).size
          (pass inclusions ((pass inclusions)^[k] (empties nonterminals)))
        < missing (mentioned inclusions).size
          ((pass inclusions)^[k] (empties nonterminals)) := by
    intro k
    obtain ⟨hkeys, hbound⟩ := keys_and_bound_iterate htargets k
    exact lacks_iff_missing_lt
      (fun inclusion hmem => hkeys ▸ htargets inclusion hmem) hbound
  refine ⟨n, ?_, hresult, fun k hk => (hlacks k).mpr (hbefore k hk), ?_⟩
  · have hle := missing_empties_le nonterminals (mentioned inclusions).size
    omega
  · rw [← Bool.not_eq_true, hlacks]
    exact hlast

/-- What is mentioned at all some inclusion mentions. -/
theorem exists_of_contains_mentioned {n : TerminalId}
    (h : (mentioned inclusions).contains n = true) :
    ∃ inclusion ∈ inclusions, inclusion.terminals.contains n = true := by
  suffices general : ∀ (inclusions : List Inclusion) (all : TerminalSet),
      (inclusions.foldl (fun all inclusion => all.union inclusion.terminals)
        all).contains n = true →
      all.contains n = true ∨ ∃ inclusion ∈ inclusions,
          inclusion.terminals.contains n = true by
    refine (general inclusions TerminalSet.empty h).resolve_left ?_
    rw [TerminalSet.contains_empty]
    exact Bool.false_ne_true
  intro inclusions
  induction inclusions with
  | nil => exact fun all h => Or.inl h
  | cons first rest ih =>
      intro all h
      rcases ih _ h with h | ⟨inclusion, hmem, hn⟩
      · rw [TerminalSet.contains_union, Bool.or_eq_true] at h
        exact h.imp_right fun h => ⟨first, List.mem_cons_self, h⟩
      · exact Or.inr ⟨inclusion, List.mem_cons_of_mem _ hmem, hn⟩

end TerminalFamily

end ShiftReduce
