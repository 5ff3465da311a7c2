/-
The order of the rules.

If no conflicts are reported, nothing hangs on the order in which the rules of
a grammar are listed. Renumbering the items carries the automaton of the one
grammar over to that of the other, and a state that has no choice does in the
one what it does in the other: it shifts into the state of the renumbered
successors, or it reduces by the one rule that it may reduce by. So the
engines over the two tables stay side by side, with rules and states under
other names. With conflicts this is not so, because they are resolved in
favour of the rule that is listed first. Nor is it so with more terminals than
there are numbers for them, because it is the later terminal that loses its
number to the earlier one.
-/
import Mathlib.Logic.Equiv.Basic
import ShiftReduce.Proofs.Automaton.Renaming
import ShiftReduce.Proofs.Engine.Simulation

namespace ShiftReduce

-- ========================================================= permutations

/-- Zero stays in its place, and the other numbers are permuted. -/
def behindZero (π : Equiv.Perm Nat) : Equiv.Perm Nat where
  toFun
    | 0 => 0
    | n + 1 => π n + 1
  invFun
    | 0 => 0
    | n + 1 => π.symm n + 1
  left_inv := by
    intro n
    cases n with
    | zero => rfl
    | succ n => exact congrArg Nat.succ (π.symm_apply_apply n)
  right_inv := by
    intro n
    cases n with
    | zero => rfl
    | succ n => exact congrArg Nat.succ (π.apply_symm_apply n)

/-- Lists with the same elements have them in the same places, up to a
permutation of the places. -/
theorem exists_places {α : Type} {as bs : List α} (h : as.Perm bs) :
    ∃ π : Equiv.Perm Nat, ∀ i : Nat, bs[π i]? = as[i]? := by
  induction h with
  | nil => exact ⟨Equiv.refl Nat, fun _ => rfl⟩
  | cons a _ ih =>
      obtain ⟨π, hπ⟩ := ih
      refine ⟨behindZero π, fun i => ?_⟩
      cases i with
      | zero => rfl
      | succ i => exact hπ i
  | swap a b as =>
      refine ⟨Equiv.swap 0 1, fun i => ?_⟩
      match i with
      | 0 => rfl
      | 1 => rfl
      | i + 2 =>
          rw [Equiv.swap_apply_of_ne_of_ne (by omega) (by omega)]
          rfl
  | trans _ _ ih ih' =>
      obtain ⟨π, hπ⟩ := ih
      obtain ⟨ρ, hρ⟩ := ih'
      exact ⟨π.trans ρ, fun i => (hρ (π i)).trans (hπ i)⟩

/-- Two states, each of a table of its own, have the same items up to the
numbers of the rules. -/
def Table.Corresponds (π : Equiv.Perm Nat) (t t' : Table)
    (state state' : Nat) : Prop :=
  ∃ key, t.key? state = some key ∧ t'.key? state' = some (key.rename π)

namespace Grammar

variable {g g' : Grammar} {π : Equiv.Perm Nat}
    {limit limit' : Nat} {t t' : Table}

theorem exists_renumbers (hsize : g.terminals.size ≤ TerminalId.limit)
    (hperm : g.rules.Perm g'.rules) (hstart : g.startSymbol = g'.startSymbol) :
    ∃ π, g.Renumbers g' π := by
  obtain ⟨π, hπ⟩ := exists_places hperm
  have hwithin : g'.Within g :=
    ⟨hstart.symm, fun rule hrule => hperm.mem_iff.mpr hrule⟩
  exact ⟨π, hstart, hπ, hsize, hwithin.size_terminals_le.trans hsize⟩

namespace Renumbers

-- ============================================================= conflicts

/-- The states of the one table are those of the other. -/
theorem rename_mem_keys (hg : g.Renumbers g' π)
    (h : (g.build limit).result = .ok t)
    (h' : (g'.build limit').result = .ok t') {key : StateKey}
    (hkey : key ∈ t.states.keys) : key.rename π ∈ t'.states.keys := by
  rcases (mem_states_iff h).mp hkey with rfl | ⟨symbol, word, hnames⟩
  · exact (mem_states_iff h').mpr (Or.inl rfl)
  · have hnames' := hnames.rename (hg.reached symbol word)
    exact (mem_states_iff h').mpr (Or.inr ⟨symbol, word, hnames'⟩)

/-- If there are no conflicts in one order, there are none in another. -/
theorem conflicts_nil (hg : g.Renumbers g' π)
    (h : (g.build limit).result = .ok t)
    (h' : (g'.build limit').result = .ok t')
    (hnone' : (g'.build limit').conflicts = []) :
    (g.build limit).conflicts = [] := by
  refine conflicts_nil_of_decides h fun key hkey symbol => ?_
  have hkey' := hg.rename_mem_keys h h' hkey
  exact .of_renumbers hg (decides_of_conflicts_nil h' hnone' hkey' symbol)

-- =============================================================== actions

/-- A shift on the one side is a shift on the other, into the corresponding
state. -/
theorem shift (hg : g.Renumbers g' π) (h : (g.build limit).result = .ok t)
    (h' : (g'.build limit').result = .ok t') {state state' target : Nat}
    {symbol : Symbol} (hstates : t.Corresponds π t' state state')
    (haction : t.action? state symbol = some (.shift target)) :
    ∃ target', t'.action? state' symbol = some (.shift target')
      ∧ t.Corresponds π t' target target' := by
  obtain ⟨key, hkey, hkey'⟩ := hstates
  obtain ⟨next, hnext, hnames⟩ := (action?_eq_shift_iff h hkey).mp haction
  have hnames' := hnames.rename (hg.successors key symbol)
  obtain ⟨target', haction'⟩ := exists_shift h' hkey' hnames'.nonempty
  obtain ⟨next', hnext', hother⟩ := (action?_eq_shift_iff h' hkey').mp haction'
  rw [hother.unique hnames'] at hnext'
  exact ⟨target', haction', next, hnext, hnext'⟩

/-- A reduction on the one side is a reduction on the other, by the same rule
under its other number. -/
theorem reduce (hg : g.Renumbers g' π) (h : (g.build limit).result = .ok t)
    (h' : (g'.build limit').result = .ok t')
    (hnone' : (g'.build limit').conflicts = []) {state state' index : Nat}
    {symbol : Symbol} {name : Option String}
    (hstates : t.Corresponds π t' state state')
    (haction : t.action? state symbol = some (.reduce index name)) :
    t'.action? state' symbol = some (.reduce (π index) name) := by
  obtain ⟨key, hkey, hkey'⟩ := hstates
  obtain ⟨other, hother, hmem⟩ := mem_reductions_of_action? h haction
  rw [hkey] at hother
  cases hother
  have hreduce := hg.mayReduce_iff.mpr (mem_reductions_iff_mayReduce.mp hmem)
  rw [action?_of_mem_reductions h' hnone' hkey'
    (mem_reductions_iff_mayReduce.mpr hreduce), hg.rule,
    name_of_action? h haction]

/-- Where there is no action on the one side there is none on the other. -/
theorem no_action (hg : g.Renumbers g' π) (h : (g.build limit).result = .ok t)
    (hnone : (g.build limit).conflicts = [])
    (h' : (g'.build limit').result = .ok t') {state state' : Nat}
    {symbol : Symbol} (hstates : t.Corresponds π t' state state')
    (haction : t.action? state symbol = none) :
    t'.action? state' symbol = none := by
  obtain ⟨key, hkey, hkey'⟩ := hstates
  cases haction' : t'.action? state' symbol with
  | none => rfl
  | some action =>
      cases action with
      | shift target =>
          obtain ⟨next, -, hnames⟩ :=
            (action?_eq_shift_iff h' hkey').mp haction'
          have hsome :=
            (hg.successors key symbol).nonempty_iff.mp hnames.nonempty
          obtain ⟨target, hshift⟩ := exists_shift h hkey hsome
          rw [haction] at hshift
          cases hshift
      | reduce index name =>
          obtain ⟨other, hother, hmem⟩ := mem_reductions_of_action? h' haction'
          rw [hkey'] at hother
          cases hother
          rw [mem_reductions_iff_mayReduce, ← π.apply_symm_apply index,
            hg.mayReduce_iff] at hmem
          rw [action?_of_mem_reductions h hnone hkey
            (mem_reductions_iff_mayReduce.mpr hmem)]
            at haction
          cases haction

/-- Without conflicts, having the same items up to the numbers of the rules is
a simulation. -/
theorem simulates (hg : g.Renumbers g' π) (h : (g.build limit).result = .ok t)
    (hnone : (g.build limit).conflicts = [])
    (h' : (g'.build limit').result = .ok t')
    (hnone' : (g'.build limit').conflicts = []) :
    Simulates (t.parseTable g) (t'.parseTable g') (t.Corresponds π t') π where
  startSymbol := by
    show t.startSymbol = t'.startSymbol
    rw [startSymbol_of_buildWith h, startSymbol_of_buildWith h',
      hg.startSymbol]
  initial := ⟨.start, key?_initial h, key?_initial h'⟩
  action := by
    intro state state' hstates symbol
    show Option.Rel _ (t.action? state symbol) (t'.action? state' symbol)
    cases haction : t.action? state symbol with
    | none =>
        rw [hg.no_action h hnone h' hstates haction]
        exact .none
    | some action =>
        cases action with
        | shift target =>
            obtain ⟨target', haction', htargets⟩ :=
              hg.shift h h' hstates haction
            rw [haction']
            exact .some (.shift htargets)
        | reduce index name =>
            rw [hg.reduce h h' hnone' hstates haction]
            exact .some (.reduce index name)
  rule := by
    intro index
    show (g'.rule? (π index)).map _ = (g.rule? index).map _
    rw [hg.rule]

end Renumbers

/-- The order of the rules is of no importance if there are no conflicts and no
more terminals than numbers for them. Two builds from the same rules in
different orders, with the same start symbol, both report conflicts or both
report none. And if there are none, the engines over the two tables agree on
all tokens, step after step, with the rules under the numbers that they have
there and the states made of the same items. -/
theorem build_reordered (hsize : g.terminals.size ≤ TerminalId.limit)
    (hperm : g.rules.Perm g'.rules) (hstart : g.startSymbol = g'.startSymbol)
    (h : (g.build limit).result = .ok t)
    (h' : (g'.build limit').result = .ok t') :
    ((g.build limit).conflicts = [] ↔ (g'.build limit').conflicts = [])
    ∧ ((g.build limit).conflicts = [] → ∃ π : Equiv.Perm Nat,
      (∀ index, g'.rule? (π index) = g.rule? index)
      ∧ ∀ tokens, RunsAgree (t.parseTable g) (t'.parseTable g')
        (t.Corresponds π t') π tokens) := by
  obtain ⟨π, hg⟩ := exists_renumbers hsize hperm hstart
  have hiff : (g.build limit).conflicts = []
      ↔ (g'.build limit').conflicts = [] :=
    ⟨hg.symm.conflicts_nil h' h, hg.conflicts_nil h h'⟩
  refine ⟨hiff, fun hnone => ⟨π, hg.rule, fun tokens => ?_⟩⟩
  exact (hg.simulates h hnone h' (hiff.mp hnone)).runs tokens

/-- Sums of names again, with the single name before the longer sum. -/
def sumsNameFirst : Grammar where
  rules :=
    [⟨"<text>", ["<sum>"], none⟩, ⟨"<sum>", ["name"], none⟩,
      ⟨"<sum>", ["<sum>", "+", "name"], none⟩]
  rules_ne_nil := List.cons_ne_nil _ _

/-- The same name is reduced by one rule in one order and by another in the
other, and the engines agree. -/
theorem build_reordered_sums :
    ∃ t t', (sums.build 8).result = .ok t
      ∧ (sumsNameFirst.build 8).result = .ok t'
      ∧ (sumsNameFirst.build 8).conflicts = []
      ∧ ∃ π : Equiv.Perm Nat,
        (∀ index, sumsNameFirst.rule? (π index) = sums.rule? index)
        ∧ ∀ tokens, RunsAgree (t.parseTable sums) (t'.parseTable sumsNameFirst)
          (t.Corresponds π t') π tokens := by
  have hperm : sums.rules.Perm sumsNameFirst.rules := .cons _ (.swap _ _ _)
  have hbuilds : (sums.build 8).result.toOption.isSome = true := by
    decide +kernel
  have hbuilds' : (sumsNameFirst.build 8).result.toOption.isSome = true := by
    decide +kernel
  have hnone : (sums.build 8).conflicts = [] := by decide +kernel
  cases h : (sums.build 8).result with
  | error e =>
      rw [h] at hbuilds
      cases hbuilds
  | ok t =>
      cases h' : (sumsNameFirst.build 8).result with
      | error e =>
          rw [h'] at hbuilds'
          cases hbuilds'
      | ok t' =>
          have hsize : sums.terminals.size ≤ TerminalId.limit := by
            decide +kernel
          obtain ⟨hiff, hagree⟩ := build_reordered hsize hperm rfl h h'
          exact ⟨t, t', rfl, rfl, hiff.mp hnone, hagree hnone⟩

end Grammar

end ShiftReduce
