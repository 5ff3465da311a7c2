/-
The table that is built.

A build that succeeds has merged until no cell was ambiguous, and its table
is read off the rows it ended with: the states that can be reached, by
number, and in each the shift or the reduction that its row has. From here
on nothing has to be known about rows, rounds or the order in which things
were found; the lemmas say what the states are and when a cell shifts or
reduces.
-/
import Mathlib.Data.List.Induction
import ShiftReduce.Automaton.Build
import ShiftReduce.Proofs.Automaton.Filling
import ShiftReduce.Proofs.Automaton.Merging
import ShiftReduce.Proofs.Automaton.Reaching

namespace ShiftReduce

-- ==================================================== reachable states

namespace Rows

variable {g : Grammar} {rows : Rows}

/-- What a state points to has been entered. -/
theorem Faithful.mem_keys_of_mem_targets (h : Faithful g rows)
    (key : StateKey) : ∀ target ∈ rows.targets key, target ∈ rows.keys := by
  intro target htarget
  obtain ⟨symbol, hshift⟩ := mem_targets_iff.mp htarget
  exact (h.entered key symbol target hshift).1

/-- Every state that can be reached has been entered, and is the start
state or that of a set of the graph of items. -/
theorem Faithful.of_mem_reachable (h : Faithful g rows)
    (hclear : rows.ambiguous = []) :
    ∀ key ∈ rows.reachable, key ∈ rows.keys
      ∧ (key = .start ∨ ∃ symbol word, key.Names (g.reached symbol word)) := by
  refine forall_mem_reachable ⟨h.start, Or.inl rfl⟩ ?_
  rintro key ⟨hkey, hset⟩ target htarget
  obtain ⟨symbol, hshift⟩ := mem_targets_iff.mp htarget
  have hnames := h.names_of_mem_shifts hclear hkey hshift
  refine ⟨(h.entered key symbol target hshift).1, Or.inr ?_⟩
  rcases hset with rfl | ⟨first, word, hset⟩
  · exact ⟨symbol, [], hnames⟩
  · refine ⟨first, word ++ [symbol], ?_⟩
    rw [Grammar.reached_concat, ← Grammar.successors_of_names hset]
    exact hnames

/-- A state that can be reached goes into the state of its successors on
every symbol on which it has some. -/
theorem Faithful.exists_successor (h : Faithful g rows)
    (hclear : rows.ambiguous = []) {key : StateKey}
    (hkey : key ∈ rows.reachable) {symbol : Symbol}
    (hsome : (g.successors key symbol).Nonempty) :
    ∃ target ∈ rows.reachable, target.Names (g.successors key symbol)
      ∧ (rows.cell key symbol).shifts = [target] := by
  obtain ⟨hentered, -⟩ := h.of_mem_reachable hclear key hkey
  obtain ⟨i, hi⟩ := hsome
  obtain ⟨target, hshift, -⟩ := (h.flat key hentered symbol i).mp hi
  have hnames := h.names_of_mem_shifts hclear hentered hshift
  refine ⟨target, ?_, hnames,
    (h.shifts_eq_singleton_iff hclear hentered).mpr hnames⟩
  exact targets_subset_reachable h.start h.mem_keys_of_mem_targets key
    hkey target
    (mem_targets_iff.mpr ⟨symbol, hshift⟩)

/-- Every set of the graph of items that is not empty has its state. -/
theorem Faithful.exists_state (h : Faithful g rows)
    (hclear : rows.ambiguous = []) {symbol : Symbol} {word : List Symbol}
    (hsome : (g.reached symbol word).Nonempty) :
    ∃ key ∈ rows.reachable, key.Names (g.reached symbol word) := by
  induction word using List.reverseRecOn with
  | nil =>
      have hstart := OrderedSet.mem_of_position rows.reachable_start
      obtain ⟨key, hkey, hnames, -⟩ := h.exists_successor hclear hstart hsome
      exact ⟨key, hkey, hnames⟩
  | append_singleton word last ih =>
      rw [Grammar.reached_concat] at hsome ⊢
      obtain ⟨i, -, k, hk, -⟩ := id hsome
      obtain ⟨key, hkey, hset⟩ := ih ⟨k, hk⟩
      rw [← Grammar.successors_of_names hset] at hsome ⊢
      obtain ⟨target, htarget, hnames, -⟩ :=
        h.exists_successor hclear hkey hsome
      exact ⟨target, htarget, hnames⟩

/-- The states that can be reached are the start state and those of the
sets of the graph of items. -/
theorem Faithful.mem_reachable_iff (h : Faithful g rows)
    (hclear : rows.ambiguous = []) {key : StateKey} :
    key ∈ rows.reachable
      ↔ key = .start ∨ ∃ symbol word, key.Names (g.reached symbol word) := by
  constructor
  · intro hkey
    exact (h.of_mem_reachable hclear key hkey).2
  · intro h
    rcases h with rfl | ⟨symbol, word, hnames⟩
    · exact OrderedSet.mem_of_position rows.reachable_start
    · obtain ⟨other, hother, hnames'⟩ := h.exists_state hclear hnames.nonempty
      rw [hnames.unique hnames']
      exact hother

end Rows

-- ============================================================ the table

namespace Table

variable {g : Grammar} {follow : FollowSets} {rows : Rows}
    {states : OrderedSet StateKey}

theorem entryAt?_ofFillings (state : Nat) :
    (ofFillings g states (g.fillings follow rows states)).states.entryAt? state
      = states.elements[state]?.map fun key =>
          (key, (Filling.ofState g follow g.terminals rows
              key).row.filterMapValues
            (Cell.action? g states)) := by
  unfold ofFillings Grammar.fillings
  rw [OrderedMap.entryAt?_zip, List.getElem?_map, List.getElem?_map]
  cases states.elements[state]? <;> rfl

theorem key?_ofFillings (state : Nat) :
    (ofFillings g states (g.fillings follow rows states)).key? state
      = states.elements[state]? := by
  unfold key?
  rw [entryAt?_ofFillings, Option.map_map]
  exact Option.map_id'

theorem mem_keys_ofFillings {key : StateKey} :
    key ∈ (ofFillings g states (g.fillings follow rows states)).states.keys
      ↔ key ∈ states := by
  unfold ofFillings Grammar.fillings
  rw [OrderedMap.keys_zip _ (by simp)]
  exact Iff.rfl

/-- The action in a cell is that of the row of the state. -/
theorem action?_ofFillings {state : Nat} {key : StateKey}
    (hkey : states.elements[state]? = some key) (symbol : Symbol) :
    (ofFillings g states (g.fillings follow rows states)).action? state symbol
      = Cell.action? g states
          (Row.cell (Filling.ofState g follow g.terminals rows key).row
            symbol) := by
  unfold action?
  rw [entryAt?_ofFillings, hkey, Option.map_some]
  dsimp only
  rw [OrderedMap.lookup_filterMapValues, Row.cell]
  cases (Filling.ofState g follow g.terminals rows key).row.lookup
    symbol <;> rfl

theorem action?_ofFillings_none {state : Nat}
    (hkey : states.elements[state]? = none) (symbol : Symbol) :
    (ofFillings g states (g.fillings follow rows states)).action? state symbol
      = none := by
  unfold action?
  rw [entryAt?_ofFillings, hkey]
  rfl

end Table

-- ============================================================ the build

namespace Grammar

variable {g : Grammar} {follow : FollowSets} {limit : Nat} {t : Table}

/-- The rows after the last round of merging. -/
def mergedRows (g : Grammar) (limit : Nat) : Rows :=
  (Rows.ofGrammar g).afterRounds ((Rows.ofGrammar g).mergeRounds limit)

/-- The table of a build that succeeds is read off the rows after the last
round, which has been within the limit. -/
theorem eq_of_buildWith_ok (h : (g.buildWith follow limit).result = .ok t) :
    ((Rows.ofGrammar g).mergeRounds limit).length ≤ limit
      ∧ t = Table.ofFillings g (g.mergedRows limit).reachable
          (g.fillings follow (g.mergedRows limit)
            (g.mergedRows limit).reachable)
      ∧ (g.buildWith follow limit).conflicts
          = (g.fillings follow (g.mergedRows limit)
              (g.mergedRows limit).reachable).flatMap
            Filling.conflicts := by
  unfold buildWith at h ⊢
  dsimp only at h ⊢
  split at h
  · cases h
  · next hlimit =>
      rw [if_neg hlimit]
      exact ⟨by omega, (Except.ok.inj h).symm, rfl⟩

/-- The table of a build that succeeds is read off rows that are faithful
to the graph of items and have no ambiguous cell. -/
theorem of_buildWith_ok (h : (g.buildWith follow limit).result = .ok t) :
    ∃ rows, Rows.Faithful g rows ∧ rows.ambiguous = []
      ∧ t = Table.ofFillings g rows.reachable
        (g.fillings follow rows rows.reachable)
      ∧ (g.buildWith follow limit).conflicts
          = (g.fillings follow rows rows.reachable).flatMap
            Filling.conflicts := by
  obtain ⟨hlimit, htable, hconflicts⟩ := eq_of_buildWith_ok h
  obtain ⟨hfaithful, hclear⟩ := (Rows.faithful_ofGrammar g).afterRounds limit
  exact ⟨g.mergedRows limit, hfaithful, hclear hlimit, htable, hconflicts⟩

/-- The states of the table are the start state and those of the sets of
the graph of items. -/
theorem mem_states_iff (h : (g.buildWith follow limit).result = .ok t)
    {key : StateKey} :
    key ∈ t.states.keys
      ↔ key = .start ∨ ∃ symbol word, key.Names (g.reached symbol word) := by
  obtain ⟨rows, hfaithful, hclear, rfl, -⟩ := of_buildWith_ok h
  rw [Table.mem_keys_ofFillings]
  exact hfaithful.mem_reachable_iff hclear

theorem key?_initial (h : (g.buildWith follow limit).result = .ok t) :
    t.key? Table.initial = some .start := by
  obtain ⟨rows, -, -, rfl, -⟩ := of_buildWith_ok h
  rw [Table.key?_ofFillings]
  exact rows.reachable_start

/-- A cell of the table shifts into the state of the successors. -/
theorem action?_eq_shift_iff (h : (g.buildWith follow limit).result = .ok t)
    {state : Nat} {key : StateKey} (hkey : t.key? state = some key)
    {symbol : Symbol} {target : Nat} :
    t.action? state symbol = some (.shift target)
      ↔ ∃ next, t.key? target = some next
        ∧ next.Names (g.successors key symbol) := by
  obtain ⟨rows, hfaithful, hclear, rfl, -⟩ := of_buildWith_ok h
  rw [Table.key?_ofFillings] at hkey
  simp only [Table.key?_ofFillings]
  have hreached := OrderedSet.mem_of_position hkey
  rw [Table.action?_ofFillings hkey]
  constructor
  · intro haction
    unfold Cell.action? at haction
    split at haction
    · next next _ hshifts =>
        rw [Filling.shifts_ofState] at hshifts
        have hmem : next ∈ (rows.cell key symbol).shifts := by simp [hshifts]
        have hentered := (hfaithful.of_mem_reachable hclear key hreached).1
        have hnames := hfaithful.names_of_mem_shifts hclear hentered hmem
        obtain ⟨other, hother, hnames', -⟩ :=
          hfaithful.exists_successor hclear hreached hnames.nonempty
        cases hnames.unique hnames'
        obtain ⟨n, hn⟩ := OrderedSet.exists_position hother
        rw [(OrderedSet.indexOf?_eq_some_iff _).mpr hn] at haction
        cases haction
        exact ⟨next, hn, hnames⟩
    · cases haction
    · cases haction
  · intro h
    obtain ⟨next, hnext, hnames⟩ := h
    obtain ⟨other, -, hnames', hshifts⟩ :=
      hfaithful.exists_successor hclear hreached hnames.nonempty
    cases hnames.unique hnames'
    have hcell : (Row.cell (Filling.ofState g follow g.terminals rows key).row
        symbol).shifts
        = [next] := by
      rw [Filling.shifts_ofState, hshifts]
    unfold Cell.action?
    rw [hcell]
    dsimp only
    rw [(OrderedSet.indexOf?_eq_some_iff _).mpr hnext]
    rfl

/-- A state shifts on every symbol on which it has successors. -/
theorem exists_shift (h : (g.buildWith follow limit).result = .ok t)
    {state : Nat} {key : StateKey} (hkey : t.key? state = some key)
    {symbol : Symbol} (hsome : (g.successors key symbol).Nonempty) :
    ∃ target, t.action? state symbol = some (.shift target) := by
  simp only [action?_eq_shift_iff h hkey]
  obtain ⟨rows, hfaithful, hclear, rfl, -⟩ := of_buildWith_ok h
  rw [Table.key?_ofFillings] at hkey
  obtain ⟨next, hnext, hnames, -⟩ :=
    hfaithful.exists_successor hclear (OrderedSet.mem_of_position hkey) hsome
  obtain ⟨target, htarget⟩ := OrderedSet.exists_position hnext
  exact ⟨target, next, (Table.key?_ofFillings target).trans htarget, hnames⟩

/-- A cell of the table reduces only by a rule by which its state may
reduce on the symbol. -/
theorem mem_reductions_of_action?
    (h : (g.buildWith follow limit).result = .ok t) {state index : Nat}
    {symbol : Symbol} {action : Option String}
    (haction : t.action? state symbol = some (.reduce index action)) :
    ∃ key, t.key? state = some key
      ∧ (index, symbol) ∈ key.reductions g follow g.terminals := by
  obtain ⟨rows, hfaithful, -, rfl, -⟩ := of_buildWith_ok h
  rw [Table.key?_ofFillings]
  cases hkey : rows.reachable.elements[state]? with
  | none =>
      rw [Table.action?_ofFillings_none hkey] at haction
      cases haction
  | some key =>
      rw [Table.action?_ofFillings hkey] at haction
      refine ⟨key, rfl, ?_⟩
      unfold Cell.action? at haction
      split at haction
      · cases haction
      · next hreduce =>
          cases haction
          exact Filling.mem_reductions_of_reduce
            (hfaithful.unreduced key symbol) hreduce
      · cases haction

/-- A reduction runs the action of its rule. -/
theorem name_of_action? (h : (g.buildWith follow limit).result = .ok t)
    {state index : Nat} {symbol : Symbol} {name : Option String}
    (haction : t.action? state symbol = some (.reduce index name)) :
    name = (g.rule? index).bind Rule.action := by
  obtain ⟨rows, -, -, rfl, -⟩ := of_buildWith_ok h
  cases hkey : rows.reachable.elements[state]? with
  | none =>
      rw [Table.action?_ofFillings_none hkey] at haction
      cases haction
  | some key =>
      rw [Table.action?_ofFillings hkey] at haction
      unfold Cell.action? at haction
      split at haction
      · cases haction
      · cases haction
        rfl
      · cases haction

/-- If there are no conflicts, a state reduces wherever it may. -/
theorem action?_of_mem_reductions
    (h : (g.buildWith follow limit).result = .ok t)
    (hnone : (g.buildWith follow limit).conflicts = []) {state index : Nat}
    {key : StateKey} (hkey : t.key? state = some key) {symbol : Symbol}
    (hmem : (index, symbol) ∈ key.reductions g follow g.terminals) :
    t.action? state symbol
      = some (.reduce index ((g.rule? index).bind Rule.action)) := by
  obtain ⟨rows, -, -, rfl, hconflicts⟩ := of_buildWith_ok h
  rw [Table.key?_ofFillings] at hkey
  have hclear : (Filling.ofState g follow g.terminals rows key).conflicts
      = [] := by
    rw [hnone] at hconflicts
    have hall := List.flatMap_eq_nil_iff.mp hconflicts.symm
    refine hall _ ?_
    unfold fillings
    exact List.mem_map_of_mem (OrderedSet.mem_of_position hkey)
  rw [Table.action?_ofFillings hkey,
    Filling.cell_ofState_of_conflicts_nil hclear hmem]
  rfl

-- ========================================================= the automaton

/-- The table of a grammar is its canonical automaton of items. Its states
are the start state and the nonempty sets of items in which the graph of
items may be after a nonempty word, each by its key; and a state shifts on
a symbol exactly if it has successors on it, into the state of the
successors. How the states came about, in which round of merging and from
which others, has left no trace. -/
theorem build_canonical (h : (g.build limit).result = .ok t) :
    (∀ key, key ∈ t.states.keys
      ↔ key = .start ∨ ∃ symbol word, key.Names (g.reached symbol word))
    ∧ ∀ state key, t.key? state = some key → ∀ symbol,
      ((∃ target, t.action? state symbol = some (.shift target))
        ↔ (g.successors key symbol).Nonempty)
      ∧ ∀ target, t.action? state symbol = some (.shift target)
        ↔ ∃ next, t.key? target = some next
          ∧ next.Names (g.successors key symbol) := by
  refine ⟨fun key => mem_states_iff h, ?_⟩
  intro state key hkey symbol
  refine ⟨⟨?_, exists_shift h hkey⟩, fun target => action?_eq_shift_iff h hkey⟩
  intro h
  obtain ⟨target, haction⟩ := h
  obtain ⟨next, -, hnames⟩ := (action?_eq_shift_iff h hkey).mp haction
  exact hnames.nonempty

/-- Sums of names. The start state goes into two items on a sum, one where
the text is complete and one where an operator may follow. -/
def sums : Grammar where
  rules :=
    [⟨"<text>", ["<sum>"], none⟩, ⟨"<sum>", ["<sum>", "+", "name"], none⟩,
      ⟨"<sum>", ["name"], none⟩]
  rules_ne_nil := List.cons_ne_nil _ _

theorem build_canonical_sums :
    ∃ t, (sums.build 8).result = .ok t ∧ ∀ key, key ∈ t.states.keys
      ↔ key = .start
        ∨ ∃ symbol word, key.Names (sums.reached symbol word) := by
  have hbuilds : (sums.build 8).result.toOption.isSome = true := by
    decide +kernel
  cases hresult : (sums.build 8).result with
  | error e =>
      rw [hresult] at hbuilds
      cases hbuilds
  | ok t => exact ⟨t, rfl, (build_canonical hresult).1⟩

end Grammar

end ShiftReduce
