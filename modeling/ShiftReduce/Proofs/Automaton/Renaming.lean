/-
The automaton under another order of rules.

The number of a rule stands in the items, so a grammar whose rules are listed
in another order has other items, other keys and its states in another order.
But renumbering the items of the one grammar gives the items of the other,
and it carries every edge of the graph of items over to an edge. So it also
carries over what is read off the graph: the sets of items in which the graph
may be after a word, the successors of a state, and the rules by which a state
may reduce.

Whether a build has conflicts can be said in these terms. There are none if
every state knows on every symbol what to do: it has at most one rule to
reduce by, and none if it has successors. The numbering has no part in this,
although it does decide which conflicts are reported and how they are resolved.

All this supposes that neither grammar has more terminals than there are
numbers for them. Which terminals have to share a number depends on the order
of the rules.
-/
import ShiftReduce.Proofs.Analysis.Monotone
import ShiftReduce.Proofs.Automaton.Resolution

namespace ShiftReduce

-- ========================================================== renumbering

/-- The item with another number for its rule. -/
def Item.rename (f : Nat → Nat) (i : Item) : Item :=
  { i with rule := f i.rule }

@[simp] theorem Item.rename_symm (π : Equiv.Perm Nat) (i : Item) :
    (i.rename π).rename π.symm = i := by
  unfold Item.rename
  simp

@[simp] theorem Item.symm_rename (π : Equiv.Perm Nat) (i : Item) :
    (i.rename π.symm).rename π = i := by
  unfold Item.rename
  simp

/-- Two sets have the same items, up to the numbers of their rules. -/
def Item.Matches (π : Equiv.Perm Nat) (s s' : Set Item) : Prop :=
  ∀ i : Item, i.rename π ∈ s' ↔ i ∈ s

theorem Item.Matches.nonempty_iff {π : Equiv.Perm Nat} {s s' : Set Item}
    (h : Item.Matches π s s') : s'.Nonempty ↔ s.Nonempty := by
  constructor
  · rintro ⟨i, hi⟩
    rw [← i.symm_rename π] at hi
    exact ⟨_, (h _).mp hi⟩
  · rintro ⟨i, hi⟩
    exact ⟨_, (h i).mpr hi⟩

namespace StateKey

/-- The key of the renumbered items, which may be in another order. -/
def rename (f : Nat → Nat) : StateKey → StateKey
  | start => start
  | key => ofItems (Item.sorted (key.items.map (Item.rename f)))

theorem rename_of_ne_start {key : StateKey} (h : key ≠ start) (f : Nat → Nat) :
    key.rename f = ofItems (Item.sorted (key.items.map (Item.rename f))) := by
  cases key with
  | start => exact absurd rfl h
  | item i => rfl
  | merged is => rfl

theorem mem_items_rename {key : StateKey} {f : Nat → Nat} {i : Item} :
    i ∈ (key.rename f).items ↔ ∃ k ∈ key.items, k.rename f = i := by
  by_cases hkey : key = start
  · subst hkey
    simp [rename, items]
  · rw [rename_of_ne_start hkey, items_ofItems, Item.mem_sorted, List.mem_map]

/-- The renumbered key is that of the renumbered set. -/
theorem Names.rename {key : StateKey} {π : Equiv.Perm Nat} {s s' : Set Item}
    (h : key.Names s) (hmatches : Item.Matches π s s') :
    (key.rename π).Names s' := by
  have hset : s' = {i | i ∈ Item.sorted (key.items.map (Item.rename π))} := by
    ext i
    rw [Set.mem_ofPred_eq, Item.mem_sorted, List.mem_map]
    constructor
    · intro hi
      rw [← i.symm_rename π] at hi
      exact ⟨_, h.mem_iff.mp ((hmatches _).mp hi), i.symm_rename π⟩
    · rintro ⟨k, hk, rfl⟩
      exact (hmatches k).mpr (h.mem_iff.mpr hk)
  obtain ⟨i, hi⟩ := hmatches.nonempty_iff.mpr h.nonempty
  rw [hset] at hi
  rw [hset, rename_of_ne_start h.ne_start]
  exact names_ofItems (List.ne_nil_of_mem hi) (Item.ascending_sorted _)

end StateKey

-- ============================================================ the graph

namespace Grammar

/-- The other grammar has the same rules under other numbers, and there are
no more terminals than numbers for them. -/
structure Renumbers (g g' : Grammar) (π : Equiv.Perm Nat) : Prop where
  startSymbol : g.startSymbol = g'.startSymbol
  rule : ∀ index, g'.rule? (π index) = g.rule? index
  terminals : g.terminals.size ≤ TerminalId.limit
  terminals' : g'.terminals.size ≤ TerminalId.limit

theorem successors_of_ne_start {g : Grammar} {key : StateKey}
    (h : key ≠ .start) (symbol : Symbol) :
    g.successors key symbol = g.after {i | i ∈ key.items} symbol := by
  cases key with
  | start => exact absurd rfl h
  | item i => rfl
  | merged is => rfl

namespace Renumbers

variable {g g' : Grammar} {π : Equiv.Perm Nat}

theorem symm (h : g.Renumbers g' π) : g'.Renumbers g π.symm where
  startSymbol := h.startSymbol.symm
  rule := by
    intro index
    rw [← h.rule, Equiv.apply_symm_apply]
  terminals := h.terminals'
  terminals' := h.terminals

theorem within (h : g.Renumbers g' π) : g.Within g' where
  startSymbol := h.startSymbol
  rules := by
    intro rule hrule
    obtain ⟨index, hindex⟩ := List.getElem?_of_mem hrule
    have hother : g'.rule? (π index) = some rule := (h.rule index).trans hindex
    exact List.mem_of_getElem? hother

/-- What leads somewhere still does. -/
theorem leads (h : g.Renumbers g' π) {b c : Symbol} (hlead : g.Leads b c) :
    g'.Leads b c := by
  induction hlead with
  | refl hb => exact .refl hb
  | step _ hrule left right hd ih =>
      exact .step ih (h.within.rules _ hrule) left right hd

theorem edge (h : g.Renumbers g' π) {index position : Nat} {i : Item}
    (hedge : g.Edge index position i) :
    g'.Edge (π index) position (i.rename π) := by
  cases hedge with
  | advance hrule hsymbol =>
      exact .advance ((h.rule index).trans hrule) hsymbol
  | corner hrule hsymbol hproduction lead first =>
      exact .corner ((h.rule index).trans hrule) hsymbol
        ((h.rule _).trans hproduction)
        (h.leads lead) first

theorem edge_iff (h : g.Renumbers g' π) {index position : Nat} {i : Item} :
    g'.Edge (π index) position (i.rename π) ↔ g.Edge index position i := by
  constructor
  · intro hedge
    have hback := h.symm.edge hedge
    rwa [Equiv.symm_apply_apply, Item.rename_symm] at hback
  · exact h.edge

-- ============================================================= its sets

theorem entered (h : g.Renumbers g' π) (symbol : Symbol) :
    Item.Matches π (g.entered symbol) (g'.entered symbol) := by
  intro i
  refine and_congr_right fun _ => ?_
  constructor
  · rintro ⟨index, rule, hrule, hleft, hedge⟩
    rw [← π.apply_symm_apply index] at hrule hedge
    rw [h.rule] at hrule
    rw [← h.startSymbol] at hleft
    exact ⟨_, rule, hrule, hleft, h.edge_iff.mp hedge⟩
  · rintro ⟨index, rule, hrule, hleft, hedge⟩
    rw [h.startSymbol] at hleft
    exact ⟨π index, rule, (h.rule index).trans hrule, hleft, h.edge hedge⟩

theorem after (h : g.Renumbers g' π) {s s' : Set Item}
    (hs : Item.Matches π s s') (symbol : Symbol) :
    Item.Matches π (g.after s symbol) (g'.after s' symbol) := by
  intro i
  refine and_congr_right fun _ => ?_
  constructor
  · rintro ⟨k, hk, hedge⟩
    rw [← k.symm_rename π] at hk hedge
    exact ⟨_, (hs _).mp hk, h.edge_iff.mp hedge⟩
  · rintro ⟨k, hk, hedge⟩
    exact ⟨k.rename π, (hs k).mpr hk, h.edge hedge⟩

theorem reached (h : g.Renumbers g' π) (symbol : Symbol) (word : List Symbol) :
    Item.Matches π (g.reached symbol word) (g'.reached symbol word) := by
  induction word using List.reverseRecOn with
  | nil => exact h.entered symbol
  | append_singleton word last ih =>
      rw [reached_concat, reached_concat]
      exact h.after ih last

/-- A state goes into the same items under the new numbers. -/
theorem successors (h : g.Renumbers g' π) (key : StateKey) (symbol : Symbol) :
    Item.Matches π (g.successors key symbol)
      (g'.successors (key.rename π) symbol) := by
  by_cases hkey : key = .start
  · subst hkey
    exact h.entered symbol
  · have hrenamed : key.rename π ≠ .start := by
      rw [StateKey.rename_of_ne_start hkey]
      exact StateKey.ofItems_ne_start _
    rw [successors_of_ne_start hkey, successors_of_ne_start hrenamed]
    refine h.after (fun i => ?_) symbol
    rw [Set.mem_ofPred_eq, Set.mem_ofPred_eq, StateKey.mem_items_rename]
    constructor
    · rintro ⟨k, hk, heq⟩
      have hsame := congrArg (Item.rename π.symm) heq
      rw [Item.rename_symm, Item.rename_symm] at hsame
      exact hsame ▸ hk
    · exact fun hi => ⟨i, hi, rfl⟩

/-- And it may reduce by the same rules. -/
theorem mayReduce_iff (h : g.Renumbers g' π) {key : StateKey} {index : Nat}
    {symbol : Symbol} :
    g'.MayReduce (key.rename π) (π index) symbol
      ↔ g.MayReduce key index symbol := by
  constructor
  · rintro ⟨i, hi, hindex, rule, hrule, hposition, hahead⟩
    obtain ⟨k, hk, rfl⟩ := StateKey.mem_items_rename.mp hi
    rw [h.rule] at hrule
    exact ⟨k, hk, π.injective hindex, rule, hrule, hposition,
      h.symm.within.ahead h.terminals hahead⟩
  · rintro ⟨k, hk, rfl, rule, hrule, hposition, hahead⟩
    exact ⟨k.rename π, StateKey.mem_items_rename.mpr ⟨k, hk, rfl⟩, rfl, rule,
      (h.rule k.rule).trans hrule, hposition,
      h.within.ahead h.terminals' hahead⟩

end Renumbers

-- ========================================================= no conflicts

/-- A state has no choice on a symbol: it has at most one rule to reduce by,
and none if it has successors. -/
structure Decides (g : Grammar) (key : StateKey) (symbol : Symbol) : Prop where
  rule : ∀ {index index' : Nat}, g.MayReduce key index symbol →
    g.MayReduce key index' symbol →
    index = index'
  shift : (g.successors key symbol).Nonempty → ∀ index,
    ¬ g.MayReduce key index symbol

variable {g g' : Grammar} {limit limit' : Nat} {t t' : Table}

theorem Decides.of_renumbers {π : Equiv.Perm Nat} {key : StateKey}
    {symbol : Symbol} (h : g.Renumbers g' π)
    (hdecides : g'.Decides (key.rename π) symbol) : g.Decides key symbol where
  rule := by
    intro index index' hreduce hreduce'
    exact π.injective (hdecides.rule (h.mayReduce_iff.mpr hreduce)
      (h.mayReduce_iff.mpr hreduce'))
  shift := by
    intro hsome index hreduce
    have hsome' := (h.successors key symbol).nonempty_iff.mpr hsome
    exact hdecides.shift hsome' _ (h.mayReduce_iff.mpr hreduce)

/-- Without conflicts in the report no state has a choice. -/
theorem decides_of_conflicts_nil (h : (g.build limit).result = .ok t)
    (hnone : (g.build limit).conflicts = []) {key : StateKey}
    (hkey : key ∈ t.states.keys) (symbol : Symbol) : g.Decides key symbol := by
  obtain ⟨state, hstate⟩ := Table.exists_key?_of_mem_keys hkey
  have hreduces : ∀ {index : Nat}, g.MayReduce key index symbol →
      t.action? state symbol
          = some (.reduce index ((g.rule? index).bind Rule.action)) := by
    intro index hreduce
    have hmem := mem_reductions_iff_mayReduce.mpr hreduce
    exact action?_of_mem_reductions h hnone hstate hmem
  constructor
  · intro index index' hreduce hreduce'
    have haction := hreduces hreduce
    rw [hreduces hreduce'] at haction
    cases haction
    rfl
  · intro hsome index hreduce
    obtain ⟨target, hshift⟩ := exists_shift h hstate hsome
    rw [hreduces hreduce] at hshift
    cases hshift

/-- Every conflict is reported for some state of the table. -/
theorem exists_state_of_mem_conflicts (h : (g.build limit).result = .ok t)
    {c : Conflict} (hc : c ∈ (g.build limit).conflicts) :
    ∃ key ∈ t.states.keys, c.state = key := by
  obtain ⟨rows, -, -, rfl, hconflicts⟩ := of_buildWith_ok h
  rw [show (g.build limit).conflicts = _ from hconflicts, fillings] at hc
  obtain ⟨filling, hfilling, hc⟩ := List.mem_flatMap.mp hc
  obtain ⟨key, hkey, rfl⟩ := List.mem_map.mp hfilling
  refine ⟨key, Table.mem_keys_ofFillings.mpr hkey, ?_⟩
  unfold Filling.ofState at hc
  exact Filling.state_of_mem_foldl_enter (by simp) c (List.mem_reverse.mp hc)

/-- Where a state has no choice, no conflict is reported. -/
theorem conflictsAt_of_decides (h : (g.build limit).result = .ok t)
    {key : StateKey} (hkey : key ∈ t.states.keys) {symbol : Symbol}
    (hdecides : g.Decides key symbol) :
    (g.build limit).conflictsAt key symbol = [] := by
  obtain ⟨state, hstate⟩ := Table.exists_key?_of_mem_keys hkey
  have hkernel := kernel_of_mem_states h hkey
  obtain ⟨rows, -, hreduce, hsingle, hfree, -, hconflicts⟩ :=
    exists_filling h hstate
  have hrules : ∀ index ∈ Filling.rulesOn (key.reductions g
      (FollowSets.ofGrammar g (FirstSets.ofGrammar g)) g.terminals) symbol,
      g.MayReduce key index symbol :=
    fun index hindex =>
      mem_reductions_iff_mayReduce.mp (Filling.mem_rulesOn.mp hindex)
  have hascending := hkernel.rulesOn_ascending
    (FollowSets.ofGrammar g (FirstSets.ofGrammar g)) symbol
  rw [show (g.build limit).conflictsAt key symbol = _ from hconflicts symbol]
  by_cases hsome : (g.successors key symbol).Nonempty
  · -- there is a shift, and so nothing that could be in conflict with it
    obtain ⟨target, haction⟩ := exists_shift h hstate hsome
    obtain ⟨next, -, hnames⟩ := (action?_eq_shift_iff h hstate).mp haction
    rw [conflictsOn_ofState_of_shifts ((hsingle symbol next).mpr hnames)]
    cases hfound : Filling.rulesOn (key.reductions g
        (FollowSets.ofGrammar g (FirstSets.ofGrammar g))
          g.terminals) symbol with
    | nil => rfl
    | cons index _ =>
        exact absurd (hrules index (hfound ▸ List.mem_cons_self))
          (hdecides.shift hsome index)
  · -- there are not two rules that could be in conflict with each other
    rw [(conflictsOn_ofState_of_free hkernel (hfree symbol hsome)
      (hreduce symbol)).2]
    split
    · next first second rest hfound =>
        rw [hfound] at hascending hrules
        have hlt :=
          (List.pairwise_cons.mp hascending).1 second List.mem_cons_self
        have heq :=
          hdecides.rule (hrules first (by simp)) (hrules second (by simp))
        omega
    · rfl

/-- And if no state has a choice, none is reported at all. -/
theorem conflicts_nil_of_decides (h : (g.build limit).result = .ok t)
    (hdecides : ∀ key ∈ t.states.keys, ∀ symbol, g.Decides key symbol) :
    (g.build limit).conflicts = [] := by
  rw [List.eq_nil_iff_forall_not_mem]
  intro c hc
  obtain ⟨key, hkey, hstate⟩ := exists_state_of_mem_conflicts h hc
  have hmem : c ∈ (g.build limit).conflictsAt key c.symbol := by
    unfold BuildReport.conflictsAt
    rw [List.mem_filter, decide_eq_true_eq]
    exact ⟨hc, hstate, rfl⟩
  rw [conflictsAt_of_decides h hkey (hdecides key hkey c.symbol)] at hmem
  cases hmem

end Grammar

end ShiftReduce
