/-
How conflicts are resolved.

On one symbol the entries of a state come as a list of rules, and since the
items of the state ascend, so do the rules. The cell goes through at most
two phases. While it has no action it takes the first rule that comes; from
then on, or from the beginning if there is a shift, it keeps what it has.
The first rule after that is reported, and the report silences all that
come later. So the cell and its conflict can be read off the list: the
shift or the first rule stays, and the next rule is the one that is turned
away.

The second half of the file ties this to the report of a build, in which
the conflicts of all states stand behind each other.
-/
import ShiftReduce.Proofs.Analysis.Ahead
import ShiftReduce.Proofs.Automaton.States

namespace ShiftReduce

-- ================================================== what a cell keeps

/-- The action that a cell holds on to against a rule. There is none if the
cell is free, or holds the rule itself. -/
def Cell.keeps (cell : Cell) (rule : Nat) : Option Kept :=
  match cell.shifts, cell.reduce with
  | target :: _, _ => some (.shift target)
  | [], none => none
  | [], some existing =>
      if existing = rule then none else some (.reduce existing)

namespace Filling

variable {key : StateKey} {filling : Filling}
    {reductions : List (Nat × Symbol)}
  {symbol : Symbol}

/-- The conflicts that have been reported on a symbol. -/
def conflictsOn (filling : Filling) (symbol : Symbol) : List Conflict :=
  filling.conflicts.filter fun c => c.symbol == symbol

/-- The rules that are entered on a symbol, in order. -/
def rulesOn (reductions : List (Nat × Symbol)) (symbol : Symbol) : List Nat :=
  (reductions.filter fun r => r.2 == symbol).map Prod.fst

theorem mem_rulesOn {index : Nat} :
    index ∈ rulesOn reductions symbol ↔ (index, symbol) ∈ reductions := by
  unfold rulesOn
  simp

theorem rulesOn_cons (rule : Nat) (on : Symbol) :
    rulesOn ((rule, on) :: reductions) symbol
      = if on = symbol then rule :: rulesOn reductions symbol
        else rulesOn reductions symbol := by
  unfold rulesOn
  by_cases h : on = symbol <;> simp [h]

-- =========================================================== one entry

/-- A report is heard if it is the first on its symbol. -/
theorem conflictsOn_report (conflict : Conflict) :
    (filling.report conflict).conflictsOn symbol
      = if conflict.symbol = symbol ∧ filling.conflictsOn symbol = []
        then [conflict]
        else filling.conflictsOn symbol := by
  have hnone : filling.conflictsOn conflict.symbol = []
      ↔ ¬ (filling.conflicts.any fun other => other.symbol == conflict.symbol)
        = true := by
    unfold conflictsOn
    simp [List.filter_eq_nil_iff]
  unfold report
  split
  · next hany =>
      rw [if_neg]
      rintro ⟨rfl, hnil⟩
      exact hnone.mp hnil hany
  · next hany =>
      show List.filter _ (conflict :: filling.conflicts) = _
      rw [List.filter_cons]
      by_cases hsymbol : conflict.symbol = symbol
      · subst hsymbol
        have hnil := hnone.mpr hany
        rw [if_pos (by simp), if_pos ⟨rfl, hnil⟩]
        show conflict :: filling.conflictsOn conflict.symbol = [conflict]
        rw [hnil]
      · rw [if_neg (by simpa using hsymbol), if_neg fun h => hsymbol h.1]
        rfl

/-- An entry adds to the conflicts on its own symbol, at most one and only
if there is none yet: the one with what the cell keeps. -/
theorem conflictsOn_enter (rule : Nat) (on : Symbol) :
    (filling.enter key (rule, on)).conflictsOn symbol
      = if on = symbol ∧ filling.conflictsOn symbol = []
        then (((Row.cell filling.row symbol).keeps rule).map
          fun kept => ⟨key, symbol, kept, rule⟩).toList
        else filling.conflictsOn symbol := by
  by_cases hon : on = symbol
  case neg =>
    rw [if_neg fun h => hon h.1]
    unfold enter
    dsimp only
    split
    · rw [conflictsOn_report, if_neg fun h => hon h.1]
    · rfl
    · split
      · rfl
      · rw [conflictsOn_report, if_neg fun h => hon h.1]
  case pos =>
    subst hon
    unfold enter Cell.keeps
    dsimp only
    split
    · next target rest hshifts =>
        have hcell : (Row.cell filling.row on).shifts
          = target :: rest := hshifts
        simp [conflictsOn_report, hcell]
    · next hshifts hreduce =>
        have hcell : (Row.cell filling.row on).shifts = [] := hshifts
        have hfree : (Row.cell filling.row on).reduce = none := hreduce
        simp only [hcell, hfree, true_and, Option.map_none, Option.toList_none]
        split
        · next hnil => exact hnil
        · rfl
    · next existing hshifts hreduce =>
        have hcell : (Row.cell filling.row on).shifts = [] := hshifts
        have hfull : (Row.cell filling.row on).reduce
          = some existing := hreduce
        simp only [hcell, hfull, true_and]
        split
        · simp only [Option.map_none, Option.toList_none]
          split
          · next hnil => exact hnil
          · rfl
        · simp [conflictsOn_report]

-- ======================================================== many entries

/-- Once there is a conflict on a symbol, there is no other. -/
theorem conflictsOn_foldl_of_ne_nil (h : filling.conflictsOn symbol ≠ []) :
    (reductions.foldl (enter key) filling).conflictsOn symbol
      = filling.conflictsOn symbol := by
  induction reductions generalizing filling with
  | nil => rfl
  | cons reduction reductions ih =>
      have hfirst : (filling.enter key reduction).conflictsOn symbol
          = filling.conflictsOn symbol := by
        rw [conflictsOn_enter, if_neg fun hnil => h hnil.2]
      rw [List.foldl_cons, ih (by rw [hfirst]; exact h), hfirst]

/-- If a cell keeps one action against all rules that come, the first of
them is in conflict with it. -/
theorem conflictsOn_foldl_of_keeps (kept : Kept)
    (hnone : filling.conflictsOn symbol = [])
    (hkeeps : ∀ rule ∈ rulesOn reductions symbol,
      (Row.cell filling.row symbol).keeps rule = some kept) :
    (reductions.foldl (enter key) filling).conflictsOn symbol
      = ((rulesOn reductions symbol).head?.map
          fun rule => ⟨key, symbol, kept, rule⟩).toList := by
  induction reductions generalizing filling with
  | nil => exact hnone
  | cons reduction reductions ih =>
      obtain ⟨rule, on⟩ := reduction
      rw [rulesOn_cons] at hkeeps ⊢
      rw [List.foldl_cons]
      by_cases hon : on = symbol
      · -- the first rule on the symbol is reported, and silences the others
        rw [if_pos hon] at hkeeps ⊢
        have hreport : (filling.enter key (rule, on)).conflictsOn symbol
            = [⟨key, symbol, kept, rule⟩] := by
          rw [conflictsOn_enter, if_pos ⟨hon, hnone⟩,
            hkeeps rule List.mem_cons_self]
          rfl
        rw [conflictsOn_foldl_of_ne_nil (by simp [hreport]), hreport]
        rfl
      · rw [if_neg hon] at hkeeps ⊢
        apply ih
        · rw [conflictsOn_enter, if_neg fun h => hon h.1]
          exact hnone
        · rw [cell_enter, if_neg fun h => hon h.1.symm]
          exact hkeeps

/-- A free cell takes the first rule that comes, and the second one is in
conflict with it, provided that it is another one. -/
theorem foldl_enter_of_free
    (hshifts : (Row.cell filling.row symbol).shifts = [])
    (hreduce : (Row.cell filling.row symbol).reduce = none)
    (hnone : filling.conflictsOn symbol = [])
    (hasc : (rulesOn reductions symbol).Pairwise (· < ·)) :
    (Row.cell (reductions.foldl (enter key) filling).row symbol).reduce
        = (rulesOn reductions symbol).head?
      ∧ (reductions.foldl (enter key) filling).conflictsOn symbol
        = match rulesOn reductions symbol with
          | first :: second :: _ => [⟨key, symbol, .reduce first, second⟩]
          | _ => [] := by
  induction reductions generalizing filling with
  | nil => exact ⟨hreduce, hnone⟩
  | cons reduction reductions ih =>
      obtain ⟨rule, on⟩ := reduction
      rw [rulesOn_cons] at hasc ⊢
      rw [List.foldl_cons]
      by_cases hon : on = symbol
      · -- the rule goes into the cell, which keeps it against all that follow
        rw [if_pos hon] at hasc ⊢
        obtain ⟨hfirst, -⟩ := List.pairwise_cons.mp hasc
        have hcell : Row.cell (filling.enter key (rule, on)).row symbol
            = ⟨[], some rule⟩ := by
          rw [cell_enter, if_pos ⟨hon.symm, hshifts, hreduce⟩]
          simp [hshifts]
        have hquiet : (filling.enter key (rule, on)).conflictsOn symbol
            = [] := by
          rw [conflictsOn_enter, if_pos ⟨hon, hnone⟩]
          simp [Cell.keeps, hshifts, hreduce]
        constructor
        · exact reduce_foldl_enter_of_some (by rw [hcell])
        · rw [conflictsOn_foldl_of_keeps (.reduce rule) hquiet]
          · cases rulesOn reductions symbol <;> rfl
          · intro other hother
            have hne : rule ≠ other := Nat.ne_of_lt (hfirst other hother)
            simp [hcell, Cell.keeps, hne]
      · rw [if_neg hon] at hasc ⊢
        have hcell : Row.cell (filling.enter key (rule, on)).row symbol
            = Row.cell filling.row symbol := by
          rw [cell_enter, if_neg fun h => hon h.1.symm]
        apply ih _ _ _ hasc
        · rw [hcell]
          exact hshifts
        · rw [hcell]
          exact hreduce
        · rw [conflictsOn_enter, if_neg fun h => hon h.1]
          exact hnone

/-- Every conflict of a state is reported for that state. -/
theorem state_of_mem_foldl_enter (h : ∀ c ∈ filling.conflicts, c.state = key) :
    ∀ c ∈ (reductions.foldl (enter key) filling).conflicts, c.state = key := by
  have hreport : ∀ (filling : Filling) (conflict : Conflict),
      conflict.state = key →
      (∀ c ∈ filling.conflicts, c.state = key) →
      ∀ c ∈ (filling.report conflict).conflicts, c.state = key := by
    intro filling conflict hstate hall
    unfold report
    split
    · exact hall
    · exact List.forall_mem_cons.mpr ⟨hstate, hall⟩
  induction reductions generalizing filling with
  | nil => exact h
  | cons reduction reductions ih =>
      apply ih
      unfold enter
      dsimp only
      split
      · exact hreport _ _ rfl h
      · exact h
      · split
        · exact h
        · exact hreport _ _ rfl h

end Filling

-- ===================================================== ascending rules

namespace TerminalSet

theorem nodup_names (terminals : OrderedSet Symbol) (s : TerminalSet) :
    (s.names terminals).Nodup := by
  unfold names
  apply List.Nodup.filterMap _ s.nodup_toList
  intro i j symbol hi hj
  exact TerminalId.position_inj.mp (terminals.position_unique hi hj)

end TerminalSet

namespace StateKey

variable {g : Grammar}

theorem reductions_eq_flatMap {key : StateKey} {follow : FollowSets} :
    key.reductions g follow g.terminals
      = key.items.flatMap fun i =>
        (item i).reductions g follow g.terminals := by
  unfold reductions
  simp [items]

/-- A single item is entered once on each symbol. -/
theorem nodup_symbols_item (follow : FollowSets) (i : Item) :
    ((item i).reductions g follow g.terminals).Pairwise fun r r' =>
      r.2 ≠ r'.2 := by
  unfold reductions
  rw [items, List.flatMap_singleton]
  split
  · exact List.Pairwise.nil
  · split
    · exact List.Pairwise.nil
    · split
      · exact List.Pairwise.nil
      · next set _ =>
          rw [List.pairwise_map]
          exact set.nodup_names g.terminals

end StateKey

namespace Grammar

variable {g : Grammar} {key : StateKey}

/-- The rules by which a state may reduce on a symbol: it holds the last
item of the rule, and the symbol is a terminal that may follow the
left-hand side. -/
def MayReduce (g : Grammar) (key : StateKey) (index : Nat) (symbol : Symbol) :
    Prop :=
  ∃ i ∈ key.items, i.rule = index ∧ ∃ rule, g.rule? index = some rule
    ∧ i.position = rule.right.length ∧ g.Ahead rule.left symbol

theorem mem_reductions_iff_mayReduce {index : Nat} {symbol : Symbol} :
    (index, symbol)
        ∈ key.reductions g (FollowSets.ofGrammar g (FirstSets.ofGrammar g))
          g.terminals
      ↔ g.MayReduce key index symbol :=
  StateKey.mem_reductions_iff

/-- A rule by which a state may reduce is not empty. -/
theorem MayReduce.right_ne_nil (hkernel : Kernel g key) {index : Nat}
    {symbol : Symbol} (h : g.MayReduce key index symbol) :
    ∃ rule, g.rule? index = some rule ∧ rule.right ≠ [] := by
  obtain ⟨i, hi, rfl, rule, hrule, hlast, -⟩ := h
  obtain ⟨-, n, -, hposition, -⟩ := hkernel.isItem i hi
  refine ⟨rule, hrule, fun hnil => ?_⟩
  rw [hnil, List.length_nil] at hlast
  omega

/-- The rules that a state enters on one symbol ascend. -/
theorem Kernel.rulesOn_ascending (hkernel : Kernel g key) (follow : FollowSets)
    (symbol : Symbol) :
    (Filling.rulesOn (key.reductions g follow g.terminals) symbol).Pairwise
    (· < ·) := by
  have hall : (key.reductions g follow g.terminals).Pairwise
      fun r r' => r.2 = r'.2 → r.1 < r'.1 := by
    rw [StateKey.reductions_eq_flatMap, List.pairwise_flatMap]
    constructor
    · -- one item is entered once on each symbol
      intro i hi
      apply (StateKey.nodup_symbols_item follow i).imp
      exact fun hne heq => absurd heq hne
    · -- and the items of several rules are listed in the order of the rules
      obtain ⟨last, hlast⟩ := hkernel.symbol
      apply hkernel.ascending.imp_of_mem
      rintro i j hi hj hlt ⟨index, s⟩ hr ⟨index', s'⟩ hr' -
      obtain ⟨i', hi', rfl, rule, hrule, hposition, -⟩ :=
        StateKey.mem_reductions_iff.mp hr
      obtain ⟨j', hj', rfl, rule', hrule', hposition', -⟩ :=
        StateKey.mem_reductions_iff.mp hr'
      cases List.mem_singleton.mp hi'
      cases List.mem_singleton.mp hj'
      rcases Item.rule_lt_of_compare hlt
        ((hlast i hi).trans (hlast j hj).symm) with h | h
      · exact h
      · -- a rule has only one last item
        rw [h.1] at hrule
        cases hrule.symm.trans hrule'
        omega
  unfold Filling.rulesOn
  rw [List.pairwise_map]
  apply (hall.filter _).imp_of_mem
  intro r r' hr hr' hlt
  simp only [List.mem_filter, beq_iff_eq] at hr hr'
  exact hlt (hr.2.trans hr'.2.symm)

-- ========================================================= the report

end Grammar

/-- The conflicts of a report on one state and symbol. -/
def BuildReport.conflictsAt (report : BuildReport) (key : StateKey)
    (symbol : Symbol) : List Conflict :=
  report.conflicts.filter fun c => decide (c.state = key ∧ c.symbol = symbol)

namespace Grammar

variable {g : Grammar} {key : StateKey}
variable {follow : FollowSets} {limit : Nat} {t : Table}

/-- The conflicts of several states with those of one state picked out. -/
theorem filter_flatMap_conflicts {keys : List StateKey} (hnodup : keys.Nodup)
    {f : StateKey → List Conflict} (hf : ∀ k ∈ keys, ∀ c ∈ f k, c.state = k)
    (hkey : key ∈ keys) (symbol : Symbol) :
    (keys.flatMap f).filter
        (fun c => decide (c.state = key ∧ c.symbol = symbol))
      = (f key).filter fun c => c.symbol == symbol := by
  have hother : ∀ k ∈ keys, k ≠ key →
      (f k).filter (fun c => decide (c.state = key ∧ c.symbol = symbol))
        = [] := by
    intro k hk hne
    rw [List.filter_eq_nil_iff]
    intro c hc h
    exact hne ((hf k hk c hc).symm.trans (of_decide_eq_true h).1)
  induction keys with
  | nil => cases hkey
  | cons k keys ih =>
      rw [List.nodup_cons] at hnodup
      rw [List.forall_mem_cons] at hf hother
      rw [List.flatMap_cons, List.filter_append]
      by_cases hk : k = key
      · subst hk
        have hrest : (keys.flatMap f).filter
            (fun c => decide (c.state = k ∧ c.symbol = symbol)) = [] := by
          rw [List.filter_eq_nil_iff]
          intro c hc h
          obtain ⟨k', hk', hc⟩ := List.mem_flatMap.mp hc
          have heq : k' = k :=
            (hf.2 k' hk' c hc).symm.trans (of_decide_eq_true h).1
          exact hnodup.1 (heq ▸ hk')
        rw [hrest, List.append_nil]
        apply List.filter_congr
        intro c hc
        rw [Bool.eq_iff_iff]
        simp [hf.1 c hc]
      · have hkey' : key ∈ keys :=
          (List.mem_cons.mp hkey).resolve_left fun h => hk h.symm
        rw [hother.1 hk, List.nil_append, ih hnodup.2 hf.2 hkey' hother.2]

/-- The row of a state and its conflicts are read off its filling. -/
theorem exists_filling (h : (g.buildWith follow limit).result = .ok t)
    {state : Nat} (hkey : t.key? state = some key) :
    ∃ rows : Rows, ∃ states : OrderedSet StateKey,
      (∀ symbol, (rows.cell key symbol).reduce = none)
      ∧ (∀ symbol next, (rows.cell key symbol).shifts = [next]
          ↔ next.Names (g.successors key symbol))
      ∧ (∀ symbol, ¬ (g.successors key symbol).Nonempty →
        (rows.cell key symbol).shifts = [])
      ∧ (∀ symbol, t.action? state symbol = Cell.action? g states
          (Row.cell
            (Filling.ofState g follow g.terminals rows key).row symbol))
      ∧ ∀ symbol, (g.buildWith follow limit).conflictsAt key symbol
          = (Filling.ofState g follow g.terminals rows key).conflictsOn
            symbol := by
  obtain ⟨rows, hfaithful, hclear, rfl, hconflicts⟩ := of_buildWith_ok h
  rw [Table.key?_ofFillings] at hkey
  have hreached := OrderedSet.mem_of_position hkey
  have hentered := (hfaithful.of_mem_reachable hclear key hreached).1
  refine ⟨rows, rows.reachable, hfaithful.unreduced key, ?_, ?_,
    Table.action?_ofFillings hkey, ?_⟩
  · intro symbol next
    exact hfaithful.shifts_eq_singleton_iff hclear hentered
  · intro symbol hnone
    rw [List.eq_nil_iff_forall_not_mem]
    intro next hnext
    exact hnone (hfaithful.names_of_mem_shifts hclear hentered hnext).nonempty
  · intro symbol
    unfold BuildReport.conflictsAt
    rw [hconflicts, fillings, List.flatMap_map]
    apply filter_flatMap_conflicts rows.reachable.nodup _ hreached
    intro k _ c hc
    unfold Filling.ofState at hc
    exact Filling.state_of_mem_foldl_enter (by simp) c (List.mem_reverse.mp hc)

/-- The finished conflicts on a symbol are those of the entries. -/
theorem conflictsOn_ofState (rows : Rows) (symbol : Symbol) :
    (Filling.ofState g follow g.terminals rows key).conflictsOn symbol
      = (((key.reductions g follow g.terminals).foldl (Filling.enter key)
          ⟨rows.row key, []⟩).conflictsOn symbol).reverse := by
  unfold Filling.ofState Filling.conflictsOn
  rw [List.filter_reverse]

/-- A shift stays, and the least rule is in conflict with it. -/
theorem conflictsOn_ofState_of_shifts {rows : Rows} {symbol : Symbol}
    {target : StateKey} (hshifts : (rows.cell key symbol).shifts = [target]) :
    (Filling.ofState g follow g.terminals rows key).conflictsOn symbol
      = ((Filling.rulesOn (key.reductions g follow g.terminals)
            symbol).head?.map
          fun index => ⟨key, symbol, .shift target, index⟩).toList := by
  rw [conflictsOn_ofState,
    Filling.conflictsOn_foldl_of_keeps (.shift target) rfl]
  · cases (Filling.rulesOn (key.reductions g follow g.terminals)
      symbol).head? <;> rfl
  · intro rule _
    have hcell : (Row.cell (rows.row key) symbol).shifts = [target] := hshifts
    simp [Cell.keeps, hcell]

/-- Without a shift the least rule stays, and the second least is in
conflict with it. -/
theorem conflictsOn_ofState_of_free (hkernel : Kernel g key) {rows : Rows}
    {symbol : Symbol} (hshifts : (rows.cell key symbol).shifts = [])
    (hreduce : (rows.cell key symbol).reduce = none) :
    (Row.cell (Filling.ofState g follow g.terminals rows key).row
      symbol).reduce
        = (Filling.rulesOn (key.reductions g follow g.terminals) symbol).head?
      ∧ (Filling.ofState g follow g.terminals rows key).conflictsOn symbol
        = match Filling.rulesOn
          (key.reductions g follow g.terminals) symbol with
          | first :: second :: _ => [⟨key, symbol, .reduce first, second⟩]
          | _ => [] := by
  have hrow : (Row.cell (Filling.mk (rows.row key) []).row symbol).shifts
    = [] := hshifts
  obtain ⟨hcell, hon⟩ := Filling.foldl_enter_of_free hrow hreduce rfl
    (hkernel.rulesOn_ascending follow symbol)
  refine ⟨hcell, ?_⟩
  rw [conflictsOn_ofState, hon]
  cases Filling.rulesOn (key.reductions g follow g.terminals) symbol with
  | nil => rfl
  | cons first rest => cases rest <;> rfl

/-- Conflicts are resolved exactly. On every symbol the rules by which a
state may reduce are finitely many, none of them empty. If the state has
successors it shifts into their state, and the least rule, if there is one,
is in conflict with the shift. Otherwise it reduces by the least rule, with
the action of that rule, and the second least is in conflict with it; and
if there is no rule the cell is empty. No other conflict is reported. -/
theorem build_resolves (h : (g.build limit).result = .ok t) {state : Nat}
    (hkey : t.key? state = some key) (symbol : Symbol) :
    ∃ rules : List Nat, rules.Pairwise (· < ·)
      ∧ (∀ index, index ∈ rules ↔ g.MayReduce key index symbol)
      ∧ (∀ index ∈ rules, ∃ rule, g.rule? index = some rule ∧ rule.right ≠ [])
      ∧ ((g.successors key symbol).Nonempty → ∃ target next,
          t.action? state symbol = some (.shift target)
          ∧ t.key? target = some next ∧ next.Names (g.successors key symbol)
          ∧ next.toText g.startSymbol = t.stateName target
          ∧ (g.build limit).conflictsAt key symbol
            = (rules.head?.map fun index => ⟨key, symbol,
              .shift next, index⟩).toList)
      ∧ (¬ (g.successors key symbol).Nonempty →
          t.action? state symbol
            = rules.head?.map
              (fun index => .reduce index ((g.rule? index).bind Rule.action))
          ∧ (g.build limit).conflictsAt key symbol
            = match rules with
              | first :: second :: _ => [⟨key, symbol, .reduce first, second⟩]
              | _ => []) := by
  have hkernel := kernel_of_mem_states h (Table.mem_keys_of_key? hkey)
  obtain ⟨rows, states, hreduce, hsingle, hfree, haction, hconflicts⟩ :=
    exists_filling h hkey
  refine ⟨_, hkernel.rulesOn_ascending
    (FollowSets.ofGrammar g (FirstSets.ofGrammar g)) symbol, ?_, ?_, ?_, ?_⟩
  · intro index
    rw [Filling.mem_rulesOn, mem_reductions_iff_mayReduce]
  · intro index hindex
    rw [Filling.mem_rulesOn, mem_reductions_iff_mayReduce] at hindex
    exact hindex.right_ne_nil hkernel
  · intro hsome
    obtain ⟨target, htarget⟩ := exists_shift h hkey hsome
    obtain ⟨next, hnext, hnames⟩ := (action?_eq_shift_iff h hkey).mp htarget
    refine ⟨target, next, htarget, hnext, hnames, ?_, ?_⟩
    · rw [Table.stateName, hnext, startSymbol_of_buildWith h]
    · show (g.buildWith _ limit).conflictsAt key symbol = _
      rw [hconflicts,
        conflictsOn_ofState_of_shifts ((hsingle symbol next).mpr hnames)]
  · intro hnone
    have hshifts := hfree symbol hnone
    obtain ⟨hcell, hon⟩ :=
      conflictsOn_ofState_of_free hkernel hshifts (hreduce symbol)
    constructor
    · rw [haction, Cell.action?, Filling.shifts_ofState, hshifts, hcell]
      cases (Filling.rulesOn _ symbol).head? <;> rfl
    · show (g.buildWith _ limit).conflictsAt key symbol = _
      rw [hconflicts, hon]

/-- Three rules for the same word. After the word each of them may be
reduced at the end of the text. -/
def ties : Grammar where
  rules :=
    [⟨"<text>", ["<noun>"], none⟩, ⟨"<text>", ["<verb>"], none⟩,
      ⟨"<text>", ["<name>"], none⟩, ⟨"<noun>", ["rose"], none⟩,
      ⟨"<verb>", ["rose"], none⟩, ⟨"<name>", ["rose"], none⟩]
  rules_ne_nil := List.cons_ne_nil _ _

/-- The state of `ties` after the word. -/
def tied : StateKey := .merged [⟨"rose", 3, 1⟩, ⟨"rose", 4, 1⟩, ⟨"rose", 5, 1⟩]

theorem build_resolves_ties :
    (ties.build 8).conflictsAt tied endMarker
      = [⟨tied, endMarker, .reduce 3, 4⟩]
    ∧ ∃ t, (ties.build 8).result = .ok t
      ∧ t.action? 2 endMarker = some (.reduce 3 none)
      ∧ ∃ rules : List Nat, rules.Pairwise (· < ·)
        ∧ ∀ index, index ∈ rules ↔ ties.MayReduce tied index endMarker := by
  refine ⟨by decide +kernel, ?_⟩
  have hkey : (ties.build 8).result.toOption.bind (Table.key? · 2)
      = some tied := by
    decide +kernel
  have haction :
      (ties.build 8).result.toOption.bind (Table.action? · 2 endMarker)
      = some (.reduce 3 none) := by
    decide +kernel
  cases hresult : (ties.build 8).result with
  | error e =>
      rw [hresult] at hkey
      cases hkey
  | ok t =>
      rw [hresult] at hkey haction
      obtain ⟨rules, hascending, hmem, -⟩ :=
        build_resolves hresult hkey endMarker
      exact ⟨t, rfl, haction, rules, hascending, hmem⟩

end Grammar

end ShiftReduce
