/-
Stored tables do not depend on the numbering of states.

In a stored table states go by their names, so the order in which they are
listed is of no importance, except that the start state comes first, and
neither is the order in which the actions of a state are listed. Two tables
that are read from the same states in different orders number them
differently. But whether reading succeeds is a matter of what can be read at
all and of no two states being the same, and not of the order in which the
reader comes upon it. And two states with the same key have been read from
the same name and the same actions, and on every symbol they reduce by the
same rule or shift into states with the same key again. So having the same
key is a simulation, and the engines over the two tables stay side by side.
-/
import Mathlib.Data.List.Perm.Basic
import ShiftReduce.Proofs.Engine.Simulation
import ShiftReduce.Proofs.Table.File

namespace ShiftReduce

-- =========================================================== reordering

/-- The key that the name of a stored state reads as. -/
def StoredState.key? (startSymbol : Symbol) (s : StoredState) :
    Option StateKey :=
  StateKey.ofText? startSymbol s.name

/-- The same state with its actions in any order. -/
def StoredState.Reorders (s s' : StoredState) : Prop :=
  s.name = s'.name ∧ s.actions.entries.Perm s'.actions.entries

/-- The same states in any order. -/
def StoredState.Shuffled (states states' : List StoredState) : Prop :=
  ∃ middle, states.Perm middle
    ∧ List.Forall₂ StoredState.Reorders middle states'

/-- The same stored table with the first state in its place and everything
else in any order. -/
structure StoredTable.Reorders (stored stored' : StoredTable) : Prop where
  startSymbol : stored.startSymbol = stored'.startSymbol
  first :
    Option.Rel StoredState.Reorders stored.states.head? stored'.states.head?
  others : StoredState.Shuffled stored.states.tail stored'.states.tail

namespace StoredState

theorem Reorders.symm {s s' : StoredState} (h : s.Reorders s') :
    s'.Reorders s :=
  ⟨h.1.symm, h.2.symm⟩

theorem Reorders.key?_eq {s s' : StoredState} (h : s.Reorders s')
    (startSymbol : Symbol) : s.key? startSymbol = s'.key? startSymbol := by
  unfold key?
  rw [h.1]

/-- The order of the actions is of no importance for what they are. -/
theorem Reorders.lookup_eq {s s' : StoredState} (h : s.Reorders s')
    (symbol : Symbol) :
    s.actions.lookup symbol = s'.actions.lookup symbol := by
  have hiff : ∀ text, s.actions.lookup symbol = some text
      ↔ s'.actions.lookup symbol = some text := by
    intro text
    rw [OrderedMap.lookup_eq_some_iff, OrderedMap.lookup_eq_some_iff]
    exact h.2.mem_iff
  exact Option.ext hiff

namespace Shuffled

variable {states states' : List StoredState}

theorem symm (h : Shuffled states states') : Shuffled states' states := by
  obtain ⟨middle, hperm, hreorders⟩ := h
  have hback : List.Forall₂ Reorders states' middle :=
    (hreorders.imp fun _ _ hstate => hstate.symm).flip
  obtain ⟨middle', hmiddle, hreorders'⟩ :
      Relation.Comp List.Perm (List.Forall₂ Reorders) states' states := by
    rw [← List.forall₂_comp_perm_eq_perm_comp_forall₂]
    exact ⟨middle, hback, hperm.symm⟩
  exact ⟨middle', hmiddle, hreorders'⟩

theorem cons {s s' : StoredState} (hs : s.Reorders s')
    (h : Shuffled states states') :
    Shuffled (s :: states) (s' :: states') := by
  obtain ⟨middle, hperm, hreorders⟩ := h
  exact ⟨s :: middle, hperm.cons s, .cons hs hreorders⟩

theorem exists_of_mem (h : Shuffled states states') {s' : StoredState}
    (hs' : s' ∈ states') : ∃ s ∈ states, s.Reorders s' := by
  obtain ⟨middle, hperm, hreorders⟩ := h
  obtain ⟨s, hs, hstate⟩ := exists_left_of_forall₂ hreorders hs'
  exact ⟨s, hperm.mem_iff.mpr hs, hstate⟩

end Shuffled

end StoredState

-- ============================================================== loading

/-- The keys that the names of a stored table read as. -/
def StoredTable.keys (stored : StoredTable) : List StateKey :=
  stored.states.filterMap (StoredState.key? stored.startSymbol)

/-- What has to be right for a stored table to be read: all names, that no two
of them are the same, that the first one is the start state, and the texts of
all actions. -/
structure StoredTable.Loads (stored : StoredTable) : Prop where
  names : ∀ s ∈ stored.states, ∃ key, s.key? stored.startSymbol = some key
  nodup : stored.keys.Nodup
  first : stored.keys.head? = some .start
  cells : ∀ s ∈ stored.states, ∀ cell ∈ s.actions.entries,
    ∃ action, Action.ofText? stored.startSymbol stored.keys cell.2 = .ok action

/-- Whether a text reads as an action depends on the keys only for whether it
is the name of one of them. -/
theorem Action.exists_ofText?_iff {startSymbol : Symbol} {keys : List StateKey}
    {text : String} :
    (∃ action, ofText? startSymbol keys text = .ok action)
      ↔ (∃ action : Action Nat, reduceOfText? text.toList = some action)
        ∨ ∃ key ∈ keys, StateKey.ofText? startSymbol text = some key := by
  constructor
  · rintro ⟨action, haction⟩
    rcases of_ofText?_ok haction with
      hreduce | ⟨-, key, state, hkey, hstate, -⟩
    · exact Or.inl ⟨action, hreduce⟩
    · have hmem := List.isSome_idxOf?.mp (Option.isSome_of_eq_some hstate)
      exact Or.inr ⟨key, hmem, hkey⟩
  · intro h
    unfold ofText?
    cases hreduce : (reduceOfText? text.toList : Option (Action Nat)) with
    | some action => exact ⟨action, rfl⟩
    | none =>
        rcases h with ⟨action, haction⟩ | ⟨key, hkey, hname⟩
        · rw [hreduce] at haction
          cases haction
        · obtain ⟨state, hstate⟩ :=
            Option.isSome_iff_exists.mp (List.isSome_idxOf?.mpr hkey)
          rw [hname]
          dsimp only
          rw [hstate]
          exact ⟨.shift state, rfl⟩

namespace StoredTable

variable {stored stored' : StoredTable} {t t' : Table}

theorem filterMap_key?_of_reads {startSymbol : Symbol} {keys : List StateKey}
    {states : List StoredState} {entries : List (StateKey × TableRow)}
    (h : List.Forall₂ (StoredState.Reads startSymbol keys) states entries) :
    states.filterMap (StoredState.key? startSymbol)
      = entries.map Prod.fst := by
  induction h with
  | nil => rfl
  | @cons s _ _ _ hs _ ih =>
      have hkey : s.key? startSymbol = _ := hs.name
      rw [List.filterMap_cons_some hkey, List.map_cons, ih]

/-- The keys of a table are what its names read as. -/
theorem Describes.keys_eq (h : stored.Describes t) :
    stored.keys = t.states.keys := by
  unfold keys
  rw [h.startSymbol]
  exact filterMap_key?_of_reads h.states

/-- A row can be read if all its actions can. -/
theorem exists_row {startSymbol : Symbol} {keys : List StateKey}
    {s : StoredState}
    (h : ∀ cell ∈ s.actions.entries,
      ∃ action, Action.ofText? startSymbol keys cell.2 = .ok action) :
    ∃ row : TableRow, List.Forall₂ (ReadsCell startSymbol keys)
      s.actions.entries row.entries := by
  have hread : ∀ stored ∈ s.actions.entries,
      ∃ cell, ReadsCell startSymbol keys stored cell := by
    intro stored hstored
    obtain ⟨action, haction⟩ := h stored hstored
    exact ⟨(stored.1, action), rfl, haction⟩
  obtain ⟨cells, hcells⟩ := exists_forall₂ hread
  have hnodup := s.actions.nodup
  rw [symbols_eq hcells] at hnodup
  exact ⟨⟨cells, hnodup⟩, hcells⟩

/-- So can the states of a table, if all names can. -/
theorem exists_entries {startSymbol : Symbol} {keys : List StateKey}
    {states : List StoredState}
    (hnames : ∀ s ∈ states, ∃ key, s.key? startSymbol = some key)
    (hcells : ∀ s ∈ states, ∀ cell ∈ s.actions.entries,
      ∃ action, Action.ofText? startSymbol keys cell.2 = .ok action) :
    ∃ entries : List (StateKey × TableRow),
      List.Forall₂ (StoredState.Reads startSymbol keys) states entries := by
  refine exists_forall₂ fun s hs => ?_
  obtain ⟨key, hkey⟩ := hnames s hs
  obtain ⟨row, hrow⟩ := exists_row (hcells s hs)
  exact ⟨(key, row), hkey, hrow⟩

/-- A stored table is read exactly if everything in it is right. -/
theorem exists_toTable?_iff :
    (∃ t, stored.toTable? = .ok t) ↔ stored.Loads := by
  constructor
  · rintro ⟨t, ht⟩
    have h := toTable?_eq_ok_iff.mp ht
    refine ⟨fun s hs => ?_, ?_, ?_, fun s hs cell hcell => ?_⟩
    · obtain ⟨entry, -, hentry⟩ := exists_right_of_forall₂ h.states hs
      rw [h.startSymbol]
      exact ⟨entry.1, hentry.name⟩
    · rw [h.keys_eq]
      exact t.states.nodup
    · rw [h.keys_eq]
      exact h.first
    · obtain ⟨entry, -, hentry⟩ := exists_right_of_forall₂ h.states hs
      obtain ⟨read, -, hread⟩ := exists_right_of_forall₂ hentry.cells hcell
      rw [h.keys_eq, h.startSymbol]
      exact ⟨read.2, hread.2⟩
  · intro h
    obtain ⟨entries, hentries⟩ := exists_entries h.names h.cells
    have hkeys : entries.map Prod.fst = stored.keys :=
      (filterMap_key?_of_reads hentries).symm
    have hnodup : (entries.map Prod.fst).Nodup := by
      rw [hkeys]
      exact h.nodup
    refine ⟨⟨stored.startSymbol, ⟨entries, hnodup⟩⟩,
      toTable?_eq_ok_iff.mpr ⟨rfl, ?_, ?_⟩⟩
    · show (entries.map Prod.fst).head? = _
      rw [hkeys]
      exact h.first
    · show List.Forall₂
          (StoredState.Reads stored.startSymbol (entries.map Prod.fst)) _ _
      rw [hkeys]
      exact hentries

namespace Reorders

theorem symm (h : stored.Reorders stored') : stored'.Reorders stored where
  startSymbol := h.startSymbol.symm
  first := by
    have hfirst := h.first
    generalize stored.states.head? = s at hfirst ⊢
    generalize stored'.states.head? = s' at hfirst ⊢
    cases hfirst with
    | none => exact .none
    | some hs => exact .some hs.symm
  others := h.others.symm

theorem states (h : stored.Reorders stored') :
    StoredState.Shuffled stored.states stored'.states := by
  have hfirst := h.first
  have hothers := h.others
  generalize stored.states = states at hfirst hothers ⊢
  generalize stored'.states = states' at hfirst hothers ⊢
  match states, states', hfirst with
  | [], [], _ => exact ⟨[], .nil, .nil⟩
  | s :: _, s' :: _, .some hs => exact hothers.cons hs

/-- The keys are the same ones in another order. -/
theorem keys_perm (h : stored.Reorders stored') :
    stored.keys.Perm stored'.keys := by
  obtain ⟨middle, hperm, hreorders⟩ := h.states
  have hsame : ∀ {states states' : List StoredState},
      List.Forall₂ StoredState.Reorders states states' →
      states.filterMap (StoredState.key? stored.startSymbol)
        = states'.filterMap (StoredState.key? stored.startSymbol) := by
    intro states states' hstates
    induction hstates with
    | nil => rfl
    | cons hs _ ih =>
        rw [List.filterMap_cons, List.filterMap_cons, hs.key?_eq, ih]
  unfold keys
  rw [← h.startSymbol, ← hsame hreorders]
  exact hperm.filterMap _

/-- Whatever is right with a stored table is right in any order. -/
theorem loads (h : stored.Reorders stored') (hloads : stored.Loads) :
    stored'.Loads where
  names := by
    intro s' hs'
    obtain ⟨s, hs, hreorders⟩ := h.states.exists_of_mem hs'
    rw [← h.startSymbol, ← hreorders.key?_eq]
    exact hloads.names s hs
  nodup := h.keys_perm.nodup_iff.mp hloads.nodup
  first := by
    have hfirst := h.first
    have hnames := hloads.names
    have hstart := hloads.first
    unfold keys at hstart ⊢
    rw [← h.startSymbol]
    generalize stored.states = states at hfirst hnames hstart
    generalize stored'.states = states' at hfirst ⊢
    match states, states', hfirst with
    | s :: _, s' :: _, .some hs =>
        obtain ⟨key, hkey⟩ := hnames s List.mem_cons_self
        rw [List.filterMap_cons_some hkey] at hstart
        rw [hs.key?_eq] at hkey
        rw [List.filterMap_cons_some hkey]
        exact hstart
  cells := by
    intro s' hs' cell hcell
    obtain ⟨s, hs, hreorders⟩ := h.states.exists_of_mem hs'
    have hread := hloads.cells s hs cell (hreorders.2.mem_iff.mpr hcell)
    rw [Action.exists_ofText?_iff] at hread ⊢
    rw [← h.startSymbol]
    refine hread.imp_right ?_
    rintro ⟨key, hkey, hname⟩
    exact ⟨key, h.keys_perm.mem_iff.mp hkey, hname⟩

end Reorders

end StoredTable

-- ============================================================== running

/-- Two states, each of a table of its own, have the same key. -/
def Table.SameKey (t t' : Table) (state state' : Nat) : Prop :=
  ∃ key, t.key? state = some key ∧ t'.key? state' = some key

/-- Two outcomes are the same but for the numbers of the states on the stack,
which have the same names. -/
structure Outcome.Same (t t' : Table) (o o' : Outcome Nat) : Prop where
  config : o.config.Agrees
    (fun state state' => t.stateName state = t'.stateName state') o'.config
  result : o.result = o'.result
  warning : o.warning = o'.warning

/-- The engines over two tables do the same with some tokens: they start with
the same configuration, and step after step, also after one that fails, they
have the same outcome. -/
structure RunsSame (t t' : Table) (g : Grammar) (tokens : List Token) :
    Prop where
  start : (Configuration.start (t.parseTable g) tokens).Agrees
    (fun state state' => t.stateName state = t'.stateName state')
    (Configuration.start (t'.parseTable g) tokens)
  steps : ∀ (keepGoing : Bool) (limit : Nat), List.Forall₂ (Outcome.Same t t')
    ((Configuration.start (t.parseTable g) tokens).trace
      (t.parseTable g) keepGoing limit)
    ((Configuration.start (t'.parseTable g) tokens).trace
      (t'.parseTable g) keepGoing limit)

namespace StoredTable.Reorders

variable {stored stored' : StoredTable} {t t' : Table}

theorem startSymbol_eq (h : stored.Reorders stored') (ht : stored.Describes t)
    (ht' : stored'.Describes t') : t.startSymbol = t'.startSymbol :=
  ht.startSymbol.symm.trans (h.startSymbol.trans ht'.startSymbol)

/-- States with the same key have been read from the same name and
actions. -/
theorem exists_reorders (h : stored.Reorders stored') (ht : stored.Describes t)
    (ht' : stored'.Describes t') {state state' : Nat}
    (hsame : t.SameKey t' state state') :
    ∃ s s', stored.states[state]? = some s ∧ stored'.states[state']? = some s'
      ∧ s.Reorders s' := by
  obtain ⟨key, hkey, hkey'⟩ := hsame
  rw [ht'.key?_eq] at hkey'
  obtain ⟨s', hs', hname'⟩ := Option.bind_eq_some_iff.mp hkey'
  obtain ⟨s, hs, hreorders⟩ :=
    h.states.exists_of_mem (List.mem_of_getElem? hs')
  obtain ⟨i, hi⟩ := List.getElem?_of_mem hs
  have hfound : t.key? i = some key := by
    rw [ht.key?_eq, hi, h.startSymbol_eq ht ht', Option.bind_some, hreorders.1]
    exact hname'
  rw [Table.key?_unique hfound hkey] at hi
  exact ⟨s, s', hi, hs', hreorders⟩

/-- One text reads as the same action of either table. -/
theorem agrees_of_ofText? (hstart : t.startSymbol = t'.startSymbol)
    {text : String} {action action' : Action Nat}
    (h : Action.ofText? t.startSymbol t.states.keys text = .ok action)
    (h' : Action.ofText? t'.startSymbol t'.states.keys text = .ok action') :
    Action.Agrees (t.SameKey t') id action action' := by
  rcases Action.of_ofText?_ok h with
    hreduce | ⟨hnone, key, state, hkey, hstate, rfl⟩
  · obtain ⟨rule, name, rfl, -⟩ := Action.reduceOfText?_eq_some hreduce
    rcases Action.of_ofText?_ok h' with hreduce' | ⟨hnone, -⟩
    · rw [hreduce] at hreduce'
      cases hreduce'
      exact .reduce rule name
    · rw [hreduce] at hnone
      cases hnone
  · rcases Action.of_ofText?_ok h' with
      hreduce' | ⟨-, key', state', hkey', hstate', rfl⟩
    · rw [hnone] at hreduce'
      cases hreduce'
    · rw [hstart, hkey'] at hkey
      cases hkey
      exact .shift ⟨key, Table.key?_of_idxOf? hstate,
        Table.key?_of_idxOf? hstate'⟩

/-- Having the same key is a simulation, whatever the rules are. -/
theorem simulates (h : stored.Reorders stored') (ht : stored.Describes t)
    (ht' : stored'.Describes t') (g : Grammar) :
    Simulates (t.parseTable g) (t'.parseTable g) (t.SameKey t') id where
  startSymbol := h.startSymbol_eq ht ht'
  initial := ⟨.start, ht.key?_initial, ht'.key?_initial⟩
  action := by
    intro state state' hsame symbol
    obtain ⟨s, s', hs, hs', hreorders⟩ := h.exists_reorders ht ht' hsame
    have hrel := ht.action?_rel hs symbol
    have hrel' := ht'.action?_rel hs' symbol
    rw [← hreorders.lookup_eq] at hrel'
    show Option.Rel _ (t.action? state symbol) (t'.action? state' symbol)
    generalize s.actions.lookup symbol = text at hrel hrel'
    generalize t.action? state symbol = action at hrel ⊢
    generalize t'.action? state' symbol = action' at hrel' ⊢
    cases hrel with
    | none =>
        cases hrel' with
        | none => exact .none
    | some hread =>
        cases hrel' with
        | some hread' =>
            exact .some
              (agrees_of_ofText? (h.startSymbol_eq ht ht') hread hread')
  rule := fun _ => rfl

theorem stateName_eq (hstart : t.startSymbol = t'.startSymbol)
    {state state' : Nat} (h : t.SameKey t' state state') :
    t.stateName state = t'.stateName state' := by
  obtain ⟨key, hkey, hkey'⟩ := h
  unfold Table.stateName
  rw [hkey, hkey', hstart]

end StoredTable.Reorders

/-- Outcomes that agree without renaming rules, in states with the same names,
are the same. -/
theorem Outcome.Agrees.same {t t' : Table} {g : Grammar} {S : Nat → Nat → Prop}
    (hS : ∀ state state', S state state' →
      t.stateName state = t'.stateName state')
    {o o' : Outcome Nat}
    (h : o.Agrees (t.parseTable g) (t'.parseTable g) S id o') :
    o.Same t t' o' where
  config := h.config.mono hS
  result := by
    have hresult := h.result
    generalize o.result = result at hresult ⊢
    generalize o'.result = result' at hresult ⊢
    cases hresult with
    | ok step => rw [Step.rename_id]
    | error herror =>
        cases herror with
        | unexpectedToken hstate symbol position =>
            have hname : (t.parseTable g).stateName _
                = (t'.parseTable g).stateName _ :=
              hS _ _ hstate
            rw [hname]
        | table fault => rw [TableFault.rename_id]
        | synthesis error => rw [SynthesisError.rename_id]
  warning := by
    rw [h.warning, Warning.rename_id, Option.map_id]
    rfl

/-- A stored table does not depend on the numbering of states. If the first
state stays the first and everything else is put into another order, then the
table is read or it is not, as before; and if it is read, the engines over the
two tables have the same outcomes, step after step, for whatever grammar and
tokens. -/
theorem StoredTable.reordered_alike {stored stored' : StoredTable}
    (h : stored.Reorders stored') :
    ((∃ t, stored.toTable? = .ok t) ↔ ∃ t', stored'.toTable? = .ok t')
    ∧ ∀ t t', stored.toTable? = .ok t → stored'.toTable? = .ok t' →
      ∀ (g : Grammar) (tokens : List Token), RunsSame t t' g tokens := by
  constructor
  · rw [exists_toTable?_iff, exists_toTable?_iff]
    exact ⟨h.loads, h.symm.loads⟩
  · intro t t' ht ht' g tokens
    have hdescribes := toTable?_eq_ok_iff.mp ht
    have hdescribes' := toTable?_eq_ok_iff.mp ht'
    have hsimulates := h.simulates hdescribes hdescribes' g
    have hruns := hsimulates.runs tokens
    have hnames : ∀ state state', t.SameKey t' state state' →
        t.stateName state = t'.stateName state' :=
      fun _ _ =>
        Reorders.stateName_eq (h.startSymbol_eq hdescribes hdescribes')
    refine ⟨hruns.start.mono hnames, fun keepGoing limit => ?_⟩
    exact (hruns.steps keepGoing limit).imp fun _ _ ho => ho.same hnames

/-- A table for the two rules of a choice between `a` and `b`. -/
def StoredTable.choice : StoredTable where
  startSymbol := "<S>"
  states :=
    [⟨"<S>", ⟨[("a", "a:0:1"), ("b", "b:1:1")], by decide⟩⟩,
      ⟨"a:0:1", ⟨[("#", "R0")], by decide⟩⟩,
      ⟨"b:1:1", ⟨[("#", "R1")], by decide⟩⟩]

/-- The same table with the second alternative first. -/
def StoredTable.choiceReversed : StoredTable where
  startSymbol := "<S>"
  states :=
    [⟨"<S>", ⟨[("b", "b:1:1"), ("a", "a:0:1")], by decide⟩⟩,
      ⟨"b:1:1", ⟨[("#", "R1")], by decide⟩⟩,
      ⟨"a:0:1", ⟨[("#", "R0")], by decide⟩⟩]

/-- A shift on `a` is into another state by number, and the engines do not
show it. -/
theorem StoredTable.reordered_alike_choice :
    ∃ t t', choice.toTable? = .ok t ∧ choiceReversed.toTable? = .ok t'
      ∧ t.action? 0 "a" = some (.shift 1) ∧ t'.action? 0 "a" = some (.shift 2)
      ∧ ∀ (g : Grammar) (tokens : List Token), RunsSame t t' g tokens := by
  have hreorders : choice.Reorders choiceReversed :=
    { startSymbol := rfl
      first := .some ⟨rfl, List.Perm.swap _ _ _⟩
      others := ⟨_, List.Perm.swap _ _ _,
        .cons ⟨rfl, .refl _⟩ (.cons ⟨rfl, .refl _⟩ .nil)⟩ }
  have hshift : (match choice.toTable? with
      | .error _ => false
      | .ok t =>
          decide (t.action? 0 "a" = some (.shift 1))) = true := by
          decide +kernel
  have hshift' : (match choiceReversed.toTable? with
      | .error _ => false
      | .ok t =>
          decide (t.action? 0 "a" = some (.shift 2))) = true := by
          decide +kernel
  cases ht : choice.toTable? with
  | error e =>
      rw [ht] at hshift
      cases hshift
  | ok t =>
      obtain ⟨hloads, halike⟩ := reordered_alike hreorders
      obtain ⟨t', ht'⟩ := hloads.mp ⟨t, ht⟩
      rw [ht] at hshift
      rw [ht'] at hshift'
      exact ⟨t, t', rfl, ht', of_decide_eq_true hshift,
        of_decide_eq_true hshift', halike t t' ht ht'⟩

end ShiftReduce
