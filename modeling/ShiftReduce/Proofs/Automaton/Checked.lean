/-
The build without look-ups that fail.

A build looks up rows and cells by state and symbol, rules by number, FOLLOW
sets by nonterminal, terminals by number and states by key, and where it finds
nothing it goes on: with an empty row, with no reduction, with the number of
the start state. It also takes the first of several targets of a cell. The
checked build does nothing of the kind. It has no result if a move leaves from
a state without a row, if a cell that is to be merged or one of the rows that
are to be united is missing, if the search for states comes to one without a
row or ends before all are served, if a last item has no rule, its left-hand
side no FOLLOW set or an element of that set no name, or if in the end a cell
has several targets, a target that has no number or a rule that does not
exist.

It always has a result, and it is that of the build. Rows are only ever asked
for states that have been entered, and that is an invariant of merging: what a
cell points to is entered, and so are the parts of which a union is made. No
cell is ambiguous when merging has ended, and the states that can be reached
are closed under targets.
-/
import ShiftReduce.Proofs.Analysis.Checked
import ShiftReduce.Proofs.Automaton.States

namespace ShiftReduce

-- =============================================================== rows

namespace Rows

variable {g : Grammar} {rows : Rows}

/-- Add a move from a state, which must have a row, to an item and its left
corners. -/
def checkedAddMove (g : Grammar) (rows : Rows) (source : StateKey)
    (target : Item) : Option Rows :=
  rows.checkedUpdate source fun row =>
    (g.leftCorners target).foldl
      (fun row item => row.addShift item.symbol (.item item)) row

/-- The rows of the graph of items. -/
def checkedOfGrammar (g : Grammar) : Option Rows :=
  g.moves.foldlM (fun rows move => rows.checkedAddMove g move.1 move.2)
    (blank g.states)

/-- The row with the shifts of several states, all of which must have rows. -/
def checkedUnionRow (rows : Rows) (keys : List StateKey) : Option Row :=
  keys.foldlM
    (fun row key => (rows.lookup key).map fun source =>
      source.entries.foldl (fun row c => row.addCell c.1 c.2) row)
    OrderedMap.empty

/-- Merge the targets of a cell, which must be there, into one state. -/
def checkedMergeCell (rows : Rows) (place : StateKey × Symbol) :
    Option Rows := do
  let row ← rows.lookup place.1
  let cell ← row.lookup place.2
  let union := StateKey.union cell.shifts
  let redirected : Rows :=
    rows.insert place.1 (row.insert place.2 { cell with shifts := [union] })
  if redirected.contains union then some redirected
  else (redirected.checkedUnionRow cell.shifts).map (redirected.insert union)

/-- One round of merging. -/
def checkedMergeRound (rows : Rows) : Option Rows :=
  rows.ambiguous.foldlM checkedMergeCell rows

/-- The rows after each round of merging, at most one round more than the
limit. -/
def checkedMergeRounds : (limit : Nat) → Rows → Option (List Rows)
  | limit, rows =>
    if rows.ambiguous.isEmpty then some []
    else do
      let next ← rows.checkedMergeRound
      match limit with
      | 0 => return [next]
      | limit + 1 => return next :: (← checkedMergeRounds limit next)

/-- Add the targets of the states from a place in the set on. Each of these
states must have a row, and the limit must not be used up before all are
served. -/
def checkedExplore (rows : Rows) :
    (limit place : Nat) → OrderedSet StateKey → Option (OrderedSet StateKey)
  | limit, place, states =>
    match states.elements[place]?, limit with
    | none, _ => some states
    | some _, 0 => none
    | some key, limit + 1 => do
      let row ← rows.lookup key
      rows.checkedExplore limit (place + 1)
        (states.insertAll (row.values.flatMap Cell.shifts))

/-- The states that can be reached from the start state. -/
def checkedReachable (rows : Rows) : Option (OrderedSet StateKey) :=
  rows.checkedExplore rows.size 0 (OrderedSet.ofList [.start])

-- =========================================================== the graph

theorem lookup_eq_some_row {key : StateKey} (h : key ∈ rows.keys) :
    rows.lookup key = some (rows.row key) := by
  obtain ⟨r, hr⟩ := rows.mem_keys_iff.mp h
  unfold row
  rw [hr, Option.getD_some]

theorem lookup_row_of_shifts_ne_nil {key : StateKey} {symbol : Symbol}
    (h : (rows.cell key symbol).shifts ≠ []) :
    (rows.row key).lookup symbol = some (rows.cell key symbol) := by
  unfold cell at h ⊢
  cases hcell : (rows.row key).lookup symbol with
  | none =>
      rw [hcell] at h
      exact absurd rfl h
  | some c => rfl

theorem checkedOfGrammar_eq (g : Grammar) :
    checkedOfGrammar g = some (ofGrammar g) := by
  rw [ofGrammar_eq]
  refine And.left (foldlM_eq_some
    (P := fun rows : Rows => rows.keys = g.states) ?_
    (keys_blank g.nodup_states))
  rintro rows hkeys ⟨source, target⟩ hmove
  have hsource : source ∈ rows.keys := by
    rw [g.moves_eq] at hmove
    obtain ⟨piece, hpiece, hmove⟩ := List.mem_flatMap.mp hmove
    rw [hkeys, g.states_eq]
    exact List.mem_flatMap.mpr
      ⟨piece, hpiece, Grammar.mem_states_of_mem_moves hpiece hmove⟩
  constructor
  · exact OrderedMap.checkedUpdate_eq hsource fun row =>
      (g.leftCorners target).foldl
        (fun row item => Row.addShift row item.symbol (.item item))
        (row.getD OrderedMap.empty)
  · show (rows.update source _).keys = g.states
    rw [OrderedMap.keys_update, if_pos hsource, hkeys]

-- ============================================================= merging

theorem checkedUnionRow_eq {keys : List StateKey}
    (h : ∀ key ∈ keys, key ∈ rows.keys) :
    rows.checkedUnionRow keys = some (rows.unionRow keys) := by
  refine And.left (foldlM_eq_some (P := fun _ => True) ?_ trivial)
  intro row _ key hkey
  rw [lookup_eq_some_row (h key hkey)]
  exact ⟨rfl, trivial⟩

/-- A cell with targets is there, and so are the rows of its targets. -/
theorem checkedMergeCell_eq (h : Faithful g rows) {place : StateKey × Symbol}
    (hlive : (rows.cell place.1 place.2).shifts ≠ []) :
    rows.checkedMergeCell place = some (rows.mergeCell place) := by
  obtain ⟨key, symbol⟩ := place
  have hrow := lookup_eq_some_row (mem_keys_of_shifts_ne_nil hlive)
  have hcell := lookup_row_of_shifts_ne_nil hlive
  have hredirected : rows.insert key ((rows.row key).insert symbol
      { rows.cell key symbol with shifts := [rows.merger key symbol] })
        = rows.redirected key symbol := by
    unfold redirected redirect
    rw [OrderedMap.update_eq_insert rows, hrow, Option.getD_some,
      OrderedMap.update_eq_insert (rows.row key), hcell, Option.getD_some]
  have hchecked : rows.checkedMergeCell (key, symbol)
      = if (rows.redirected key symbol).contains (rows.merger key symbol)
        then some (rows.redirected key symbol)
        else ((rows.redirected key symbol).checkedUnionRow
          (rows.cell key symbol).shifts).map
          ((rows.redirected key symbol).insert (rows.merger key symbol)) := by
    rw [← hredirected]
    unfold checkedMergeCell
    rw [hrow, Option.bind_eq_bind, Option.bind_some, hcell]
    rfl
  have hparts : ∀ part ∈ (rows.cell key symbol).shifts,
      part ∈ (rows.redirected key symbol).keys := by
    intro part hpart
    exact (mem_keys_redirected hlive).mpr (h.entered key symbol part hpart).1
  rw [hchecked, mergeCell_eq, checkedUnionRow_eq hparts]
  split <;> rfl

theorem checkedMergeRound_eq (h : Faithful g rows) :
    rows.checkedMergeRound = some rows.mergeRound := by
  refine And.left (foldlM_eq_some (P := fun other : Rows => Faithful g other
    ∧ ∀ place ∈ rows.ambiguous,
      (other.cell place.1 place.2).shifts ≠ []) ?_ ?_)
  · rintro other ⟨hfaithful, hlive⟩ place hplace
    refine ⟨checkedMergeCell_eq hfaithful (hlive place hplace),
      hfaithful.mergeCell (hlive place hplace), ?_⟩
    intro later hlater
    exact shifts_mergeCell_ne_nil (hlive later hlater)
  · exact ⟨h, shifts_ne_nil_of_ambiguous⟩

theorem checkedMergeRounds_eq (h : Faithful g rows) (limit : Nat) :
    checkedMergeRounds limit rows = some (mergeRounds limit rows) := by
  induction limit generalizing rows with
  | zero =>
      unfold checkedMergeRounds mergeRounds
      by_cases hclear : rows.ambiguous.isEmpty
      · rw [if_pos hclear, if_pos hclear]
      · rw [if_neg hclear, if_neg hclear, checkedMergeRound_eq h]
        rfl
  | succ limit ih =>
      unfold checkedMergeRounds mergeRounds
      by_cases hclear : rows.ambiguous.isEmpty
      · rw [if_pos hclear, if_pos hclear]
      · rw [if_neg hclear, if_neg hclear, checkedMergeRound_eq h]
        show ((checkedMergeRounds limit rows.mergeRound).bind fun rounds =>
            some _) = _
        rw [ih h.mergeRound]
        rfl

-- ============================================================ reaching

/-- States that have been entered have rows, and there are no more of them
than rows. -/
theorem checkedExplore_eq
    (hrows : ∀ key, ∀ target ∈ rows.targets key, target ∈ rows.keys)
    (limit place : Nat) (states : OrderedSet StateKey)
    (hstates : ∀ key ∈ states, key ∈ rows.keys)
    (henough : rows.size ≤ limit + place) :
    rows.checkedExplore limit place states
      = some (rows.explore limit place states) := by
  induction limit generalizing place states with
  | zero =>
      have hfew := length_le_size hstates
      have hserved : states.elements[place]? = none :=
        List.getElem?_eq_none_iff.mpr (by omega)
      unfold checkedExplore explore
      rw [hserved]
  | succ limit ih =>
      unfold checkedExplore explore
      cases hplace : states.elements[place]? with
      | none => rfl
      | some key =>
          have hkey := hstates key (OrderedSet.mem_of_position hplace)
          dsimp only
          rw [lookup_eq_some_row hkey]
          apply ih (place + 1) _ _ (by omega)
          intro other hother
          rcases OrderedSet.mem_insertAll.mp hother with hother | hother
          · exact hstates other hother
          · exact hrows key other hother

theorem checkedReachable_eq (h : Faithful g rows) :
    rows.checkedReachable = some rows.reachable := by
  apply checkedExplore_eq h.mem_keys_of_mem_targets _ _ _ _ (Nat.le_refl _)
  intro key hkey
  rw [List.mem_singleton.mp (OrderedSet.mem_ofList.mp hkey)]
  exact h.start

end Rows

-- ========================================================== reductions

/-- The names of the elements of a set, all of which must be numbers of
terminals. -/
def TerminalSet.checkedNames (terminals : OrderedSet Symbol)
    (s : TerminalSet) : Option (List Symbol) :=
  s.toList.mapM (TerminalId.name? terminals)

/-- The reductions for which an item is responsible. Its rule must exist,
and if it is the last item, the left-hand side must have a FOLLOW set. -/
def Item.checkedReductions (g : Grammar) (follow : FollowSets) (item : Item) :
    Option (List (Nat × Symbol)) := do
  let rule ← g.rule? item.rule
  if item.position ≠ rule.right.length then return []
  else
    let set ← follow.get? rule.left
    let names ← set.checkedNames g.terminals
    return names.map fun symbol => (item.rule, symbol)

/-- The rules by which a state may reduce, each with the symbols on which
it may. -/
def StateKey.checkedReductions (g : Grammar) (follow : FollowSets)
    (key : StateKey) : Option (List (Nat × Symbol)) :=
  (key.items.mapM (Item.checkedReductions g follow)).map List.flatten

/-- The row of a state, which must be there, with its reductions. -/
def Filling.checkedOfState (g : Grammar) (follow : FollowSets) (rows : Rows)
    (key : StateKey) : Option Filling := do
  let row ← rows.lookup key
  let reductions ← key.checkedReductions g follow
  let filling := reductions.foldl (enter key) ⟨row, []⟩
  return { filling with conflicts := filling.conflicts.reverse }

/-- The action of a cell, if it has one. There must not be several targets,
the target must be among the states, and the rule must exist. -/
def Cell.checkedAction (g : Grammar) (states : OrderedSet StateKey)
    (cell : Cell) : Option (Option (Action Nat)) :=
  match cell.shifts, cell.reduce with
  | [], none => some none
  | [], some index =>
      (g.rule? index).map fun rule => some (.reduce index rule.action)
  | [target], _ =>
      (states.indexOf? target).map fun state => some (.shift state)
  | _ :: _ :: _, _ => none

/-- The table with the given states and rows; its first state must be the
start state. -/
def Table.checkedOfFillings (g : Grammar) (states : OrderedSet StateKey)
    (fillings : List Filling) : Option Table := do
  let rows ← fillings.mapM fun filling =>
    filling.row.checkedFilterMapValues (Cell.checkedAction g states)
  if states.elements[0]? = some .start then
    return {
      startSymbol := g.startSymbol
      states := OrderedMap.zip states rows }
  else none

section

variable {g : Grammar} {rows : Rows} {key : StateKey}

/-- The rules of the items of a state exist. -/
theorem Rows.Faithful.exists_rule (h : rows.Faithful g)
    (hclear : rows.ambiguous = []) (hkey : key ∈ rows.reachable) {i : Item}
    (hi : i ∈ key.items) : ∃ rule, g.rule? i.rule = some rule := by
  obtain ⟨-, rfl | ⟨symbol, word, hnames⟩⟩ :=
    h.of_mem_reachable hclear key hkey
  · cases hi
  · obtain ⟨last, hall⟩ := g.exists_symbol_of_reached symbol word
    obtain ⟨-, index, position, hedge⟩ := hall i (hnames.mem_iff.mpr hi)
    obtain ⟨rule, -, hrule, -, -⟩ := hedge.isItem
    exact ⟨rule, hrule⟩

theorem StateKey.checkedReductions_eq (h : rows.Faithful g)
    (hclear : rows.ambiguous = []) (hkey : key ∈ rows.reachable) :
    key.checkedReductions g (FollowSets.ofGrammar g g.first)
      = some (key.reductions g (FollowSets.ofGrammar g g.first)
        g.terminals) := by
  unfold checkedReductions reductions
  rw [List.flatMap_def, ← Option.map_some]
  congr 1
  apply mapM_eq_some
  intro i hi
  obtain ⟨rule, hrule⟩ := h.exists_rule hclear hkey hi
  unfold Item.checkedReductions
  rw [hrule, Option.bind_eq_bind, Option.bind_some]
  dsimp only
  by_cases hlast : i.position ≠ rule.right.length
  · rw [if_pos hlast, if_pos hlast]
    rfl
  · have hleft : rule.left ∈ g.nonterminals :=
      Grammar.mem_nonterminals_iff.mpr
        (Or.inl ⟨rule, List.mem_of_getElem? hrule, rfl⟩)
    obtain ⟨set, hset⟩ := FollowSets.exists_get?_ofGrammar hleft
    have hnames : set.checkedNames g.terminals
        = some (set.names g.terminals) :=
      mapM_eq_some_filterMap (FollowSets.exists_terminal_of_get? hset)
    rw [if_neg hlast, if_neg hlast, hset, Option.bind_eq_bind,
      Option.bind_some, hnames]
    rfl

theorem Filling.checkedOfState_eq (h : rows.Faithful g)
    (hclear : rows.ambiguous = []) (hkey : key ∈ rows.reachable) :
    checkedOfState g (FollowSets.ofGrammar g g.first) rows key
      = some (ofState g (FollowSets.ofGrammar g g.first)
        g.terminals rows key) := by
  have hentered := (h.of_mem_reachable hclear key hkey).1
  unfold checkedOfState
  rw [Rows.lookup_eq_some_row hentered,
    StateKey.checkedReductions_eq h hclear hkey]
  rfl

-- =========================================================== the table

/-- In a finished row of a state every cell has a known action or none. -/
theorem Cell.checkedAction_eq {follow : FollowSets} (h : rows.Faithful g)
    (hclear : rows.ambiguous = []) (hkey : key ∈ rows.reachable) {cell : Cell}
    (hcell : cell
      ∈ (Filling.ofState g follow g.terminals rows key).row.values) :
    cell.checkedAction g rows.reachable
      = some (cell.action? g rows.reachable) := by
  obtain ⟨symbol, hlookup⟩ := (OrderedMap.mem_values_iff _).mp hcell
  have hread : Row.cell (Filling.ofState g follow g.terminals rows key).row
      symbol = cell := by
    unfold Row.cell
    rw [hlookup, Option.getD_some]
  have hshifts : cell.shifts = (rows.cell key symbol).shifts := by
    rw [← hread]
    exact Filling.shifts_ofState symbol
  unfold checkedAction action?
  cases htargets : cell.shifts with
  | nil =>
      cases hreduce : cell.reduce with
      | none => rfl
      | some index =>
          rw [← hread] at hreduce
          have hmem :=
            Filling.mem_reductions_of_reduce (h.unreduced key symbol) hreduce
          obtain ⟨-, -, -, rule, hrule, -⟩ :=
            StateKey.mem_reductions_iff.mp hmem
          dsimp only
          rw [hrule]
          rfl
  | cons target others =>
      have hmem : target ∈ (rows.cell key symbol).shifts := by
        rw [← hshifts, htargets]
        exact List.mem_cons_self
      -- the cell is not ambiguous, and its target can be reached as well
      have honly := Rows.shifts_eq_singleton hclear hmem
      rw [← hshifts, htargets, List.cons.injEq] at honly
      obtain ⟨-, rfl⟩ := honly
      have hreached := Rows.targets_subset_reachable h.start
        h.mem_keys_of_mem_targets key hkey
        target (Rows.mem_targets_iff.mpr ⟨symbol, hmem⟩)
      obtain ⟨n, hn⟩ := OrderedSet.exists_position hreached
      dsimp only
      rw [(OrderedSet.indexOf?_eq_some_iff _).mpr hn]
      rfl

/-- A target without a number is not taken for the start state. -/
example (g : Grammar) :
    Cell.checkedAction g OrderedSet.empty ⟨[.start], none⟩ = none :=
  rfl

theorem Table.checkedOfFillings_eq {follow : FollowSets} (h : rows.Faithful g)
    (hclear : rows.ambiguous = []) :
    checkedOfFillings g rows.reachable (g.fillings follow rows rows.reachable)
      = some (ofFillings g rows.reachable
        (g.fillings follow rows rows.reachable)) := by
  have hrows : ∀ filling ∈ g.fillings follow rows rows.reachable,
      filling.row.checkedFilterMapValues (Cell.checkedAction g rows.reachable)
        = some (filling.row.filterMapValues
          (Cell.action? g rows.reachable)) := by
    intro filling hfilling
    obtain ⟨key, hkey, rfl⟩ := List.mem_map.mp hfilling
    apply OrderedMap.checkedFilterMapValues_eq
    intro cell hcell
    exact Cell.checkedAction_eq h hclear hkey hcell
  unfold checkedOfFillings
  rw [mapM_eq_some hrows, Option.bind_eq_bind, Option.bind_some,
    if_pos rows.reachable_start]
  rfl

end

-- =========================================================== the build

namespace Grammar

/-- Build the action table of a grammar from its FOLLOW sets. -/
def checkedBuildWith (g : Grammar) (follow : FollowSets) (limit : Nat) :
    Option BuildReport := do
  let items ← Rows.checkedOfGrammar g
  let rounds ← items.checkedMergeRounds limit
  let log := Rows.mergeLog 1 items rounds
  if limit < rounds.length then
    return {
      result := .error (.nonTermination limit)
      conflicts := []
      log := log }
  else
    let rows := items.afterRounds rounds
    let states ← rows.checkedReachable
    let fillings ← states.elements.mapM (Filling.checkedOfState g follow rows)
    let conflicts := fillings.flatMap Filling.conflicts
    let table ← Table.checkedOfFillings g states fillings
    return {
      result := .ok table
      conflicts := conflicts
      log := log ++ conflicts.map (.conflict g.startSymbol)
        ++ [.finished table.size] }

/-- Find the FIRST and FOLLOW sets of a grammar and build its action table,
all without look-ups that may fail. -/
def checkedBuild (g : Grammar) (limit : Nat) : Option BuildReport := do
  let first ← FirstSets.checkedOfGrammar g
  let follow ← FollowSets.checkedOfGrammar g first
  g.checkedBuildWith follow limit

theorem checkedBuildWith_eq (g : Grammar) (limit : Nat) :
    g.checkedBuildWith (FollowSets.ofGrammar g g.first) limit
      = some (g.buildWith (FollowSets.ofGrammar g g.first) limit) := by
  have hgraph := Rows.faithful_ofGrammar g
  unfold checkedBuildWith buildWith
  rw [Rows.checkedOfGrammar_eq, Option.bind_eq_bind, Option.bind_some,
    Rows.checkedMergeRounds_eq hgraph, Option.bind_eq_bind, Option.bind_some]
  dsimp only
  by_cases hlimit : limit < ((Rows.ofGrammar g).mergeRounds limit).length
  · rw [if_pos hlimit, if_pos hlimit]
    rfl
  · obtain ⟨hfaithful, hdone⟩ := hgraph.afterRounds limit
    have hclear := hdone (Nat.not_lt.mp hlimit)
    have hfillings := mapM_eq_some fun _ =>
      Filling.checkedOfState_eq hfaithful hclear
    rw [if_neg hlimit, if_neg hlimit, Rows.checkedReachable_eq hfaithful,
      Option.bind_eq_bind, Option.bind_some, hfillings,
      Option.bind_eq_bind, Option.bind_some]
    show ((Table.checkedOfFillings g _ (g.fillings _ _ _)).bind fun table =>
        some _) = _
    rw [Table.checkedOfFillings_eq hfaithful hclear]
    rfl

/-- The build never falls back on a value of its own: for every grammar and
every limit on the rounds of merging, the checked build has a result, and it
is the same table or the same error, with the same conflicts and the same
log. -/
theorem checkedBuild_eq (g : Grammar) (limit : Nat) :
    g.checkedBuild limit = some (g.build limit) := by
  unfold checkedBuild build
  rw [FirstSets.checkedOfGrammar_eq, Option.bind_eq_bind, Option.bind_some,
    FollowSets.checkedOfGrammar_eq, Option.bind_eq_bind, Option.bind_some]
  exact checkedBuildWith_eq g limit

end Grammar

end ShiftReduce
