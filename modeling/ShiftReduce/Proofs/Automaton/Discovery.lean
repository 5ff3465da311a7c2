/-
The order of discovery.

States are numbered as they are discovered, that is while the targets of the
states are read, in the order of the states themselves. What comes out is the
only numbering with this property: the states are the first occurrences among
the start state and all targets of the states, and a table whose states are
numbered by place lists them as 0, 1, 2 and so on.

That the table still shows it, although it is read off rows into which the
reductions have been entered, is because nothing is entered in front of a
shift. Every cell of a row has a target before the reductions come: a move
creates a cell only for its own target, a cell that is redirected has one, and
the cells of a union are those of its parts. A reduction leaves such a cell
alone or goes behind all of them.
-/
import Mathlib.Data.List.Induction
import ShiftReduce.Proofs.Automaton.Finished

namespace ShiftReduce

-- =================================================== first occurrences

section FirstOccurrences

variable {α β : Type} [DecidableEq α] [DecidableEq β]

private theorem eraseDups_concat (as : List α) (a : α) :
    (as ++ [a]).eraseDups = if a ∈ as then as.eraseDups
      else as.eraseDups ++ [a] := by
  rw [List.eraseDups_append]
  by_cases h : a ∈ as <;> simp [List.removeAll, h, List.eraseDups_cons]

/-- A set that is filled from a list has the first occurrences in it. -/
theorem OrderedSet.elements_ofList (as : List α) :
    (ofList as).elements = as.eraseDups := by
  induction as using List.reverseRecOn with
  | nil => rfl
  | append_singleton as a ih =>
      have hstep : ofList (as ++ [a]) = (ofList as).insert a := by
        unfold ofList insertAll
        rw [List.foldl_append]
        rfl
      rw [hstep, elements_insert, eraseDups_concat, ih]
      simp only [mem_ofList]

/-- Where a function tells all elements of a list apart, the first occurrences
of its values are the values of the first occurrences. -/
theorem eraseDups_map {f : α → β} {as : List α}
    (hf : ∀ a ∈ as, ∀ b ∈ as, f a = f b → a = b) :
    (as.map f).eraseDups = as.eraseDups.map f := by
  induction as using List.reverseRecOn with
  | nil => rfl
  | append_singleton as a ih =>
      have hmem : f a ∈ as.map f ↔ a ∈ as := by
        refine ⟨fun h => ?_, List.mem_map_of_mem⟩
        obtain ⟨b, hb, hfb⟩ := List.mem_map.mp h
        have hab : b = a := hf b (by simp [hb]) a (by simp) hfb
        rwa [← hab]
      have hinit := ih fun b hb c hc => hf b (by simp [hb]) c (by simp [hc])
      rw [List.map_append, List.map_singleton, eraseDups_concat,
        eraseDups_concat, hinit]
      simp only [hmem]
      split
      · rfl
      · rw [List.map_append, List.map_singleton]

end FirstOccurrences

-- ========================================================== live cells

namespace Row

/-- Every cell that has been created has a target. -/
def Live (row : Row) : Prop :=
  ∀ symbol cell, row.lookup symbol = some cell → cell.shifts ≠ []

theorem live_empty : Live OrderedMap.empty := by
  intro symbol cell h
  cases h

theorem Live.update {row : Row} (h : row.Live) {symbol : Symbol}
    {f : Option Cell → Cell} (hf : (f (row.lookup symbol)).shifts ≠ []) :
    Live (row.update symbol f) := by
  intro other cell hcell
  rw [OrderedMap.lookup_update] at hcell
  split at hcell
  · cases hcell
    exact hf
  · exact h other cell hcell

theorem Live.addShift {row : Row} (h : row.Live) (symbol : Symbol)
    (target : StateKey) : Live (row.addShift symbol target) :=
  h.update (List.ne_nil_of_mem (Cell.mem_shifts_addShift.mpr (Or.inr rfl)))

theorem Live.addCell {row : Row} (h : row.Live) (symbol : Symbol) {cell : Cell}
    (hcell : cell.shifts ≠ []) : Live (row.addCell symbol cell) := by
  obtain ⟨target, htarget⟩ := List.exists_mem_of_ne_nil _ hcell
  exact h.update
    (List.ne_nil_of_mem (Cell.mem_shifts_foldl_addShift.mpr (Or.inr htarget)))

end Row

namespace Rows

variable {rows : Rows}

/-- Every cell of every state has a target. -/
def Live (rows : Rows) : Prop := ∀ key, (rows.row key).Live

theorem Live.update (h : rows.Live) {key : StateKey} {f : Option Row → Row}
    (hf : (f (rows.lookup key)).Live) : Live (rows.update key f) := by
  intro other
  rw [row_update]
  split
  · exact hf
  · exact h other

theorem Live.addMove (h : rows.Live) (g : Grammar) (source : StateKey)
    (target : Item) : (rows.addMove g source target).Live := by
  refine h.update (List.foldlRecOn (g.leftCorners target) _ (h source) ?_)
  exact fun row hrow item _ => Row.Live.addShift hrow _ _

theorem live_blank (keys : List StateKey) : (blank keys).Live := by
  intro key
  have hrow : (blank keys).row key = OrderedMap.empty := by
    unfold blank row
    rw [OrderedMap.lookup_ofList_const]
    split <;> rfl
  rw [hrow]
  exact Row.live_empty

theorem live_ofGrammar (g : Grammar) : (ofGrammar g).Live := by
  rw [ofGrammar_eq]
  exact List.foldlRecOn g.moves _ (live_blank g.states)
    fun _ h move _ => h.addMove g move.1 move.2

theorem Live.redirect (h : rows.Live) (key : StateKey) (symbol : Symbol)
    (target : StateKey) : (rows.redirect key symbol target).Live := by
  refine h.update (Row.Live.update (h key) ?_)
  exact List.cons_ne_nil _ _

theorem Live.unionRow (h : rows.Live) (keys : List StateKey) :
    (rows.unionRow keys).Live := by
  refine List.foldlRecOn keys _ Row.live_empty fun row hrow key _ => ?_
  refine List.foldlRecOn (rows.row key).entries _ hrow
    fun row hrow entry hentry => ?_
  exact hrow.addCell _
    (h key _ _ ((rows.row key).lookup_eq_some_iff.mpr hentry))

theorem Live.mergeCell (h : rows.Live) (place : StateKey × Symbol) :
    (rows.mergeCell place).Live := by
  rw [mergeCell_eq]
  have hredirected := h.redirect place.1 place.2 (rows.merger place.1 place.2)
  split
  · exact hredirected
  · exact hredirected.update (hredirected.unionRow _)

theorem Live.mergeRound (h : rows.Live) : rows.mergeRound.Live :=
  List.foldlRecOn rows.ambiguous _ h fun _ h place _ => h.mergeCell place

/-- After the rounds of merging every cell has a target if it had one
before. -/
theorem Live.afterRounds (h : rows.Live) (limit : Nat) :
    (rows.afterRounds (rows.mergeRounds limit)).Live := by
  induction limit generalizing rows with
  | zero =>
      unfold mergeRounds
      split
      · exact h
      · exact h.mergeRound
  | succ limit ih =>
      unfold mergeRounds
      split
      · exact h
      · dsimp only
        rw [afterRounds_cons]
        exact ih h.mergeRound

end Rows

-- ================================================== behind the shifts

namespace Filling

variable {row : Row} {filling : Filling}

/-- The row has been filled from behind: it is the row that it was at first,
followed by cells in which there are only reductions. -/
def Extends (row : Row) (filling : Filling) : Prop :=
  ∃ back, filling.row.entries = row.entries ++ back
    ∧ ∀ entry ∈ back, ∃ rule, entry.2 = ⟨[], some rule⟩

theorem Extends.report (h : filling.Extends row) (conflict : Conflict) :
    (filling.report conflict).Extends row := by
  unfold Extends
  rw [row_report]
  exact h

/-- A cell that is free for a reduction has not been created. -/
theorem Extends.lookup_eq_none (h : filling.Extends row) (hlive : row.Live)
    {symbol : Symbol} (hshifts : (Row.cell filling.row symbol).shifts = [])
    (hreduce : (Row.cell filling.row symbol).reduce = none) :
    filling.row.lookup symbol = none := by
  obtain ⟨back, hentries, hback⟩ := h
  cases hlookup : filling.row.lookup symbol with
  | none => rfl
  | some cell =>
      have hcell : Row.cell filling.row symbol = cell := by
        unfold Row.cell
        rw [hlookup]
        rfl
      rw [hcell] at hshifts hreduce
      have hmem := (OrderedMap.lookup_eq_some_iff _).mp hlookup
      rw [hentries] at hmem
      rcases List.mem_append.mp hmem with hmem | hmem
      · exact absurd hshifts
          (hlive symbol cell ((OrderedMap.lookup_eq_some_iff _).mpr hmem))
      · obtain ⟨rule, hrule⟩ := hback _ hmem
        dsimp only at hrule
        rw [hrule] at hreduce
        cases hreduce

/-- A reduction goes behind everything else or is not entered. -/
theorem Extends.enter (h : filling.Extends row) (hlive : row.Live)
    (key : StateKey) (reduction : Nat × Symbol) :
    (filling.enter key reduction).Extends row := by
  obtain ⟨rule, symbol⟩ := reduction
  unfold Filling.enter
  dsimp only
  split
  · exact h.report _
  · next hshifts hreduce =>
      have hnone := h.lookup_eq_none hlive hshifts hreduce
      have hnew : symbol ∉ filling.row.entries.map Prod.fst := by
        intro hmem
        obtain ⟨cell, hcell⟩ := (OrderedMap.mem_keys_iff _).mp hmem
        rw [hnone] at hcell
        cases hcell
      obtain ⟨back, hentries, hback⟩ := h
      refine ⟨back ++ [(symbol, ⟨[], some rule⟩)], ?_, ?_⟩
      · rw [← List.append_assoc, ← hentries, hnone]
        exact OrderedMap.updateEntries_of_not_mem _ hnew
      · intro entry hentry
        rcases List.mem_append.mp hentry with hentry | hentry
        · exact hback entry hentry
        · rw [List.mem_singleton.mp hentry]
          exact ⟨rule, rfl⟩
  · split
    · exact h
    · exact h.report _

/-- The finished row of a state has the cells of the state in front. -/
theorem extends_ofState {rows : Rows} (hlive : rows.Live) (g : Grammar)
    (follow : FollowSets) (terminals : OrderedSet Symbol) (key : StateKey) :
    (ofState g follow terminals rows key).Extends (rows.row key) := by
  have hstart : Extends (rows.row key) ⟨rows.row key, []⟩ := by
    refine ⟨[], ?_, fun entry hentry => nomatch hentry⟩
    rw [List.append_nil]
  exact List.foldlRecOn (key.reductions g follow terminals) _ hstart
    fun filling h reduction _ => Extends.enter h (hlive key) key reduction

end Filling

-- ============================================================= places

namespace OrderedSet

variable {α : Type} [DecidableEq α]

/-- The place of an element in a set, zero for what is not in it. -/
def place (s : OrderedSet α) (a : α) : Nat := (s.indexOf? a).getD 0

theorem place_of_position (s : OrderedSet α) {a : α} {i : Nat}
    (h : s.elements[i]? = some a) : s.place a = i := by
  unfold place
  rw [(s.indexOf?_eq_some_iff).mpr h]
  rfl

/-- The elements of a set are at the places 0, 1, 2 and so on. -/
theorem map_place (s : OrderedSet α) :
    s.elements.map s.place = List.range s.size := by
  refine List.ext_getElem (by simp [size]) fun i h _ => ?_
  rw [List.getElem_map, List.getElem_range]
  exact s.place_of_position (List.getElem?_eq_getElem _)

theorem place_inj {s : OrderedSet α} {a b : α} (ha : a ∈ s) (hb : b ∈ s)
    (h : s.place a = s.place b) : a = b := by
  obtain ⟨i, hi⟩ := exists_position ha
  obtain ⟨j, hj⟩ := exists_position hb
  rw [s.place_of_position hi, s.place_of_position hj] at h
  rw [h] at hi
  exact Option.some.inj (hi.symm.trans hj)

end OrderedSet

-- ===================================================== reading shifts

/-- The state into which an action shifts. -/
def Action.shiftTarget? {σ : Type} : Action σ → Option σ
  | .shift target => some target
  | .reduce _ _ => none

/-- The states into which a table shifts, state by state and cell by cell. -/
def Table.shiftTargets (t : Table) : List Nat :=
  t.states.values.flatMap fun row => row.values.filterMap Action.shiftTarget?

theorem OrderedMap.values_filterMapValues {κ υ ω : Type} (m : OrderedMap κ υ)
    (f : υ → Option ω) :
    (m.filterMapValues f).values = m.values.filterMap f := by
  unfold values filterMapValues
  rw [List.map_filterMap, List.filterMap_map]
  refine List.filterMap_congr fun e _ => ?_
  cases h : f e.2 <;> simp [h]

namespace Cell

variable {g : Grammar} {states : OrderedSet StateKey} {cells : List Cell}

/-- Cells with one target each become shifts into these targets. -/
theorem filterMap_action?_of_shifts
    (h : ∀ cell ∈ cells, ∃ target, cell.shifts = [target]) :
    cells.filterMap (action? g states)
      = (cells.flatMap shifts).map fun target =>
        .shift (states.place target) := by
  induction cells with
  | nil => rfl
  | cons cell cells ih =>
      rw [List.forall_mem_cons] at h
      obtain ⟨target, htarget⟩ := h.1
      have haction : action? g states cell
          = some (.shift (states.place target)) := by
        unfold action?
        rw [htarget]
        rfl
      rw [List.filterMap_cons_some haction, ih h.2, List.flatMap_cons, htarget]
      rfl

/-- Cells with a rule only become reductions. -/
theorem reduce_of_mem_filterMap_action?
    (h : ∀ cell ∈ cells, ∃ rule, cell = ⟨[], some rule⟩) :
    ∀ action ∈ cells.filterMap (action? g states),
      ∃ rule name, action = .reduce rule name := by
  intro action haction
  obtain ⟨cell, hcell, heq⟩ := List.mem_filterMap.mp haction
  obtain ⟨rule, rfl⟩ := h cell hcell
  cases heq
  exact ⟨rule, _, rfl⟩

end Cell

namespace Rows

variable {g : Grammar} {rows : Rows}

/-- Where no cell is ambiguous, a cell of a row has one target. -/
theorem Live.exists_shifts_eq (hlive : rows.Live)
    (hclear : rows.ambiguous = []) (key : StateKey) :
    ∀ cell ∈ (rows.row key).values, ∃ target, cell.shifts = [target] := by
  intro cell hcell
  obtain ⟨symbol, hlookup⟩ := (OrderedMap.mem_values_iff _).mp hcell
  obtain ⟨target, htarget⟩ :=
    List.exists_mem_of_ne_nil _ (hlive key symbol cell hlookup)
  have heq : rows.cell key symbol = cell := by
    rw [cell_eq, Row.cell, hlookup]
    rfl
  refine ⟨target, ?_⟩
  rw [← heq] at htarget ⊢
  exact shifts_eq_singleton hclear htarget

/-- The row of a state in the table: its shifts, in the order of its targets,
and then its reductions. -/
theorem Live.values_tableRow (hlive : rows.Live) (hclear : rows.ambiguous = [])
    (follow : FollowSets) (states : OrderedSet StateKey) (key : StateKey) :
    ∃ reductions : List (Action Nat),
      ((Filling.ofState g follow g.terminals rows key).row.filterMapValues
          (Cell.action? g states)).values
        = ((rows.targets key).map states.place).map .shift ++ reductions
      ∧ ∀ action ∈ reductions, ∃ rule name, action = .reduce rule name := by
  obtain ⟨back, hentries, hback⟩ :=
    Filling.extends_ofState hlive g follow g.terminals key
  refine ⟨(back.map Prod.snd).filterMap (Cell.action? g states), ?_, ?_⟩
  · have hvalues : (Filling.ofState g follow g.terminals rows key).row.values
        = (rows.row key).values ++ back.map Prod.snd := by
      unfold OrderedMap.values
      rw [hentries, List.map_append]
    rw [OrderedMap.values_filterMapValues, hvalues, List.filterMap_append,
      Cell.filterMap_action?_of_shifts (hlive.exists_shifts_eq hclear key),
      List.map_map]
    rfl
  · refine Cell.reduce_of_mem_filterMap_action? fun cell hcell => ?_
    obtain ⟨entry, hentry, rfl⟩ := List.mem_map.mp hcell
    exact hback entry hentry

-- ========================================================== exploring

/-- If the states are the first occurrences among the start state and the
targets of those before a place, and the limit lets the place pass as many
states as there are rows, then in the end they are the first occurrences among
the start state and the targets of all states. -/
theorem explore_eq_ofList
    (hrows : ∀ key, ∀ target ∈ rows.targets key, target ∈ rows.keys)
    (limit place : Nat) (states : OrderedSet StateKey)
    (hstates : ∀ key ∈ states, key ∈ rows.keys)
    (hfirst : states = OrderedSet.ofList
      (.start :: (states.elements.take place).flatMap rows.targets))
    (henough : rows.size ≤ limit + place) :
    rows.explore limit place states = OrderedSet.ofList
      (.start :: (rows.explore limit place states).elements.flatMap
        rows.targets) := by
  induction limit generalizing place states with
  | zero =>
      have hcount := length_le_size hstates
      rw [List.take_of_length_le (by omega)] at hfirst
      exact hfirst
  | succ limit ih =>
      unfold explore
      split
      · next hnone =>
          rw [List.take_of_length_le (List.getElem?_eq_none_iff.mp hnone)]
            at hfirst
          exact hfirst
      · next key hkey =>
          obtain ⟨hplace, -⟩ := List.getElem?_eq_some_iff.mp hkey
          refine ih (place + 1) _ ?_ ?_ (by omega)
          · intro other hother
            rcases OrderedSet.mem_insertAll.mp hother with hother | hother
            · exact hstates other hother
            · exact hrows key other hother
          · -- what has been served grows by the state at the place
            have hserved :
                (states.insertAll (rows.targets key)).elements.take (place + 1)
                = states.elements.take place ++ [key] := by
              obtain ⟨rest, hrest⟩ :=
                states.elements_isPrefix_insertAll (rows.targets key)
              rw [← hrest, List.take_append_of_le_length hplace,
                List.take_add_one, hkey]
              rfl
            rw [hserved, List.flatMap_append, List.flatMap_singleton]
            conv => lhs; rw [hfirst]
            unfold OrderedSet.ofList OrderedSet.insertAll
            rw [← List.foldl_append]
            rfl

/-- The targets of all states that can be reached, state by state. -/
def reachableTargets (rows : Rows) : List StateKey :=
  rows.reachable.elements.flatMap rows.targets

/-- The states that can be reached are the first occurrences among the start
state and their targets. -/
theorem Faithful.reachable_eq_ofList (h : Faithful g rows) :
    rows.reachable = OrderedSet.ofList (.start :: rows.reachableTargets) := by
  refine explore_eq_ofList h.mem_keys_of_mem_targets _ 0 _ ?_
    rfl (Nat.le_refl _)
  intro key hkey
  rw [List.mem_singleton.mp (OrderedSet.mem_ofList.mp hkey)]
  exact h.start

/-- No state goes back to the start state. -/
theorem Faithful.targets_ne_start (h : Faithful g rows) :
    ∀ target ∈ rows.reachableTargets, target ≠ .start := by
  intro target htarget
  obtain ⟨key, -, hmem⟩ := List.mem_flatMap.mp htarget
  obtain ⟨symbol, hshift⟩ := mem_targets_iff.mp hmem
  exact (h.entered key symbol target hshift).2

/-- Behind the start state the states are the first occurrences among the
targets. -/
theorem Faithful.elements_reachable (h : Faithful g rows) :
    rows.reachable.elements = .start :: rows.reachableTargets.eraseDups := by
  have hrest : rows.reachableTargets.filter (fun target => !target == .start)
      = rows.reachableTargets := by
    refine List.filter_eq_self.mpr fun target htarget => ?_
    simp [h.targets_ne_start target htarget]
  rw [h.reachable_eq_ofList, OrderedSet.elements_ofList,
    List.eraseDups_cons, hrest]

/-- The first occurrences among the places of the targets are the numbers from
one on. -/
theorem Faithful.eraseDups_places (h : Faithful g rows) :
    ((rows.reachableTargets.map rows.reachable.place).filter (· ≠ 0)).eraseDups
      = List.range' 1 (rows.reachable.size - 1) := by
  have hmem : ∀ target ∈ rows.reachableTargets, target ∈ rows.reachable := by
    intro target htarget
    rw [← OrderedSet.mem_elements, h.elements_reachable]
    exact List.mem_cons_of_mem _ (List.mem_eraseDups.mpr htarget)
  have hstart := rows.reachable_start
  have hnonzero : ∀ n ∈ rows.reachableTargets.map rows.reachable.place,
      decide (n ≠ 0) = true := by
    intro n hn
    obtain ⟨target, htarget, rfl⟩ := List.mem_map.mp hn
    refine decide_eq_true fun hzero => h.targets_ne_start target htarget ?_
    refine OrderedSet.place_inj (hmem target htarget)
      (OrderedSet.mem_of_position hstart) ?_
    rw [hzero, rows.reachable.place_of_position hstart]
  have hinj : ∀ a ∈ rows.reachableTargets, ∀ b ∈ rows.reachableTargets,
      rows.reachable.place a = rows.reachable.place b → a = b :=
    fun a ha b hb => OrderedSet.place_inj (hmem a ha) (hmem b hb)
  have hplaces := congrArg List.tail rows.reachable.map_place
  rw [h.elements_reachable, List.map_cons, List.tail_cons,
    List.range_eq_range', List.tail_range'] at hplaces
  rw [List.filter_eq_self.mpr hnonzero, eraseDups_map hinj]
  exact hplaces

end Rows

-- ============================================================ the table

namespace Table

variable {g : Grammar} {follow : FollowSets} {rows : Rows}
    {states : OrderedSet StateKey}

theorem values_ofFillings :
    (ofFillings g states (g.fillings follow rows states)).states.values
      = states.elements.map fun key =>
          (Filling.ofState g follow g.terminals rows key).row.filterMapValues
            (Cell.action? g states) := by
  unfold ofFillings Grammar.fillings OrderedMap.values OrderedMap.zip
  rw [List.map_snd_zip (by simp), List.map_map]
  rfl

theorem size_ofFillings :
    (ofFillings g states (g.fillings follow rows states)).size
      = states.size := by
  unfold size OrderedMap.size ofFillings Grammar.fillings
    OrderedMap.zip OrderedSet.size
  simp

/-- The table shifts into the places of the targets. -/
theorem shiftTargets_ofFillings (hlive : rows.Live)
    (hclear : rows.ambiguous = []) :
    (ofFillings g states (g.fillings follow rows states)).shiftTargets
      = (states.elements.flatMap rows.targets).map states.place := by
  unfold shiftTargets
  rw [values_ofFillings, List.flatMap_map, List.map_flatMap]
  refine List.flatMap_congr fun key _ => ?_
  obtain ⟨reductions, hvalues, hreduce⟩ :=
    hlive.values_tableRow hclear follow states key
  have hshifts :
      (((rows.targets key).map states.place).map Action.shift).filterMap
      Action.shiftTarget? = (rows.targets key).map states.place := by
    rw [List.filterMap_map]
    exact List.filterMap_some
  have hreductions : reductions.filterMap Action.shiftTarget? = [] := by
    refine List.filterMap_eq_nil_iff.mpr fun action haction => ?_
    obtain ⟨rule, name, rfl⟩ := hreduce action haction
    rfl
  rw [hvalues, List.filterMap_append, hshifts, hreductions, List.append_nil]

end Table

namespace Grammar

variable {g : Grammar} {follow : FollowSets} {limit : Nat} {t : Table}

/-- The rows from which the table of a build is read off are faithful, and
every cell in them has one target. -/
theorem exists_live_of_buildWith_ok
    (h : (g.buildWith follow limit).result = .ok t) :
    ∃ rows, Rows.Faithful g rows ∧ rows.Live ∧ rows.ambiguous = []
      ∧ t = Table.ofFillings g rows.reachable
        (g.fillings follow rows rows.reachable) := by
  obtain ⟨hlimit, htable, -⟩ := eq_of_buildWith_ok h
  obtain ⟨hfaithful, hclear⟩ := (Rows.faithful_ofGrammar g).afterRounds limit
  have hlive := (Rows.live_ofGrammar g).afterRounds limit
  exact ⟨g.mergedRows limit, hfaithful, hlive, hclear hlimit, htable⟩

/-- The states of a table are numbered in the order in which the table itself
leads to them: the start state is number zero, and the first occurrences of the
other numbers in its shifts are one, two and so on up to the last. In every row
the shifts come before the reductions. -/
theorem build_numbered (h : (g.buildWith follow limit).result = .ok t) :
    t.key? 0 = some .start
    ∧ (t.shiftTargets.filter (· ≠ 0)).eraseDups = List.range' 1 (t.size - 1)
    ∧ ∀ row ∈ t.states.values,
      ∃ (targets : List Nat) (reductions : List (Action Nat)),
        row.values = targets.map .shift ++ reductions
        ∧ ∀ action ∈ reductions, ∃ rule name, action = .reduce rule name := by
  refine ⟨key?_initial h, ?_⟩
  obtain ⟨rows, hfaithful, hlive, hclear, rfl⟩ := exists_live_of_buildWith_ok h
  refine ⟨?_, fun row hrow => ?_⟩
  · rw [Table.shiftTargets_ofFillings hlive hclear, Table.size_ofFillings]
    exact hfaithful.eraseDups_places
  · rw [Table.values_ofFillings] at hrow
    obtain ⟨key, -, rfl⟩ := List.mem_map.mp hrow
    exact ⟨_, hlive.values_tableRow hclear follow rows.reachable key⟩

theorem build_numbered_sums :
    ∃ t, (sums.build 8).result = .ok t ∧ t.key? 0 = some .start
    ∧ (t.shiftTargets.filter (· ≠ 0)).eraseDups
      = List.range' 1 (t.size - 1) := by
  have hbuilds : (sums.build 8).result.toOption.isSome = true := by
    decide +kernel
  cases hresult : (sums.build 8).result with
  | error e =>
      rw [hresult] at hbuilds
      cases hbuilds
  | ok t =>
      obtain ⟨hstart, hnumbers, -⟩ := build_numbered hresult
      exact ⟨t, rfl, hstart, hnumbers⟩

end Grammar

end ShiftReduce
