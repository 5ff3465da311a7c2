/-
Stored tables are read back.

What has been stored for a table names the same states in the same order,
because their names can be read. So a shift finds its target where it was,
and a reduction says all that there is to it. What can go wrong is only that
a shift is taken for a reduction. That is no error: the table that is read
has the same states and the same cells, with another action in some of them.
-/
import ShiftReduce.Proofs.Table.Loading
import ShiftReduce.Proofs.Table.Name

namespace ShiftReduce

-- ============================================================== the cells

/-- What is read as a reduction is one, by a rule whose number is below the
limit and with an action whose name is not empty. -/
theorem Action.reduceOfText?_eq_some {text : List Char} {action : Action Nat}
    (h : reduceOfText? text = some action) :
    ∃ rule name, action = .reduce rule name
      ∧ rule < Item.ruleLimit ∧ name ≠ some "" := by
  unfold reduceOfText? at h
  split at h
  · split at h
    · obtain ⟨rule, hrule, rfl⟩ := Option.map_eq_some_iff.mp h
      exact ⟨rule, none, rfl, Numeral.lt_of_readBelow? hrule, nofun⟩
    · split at h
      · cases h
      · next number name _ hname =>
          obtain ⟨rule, hrule, rfl⟩ := Option.map_eq_some_iff.mp h
          refine ⟨rule, _, rfl, Numeral.lt_of_readBelow? hrule,
            fun hempty => hname ?_⟩
          rw [Option.some.injEq, ← String.toList_eq_nil_iff,
            String.toList_ofList] at hempty
          exact List.isEmpty_iff.mpr hempty
  · cases h

namespace Table

/-- A table whose names and actions can be read: the start state is the
first one and named by a nonterminal, every state has a name that can be
read, shifts are into states of the table, and reductions are by rules whose
number is below the limit, with actions whose name is not empty. -/
structure Legible (t : Table) : Prop where
  start : isNonterminal t.startSymbol = true
  first : t.states.keys.head? = some .start
  keys : ∀ key ∈ t.states.keys, key.Legible
  shift : ∀ state symbol target,
    t.action? state symbol = some (.shift target) →
    ∃ key, t.key? target = some key
  reduce : ∀ state symbol rule name,
    t.action? state symbol = some (.reduce rule name) →
    rule < Item.ruleLimit ∧ name ≠ some ""

variable {t : Table}

/-- A reduction of a table is read back. -/
theorem actionOfText?_reduce {rule : Nat} (hrule : rule < Item.ruleLimit)
    {name : Option String} (hname : name ≠ some "") :
    t.actionOfText? (t.actionText (.reduce rule name))
      = .ok (.reduce rule name) := by
  unfold actionOfText? actionText Action.ofText?
  rw [Action.reduceOfText?_reduceText hrule hname]

/-- A shift is read back unless the name of its target is taken for a
reduction. -/
theorem actionOfText?_shift (h : t.Legible) {target : Nat} {key : StateKey}
    (hkey : t.key? target = some key)
    (hnone : (Action.reduceOfText? (t.stateName target).toList :
      Option (Action Nat)) = none) :
    t.actionOfText? (t.actionText (.shift target)) = .ok (.shift target) := by
  have hname : t.stateName target = key.toText t.startSymbol := by
    unfold stateName
    rw [hkey]
  unfold actionOfText? actionText Action.ofText?
  simp only [hnone]
  rw [hname,
    StateKey.ofText?_toText h.start (h.keys key (mem_keys_of_key? hkey))]
  dsimp only
  rw [idxOf?_key hkey]

/-- If it is, the shift is read as that reduction. -/
theorem actionOfText?_shift_of_reduce {target : Nat} {action : Action Nat}
    (haction : Action.reduceOfText? (t.stateName target).toList
      = some action) :
    t.actionOfText? (t.actionText (.shift target)) = .ok action := by
  unfold actionOfText? actionText Action.ofText?
  rw [haction]

/-- The action that is read from the text of an action. -/
def reread (t : Table) (action : Action Nat) : Action Nat :=
  (t.actionOfText? (t.actionText action)).toOption.getD action

theorem reread_eq {action other : Action Nat}
    (h : t.actionOfText? (t.actionText action) = .ok other) :
    t.reread action = other := by
  unfold reread
  rw [h]
  rfl

/-- The text of an action of the table always reads as an action. -/
theorem actionOfText?_actionText (h : t.Legible) {state : Nat}
    {symbol : Symbol} {action : Action Nat}
    (haction : t.action? state symbol = some action) :
    t.actionOfText? (t.actionText action) = .ok (t.reread action) := by
  cases action with
  | reduce rule name =>
      obtain ⟨hrule, hname⟩ := h.reduce state symbol rule name haction
      have hread := t.actionOfText?_reduce hrule hname
      rw [hread, reread_eq hread]
  | shift target =>
      obtain ⟨key, hkey⟩ := h.shift state symbol target haction
      cases hreduce : (Action.reduceOfText? (t.stateName target).toList :
          Option (Action Nat)) with
      | none =>
          have hread := actionOfText?_shift h hkey hreduce
          rw [hread, reread_eq hread]
      | some action =>
          have hread := actionOfText?_shift_of_reduce hreduce
          rw [hread, reread_eq hread]

-- ============================================================== the table

/-- What is stored for a table whose names can be read describes the table,
except for the actions that are taken for others. -/
theorem Legible.describes (h : t.Legible) :
    (StoredTable.ofTable t).Describes (t.mapActions t.reread) := by
  refine ⟨rfl, ?_, ?_⟩
  · rw [keys_mapActions]
    exact h.first
  · rw [keys_mapActions]
    show List.Forall₂ _ (t.states.entries.map _) (t.states.entries.map _)
    rw [List.forall₂_map_left_iff, List.forall₂_map_right_iff,
      List.forall₂_same]
    intro e he
    refine ⟨StateKey.ofText?_toText h.start
      (h.keys e.1 (List.mem_map_of_mem he)), ?_⟩
    show List.Forall₂ _ (e.2.entries.map _) (e.2.entries.map _)
    rw [List.forall₂_map_left_iff, List.forall₂_map_right_iff,
      List.forall₂_same]
    intro cell hcell
    have hread : ∀ e ∈ t.states.entries, ∀ cell ∈ e.2.entries,
        t.actionOfText? (t.actionText cell.2) = .ok (t.reread cell.2) :=
      forall_entries_iff.mpr fun _ _ _ => actionOfText?_actionText h
    exact ⟨rfl, hread e he cell hcell⟩

/-- A table whose names can be read is read back, except for the actions
that are taken for others. -/
theorem toTable?_ofTable (h : t.Legible) :
    (StoredTable.ofTable t).toTable? = .ok (t.mapActions t.reread) :=
  StoredTable.toTable?_eq_ok_iff.mpr h.describes

end Table

end ShiftReduce
