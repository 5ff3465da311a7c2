/-
How many rounds of merging there are.

A round redirects every cell that was ambiguous when it began to one state,
and whatever else it does to the rows that were there before, it never adds a
target to one of their cells. So a cell that is still ambiguous afterwards
belongs to a state that the round has created: a round is either the last one
or has created a state. That cannot go on, because the states are named by
sets of items of the grammar, and of these there are only finitely many.

The rounds are thus the same whatever the limit is. A limit only cuts them
off, and a build with a limit that does not is the same as one without.
-/
import Mathlib.Data.Finset.Powerset
import ShiftReduce.Proofs.Automaton.Finished

namespace ShiftReduce

namespace Rows

variable {g : Grammar} {rows : Rows} {key : StateKey} {symbol : Symbol}

-- ========================================================== the old rows

theorem size_eq_length_keys (rows : Rows) : rows.size = rows.keys.length :=
  (List.length_map _).symm

theorem keys_redirected (hlive : (rows.cell key symbol).shifts ≠ []) :
    (rows.redirected key symbol).keys = rows.keys := by
  unfold redirected redirect
  rw [OrderedMap.keys_update, if_pos (mem_keys_of_shifts_ne_nil hlive)]

/-- Merging the targets of a cell enters the merger if it is new, and no other
state. -/
theorem keys_mergeCell (hlive : (rows.cell key symbol).shifts ≠ []) :
    (rows.mergeCell (key, symbol)).keys
      = if rows.merger key symbol ∈ rows.keys then rows.keys
        else rows.keys ++ [rows.merger key symbol] := by
  rw [mergeCell_eq]
  by_cases hold : rows.merger key symbol ∈ rows.keys
  · rw [if_pos hold, if_pos, keys_redirected hlive]
    rwa [OrderedMap.contains_iff, keys_redirected hlive]
  · rw [if_neg hold, if_neg, OrderedMap.insert, OrderedMap.keys_update,
      keys_redirected hlive, if_neg hold]
    rwa [OrderedMap.contains_iff, keys_redirected hlive]

/-- In the states that were there before only the cell that is merged
changes. -/
theorem shifts_mergeCell (hlive : (rows.cell key symbol).shifts ≠ [])
    {other : StateKey} (hother : other ∈ rows.keys) (on : Symbol) :
    ((rows.mergeCell (key, symbol)).cell other on).shifts
      = if other = key ∧ on = symbol then [rows.merger key symbol]
        else (rows.cell other on).shifts := by
  have hredirected : ((rows.redirected key symbol).cell other on).shifts
      = if other = key ∧ on = symbol then [rows.merger key symbol]
        else (rows.cell other on).shifts := by
    rw [redirected, cell_redirect]
    split <;> rfl
  rw [mergeCell_eq]
  split
  · exact hredirected
  · next hnew =>
      rw [OrderedMap.contains_iff, keys_redirected hlive] at hnew
      have hne : other ≠ rows.merger key symbol := fun heq =>
        hnew (heq ▸ hother)
      rw [cell_eq, row_insert, if_neg hne]
      exact hredirected

-- ============================================================= one round

theorem keys_prefix_mergeCell (hlive : (rows.cell key symbol).shifts ≠ []) :
    rows.keys <+: (rows.mergeCell (key, symbol)).keys := by
  rw [keys_mergeCell hlive]
  split
  · exact List.prefix_refl _
  · exact List.prefix_append _ _

theorem keys_prefix_foldl_mergeCell {places : List (StateKey × Symbol)}
    (hlive : ∀ place ∈ places, (rows.cell place.1 place.2).shifts ≠ []) :
    rows.keys <+: (places.foldl mergeCell rows).keys := by
  induction places generalizing rows with
  | nil => exact List.prefix_refl _
  | cons place places ih =>
      rw [List.forall_mem_cons] at hlive
      exact (keys_prefix_mergeCell hlive.1).trans
        (ih fun other ho => shifts_mergeCell_ne_nil (hlive.2 other ho))

/-- When some cells have been merged, a cell of an old state has one target at
most if it is among them or had one target at most before. -/
theorem shifts_foldl_mergeCell_le_one {places : List (StateKey × Symbol)}
    (hlive : ∀ place ∈ places, (rows.cell place.1 place.2).shifts ≠ [])
    {other : StateKey} (hother : other ∈ rows.keys) {on : Symbol}
    (h : (other, on) ∈ places ∨ (rows.cell other on).shifts.length ≤ 1) :
    ((places.foldl mergeCell rows).cell other on).shifts.length ≤ 1 := by
  induction places generalizing rows with
  | nil => exact h.resolve_left List.not_mem_nil
  | cons place places ih =>
      rw [List.forall_mem_cons] at hlive
      refine ih (fun other ho => shifts_mergeCell_ne_nil (hlive.2 other ho))
        ((keys_prefix_mergeCell hlive.1).subset hother) ?_
      rw [shifts_mergeCell hlive.1 hother]
      by_cases hplace : other = place.1 ∧ on = place.2
      · exact Or.inr (by rw [if_pos hplace]; exact le_rfl)
      · rw [if_neg hplace]
        refine h.imp_left fun hmem => (List.mem_cons.mp hmem).resolve_left ?_
        rintro rfl
        exact hplace ⟨rfl, rfl⟩

/-- The states stay where they are when a round is made, and new ones
follow. -/
theorem keys_prefix_mergeRound (rows : Rows) :
    rows.keys <+: rows.mergeRound.keys :=
  keys_prefix_foldl_mergeCell shifts_ne_nil_of_ambiguous

theorem size_le_mergeRound (rows : Rows) :
    rows.size ≤ rows.mergeRound.size := by
  rw [size_eq_length_keys, size_eq_length_keys]
  exact rows.keys_prefix_mergeRound.length_le

/-- A round leaves no cell ambiguous of a state that was there before. -/
theorem not_mem_ambiguous_mergeRound (hkey : key ∈ rows.keys) :
    (key, symbol) ∉ rows.mergeRound.ambiguous := by
  rw [mem_ambiguous_iff, Nat.not_lt]
  apply shifts_foldl_mergeCell_le_one shifts_ne_nil_of_ambiguous hkey
  rw [mem_ambiguous_iff]
  omega

/-- A round that leaves an ambiguous cell has created a state. -/
theorem size_lt_mergeRound (hmore : rows.mergeRound.ambiguous ≠ []) :
    rows.size < rows.mergeRound.size := by
  obtain ⟨⟨key, symbol⟩, hplace⟩ := List.exists_mem_of_ne_nil _ hmore
  apply Nat.lt_of_le_of_ne rows.size_le_mergeRound
  intro hsize
  rw [size_eq_length_keys, size_eq_length_keys] at hsize
  have hkeys : rows.keys = rows.mergeRound.keys :=
    rows.keys_prefix_mergeRound.eq_of_length hsize
  have hkey : key ∈ rows.mergeRound.keys :=
    mem_keys_of_shifts_ne_nil (shifts_ne_nil_of_ambiguous _ hplace)
  exact not_mem_ambiguous_mergeRound (hkeys ▸ hkey) hplace

-- ================================================ finitely many states

/-- The states are made of items of the grammar. -/
def Within (g : Grammar) (rows : Rows) : Prop :=
  ∀ key ∈ rows.keys, ∀ i ∈ key.items, i ∈ g.items

theorem within_ofGrammar (g : Grammar) : Within g (ofGrammar g) := by
  intro key hkey i hi
  rcases mem_keys_ofGrammar.mp hkey with rfl | ⟨j, hj, rfl⟩
  · cases hi
  · cases List.mem_singleton.mp hi
    exact hj

/-- The merger is made of successors. -/
theorem Within.mergeCell (hwithin : Within g rows) (h : Faithful g rows)
    (hlive : (rows.cell key symbol).shifts ≠ []) :
    Within g (rows.mergeCell (key, symbol)) := by
  intro other hother i hi
  rw [keys_mergeCell hlive] at hother
  split at hother
  · exact hwithin other hother i hi
  · rcases List.mem_append.mp hother with hother | hother
    · exact hwithin other hother i hi
    · rw [List.mem_singleton.mp hother, ← (h.names_merger hlive).mem_iff] at hi
      exact Grammar.mem_items_of_mem_successors hi

theorem Within.foldl_mergeCell {places : List (StateKey × Symbol)}
    (hwithin : Within g rows) (h : Faithful g rows)
    (hlive : ∀ place ∈ places, (rows.cell place.1 place.2).shifts ≠ []) :
    Within g (places.foldl Rows.mergeCell rows) := by
  induction places generalizing rows with
  | nil => exact hwithin
  | cons place places ih =>
      rw [List.forall_mem_cons] at hlive
      exact ih (hwithin.mergeCell h hlive.1) (h.mergeCell hlive.1)
        fun other ho => shifts_mergeCell_ne_nil (hlive.2 other ho)

theorem Within.mergeRound (hwithin : Within g rows) (h : Faithful g rows) :
    Within g rows.mergeRound :=
  hwithin.foldl_mergeCell h shifts_ne_nil_of_ambiguous

/-- States with the same items are the same. -/
theorem Faithful.eq_of_mem_items_iff (h : Faithful g rows) {other : StateKey}
    (hkey : key ∈ rows.keys) (hother : other ∈ rows.keys)
    (hitems : ∀ i, i ∈ key.items ↔ i ∈ other.items) : key = other := by
  rcases h.named key hkey with rfl | ⟨s, hs⟩
  · rcases h.named other hother with rfl | ⟨s, hs⟩
    · rfl
    · obtain ⟨i, hi⟩ := hs.nonempty
      cases (hitems i).mpr (hs.mem_iff.mp hi)
  · rcases h.named other hother with rfl | ⟨s', hs'⟩
    · obtain ⟨i, hi⟩ := hs.nonempty
      cases (hitems i).mp (hs.mem_iff.mp hi)
    · have hsets : s = s' := by
        ext i
        rw [hs.mem_iff, hs'.mem_iff, hitems]
      exact hs.unique (hsets ▸ hs')

/-- There are no more states than sets of items. -/
theorem Faithful.size_le (h : Faithful g rows) (hwithin : Within g rows) :
    rows.size ≤ 2 ^ g.items.toFinset.card := by
  have hnodup : rows.keys.Nodup := rows.nodup
  rw [size_eq_length_keys, ← List.toFinset_card_of_nodup hnodup,
    ← Finset.card_powerset]
  apply Finset.card_le_card_of_injOn fun key => key.items.toFinset
  · intro key hkey
    rw [Finset.mem_coe, List.mem_toFinset] at hkey
    rw [Finset.mem_coe, Finset.mem_powerset]
    intro i hi
    rw [List.mem_toFinset] at hi ⊢
    exact hwithin key hkey i hi
  · intro key hkey other hother hsame
    rw [Finset.mem_coe, List.mem_toFinset] at hkey hother
    apply h.eq_of_mem_items_iff hkey hother
    simpa using Finset.ext_iff.mp hsame

-- ============================================================ all rounds

/-- The rounds of merging through which rows go until no cell is ambiguous. -/
inductive Merging : Rows → List Rows → Prop where
  | done {rows : Rows} (clear : rows.ambiguous = []) : Merging rows []
  | round {rows : Rows} {rounds : List Rows} (more : rows.ambiguous ≠ [])
      (rest : Merging rows.mergeRound rounds) :
        Merging rows (rows.mergeRound :: rounds)

/-- Merging comes to an end. -/
theorem Faithful.exists_merging (h : Faithful g rows)
    (hwithin : Within g rows) : ∃ rounds, Merging rows rounds := by
  induction hleft : 2 ^ g.items.toFinset.card - rows.size
    using Nat.strong_induction_on
    generalizing rows with
  | _ left ih =>
      by_cases hmore : rows.ambiguous = []
      · exact ⟨[], .done hmore⟩
      · obtain ⟨rounds, hrounds⟩ :
            ∃ rounds, Merging rows.mergeRound rounds := by
          by_cases hagain : rows.mergeRound.ambiguous = []
          · exact ⟨[], .done hagain⟩
          · have hcreated := size_lt_mergeRound hagain
            have hbound := h.mergeRound.size_le (hwithin.mergeRound h)
            exact ih _ (by omega) h.mergeRound (hwithin.mergeRound h) rfl
        exact ⟨_, .round hmore hrounds⟩

namespace Merging

variable {rounds : List Rows}

/-- A limit cuts the rounds off behind the first one that exceeds it. -/
theorem mergeRounds_eq (h : Merging rows rounds) (limit : Nat) :
    rows.mergeRounds limit = rounds.take (limit + 1) := by
  induction h generalizing limit with
  | done clear =>
      unfold mergeRounds
      rw [clear]
      rfl
  | round more rest ih =>
      unfold mergeRounds
      rw [if_neg (by rwa [List.isEmpty_iff])]
      cases limit with
      | zero => rfl
      | succ limit =>
          dsimp only
          rw [ih limit, List.take_succ_cons]

theorem mergeRounds_of_le (h : Merging rows rounds) {limit : Nat}
    (hle : rounds.length ≤ limit) : rows.mergeRounds limit = rounds := by
  rw [h.mergeRounds_eq, List.take_of_length_le (by omega)]

end Merging

end Rows

-- ================================================= what the log tells

/-- The event that tells of a state that has been created. -/
def BuildEvent.isMergedState : BuildEvent → Bool
  | .mergedState _ => true
  | _ => false

namespace Rows

variable {g : Grammar} {rows : Rows}

/-- A round creates as many states as the rows have more of afterwards. -/
theorem countP_mergeLog_cons (n : Nat) (rows next : Rows)
    (rounds : List Rows) :
    (mergeLog n rows (next :: rounds)).countP BuildEvent.isMergedState
      = (next.size - rows.size)
        + (mergeLog (n + 1) next rounds).countP BuildEvent.isMergedState := by
  have hcreated : ((next.keys.drop rows.size).map fun key =>
      BuildEvent.mergedState key.items.length).countP BuildEvent.isMergedState
        = next.size - rows.size := by
    rw [size_eq_length_keys next, ← List.length_drop, List.countP_map,
      List.countP_eq_length]
    exact fun _ _ => rfl
  rw [mergeLog, List.countP_append, hcreated,
    List.countP_cons_of_neg Bool.false_ne_true]

/-- Every round but the last creates a state. -/
theorem Merging.length_le {rounds : List Rows} (h : Merging rows rounds)
    (n : Nat) :
    rounds.length
      ≤ (mergeLog n rows rounds).countP BuildEvent.isMergedState + 1 := by
  induction h generalizing n with
  | done clear => exact Nat.zero_le _
  | round more rest ih =>
      rw [countP_mergeLog_cons, List.length_cons]
      cases rest with
      | done clear => exact Nat.le_add_left _ _
      | round again rest =>
          have hcreated := size_lt_mergeRound again
          have hrest := ih (n + 1)
          omega

end Rows

-- ============================================================== the limit

namespace Grammar

variable {g : Grammar} {rounds : List Rows}

/-- A build whose limit is not below the number of rounds has a table, and
tells of the rounds first. -/
theorem buildWith_of_le (h : Rows.Merging (Rows.ofGrammar g) rounds)
    (follow : FollowSets) {limit : Nat} (hle : rounds.length ≤ limit) :
    ∃ table, (g.buildWith follow limit).result = .ok table
      ∧ Rows.mergeLog 1 (Rows.ofGrammar g) rounds <+:
        (g.buildWith follow limit).log := by
  unfold buildWith
  dsimp only
  rw [h.mergeRounds_of_le hle, if_neg (by omega)]
  refine ⟨_, rfl, ?_⟩
  rw [List.append_assoc]
  exact List.prefix_append _ _

/-- Two limits of which neither is below the number of rounds make no
difference. -/
theorem buildWith_congr (h : Rows.Merging (Rows.ofGrammar g) rounds)
    (follow : FollowSets) {limit other : Nat} (hlimit : rounds.length ≤ limit)
    (hother : rounds.length ≤ other) :
    g.buildWith follow limit = g.buildWith follow other := by
  unfold buildWith
  dsimp only
  rw [h.mergeRounds_of_le hlimit, h.mergeRounds_of_le hother,
    if_neg (by omega), if_neg (by omega)]

/-- A build whose limit is below the number of rounds fails, and tells of no
conflict. -/
theorem buildWith_of_lt (h : Rows.Merging (Rows.ofGrammar g) rounds)
    (follow : FollowSets) {limit : Nat} (hlt : limit < rounds.length) :
    (g.buildWith follow limit).result = .error (.nonTermination limit)
      ∧ (g.buildWith follow limit).conflicts = [] := by
  have hcut : limit < (rounds.take (limit + 1)).length := by
    rw [List.length_take]
    omega
  unfold buildWith
  dsimp only
  rw [h.mergeRounds_eq, if_pos hcut]
  exact ⟨rfl, rfl⟩

/-- Merging always comes to an end, after at most one round more than states
are created, and the limit decides only if there is a table: within the limit
the table, the conflicts and the log are always the same, and beyond it there
is an error that tells the limit, and no conflict. -/
theorem build_converges (g : Grammar) (follow : FollowSets) :
    ∃ rounds report table, report.result = .ok table
      ∧ rounds ≤ report.log.countP BuildEvent.isMergedState + 1
      ∧ ∀ limit, (rounds ≤ limit → g.buildWith follow limit = report)
        ∧ (limit < rounds →
          (g.buildWith follow limit).result = .error (.nonTermination limit)
            ∧ (g.buildWith follow limit).conflicts = []) := by
  obtain ⟨rounds, hmerging⟩ :=
    (Rows.faithful_ofGrammar g).exists_merging (Rows.within_ofGrammar g)
  obtain ⟨table, hresult, hlog⟩ := buildWith_of_le hmerging follow le_rfl
  refine ⟨rounds.length, g.buildWith follow rounds.length,
    table, hresult, ?_, ?_⟩
  · have hrounds := hmerging.length_le 1
    have htold := hlog.sublist.countP_le (p := BuildEvent.isMergedState)
    omega
  · intro limit
    exact ⟨fun hle => buildWith_congr hmerging follow hle le_rfl,
      buildWith_of_lt hmerging follow⟩

/-- Sums need a round. -/
example : (sums.build 0).result = .error (.nonTermination 0) := by
  decide +kernel

end Grammar

end ShiftReduce
