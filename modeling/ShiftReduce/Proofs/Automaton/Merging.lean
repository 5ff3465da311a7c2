/-
What merging keeps.

A round of merging rewrites cells in place, and a row that is united may
hold cells that have been merged in this round next to others that have
not. So neither the targets of a cell nor the row of a state mean the same
from one moment to the next. What does stay is what a cell comes to when
the items of its targets are put together: at every moment these are the
successors of its state in the graph of items. Redirecting a cell to the
union of its targets does not change them, and neither does uniting rows
after the fact, because the successors of a union are the union of the
successors.

Once no cell has several targets, this says that the one target of a cell
is the state of the successors.
-/
import ShiftReduce.Proofs.Automaton.Graph

namespace ShiftReduce

namespace Rows

variable {g : Grammar} {rows : Rows}

/-- The rows are faithful to the graph of items: the targets of a cell make
up the successors of its state. All states are known by the sets of their
items, and nothing is reduced yet. -/
structure Faithful (g : Grammar) (rows : Rows) : Prop where
  start : .start ∈ rows.keys
  named : ∀ key ∈ rows.keys, key = .start ∨ ∃ s, key.Names s
  entered : ∀ key symbol target, target ∈ (rows.cell key symbol).shifts →
    target ∈ rows.keys ∧ target ≠ .start
  flat : ∀ key ∈ rows.keys, ∀ symbol i, i ∈ g.successors key symbol
    ↔ ∃ target ∈ (rows.cell key symbol).shifts, i ∈ target.items
  unreduced : ∀ key symbol, (rows.cell key symbol).reduce = none

theorem Faithful.target_named (h : Faithful g rows) {key target : StateKey}
    {symbol : Symbol} (ht : target ∈ (rows.cell key symbol).shifts) :
    ∃ s, target.Names s := by
  obtain ⟨hkey, hne⟩ := h.entered key symbol target ht
  exact (h.named target hkey).resolve_left hne

/-- The graph of items is faithful to itself. -/
theorem faithful_ofGrammar (g : Grammar) : Faithful g (ofGrammar g) where
  start := mem_keys_ofGrammar.mpr (Or.inl rfl)
  named := by
    intro key hkey
    rcases mem_keys_ofGrammar.mp hkey with rfl | ⟨i, -, rfl⟩
    · exact Or.inl rfl
    · exact Or.inr ⟨{i}, rfl⟩
  entered := by
    intro key symbol target ht
    obtain ⟨i, hi, rfl⟩ :=
      (mem_shifts_ofGrammar_iff (mem_keys_of_mem_shifts ht)).mp ht
    exact ⟨mem_keys_ofGrammar.mpr (Or.inr ⟨i,
      Grammar.mem_items_of_mem_successors hi, rfl⟩), by simp⟩
  flat := by
    intro key hkey symbol i
    constructor
    · intro hi
      exact ⟨.item i, (mem_shifts_ofGrammar_iff hkey).mpr ⟨i, hi, rfl⟩,
        List.mem_singleton_self i⟩
    · intro h
      obtain ⟨target, ht, hi⟩ := h
      obtain ⟨j, hj, rfl⟩ := (mem_shifts_ofGrammar_iff hkey).mp ht
      cases List.mem_singleton.mp hi
      exact hj
  unreduced := reduce_ofGrammar

-- ========================================================== one merger

/-- The state into which the targets of a cell are merged. -/
def merger (rows : Rows) (key : StateKey) (symbol : Symbol) : StateKey :=
  StateKey.union (rows.cell key symbol).shifts

/-- The rows with a cell redirected to the merger of its targets. -/
def redirected (rows : Rows) (key : StateKey) (symbol : Symbol) : Rows :=
  rows.redirect key symbol (rows.merger key symbol)

theorem mergeCell_eq (rows : Rows) (key : StateKey) (symbol : Symbol) :
    rows.mergeCell (key, symbol)
      = if (rows.redirected key symbol).contains (rows.merger key symbol)
        then rows.redirected key symbol
        else (rows.redirected key symbol).insert (rows.merger key symbol)
          ((rows.redirected key symbol).unionRow
            (rows.cell key symbol).shifts) := rfl

variable {key : StateKey} {symbol : Symbol}

theorem mem_keys_redirected (hlive : (rows.cell key symbol).shifts ≠ [])
    {other : StateKey} :
    other ∈ (rows.redirected key symbol).keys ↔ other ∈ rows.keys := by
  refine mem_keys_redirect.trans (or_iff_left_of_imp ?_)
  intro h
  rw [h]
  exact mem_keys_of_shifts_ne_nil hlive

/-- A target of a cell after redirection is the merger, or was a target
before. -/
theorem mem_shifts_redirected {other target : StateKey} {on : Symbol}
    (ht : target ∈ ((rows.redirected key symbol).cell other on).shifts) :
    target = rows.merger key symbol
      ∨ target ∈ (rows.cell other on).shifts := by
  rw [redirected, cell_redirect] at ht
  split at ht
  · exact Or.inl (List.mem_singleton.mp ht)
  · exact Or.inr ht

/-- A cell with targets keeps some when another one is redirected. -/
theorem shifts_redirected_ne_nil {other : StateKey} {on : Symbol}
    (h : (rows.cell other on).shifts ≠ []) :
    ((rows.redirected key symbol).cell other on).shifts ≠ [] := by
  rw [redirected, cell_redirect]
  split
  · exact List.cons_ne_nil _ _
  · exact h

namespace Faithful

theorem unreduced_redirected (h : Faithful g rows) (other : StateKey)
    (on : Symbol) :
    ((rows.redirected key symbol).cell other on).reduce = none := by
  rw [redirected, cell_redirect]
  split
  · exact h.unreduced key symbol
  · exact h.unreduced other on

/-- The targets of a cell merge into the state of the successors. -/
theorem names_merger (h : Faithful g rows)
    (hlive : (rows.cell key symbol).shifts ≠ []) :
    (rows.merger key symbol).Names (g.successors key symbol) := by
  obtain ⟨target, ht⟩ := List.exists_mem_of_ne_nil _ hlive
  obtain ⟨s, hs⟩ := h.target_named ht
  obtain ⟨i, hi⟩ := hs.nonempty
  have hset : g.successors key symbol
      = {i | ∃ target ∈ (rows.cell key symbol).shifts, i ∈ target.items} :=
    Set.ext (h.flat key (mem_keys_of_mem_shifts ht) symbol)
  rw [hset]
  exact StateKey.names_union
    (List.mem_flatMap.mpr ⟨target, ht, hs.mem_iff.mp hi⟩)

/-- A cell that is redirected to the merger of its targets still comes to
the same. -/
theorem flat_redirected (h : Faithful g rows)
    (hlive : (rows.cell key symbol).shifts ≠ []) {other : StateKey}
    (hother : other ∈ rows.keys) (on : Symbol) (i : Item) :
    i ∈ g.successors other on
      ↔ ∃ target ∈ ((rows.redirected key symbol).cell other on).shifts,
        i ∈ target.items := by
  rw [redirected, cell_redirect]
  by_cases hplace : other = key ∧ on = symbol
  · obtain ⟨rfl, rfl⟩ := hplace
    rw [if_pos ⟨rfl, rfl⟩, (h.names_merger hlive).mem_iff]
    simp
  · rw [if_neg hplace]
    exact h.flat other hother on i

/-- The successors of the merger are the successors of its parts. -/
theorem mem_successors_merger (h : Faithful g rows)
    (hlive : (rows.cell key symbol).shifts ≠ []) {on : Symbol} {i : Item} :
    i ∈ g.successors (rows.merger key symbol) on
      ↔ ∃ part ∈ (rows.cell key symbol).shifts, i ∈ g.successors part on := by
  have hkey := mem_keys_of_shifts_ne_nil hlive
  rw [Grammar.successors_of_names (h.names_merger hlive),
    Grammar.mem_after_iff]
  constructor
  · intro hi
    obtain ⟨hsymbol, k, hk, hedge⟩ := hi
    obtain ⟨part, hpart, hkpart⟩ := (h.flat key hkey symbol k).mp hk
    obtain ⟨s, hs⟩ := h.target_named hpart
    refine ⟨part, hpart, ?_⟩
    rw [Grammar.successors_of_names hs]
    exact ⟨hsymbol, k, hs.mem_iff.mpr hkpart, hedge⟩
  · intro hi
    obtain ⟨part, hpart, hi⟩ := hi
    obtain ⟨s, hs⟩ := h.target_named hpart
    rw [Grammar.successors_of_names hs] at hi
    obtain ⟨hsymbol, k, hk, hedge⟩ := hi
    exact ⟨hsymbol, k,
      (h.flat key hkey symbol k).mpr ⟨part, hpart, hs.mem_iff.mp hk⟩, hedge⟩

/-- If the merger is a state already, to redirect the cell keeps the rows
faithful. -/
theorem redirected (h : Faithful g rows)
    (hlive : (rows.cell key symbol).shifts ≠ [])
    (hold : rows.merger key symbol ∈ rows.keys) :
    Faithful g (rows.redirected key symbol) where
  start := (mem_keys_redirected hlive).mpr h.start
  named := fun other ho => h.named other ((mem_keys_redirected hlive).mp ho)
  entered := by
    intro other on target ht
    rw [mem_keys_redirected hlive]
    rcases mem_shifts_redirected ht with rfl | ht
    · exact ⟨hold, (h.names_merger hlive).ne_start⟩
    · exact h.entered other on target ht
  flat := fun other ho =>
    h.flat_redirected hlive ((mem_keys_redirected hlive).mp ho)
  unreduced := h.unreduced_redirected

/-- A merger that is new becomes a state with the row that its parts have
then, and the rows stay faithful. -/
theorem insert_merger (h : Faithful g rows)
    (hlive : (rows.cell key symbol).shifts ≠ []) :
    Faithful g ((rows.redirected key symbol).insert (rows.merger key symbol)
      ((rows.redirected key symbol).unionRow
        (rows.cell key symbol).shifts)) := by
  have hnames := h.names_merger hlive
  have hkeys : ∀ {other}, other ∈ ((rows.redirected key symbol).insert
      (rows.merger key symbol)
      ((rows.redirected key symbol).unionRow
        (rows.cell key symbol).shifts)).keys
        ↔ other ∈ rows.keys ∨ other = rows.merger key symbol := fun {other} =>
    (OrderedMap.mem_keys_update _ _ other _).trans
    (or_congr_left (mem_keys_redirected hlive))
  refine ⟨hkeys.mpr (Or.inl h.start), ?_, ?_, ?_, ?_⟩
  · intro other ho
    rcases hkeys.mp ho with ho | rfl
    · exact h.named other ho
    · exact Or.inr ⟨_, hnames⟩
  · intro other on target ht
    have hfrom :
        ∃ k, target ∈ ((rows.redirected key symbol).cell k on).shifts := by
      rw [cell_eq, row_insert] at ht
      split at ht
      · obtain ⟨k, -, hk⟩ := mem_shifts_unionRow.mp ht
        exact ⟨k, hk⟩
      · exact ⟨other, ht⟩
    obtain ⟨k, hk⟩ := hfrom
    rw [hkeys]
    rcases mem_shifts_redirected hk with rfl | hk
    · exact ⟨Or.inr rfl, hnames.ne_start⟩
    · obtain ⟨hentered, hne⟩ := h.entered k on target hk
      exact ⟨Or.inl hentered, hne⟩
  · intro other ho on i
    rw [cell_eq, row_insert]
    split
    · next heq =>
        -- the new row has the targets of the parts, which make up their
        -- successors
        have hparts : ∀ part ∈ (rows.cell key symbol).shifts,
            i ∈ g.successors part on
            ↔ ∃ target ∈ ((rows.redirected key symbol).cell part on).shifts,
              i ∈ target.items := fun part hpart =>
          h.flat_redirected hlive (h.entered key symbol part hpart).1 on i
        rw [heq, h.mem_successors_merger hlive]
        constructor
        · intro hi
          obtain ⟨part, hpart, hi⟩ := hi
          obtain ⟨target, ht, hitem⟩ := (hparts part hpart).mp hi
          exact ⟨target, mem_shifts_unionRow.mpr ⟨part, hpart, ht⟩, hitem⟩
        · intro hi
          obtain ⟨target, ht, hitem⟩ := hi
          obtain ⟨part, hpart, ht⟩ := mem_shifts_unionRow.mp ht
          exact ⟨part, hpart, (hparts part hpart).mpr ⟨target, ht, hitem⟩⟩
    · next hne =>
        exact h.flat_redirected hlive ((hkeys.mp ho).resolve_right hne) on i
  · intro other on
    rw [cell_eq, row_insert]
    split
    · exact reduce_unionRow _ _ _
    · exact h.unreduced_redirected other on

/-- Merging the targets of a cell keeps the rows faithful. -/
theorem mergeCell (h : Faithful g rows)
    (hlive : (rows.cell key symbol).shifts ≠ []) :
    Faithful g (rows.mergeCell (key, symbol)) := by
  rw [mergeCell_eq]
  split
  · next hcontains =>
      have hold := (OrderedMap.contains_iff _).mp hcontains
      exact h.redirected hlive ((mem_keys_redirected hlive).mp hold)
  · exact h.insert_merger hlive

end Faithful

/-- A cell with targets still has some after another one is merged. -/
theorem shifts_mergeCell_ne_nil {other : StateKey} {on : Symbol}
    (h : (rows.cell other on).shifts ≠ []) :
    ((rows.mergeCell (key, symbol)).cell other on).shifts ≠ [] := by
  rw [mergeCell_eq]
  split
  · exact shifts_redirected_ne_nil h
  · next hcontains =>
      -- a state with a target is not the one that is new
      have hold : other ≠ rows.merger key symbol := by
        intro heq
        refine hcontains ((OrderedMap.contains_iff _).mpr ?_)
        rw [← heq]
        exact mem_keys_redirect.mpr (Or.inl (mem_keys_of_shifts_ne_nil h))
      rw [cell_eq, row_insert, if_neg hold]
      exact shifts_redirected_ne_nil h

-- ============================================================== rounds

/-- Merging several cells that have targets keeps the rows faithful. -/
theorem Faithful.foldl_mergeCell {places : List (StateKey × Symbol)}
    (h : Faithful g rows)
    (hlive : ∀ place ∈ places, (rows.cell place.1 place.2).shifts ≠ []) :
    Faithful g (places.foldl Rows.mergeCell rows) := by
  induction places generalizing rows with
  | nil => exact h
  | cons place places ih =>
      rw [List.forall_mem_cons] at hlive
      exact ih (h.mergeCell hlive.1) fun other ho =>
        shifts_mergeCell_ne_nil (hlive.2 other ho)

theorem shifts_ne_nil_of_ambiguous :
    ∀ place ∈ rows.ambiguous, (rows.cell place.1 place.2).shifts ≠ [] := by
  intro place hplace
  have hseveral := mem_ambiguous_iff.mp hplace
  exact List.ne_nil_of_length_pos (by omega)

/-- A round keeps the rows faithful. -/
theorem Faithful.mergeRound (h : Faithful g rows) :
    Faithful g rows.mergeRound :=
  h.foldl_mergeCell shifts_ne_nil_of_ambiguous

theorem afterRounds_cons (rows next : Rows) (rounds : List Rows) :
    rows.afterRounds (next :: rounds) = next.afterRounds rounds := by
  unfold afterRounds
  rw [List.getLast?_cons, Option.getD_some]

/-- After the rounds of merging the rows are faithful, and if the rounds
are within the limit no cell is ambiguous. -/
theorem Faithful.afterRounds (h : Faithful g rows) (limit : Nat) :
    Faithful g (rows.afterRounds (rows.mergeRounds limit))
      ∧ ((rows.mergeRounds limit).length ≤ limit →
        (rows.afterRounds (rows.mergeRounds limit)).ambiguous = []) := by
  induction limit generalizing rows with
  | zero =>
      unfold mergeRounds
      split
      · next hnone => exact ⟨h, fun _ => List.isEmpty_iff.mp hnone⟩
      · exact ⟨h.mergeRound, fun hlen => nomatch hlen⟩
  | succ limit ih =>
      unfold mergeRounds
      split
      · next hnone => exact ⟨h, fun _ => List.isEmpty_iff.mp hnone⟩
      · dsimp only
        rw [afterRounds_cons]
        obtain ⟨hfaithful, hdone⟩ := ih h.mergeRound
        exact ⟨hfaithful, fun hlen => hdone (Nat.le_of_succ_le_succ hlen)⟩

/-- Where no cell is ambiguous, a target of a cell is the only one. -/
theorem shifts_eq_singleton (hclear : rows.ambiguous = [])
    {key target : StateKey} {symbol : Symbol}
    (ht : target ∈ (rows.cell key symbol).shifts) :
    (rows.cell key symbol).shifts = [target] := by
  have hshort : ¬ 1 < (rows.cell key symbol).shifts.length := by
    intro hlong
    have hmem := mem_ambiguous_iff.mpr hlong
    rw [hclear] at hmem
    cases hmem
  obtain ⟨only, honly⟩ : ∃ only, (rows.cell key symbol).shifts = [only] := by
    refine List.length_eq_one_iff.mp ?_
    have hpos := List.length_pos_of_mem ht
    omega
  rw [honly, List.mem_singleton] at ht
  rw [honly, ht]

/-- Where no cell is ambiguous, a target of a cell is the state of the
successors. -/
theorem Faithful.names_of_mem_shifts (h : Faithful g rows)
    (hclear : rows.ambiguous = []) {key : StateKey} (hkey : key ∈ rows.keys)
    {symbol : Symbol} {target : StateKey}
    (ht : target ∈ (rows.cell key symbol).shifts) :
    target.Names (g.successors key symbol) := by
  obtain ⟨s, hs⟩ := h.target_named ht
  have hset : g.successors key symbol = s := by
    ext i
    rw [h.flat key hkey symbol i, hs.mem_iff, shifts_eq_singleton hclear ht]
    simp
  rwa [hset]

/-- Where no cell is ambiguous, a cell has the state of the successors for
its target, if there are successors. -/
theorem Faithful.shifts_eq_singleton_iff (h : Faithful g rows)
    (hclear : rows.ambiguous = []) {key : StateKey} (hkey : key ∈ rows.keys)
    {symbol : Symbol} {target : StateKey} :
    (rows.cell key symbol).shifts = [target]
      ↔ target.Names (g.successors key symbol) := by
  constructor
  · intro hcell
    exact h.names_of_mem_shifts hclear hkey (by simp [hcell])
  · intro hnames
    obtain ⟨i, hi⟩ := hnames.nonempty
    obtain ⟨only, honly, -⟩ := (h.flat key hkey symbol i).mp hi
    rw [shifts_eq_singleton hclear honly,
      (h.names_of_mem_shifts hclear hkey honly).unique hnames]

end Rows

end ShiftReduce
