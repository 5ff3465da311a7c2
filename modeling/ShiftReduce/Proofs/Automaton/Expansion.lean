/-
Entering a move, turn by turn.

A move is entered together with the moves to the left corners of its target,
and this can be done while the left corners are still being found: in every
turn the item that has waited longest is served and entered, and if its symbol
is a nonterminal that has not been expanded, the first items of its productions
begin to wait. An item may come back after it has been served, because the
worklist only knows what is waiting, but every turn uses up an item or the
rules of a nonterminal, so with a rule for every turn but one the turns come to
an end. What has been written then is one write to the row of the source.

In this row a cell keeps the targets that it had and gets new ones behind them,
each once: the items with its symbol among the target of the move and the first
items of the nonterminals to which the symbol of the target leads.
-/
import ShiftReduce.Proofs.Automaton.Graph

namespace ShiftReduce

-- ======================================================= one write, many

namespace OrderedMap

variable {κ υ : Type} [DecidableEq κ]

private theorem updateEntries_updateEntries (k : κ) (f h : Option υ → υ)
    (es : List (κ × υ)) :
    updateEntries k h (updateEntries k f es)
      = updateEntries k (fun old => h (some (f old))) es := by
  induction es with
  | nil => simp [updateEntries]
  | cons e es ih =>
      by_cases hk : e.1 = k
      · simp [updateEntries, hk]
      · simp [updateEntries, hk, ih]

/-- Two writes to one key are one write. -/
theorem update_update (m : OrderedMap κ υ) (k : κ) (f h : Option υ → υ) :
    (m.update k f).update k h = m.update k fun old => h (some (f old)) :=
  ext_entries (updateEntries_updateEntries k f h m.entries)

end OrderedMap

namespace Cell

/-- Targets that are added go behind those that are there, each once. -/
theorem exists_added (cell : Cell) (targets : List StateKey) :
    ∃ added, (targets.foldl addShift cell).shifts = cell.shifts ++ added
      ∧ added.Nodup
      ∧ ∀ target, target ∈ added
        ↔ target ∈ targets ∧ target ∉ cell.shifts := by
  induction targets generalizing cell with
  | nil => exact ⟨[], (List.append_nil _).symm, List.nodup_nil, by simp⟩
  | cons first targets ih =>
      obtain ⟨added, hshifts, hnodup, hadded⟩ := ih (cell.addShift first)
      rw [List.foldl_cons, hshifts]
      unfold addShift at hadded ⊢
      by_cases hold : first ∈ cell.shifts
      · rw [if_pos hold] at hadded ⊢
        refine ⟨added, rfl, hnodup, fun target => ?_⟩
        rw [hadded, List.mem_cons]
        constructor
        · exact fun h => ⟨Or.inr h.1, h.2⟩
        · intro h
          obtain ⟨rfl | h, hnew⟩ := h
          · exact absurd hold hnew
          · exact ⟨h, hnew⟩
      · rw [if_neg hold] at hadded ⊢
        refine ⟨first :: added, by simp, ?_, fun target => ?_⟩
        · refine List.nodup_cons.mpr ⟨fun h => ?_, hnodup⟩
          exact ((hadded first).mp h).2 (by simp)
        · rw [List.mem_cons, hadded, List.mem_cons]
          simp only [List.mem_append, List.mem_singleton, not_or]
          by_cases heq : target = first
          · subst heq
            simp [hold]
          · simp [heq]

end Cell

namespace Row

/-- A cell that has not been created has no targets. -/
theorem shifts_cell_of_not_mem {row : Row} {symbol : Symbol}
    (h : symbol ∉ row.keys) : (row.cell symbol).shifts = [] := by
  cases hlookup : row.lookup symbol with
  | none =>
      unfold cell
      rw [hlookup]
      rfl
  | some c => exact absurd ((row.mem_keys_iff).mpr ⟨c, hlookup⟩) h

/-- Cells are created for the symbols of the items only. -/
theorem mem_keys_foldl_items {row : Row} {items : List Item}
    {symbol : Symbol} :
    symbol ∈ (items.foldl (fun row i => Row.addShift row i.symbol (.item i))
      row).keys
      ↔ symbol ∈ row.keys ∨ ∃ i ∈ items, i.symbol = symbol := by
  induction items generalizing row with
  | nil => simp
  | cons i items ih =>
      have hkeys : symbol ∈ (row.addShift i.symbol (.item i)).keys
          ↔ symbol ∈ row.keys ∨ symbol = i.symbol :=
            OrderedMap.mem_keys_update _ _ _ _
      rw [List.foldl_cons, ih, hkeys, or_assoc]
      simp [eq_comm]

end Row

-- ========================================================= turn by turn

namespace Rows

/-- Enter one move. -/
def enter (source : StateKey) (rows : Rows) (item : Item) : Rows :=
  rows.update source fun row =>
    (row.getD OrderedMap.empty).addShift item.symbol (.item item)

end Rows

/-- Left corners that are being found and entered. -/
structure Expansion where
  expanded : OrderedSet Symbol
  pending : Worklist Item
  rows : Rows

namespace Expansion

/-- Only the target waits, and nothing has been entered. -/
def start (rows : Rows) (target : Item) : Expansion :=
  ⟨OrderedSet.empty, Worklist.ofList [target], rows⟩

/-- One turn: an item is served and entered, and expanded if its symbol is a
nonterminal for the first time. There is no turn if nothing waits. -/
def turn? (g : Grammar) (source : StateKey) (e : Expansion) :
    Option Expansion :=
  match e.pending.pop? with
  | none => none
  | some (item, rest) =>
    let rows := e.rows.enter source item
    if isNonterminal item.symbol ∧ item.symbol ∉ e.expanded then
      some ⟨e.expanded.insert item.symbol,
        rest.pushAll (g.firstItems item.symbol), rows⟩
    else some ⟨e.expanded, rest, rows⟩

/-- The turns end, there are so many of them, and these are the rows then. -/
inductive Ends (g : Grammar) (source : StateKey) :
    Expansion → Nat → Rows → Prop
  | done {e : Expansion} (h : e.turn? g source = none) :
      Ends g source e 0 e.rows
  | turn {e next : Expansion} {turns : Nat} {rows : Rows}
      (h : e.turn? g source = some next)
      (rest : Ends g source next turns rows) : Ends g source e (turns + 1) rows

end Expansion

namespace Grammar

variable (g : Grammar)

/-- In the turns the left corners are entered, one in every turn. -/
theorem ends_leftCornersFrom (source : StateKey) (expanded : OrderedSet Symbol)
    (pending : Worklist Item) (rows : Rows) :
    Expansion.Ends g source ⟨expanded, pending, rows⟩
      (g.leftCornersFrom expanded pending).length
      ((g.leftCornersFrom expanded pending).foldl
        (Rows.enter source) rows) := by
  fun_induction leftCornersFrom g expanded pending generalizing rows with
  | case1 expanded pending served =>
      refine .done ?_
      unfold Expansion.turn?
      rw [served]
  | case2 expanded pending item rest served fresh ih =>
      refine .turn ?_ (ih _)
      unfold Expansion.turn?
      rw [served]
      exact if_pos fresh
  | case3 expanded pending item rest served stale ih =>
      refine .turn ?_ (ih _)
      unfold Expansion.turn?
      rw [served]
      exact if_neg stale

/-- There are no more turns than items that wait and rules that have not been
expanded. -/
theorem length_leftCornersFrom_le (expanded : OrderedSet Symbol)
    (pending : Worklist Item) :
    (g.leftCornersFrom expanded pending).length
      ≤ g.unexpanded expanded + pending.waiting.length := by
  fun_induction leftCornersFrom g expanded pending with
  | case1 expanded pending served => exact Nat.zero_le _
  | case2 expanded pending item rest served fresh ih =>
      have hserved := Worklist.length_waiting_of_pop? served
      have hpushed :=
        Worklist.length_waiting_pushAll_le rest (g.firstItems item.symbol)
      have hfirst := g.length_firstItems_le item.symbol
      have hused := g.unexpanded_insert expanded item.symbol fresh.2
      rw [List.length_cons]
      omega
  | case3 expanded pending item rest served stale ih =>
      have hserved := Worklist.length_waiting_of_pop? served
      rw [List.length_cons]
      omega

/-- A target and its left corners are entered in at most one turn more than
there are rules. -/
theorem length_leftCorners_le (target : Item) :
    (g.leftCorners target).length ≤ g.rules.length + 1 := by
  have hlength :=
    g.length_leftCornersFrom_le OrderedSet.empty (Worklist.ofList [target])
  have hrules : g.unexpanded OrderedSet.empty ≤ g.rules.length :=
    List.length_filter_le _ _
  have hwaiting : (Worklist.ofList [target]).waiting.length ≤ 1 :=
    Worklist.length_waiting_pushAll_le Worklist.empty [target]
  unfold leftCorners
  omega

end Grammar

namespace Rows

variable {g : Grammar} {rows : Rows} {source : StateKey} {target : Item}

/-- Several moves from one state are one write to its row. -/
theorem foldl_enter_cons (rows : Rows) (source : StateKey) (item : Item)
    (items : List Item) :
    (item :: items).foldl (enter source) rows
      = rows.update source fun row =>
          (item :: items).foldl
            (fun row i => Row.addShift row i.symbol (.item i))
            (row.getD OrderedMap.empty) := by
  induction items generalizing rows item with
  | nil => rfl
  | cons next items ih =>
      rw [List.foldl_cons, ih, enter, OrderedMap.update_update]
      rfl

/-- What the turns have written in the end is the move with its left
corners. -/
theorem foldl_enter_leftCorners (g : Grammar) (rows : Rows) (source : StateKey)
    (target : Item) :
    (g.leftCorners target).foldl (enter source) rows
      = rows.addMove g source target := by
  have htarget : target ∈ g.leftCorners target :=
    g.mem_leftCorners_iff.mpr (Or.inl rfl)
  unfold addMove
  cases hcorners : g.leftCorners target with
  | nil =>
      rw [hcorners] at htarget
      cases htarget
  | cons item items => exact foldl_enter_cons rows source item items

/-- The row of the source after a move. -/
theorem row_addMove (g : Grammar) (rows : Rows) (source : StateKey)
    (target : Item) :
    row (rows.addMove g source target) source
      = (g.leftCorners target).foldl
          (fun row i => Row.addShift row i.symbol (.item i))
          (rows.row source) := by
  unfold addMove
  rw [row_update, if_pos rfl]
  rfl

/-- The left corners of a target, in terms of rules. -/
theorem mem_leftCorners_iff_rule {item : Item} :
    item ∈ g.leftCorners target
      ↔ item = target
        ∨ ∃ rule, g.rule? item.rule = some rule
          ∧ g.Leads target.symbol rule.left
          ∧ rule.right.head? = some item.symbol ∧ item.position = 1 := by
  rw [g.mem_leftCorners_iff]
  refine or_congr_right ?_
  simp only [g.mem_firstItems_iff]
  constructor
  · intro h
    obtain ⟨c, hlead, rule, hrule, rfl, hhead, hposition⟩ := h
    exact ⟨rule, hrule, hlead, hhead, hposition⟩
  · intro h
    obtain ⟨rule, hrule, hlead, hhead, hposition⟩ := h
    exact ⟨rule.left, hlead, rule, hrule, rfl, hhead, hposition⟩

/-- Behind the targets that a cell of the source has come the left corners with
its symbol that it does not have. -/
theorem exists_added_addMove (g : Grammar) (rows : Rows) (source : StateKey)
    (target : Item) (symbol : Symbol) :
    ∃ added, ((rows.addMove g source target).cell source symbol).shifts
        = (rows.cell source symbol).shifts ++ added
      ∧ added.Nodup
      ∧ ∀ state, state ∈ added ↔ state ∉ (rows.cell source symbol).shifts
        ∧ ∃ item, state = .item item ∧ item.symbol = symbol
        ∧ item ∈ g.leftCorners target := by
  obtain ⟨added, hshifts, hnodup, hadded⟩ :=
    (rows.cell source symbol).exists_added
    (((g.leftCorners target).filter fun i => i.symbol = symbol).map
      StateKey.item)
  have hcell :=
    Row.cell_foldl_items (rows.row source) (g.leftCorners target) symbol
  rw [← row_addMove, ← cell_eq, ← cell_eq] at hcell
  refine ⟨added, by rw [hcell, hshifts], hnodup, fun state => ?_⟩
  rw [hadded, and_comm, List.mem_map]
  refine and_congr_right fun _ => exists_congr fun item => ?_
  rw [List.mem_filter, decide_eq_true_iff]
  exact ⟨fun ⟨⟨hitem, hsymbol⟩, hstate⟩ => ⟨hstate.symm, hsymbol, hitem⟩,
    fun ⟨hstate, hsymbol, hitem⟩ => ⟨⟨hitem, hsymbol⟩, hstate.symm⟩⟩

/-- Entering a move comes to an end, and it is exact. It takes at most one turn
more than there are rules. No other row changes. Every cell of the row of the
source keeps its targets and gets behind them, each once, those of the
following items with its symbol that it did not have: the target, and the first
items of all productions of the nonterminals to which the symbol of the target
leads. A cell is created only for a target. -/
theorem addMove_exact (g : Grammar) (rows : Rows) (source : StateKey)
    (target : Item) :
    (∃ turns ≤ g.rules.length + 1,
      (Expansion.start rows target).Ends g source turns
        (rows.addMove g source target))
    ∧ (∀ key, key = source
        ∨ (rows.addMove g source target).lookup key = rows.lookup key)
    ∧ ∀ symbol, ∃ added,
        ((rows.addMove g source target).cell source symbol).shifts
          = (rows.cell source symbol).shifts ++ added
        ∧ added.Nodup
        ∧ (∀ state, state ∈ added ↔ state ∉ (rows.cell source symbol).shifts
            ∧ ∃ item, state = .item item ∧ item.symbol = symbol
              ∧ (item = target ∨ ∃ rule, g.rule? item.rule = some rule
                ∧ g.Leads target.symbol rule.left
                ∧ rule.right.head? = some item.symbol ∧ item.position = 1))
        ∧ ((rows.addMove g source target).cell source symbol).reduce
          = (rows.cell source symbol).reduce
        ∧ (symbol ∈ ((rows.addMove g source target).row source).keys
          ↔ symbol ∈ (rows.row source).keys ∨ added ≠ []) := by
  refine ⟨⟨_, g.length_leftCorners_le target, ?_⟩,
    fun key => ?_, fun symbol => ?_⟩
  · rw [← foldl_enter_leftCorners]
    exact g.ends_leftCornersFrom source OrderedSet.empty
      (Worklist.ofList [target]) rows
  · by_cases hkey : key = source
    · exact Or.inl hkey
    · unfold addMove
      rw [OrderedMap.lookup_update, if_neg hkey]
      exact Or.inr rfl
  · obtain ⟨added, hshifts, hnodup, hadded⟩ :=
      exists_added_addMove g rows source target symbol
    refine ⟨added, hshifts, hnodup, ?_, reduce_addMove, ?_⟩
    · simp only [hadded, mem_leftCorners_iff_rule, implies_true]
    · rw [row_addMove, Row.mem_keys_foldl_items]
      by_cases hkey : symbol ∈ (rows.row source).keys
      · simp [hkey]
      · -- all left corners with the symbol are new to a cell that is not there
        have hnone : (rows.cell source symbol).shifts = [] :=
          Row.shifts_cell_of_not_mem hkey
        rw [or_iff_right hkey, or_iff_right hkey]
        constructor
        · intro h
          obtain ⟨i, hi, hsymbol⟩ := h
          refine List.ne_nil_of_mem
            ((hadded (.item i)).mpr ⟨?_, i, rfl, hsymbol, hi⟩)
          simp [hnone]
        · intro hne
          obtain ⟨state, hstate⟩ := List.exists_mem_of_ne_nil _ hne
          obtain ⟨-, i, -, hsymbol, hi⟩ := (hadded state).mp hstate
          exact ⟨i, hi, hsymbol⟩

end Rows

end ShiftReduce
