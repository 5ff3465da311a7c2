/-
The graph of items and its sets.

What the builder starts from is a list of moves, each of which is entered
together with the moves to the left corners of its target. As a graph it
is simpler: from the position in front of a symbol one edge goes over that
symbol, and if the symbol is a nonterminal there is an edge into the first
item of every production of every nonterminal to which it leads. An edge
is labelled by the symbol of the item in which it ends, so several edges
with one label may leave an item.

Read as a machine that may be in several items at once, the graph turns a
word into a set of items: those in which it may be after the word. These
sets are what the states of the finished automaton are about. The start
state is no item and is treated by itself.
-/
import ShiftReduce.Automaton.ItemGraph
import ShiftReduce.Proofs.Automaton.Cells
import ShiftReduce.Proofs.Automaton.Corner
import ShiftReduce.Proofs.Automaton.Keys

namespace ShiftReduce

-- ========================================================== the graph

namespace Grammar

/-- The edges that leave the position in front of a symbol of a rule. -/
inductive Edge (g : Grammar) (index position : Nat) : Item → Prop where
  /-- Over the symbol, to the next position of the rule. -/
  | advance {rule : Rule} {symbol : Symbol} (hrule : g.rule? index = some rule)
      (hsymbol : rule.right[position]? = some symbol) :
      Edge g index position ⟨symbol, index, position + 1⟩
  /-- Over the first symbol of a production of a nonterminal to which the
  symbol leads. -/
  | corner {rule production : Rule} {b symbol : Symbol} {q : Nat}
      (hrule : g.rule? index = some rule)
      (hsymbol : rule.right[position]? = some b)
      (hproduction : g.rule? q = some production)
      (lead : g.Leads b production.left)
      (first : production.right.head? = some symbol) :
        Edge g index position ⟨symbol, q, 1⟩

/-- The items into which the start state may go on a symbol: those into
which edges with that label go from the beginnings of the productions of
the start symbol. -/
def entered (g : Grammar) (symbol : Symbol) : Set Item :=
  {i | i.symbol = symbol ∧ ∃ index rule, g.rule? index = some rule
    ∧ rule.left = g.startSymbol ∧ g.Edge index 0 i}

/-- The items into which edges with a label go from a set of items. -/
def after (g : Grammar) (s : Set Item) (symbol : Symbol) : Set Item :=
  {i | i.symbol = symbol ∧ ∃ k ∈ s, g.Edge k.rule k.position i}

/-- The items in which the start state may be after a nonempty word, given
by its first symbol and the others. -/
def reached (g : Grammar) (symbol : Symbol) (word : List Symbol) : Set Item :=
  word.foldl g.after (g.entered symbol)

/-- The items into which a state may go on a symbol. -/
def successors (g : Grammar) (key : StateKey) (symbol : Symbol) : Set Item :=
  match key with
  | .start => g.entered symbol
  | key => g.after {i | i ∈ key.items} symbol

variable {g : Grammar}

theorem mem_after_iff {s : Set Item} {symbol : Symbol} {i : Item} :
    i ∈ g.after s symbol
      ↔ i.symbol = symbol ∧ ∃ k ∈ s, g.Edge k.rule k.position i :=
  Iff.rfl

/-- What a state that is not the start state goes into is determined by the
set that it names. -/
theorem successors_of_names {key : StateKey} {s : Set Item} (h : key.Names s)
    (symbol : Symbol) : g.successors key symbol = g.after s symbol := by
  have hs : s = {i | i ∈ key.items} := Set.ext fun i => h.mem_iff
  rw [hs]
  cases key with
  | start => exact h.elim
  | item i => rfl
  | merged is => rfl

theorem reached_concat (symbol last : Symbol) (word : List Symbol) :
    g.reached symbol (word ++ [last])
      = g.after (g.reached symbol word) last := by
  unfold reached
  rw [List.foldl_append]
  rfl

/-- The label of an edge is the symbol before the item in which it ends,
and the item is an item of the grammar. -/
theorem Edge.isItem {index position : Nat} {i : Item}
    (h : g.Edge index position i) :
    ∃ rule n, g.rule? i.rule = some rule ∧ i.position = n + 1
      ∧ rule.right[n]? = some i.symbol := by
  cases h with
  | advance hrule hsymbol => exact ⟨_, position, hrule, rfl, hsymbol⟩
  | corner _ _ hproduction _ first =>
      exact ⟨_, 0, hproduction, rfl,
        by rw [← List.head?_eq_getElem?]; exact first⟩

/-- The edges from a position are to the left corners of the next item. -/
theorem edge_iff_mem_leftCorners {index position : Nat} {i : Item} :
    g.Edge index position i
      ↔ ∃ rule symbol, g.rule? index = some rule
        ∧ rule.right[position]? = some symbol
        ∧ i ∈ g.leftCorners ⟨symbol, index, position + 1⟩ := by
  constructor
  · intro h
    cases h with
    | advance hrule hsymbol =>
        exact ⟨_, _, hrule, hsymbol, g.mem_leftCorners_iff.mpr (Or.inl rfl)⟩
    | corner hrule hsymbol hproduction lead first =>
        refine ⟨_, _, hrule, hsymbol,
          g.mem_leftCorners_iff.mpr (Or.inr ⟨_, lead, ?_⟩)⟩
        exact g.mem_firstItems_iff.mpr ⟨_, hproduction, rfl, first, rfl⟩
  · intro h
    obtain ⟨rule, symbol, hrule, hsymbol, hcorner⟩ := h
    rcases g.mem_leftCorners_iff.mp hcorner with rfl | ⟨c, lead, hfirst⟩
    · exact .advance hrule hsymbol
    · obtain ⟨production, hproduction, rfl, first, hposition⟩ :=
        g.mem_firstItems_iff.mp hfirst
      obtain ⟨s, q, p⟩ := i
      cases hposition
      exact .corner hrule hsymbol hproduction lead first

-- ========================================================== the moves

theorem mem_itemsOf_iff {index : Nat} {rule : Rule} {i : Item} :
    i ∈ itemsOf index rule
      ↔ i.rule = index ∧ ∃ n, i.position = n + 1
        ∧ rule.right[n]? = some i.symbol := by
  unfold itemsOf
  rw [List.mem_map]
  constructor
  · intro h
    obtain ⟨⟨symbol, n⟩, hmem, rfl⟩ := h
    exact ⟨rfl, n, rfl, List.mem_zipIdx_iff_getElem?.mp hmem⟩
  · intro h
    obtain ⟨hindex, n, hposition, hsymbol⟩ := h
    refine ⟨(i.symbol, n), List.mem_zipIdx_iff_getElem?.mpr hsymbol, ?_⟩
    rw [← hindex, ← hposition]

/-- The items of a grammar are the positions behind the symbols of its
rules. -/
theorem mem_items_iff {i : Item} :
    i ∈ g.items ↔ ∃ rule n, g.rule? i.rule = some rule ∧ i.position = n + 1
      ∧ rule.right[n]? = some i.symbol := by
  unfold items
  rw [List.mem_flatMap]
  constructor
  · intro h
    obtain ⟨⟨index, rule⟩, hmem, hi⟩ := h
    obtain ⟨rfl, n, hposition, hsymbol⟩ := mem_itemsOf_iff.mp hi
    exact ⟨rule, n, g.mem_numberedRules_iff.mp hmem, hposition, hsymbol⟩
  · intro h
    obtain ⟨rule, n, hrule, hposition, hsymbol⟩ := h
    exact ⟨(i.rule, rule), g.mem_numberedRules_iff.mpr hrule,
      mem_itemsOf_iff.mpr ⟨rfl, n, hposition, hsymbol⟩⟩

/-- States go into items of the grammar. -/
theorem mem_items_of_mem_successors {key : StateKey} {symbol : Symbol}
    {i : Item} (h : i ∈ g.successors key symbol) : i ∈ g.items := by
  rw [mem_items_iff]
  cases key with
  | start =>
      obtain ⟨-, _, _, -, -, hedge⟩ := h
      exact hedge.isItem
  | item j =>
      obtain ⟨-, _, -, hedge⟩ := h
      exact hedge.isItem
  | merged js =>
      obtain ⟨-, _, -, hedge⟩ := h
      exact hedge.isItem

theorem getElem?_itemsOf {index n : Nat} {rule : Rule} :
    (itemsOf index rule)[n]? = rule.right[n]?.map fun symbol =>
      ⟨symbol, index, n + 1⟩ := by
  unfold itemsOf
  rw [List.getElem?_map, List.getElem?_zipIdx, Option.map_map, Nat.zero_add]
  rfl

theorem mem_movesWithin_iff {index : Nat} {rule : Rule} {source : StateKey}
    {target : Item} :
    (source, target) ∈ movesWithin index rule
      ↔ ∃ n symbol last, rule.right[n]? = some symbol
        ∧ rule.right[n + 1]? = some last
          ∧ source = .item ⟨symbol, index, n + 1⟩
          ∧ target = ⟨last, index, n + 2⟩ := by
  unfold movesWithin
  simp only [List.mem_map, Prod.mk.injEq, Prod.exists]
  constructor
  · intro h
    obtain ⟨i, j, hmem, rfl, rfl⟩ := h
    obtain ⟨n, hn⟩ := List.getElem?_of_mem hmem
    obtain ⟨hi, hj⟩ := List.getElem?_zip_eq_some.mp hn
    rw [List.getElem?_tail] at hj
    rw [getElem?_itemsOf, Option.map_eq_some_iff] at hi hj
    obtain ⟨symbol, hsymbol, rfl⟩ := hi
    obtain ⟨last, hlast, rfl⟩ := hj
    exact ⟨n, symbol, last, hsymbol, hlast, rfl, rfl⟩
  · intro h
    obtain ⟨n, symbol, last, hsymbol, hlast, rfl, rfl⟩ := h
    have hi : (itemsOf index rule)[n]? = some ⟨symbol, index, n + 1⟩ := by
      rw [getElem?_itemsOf, hsymbol]
      rfl
    have hj : (itemsOf index rule).tail[n]? = some ⟨last, index, n + 2⟩ := by
      rw [List.getElem?_tail, getElem?_itemsOf, hlast]
      rfl
    exact ⟨_, _, List.mem_of_getElem? (List.getElem?_zip_eq_some.mpr ⟨hi, hj⟩),
      rfl, rfl⟩

end Grammar

-- =========================================================== the rows

namespace Row

/-- The cell of a symbol gets the items with this symbol. -/
theorem cell_foldl_items (row : Row) (items : List Item) (symbol : Symbol) :
    (items.foldl (fun row i => Row.addShift row i.symbol (.item i)) row).cell
        symbol
      = ((items.filter fun i => i.symbol = symbol).map StateKey.item).foldl
          Cell.addShift (row.cell symbol) := by
  induction items generalizing row with
  | nil => rfl
  | cons i items ih =>
      rw [List.foldl_cons, ih, cell_addShift]
      by_cases h : i.symbol = symbol
      · subst h
        simp
      · rw [if_neg (Ne.symm h), List.filter_cons_of_neg (by simpa using h)]

theorem mem_shifts_foldl_items {row : Row} {items : List Item}
    {symbol : Symbol} {target : StateKey} :
    target ∈ ((items.foldl (fun row i => Row.addShift row i.symbol (.item i))
      row).cell
        symbol).shifts
      ↔ target ∈ (row.cell symbol).shifts
        ∨ ∃ i ∈ items, i.symbol = symbol ∧ target = .item i := by
  rw [cell_foldl_items, Cell.mem_shifts_foldl_addShift]
  simp [and_assoc, eq_comm]

theorem reduce_foldl_items {row : Row} {items : List Item} {symbol : Symbol} :
    ((items.foldl (fun row i => Row.addShift row i.symbol (.item i)) row).cell
      symbol).reduce
      = (row.cell symbol).reduce := by
  rw [cell_foldl_items, Cell.reduce_foldl_addShift]

end Row

namespace Rows

variable {g : Grammar}

theorem mem_shifts_addMove {rows : Rows} {source key target : StateKey}
    {next : Item} {symbol : Symbol} :
    target ∈ ((rows.addMove g source next).cell key symbol).shifts
      ↔ target ∈ (rows.cell key symbol).shifts
        ∨ (key = source ∧ ∃ i ∈ g.leftCorners next, i.symbol = symbol
          ∧ target = .item i) := by
  rw [cell_eq, addMove, row_update]
  by_cases h : key = source
  · subst h
    rw [if_pos rfl, Row.mem_shifts_foldl_items]
    simp only [true_and]
    rfl
  · rw [if_neg h]
    simp only [h, false_and, or_false]
    rfl

theorem reduce_addMove {rows : Rows} {source key : StateKey} {next : Item}
    {symbol : Symbol} :
    ((rows.addMove g source next).cell key symbol).reduce
      = (rows.cell key symbol).reduce := by
  rw [cell_eq, addMove, row_update]
  split
  · next h =>
      rw [h, Row.reduce_foldl_items]
      rfl
  · rfl

theorem cell_blank (keys : List StateKey) (key : StateKey) (symbol : Symbol) :
    (blank keys).cell key symbol = Cell.empty := by
  unfold blank cell row
  rw [OrderedMap.lookup_ofList_const]
  split <;> rfl

-- ========================================================= the pieces

/-- Moves from states of the first of two parts leave the second as it is. -/
theorem entries_addMoves_left {rows left right : Rows}
    {moves : List (StateKey × Item)}
    (hrows : rows.entries = left.entries ++ right.entries)
    (h : ∀ move ∈ moves, move.1 ∈ left.keys) :
    (rows.addMoves g moves).entries
      = (left.addMoves g moves).entries ++ right.entries := by
  unfold addMoves
  induction moves generalizing rows left with
  | nil => exact hrows
  | cons move moves ih =>
      rw [List.forall_mem_cons] at h
      refine ih (OrderedMap.entries_update_left hrows h.1 _) ?_
      intro other hother
      show other.1 ∈ (left.update move.1 _).keys
      rw [OrderedMap.keys_update, if_pos h.1]
      exact h.2 other hother

/-- And moves from other states leave the first part as it is. -/
theorem entries_addMoves_right {rows left right : Rows}
    {moves : List (StateKey × Item)}
    (hrows : rows.entries = left.entries ++ right.entries)
    (h : ∀ move ∈ moves, move.1 ∉ left.keys) :
    (rows.addMoves g moves).entries
      = left.entries ++ (right.addMoves g moves).entries := by
  unfold addMoves
  induction moves generalizing rows right with
  | nil => exact hrows
  | cons move moves ih =>
      rw [List.forall_mem_cons] at h
      exact ih (OrderedMap.entries_update_right hrows h.1 _) h.2

/-- Pieces without a common state may be made one by one or all together. -/
theorem entries_addMoves_pieces {pieces : List Grammar.Piece}
    (hnodup : (pieces.flatMap Grammar.Piece.states).Nodup)
    (hsource : ∀ piece ∈ pieces, ∀ move ∈ piece.moves,
      move.1 ∈ piece.states) :
    ((blank (pieces.flatMap Grammar.Piece.states)).addMoves g
        (pieces.flatMap Grammar.Piece.moves)).entries
      = (pieces.map (ofPiece g)).flatMap OrderedMap.entries := by
  induction pieces with
  | nil => rfl
  | cons piece pieces ih =>
      rw [List.flatMap_cons] at hnodup
      rw [List.forall_mem_cons] at hsource
      obtain ⟨hpiece, hrest, hapart⟩ := List.nodup_append.mp hnodup
      have hkeys := keys_blank hpiece
      -- the moves of the piece first, while the other pieces are blank
      have hblank : (blank (piece.states
            ++ pieces.flatMap Grammar.Piece.states)).entries
          = (blank piece.states).entries
            ++ (blank (pieces.flatMap Grammar.Piece.states)).entries := by
        rw [entries_blank hnodup, entries_blank hpiece, entries_blank hrest,
          List.map_append]
      have hfirst := entries_addMoves_left (g := g) hblank
        fun move hmove => hkeys.symm ▸ hsource.1 move hmove
      have hothers : ∀ move ∈ pieces.flatMap Grammar.Piece.moves,
          move.1 ∉ ((blank piece.states).addMoves g piece.moves).keys := by
        intro move hmove hmem
        rw [keys_addMoves fun other h => hkeys.symm ▸ hsource.1 other h,
          hkeys] at hmem
        obtain ⟨other, hother, hmove⟩ := List.mem_flatMap.mp hmove
        refine hapart _ hmem _ (List.mem_flatMap.mpr ⟨other, hother, ?_⟩) rfl
        exact hsource.2 other hother move hmove
      have hlast := entries_addMoves_right (g := g) hfirst hothers
      rw [List.flatMap_cons, List.flatMap_cons, List.map_cons,
        List.flatMap_cons, ← ih hrest hsource.2]
      unfold addMoves at hlast ⊢
      rw [List.foldl_append]
      exact hlast

/-- The rows of the graph are those that arise when all moves are added to the
blank rows of all states. -/
theorem ofGrammar_eq (g : Grammar) :
    ofGrammar g = (blank g.states).addMoves g g.moves := by
  have hnodup := g.nodup_states
  rw [g.states_eq] at hnodup
  apply OrderedMap.ext_entries
  rw [g.states_eq, g.moves_eq]
  exact (entries_addMoves_pieces hnodup fun piece hpiece move =>
    Grammar.mem_states_of_mem_moves hpiece).symm

-- ========================================================== the graph

/-- The rows of the graph have the targets of its moves. -/
theorem mem_shifts_ofGrammar {key target : StateKey} {symbol : Symbol} :
    target ∈ ((ofGrammar g).cell key symbol).shifts
      ↔ ∃ next, (key, next) ∈ g.moves
          ∧ ∃ i ∈ g.leftCorners next, i.symbol = symbol
          ∧ target = .item i := by
  suffices general : ∀ (moves : List (StateKey × Item)) (rows : Rows),
      target ∈ ((moves.foldl (fun rows move => rows.addMove g move.1 move.2)
          rows).cell key symbol).shifts
        ↔ target ∈ (rows.cell key symbol).shifts ∨ ∃ next, (key, next) ∈ moves
          ∧ ∃ i ∈ g.leftCorners next, i.symbol = symbol ∧ target = .item i by
    have h := general g.moves (blank g.states)
    rw [cell_blank, Cell.shifts_empty] at h
    rw [ofGrammar_eq]
    exact h.trans ⟨fun h => h.elim (fun h => nomatch h) id, Or.inr⟩
  intro moves
  induction moves with
  | nil => simp
  | cons move moves ih =>
      intro rows
      rw [List.foldl_cons, ih, mem_shifts_addMove, or_assoc]
      refine or_congr_right ?_
      constructor
      · intro h
        rcases h with ⟨rfl, hcorner⟩ | ⟨next, hmem, hcorner⟩
        · exact ⟨move.2, List.mem_cons_self, hcorner⟩
        · exact ⟨next, List.mem_cons_of_mem _ hmem, hcorner⟩
      · intro h
        obtain ⟨next, hmem, hcorner⟩ := h
        rcases List.mem_cons.mp hmem with rfl | hmem
        · exact Or.inl ⟨rfl, hcorner⟩
        · exact Or.inr ⟨next, hmem, hcorner⟩

theorem reduce_ofGrammar (key : StateKey) (symbol : Symbol) :
    ((ofGrammar g).cell key symbol).reduce = none := by
  suffices general : ∀ (moves : List (StateKey × Item)) (rows : Rows),
      ((moves.foldl (fun rows move => rows.addMove g move.1 move.2) rows).cell
        key symbol).reduce = (rows.cell key symbol).reduce by
    rw [ofGrammar_eq]
    exact (general g.moves (blank g.states)).trans (by rw [cell_blank]; rfl)
  intro moves
  induction moves with
  | nil => exact fun rows => rfl
  | cons move moves ih =>
      intro rows
      rw [List.foldl_cons, ih, reduce_addMove]

theorem mem_states_iff {key : StateKey} :
    key ∈ g.states ↔ key = .start ∨ ∃ i ∈ g.items, key = .item i := by
  unfold Grammar.states
  simp [eq_comm]

/-- The states of the graph are the start state and the items. -/
theorem mem_keys_ofGrammar {key : StateKey} :
    key ∈ (ofGrammar g).keys
      ↔ key = .start ∨ ∃ i ∈ g.items, key = .item i := by
  rw [← mem_states_iff, ← keys_pieces]
  unfold ofGrammar OrderedMap.concat
  rw [OrderedMap.keys, List.map_flatMap]
  rfl

/-- The start state moves to the first items of the start symbol only. -/
theorem mem_moves_start {next : Item} :
    (.start, next) ∈ g.moves ↔ next ∈ g.firstItems g.startSymbol := by
  unfold Grammar.moves Grammar.startMoves
  rw [List.mem_append, List.mem_map, List.mem_flatMap]
  constructor
  · intro h
    rcases h with ⟨first, hfirst, heq⟩ | ⟨p, -, hmove⟩
    · cases heq
      exact hfirst
    · obtain ⟨_, _, _, -, -, heq, -⟩ := Grammar.mem_movesWithin_iff.mp hmove
      cases heq
  · exact fun h => Or.inl ⟨next, h, rfl⟩

/-- An item moves to the next item of its rule only. -/
theorem mem_moves_item {i next : Item} (hi : i ∈ g.items) :
    (.item i, next) ∈ g.moves ↔ ∃ rule symbol, g.rule? i.rule = some rule
      ∧ rule.right[i.position]? = some symbol
      ∧ next = ⟨symbol, i.rule, i.position + 1⟩ := by
  unfold Grammar.moves Grammar.startMoves
  rw [List.mem_append, List.mem_map, List.mem_flatMap]
  constructor
  · intro h
    rcases h with ⟨_, -, heq⟩ | ⟨p, hp, hmove⟩
    · cases heq
    · obtain ⟨n, symbol, last, -, hlast, heq, rfl⟩ :=
        Grammar.mem_movesWithin_iff.mp hmove
      cases heq
      exact ⟨p.2, last, g.mem_numberedRules_iff.mp hp, hlast, rfl⟩
  · intro h
    obtain ⟨rule, last, hrule, hlast, rfl⟩ := h
    obtain ⟨rule', n, hrule', hposition, hsymbol⟩ :=
      Grammar.mem_items_iff.mp hi
    cases hrule.symm.trans hrule'
    refine Or.inr ⟨(i.rule, rule), g.mem_numberedRules_iff.mpr hrule, ?_⟩
    rw [hposition] at hlast ⊢
    refine Grammar.mem_movesWithin_iff.mpr ⟨n, i.symbol, last,
      hsymbol, hlast, ?_, rfl⟩
    rw [← hposition]

/-- In the graph of items a state goes exactly into its successors, each
of which is a state of its own. -/
theorem mem_shifts_ofGrammar_iff {key target : StateKey} {symbol : Symbol}
    (hkey : key ∈ (ofGrammar g).keys) :
    target ∈ ((ofGrammar g).cell key symbol).shifts
      ↔ ∃ i ∈ g.successors key symbol, target = .item i := by
  rw [mem_shifts_ofGrammar]
  rcases mem_keys_ofGrammar.mp hkey with rfl | ⟨k, hk, rfl⟩
  · simp only [mem_moves_start]
    constructor
    · intro h
      obtain ⟨first, hfirst, i, hi, rfl, rfl⟩ := h
      obtain ⟨rule, hrule, hleft, hhead, hposition⟩ :=
        g.mem_firstItems_iff.mp hfirst
      rw [List.head?_eq_getElem?] at hhead
      refine ⟨i, ⟨rfl, first.rule, rule, hrule, hleft, ?_⟩, rfl⟩
      refine Grammar.edge_iff_mem_leftCorners.mpr ⟨rule,
        first.symbol, hrule, hhead, ?_⟩
      rw [Nat.zero_add, ← hposition]
      exact hi
    · intro h
      obtain ⟨i, ⟨rfl, index, rule, hrule, hleft, hedge⟩, rfl⟩ := h
      obtain ⟨rule', symbol, hrule', hhead, hi⟩ :=
        Grammar.edge_iff_mem_leftCorners.mp hedge
      cases hrule.symm.trans hrule'
      rw [← List.head?_eq_getElem?] at hhead
      exact ⟨_, g.mem_firstItems_iff.mpr ⟨rule, hrule, hleft, hhead, rfl⟩, i,
        hi, rfl, rfl⟩
  · simp only [mem_moves_item hk]
    constructor
    · intro h
      obtain ⟨next, ⟨rule, last, hrule, hlast, rfl⟩, i, hi, rfl, rfl⟩ := h
      refine ⟨i, ⟨rfl, k, List.mem_singleton_self k, ?_⟩, rfl⟩
      exact Grammar.edge_iff_mem_leftCorners.mpr ⟨rule, last, hrule, hlast, hi⟩
    · intro h
      obtain ⟨i, ⟨rfl, j, hj, hedge⟩, rfl⟩ := h
      cases List.mem_singleton.mp hj
      obtain ⟨rule, last, hrule, hlast, hi⟩ :=
        Grammar.edge_iff_mem_leftCorners.mp hedge
      exact ⟨_, ⟨rule, last, hrule, hlast, rfl⟩, i, hi, rfl, rfl⟩

end Rows

end ShiftReduce
