/-
The graph of items.

At first every item is a state of its own. From the start state the
automaton moves to the first items of the start symbol, and from an item to
the next item of the same rule; and with every such move a state also gets
the moves to the left corners of the item that it leads to. So one symbol
may lead from a state to several items.

A move leaves from an item of the same rule as the item that it leads to,
and so the rows are made rule by rule, and the rows of all rules are put one
after the other.
-/
import ShiftReduce.Automaton.LeftCorner
import ShiftReduce.Automaton.Rows

namespace ShiftReduce

namespace Grammar

/-- The items of a rule, in order. -/
def itemsOf (index : Nat) (rule : Rule) : List Item :=
  rule.right.zipIdx.map fun p => ⟨p.1, index, p.2 + 1⟩

/-- All items of a grammar, rule by rule. -/
def items (g : Grammar) : List Item :=
  g.numberedRules.flatMap fun p => itemsOf p.1 p.2

/-- The moves from the start state. -/
def startMoves (g : Grammar) : List (StateKey × Item) :=
  (g.firstItems g.startSymbol).map fun item => (.start, item)

/-- The moves from the items of a rule to the next ones. -/
def movesWithin (index : Nat) (rule : Rule) : List (StateKey × Item) :=
  let is := itemsOf index rule
  (is.zip is.tail).map fun p => (.item p.1, p.2)

/-- The moves of a grammar, without those to left corners. -/
def moves (g : Grammar) : List (StateKey × Item) :=
  g.startMoves ++ g.numberedRules.flatMap fun p => movesWithin p.1 p.2

/-- The states of the graph. -/
def states (g : Grammar) : List StateKey := .start :: g.items.map .item

/-- Some states and all moves between them and from them. -/
structure Piece where
  states : List StateKey
  moves : List (StateKey × Item)

/-- The graph in pieces: the start state, and the items of one rule after the
other. -/
def pieces (g : Grammar) : List Piece :=
  ⟨[.start], g.startMoves⟩ ::
    g.numberedRules.map fun p =>
      ⟨(itemsOf p.1 p.2).map .item, movesWithin p.1 p.2⟩

theorem states_eq (g : Grammar) :
    g.states = g.pieces.flatMap Piece.states := by
  unfold states pieces items
  rw [List.flatMap_cons, List.flatMap_map, List.map_flatMap]
  rfl

theorem moves_eq (g : Grammar) : g.moves = g.pieces.flatMap Piece.moves := by
  unfold moves pieces
  rw [List.flatMap_cons, List.flatMap_map]

/-- No state is in two pieces. -/
theorem nodup_states (g : Grammar) : g.states.Nodup := by
  have hitems : g.items.Nodup := by
    unfold items List.Nodup
    rw [List.pairwise_flatMap]
    constructor
    · intro p _
      have hpositions : (p.2.right.zipIdx.map Prod.snd).Nodup := by
        rw [List.zipIdx_map_snd]
        exact List.nodup_range'
      unfold itemsOf
      refine List.pairwise_map.mpr ((List.pairwise_map.mp hpositions).imp ?_)
      intro a b hne heq
      exact hne (Nat.succ.inj (congrArg Item.position heq))
    · have hnumbers : (g.rules.zipIdx.map Prod.snd).Nodup := by
        rw [List.zipIdx_map_snd]
        exact List.nodup_range'
      unfold numberedRules
      refine List.pairwise_map.mpr ((List.pairwise_map.mp hnumbers).imp ?_)
      intro p q hne a ha b hb heq
      obtain ⟨i, -, rfl⟩ := List.mem_map.mp ha
      obtain ⟨j, -, rfl⟩ := List.mem_map.mp hb
      exact hne (congrArg Item.rule heq)
  unfold states
  rw [List.nodup_cons]
  refine ⟨fun h => ?_, List.pairwise_map.mpr (hitems.imp ?_)⟩
  · obtain ⟨item, -, heq⟩ := List.mem_map.mp h
    cases heq
  · exact fun hne heq => hne (StateKey.item.inj heq)

/-- A move leaves from a state of its own piece. -/
theorem mem_states_of_mem_moves {g : Grammar} {piece : Piece}
    (hpiece : piece ∈ g.pieces) {move : StateKey × Item}
    (hmove : move ∈ piece.moves) : move.1 ∈ piece.states := by
  unfold pieces at hpiece
  rcases List.mem_cons.mp hpiece with rfl | hpiece
  · obtain ⟨item, -, rfl⟩ := List.mem_map.mp hmove
    exact List.mem_singleton.mpr rfl
  · obtain ⟨p, -, rfl⟩ := List.mem_map.mp hpiece
    obtain ⟨⟨item, next⟩, hpair, rfl⟩ := List.mem_map.mp hmove
    exact List.mem_map_of_mem (List.of_mem_zip hpair).1

end Grammar

namespace Rows

/-- Some states, all without cells. -/
def blank (keys : List StateKey) : Rows :=
  OrderedMap.ofList (keys.map fun key => (key, OrderedMap.empty))

/-- Add a move from a state to an item, and the moves from the same state
to the left corners of the item. -/
def addMove (g : Grammar) (rows : Rows) (source : StateKey) (target : Item) :
    Rows :=
  rows.update source fun row =>
    (g.leftCorners target).foldl
      (fun row item => row.addShift item.symbol (.item item))
      (row.getD OrderedMap.empty)

/-- Add several moves. -/
def addMoves (g : Grammar) (rows : Rows) (moves : List (StateKey × Item)) :
    Rows :=
  moves.foldl (fun rows move => rows.addMove g move.1 move.2) rows

/-- The rows of a piece. -/
def ofPiece (g : Grammar) (piece : Grammar.Piece) : Rows :=
  (blank piece.states).addMoves g piece.moves

theorem entries_blank {keys : List StateKey} (h : keys.Nodup) :
    (blank keys).entries = keys.map fun key => (key, OrderedMap.empty) := by
  apply OrderedMap.entries_ofList
  rw [List.map_map]
  simpa [Function.comp_def] using h

theorem keys_blank {keys : List StateKey} (h : keys.Nodup) :
    (blank keys).keys = keys := by
  unfold OrderedMap.keys
  rw [entries_blank h, List.map_map]
  simp [Function.comp_def]

/-- Moves that leave from states with rows make no new ones. -/
theorem keys_addMoves {g : Grammar} {rows : Rows}
    {moves : List (StateKey × Item)} (h : ∀ move ∈ moves, move.1 ∈ rows.keys) :
    (rows.addMoves g moves).keys = rows.keys := by
  unfold addMoves
  induction moves generalizing rows with
  | nil => rfl
  | cons move moves ih =>
    rw [List.forall_mem_cons] at h
    have hkeys : (rows.addMove g move.1 move.2).keys = rows.keys := by
      rw [addMove, OrderedMap.keys_update, if_pos h.1]
    rw [List.foldl_cons, ih, hkeys]
    rw [hkeys]
    exact h.2

theorem keys_ofPiece {g : Grammar} {piece : Grammar.Piece}
    (h : piece ∈ g.pieces) : (ofPiece g piece).keys = piece.states := by
  have hall := g.nodup_states
  rw [g.states_eq] at hall
  have hkeys := keys_blank ((List.pairwise_flatMap.mp hall).1 piece h)
  unfold ofPiece
  rw [keys_addMoves, hkeys]
  intro move hmove
  rw [hkeys]
  exact Grammar.mem_states_of_mem_moves h hmove

theorem keys_pieces (g : Grammar) :
    (g.pieces.map (ofPiece g)).flatMap OrderedMap.keys = g.states := by
  rw [List.flatMap_map, g.states_eq, List.flatMap_def, List.flatMap_def,
    List.map_congr_left fun piece h => keys_ofPiece h]

/-- The rows of the graph of items. -/
def ofGrammar (g : Grammar) : Rows :=
  OrderedMap.concat (g.pieces.map (ofPiece g)) (by
    rw [keys_pieces]
    exact g.nodup_states)

end Rows

end ShiftReduce
