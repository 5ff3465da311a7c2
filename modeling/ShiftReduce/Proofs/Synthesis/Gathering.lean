/-
Nodes that are made of nodes only.

Programs, blocks, lists, calls, alternatives and loops are built from whatever
nodes there are: tokens drop out, and a list stands for its items. The
builders take this sequence apart in ways of their own. A call looks at its
front, a loop with a head at its back and then at the number of the others, an
alternative goes through it in pairs until one node or none is left.

What they accept can be said of the sequence as it stands: how many nodes
there are, and at which places there has to be a block. What they build gives
the sequence back, since its children put together again are the nodes that
were there, in their order.
-/
import Mathlib.Data.List.Basic
import ShiftReduce.Proofs.Synthesis.WellFormed

namespace ShiftReduce

open Fragment (flatten)

-- ============================================================== the nodes

/-- The nodes for which a node stands: a list for its items, and any other
node for itself. -/
def Node.spread : Node → List Node
  | list items => items
  | n => [n]

/-- The nodes to which some fragments come. -/
def Fragment.nodes (fragments : List Fragment) : List Node :=
  (fragments.filterMap node?).flatMap Node.spread

theorem Fragment.flatten_eq_nodes (fragments : List Fragment) :
    flatten fragments = nodes fragments := by
  unfold nodes flatten
  induction fragments with
  | nil => rfl
  | cons f fragments ih =>
      rw [List.flatMap_cons, ih]
      cases f with
      | token t => rfl
      | node n => cases n <;> rfl

-- ============================================================== the pairs

/-- Every second node is a block, and so is the last one if there are an odd
number of them. -/
structure Node.Paired (nodes : List Node) : Prop where
  branches : ∀ n body, nodes[2 * n + 1]? = some body → body.IsBlock
  last : nodes.length % 2 = 1 →
    ∃ body, nodes.getLast? = some body ∧ body.IsBlock

namespace Node

theorem paired_nil : Paired [] := ⟨nofun, nofun⟩

theorem paired_singleton_iff {node : Node} : Paired [node] ↔ node.IsBlock := by
  constructor
  · intro h
    obtain ⟨body, hbody, hblock⟩ := h.last rfl
    cases hbody
    exact hblock
  · intro hblock
    exact ⟨nofun, fun _ => ⟨node, rfl, hblock⟩⟩

/-- A pair in front counts for itself. -/
theorem paired_cons_cons_iff {condition branch : Node} {rest : List Node} :
    Paired (condition :: branch :: rest) ↔ branch.IsBlock ∧ Paired rest := by
  have hparity : (condition :: branch :: rest).length % 2
      = rest.length % 2 := by
    simp only [List.length_cons]
    omega
  have hlast : rest.length % 2 = 1 →
      (condition :: branch :: rest).getLast? = rest.getLast? := by
    intro hodd
    cases rest with
    | nil => cases hodd
    | cons n rest => simp only [List.getLast?_cons_cons]
  constructor
  · intro h
    refine ⟨h.branches 0 branch rfl,
      fun n body hbody => h.branches (n + 1) body hbody, ?_⟩
    intro hodd
    rw [← hlast hodd]
    exact h.last (hparity.trans hodd)
  · intro h
    obtain ⟨hblock, hrest⟩ := h
    constructor
    · intro n body hbody
      cases n with
      | zero =>
          cases hbody
          exact hblock
      | succ n => exact hrest.branches n body hbody
    · intro hodd
      have hodd' : rest.length % 2 = 1 := hparity ▸ hodd
      rw [hlast hodd']
      exact hrest.last hodd'

end Node

-- =========================================================== the builders

namespace Builder

variable {nodes : List Node} {fragments : List Fragment}

theorem exists_bind_iff {α β : Type} {x : Except ShapeFault α}
    {f : α → Except ShapeFault β} :
    (∃ b, (x >>= f) = .ok b) ↔ ∃ a, x = .ok a ∧ ∃ b, f a = .ok b := by
  simp only [bind_eq_ok]
  exact ⟨fun ⟨b, a, ha, hb⟩ => ⟨a, ha, b, hb⟩,
    fun ⟨a, ha, b, hb⟩ => ⟨b, a, ha, hb⟩⟩

theorem exists_map_iff {α β : Type} {x : Except ShapeFault α} {f : α → β} :
    (∃ b, x.map f = .ok b) ↔ ∃ a, x = .ok a := by
  simp only [map_eq_ok]
  exact ⟨fun ⟨_, a, ha, _⟩ => ⟨a, ha⟩, fun ⟨a, ha⟩ => ⟨f a, a, ha, rfl⟩⟩

theorem exists_needBlock_iff {n : Node} :
    (∃ node, needBlock n = .ok node) ↔ n.IsBlock := by
  simp only [needBlock_eq_ok]
  exact ⟨fun ⟨_, _, h⟩ => h, fun h => ⟨n, rfl, h⟩⟩

/-- A block that is needed, and something that can be made whatever it is. -/
theorem exists_needBlock_bind_iff {β : Type} {n : Node}
    {f : Node → Except ShapeFault β} :
    (∃ b, (needBlock n >>= f) = .ok b) ↔ n.IsBlock ∧ ∃ b, f n = .ok b := by
  rw [exists_bind_iff]
  simp only [needBlock_eq_ok]
  constructor
  · intro h
    obtain ⟨body, ⟨rfl, hblock⟩, hb⟩ := h
    exact ⟨hblock, hb⟩
  · intro h
    exact ⟨n, ⟨rfl, h.1⟩, h.2⟩

/-- The nodes behind the first branch of an alternative can be gone through
exactly if they are paired. -/
theorem exists_branches_iff :
    (∃ parts, branches nodes = .ok parts) ↔ Node.Paired nodes := by
  induction nodes using branches.induct with
  | case1 => exact ⟨fun _ => Node.paired_nil, fun _ => ⟨_, rfl⟩⟩
  | case2 n =>
      rw [Node.paired_singleton_iff, ← exists_needBlock_iff]
      exact exists_map_iff
  | case3 condition branch rest ih =>
      rw [Node.paired_cons_cons_iff, ← ih, branches,
        exists_needBlock_bind_iff, exists_bind_iff]
      refine and_congr_right fun _ => exists_congr fun parts => ?_
      exact and_iff_left ⟨_, rfl⟩

theorem exists_call_iff :
    (∃ node, call fragments = .ok node) ↔ flatten fragments ≠ [] := by
  unfold call
  cases flatten fragments with
  | nil => simp
  | cons callee args => simp

theorem exists_ifElse_iff :
    (∃ node, ifElse fragments = .ok node)
      ↔ 2 ≤ (flatten fragments).length ∧ Node.Paired (flatten fragments) := by
  unfold ifElse
  split
  · next hnone => simp [hnone]
  · next hone => simp [hone]
  · next condition branch rest hnodes =>
      rw [hnodes, Node.paired_cons_cons_iff, exists_needBlock_bind_iff,
        exists_bind_iff, ← exists_branches_iff]
      constructor
      · intro h
        obtain ⟨hblock, parts, hparts, -⟩ := h
        exact ⟨by simp, hblock, parts, hparts⟩
      · intro h
        obtain ⟨-, hblock, parts, hparts⟩ := h
        exact ⟨hblock, parts, hparts, _, rfl⟩

theorem exists_whileLoop_iff :
    (∃ node, whileLoop fragments = .ok node)
      ↔ (flatten fragments).length = 2
        ∧ ∃ body, (flatten fragments)[1]? = some body ∧ body.IsBlock := by
  unfold whileLoop
  split
  · next condition body hnodes =>
      rw [hnodes, exists_map_iff, exists_needBlock_iff]
      simp
  · next hother =>
      constructor
      · intro h
        obtain ⟨node, h⟩ := h
        cases h
      · intro h
        obtain ⟨condition, body, hnodes⟩ := List.length_eq_two.mp h.1
        exact absurd hnodes (hother condition body)

/-- A loop with a head has nothing, a condition, or all three parts of a head
in front of its body. -/
theorem exists_forLoop_iff :
    (∃ node, forLoop fragments = .ok node)
      ↔ (flatten fragments).length ∈ [1, 2, 4]
        ∧ ∃ body, (flatten fragments).getLast? = some body ∧ body.IsBlock := by
  unfold forLoop
  dsimp only
  cases hlast : (flatten fragments).getLast? with
  | none => simp
  | some body =>
      obtain ⟨front, hnodes⟩ := List.getLast?_eq_some_iff.mp hlast
      rw [hnodes, List.dropLast_concat, exists_needBlock_bind_iff, and_comm]
      refine and_congr ?_ (by simp)
      match front with
      | [] => simp
      | [condition] => simp
      | [init, condition] => simp
      | [init, condition, update] => simp
      | _ :: _ :: _ :: _ :: rest => simp

-- What is built is of the kind after which the builder is named.

theorem kind_of_call_eq_ok {node : Node} (h : call fragments = .ok node) :
    node.kind = "Call" := by
  unfold call at h
  split at h
  · cases h
  · cases h
    rfl

theorem kind_of_ifElse_eq_ok {node : Node} (h : ifElse fragments = .ok node) :
    node.kind = "If" := by
  unfold ifElse at h
  split at h
  · cases h
  · cases h
  · obtain ⟨_, -, h⟩ := bind_eq_ok.mp h
    obtain ⟨_, -, heq⟩ := bind_eq_ok.mp h
    cases heq
    rfl

theorem kind_of_whileLoop_eq_ok {node : Node}
    (h : whileLoop fragments = .ok node) : node.kind = "While" := by
  unfold whileLoop at h
  split at h
  · obtain ⟨_, -, rfl⟩ := map_eq_ok.mp h
    rfl
  · cases h

theorem kind_of_forLoop_eq_ok {node : Node}
    (h : forLoop fragments = .ok node) : node.kind = "For" := by
  unfold forLoop at h
  dsimp only at h
  split at h
  · cases h
  · obtain ⟨_, -, h⟩ := bind_eq_ok.mp h
    match (flatten fragments).dropLast, h with
    | [], h | [condition], h | [init, condition, update], h =>
        cases h
        rfl
    | [init, condition], h => cases h
    | _ :: _ :: _ :: _ :: _, h => cases h

end Builder

-- ============================================================ the gatherers

/-- The kinds of nodes that are made of nodes only. -/
inductive Gatherer where
  | program
  | block
  | list
  | call
  | ifElse
  | whileLoop
  | forLoop

namespace Gatherer

/-- The names of the actions that make nodes of a kind. -/
def actions : Gatherer → List String
  | program => ["Program"]
  | block => ["Block"]
  | list => ["List"]
  | call => ["Call", "CallExpr"]
  | ifElse => ["If", "IfStmt"]
  | whileLoop => ["While", "WhileStmt"]
  | forLoop => ["For", "ForStmt"]

/-- The name of the kind. -/
def kind : Gatherer → String
  | program => "Program"
  | block => "Block"
  | list => "List"
  | call => "Call"
  | ifElse => "If"
  | whileLoop => "While"
  | forLoop => "For"

/-- The sequences of nodes that make up a node of the kind. -/
def Takes : Gatherer → List Node → Prop
  | program, _ => True
  | block, _ => True
  | list, _ => True
  | call, nodes => nodes ≠ []
  | ifElse, nodes => 2 ≤ nodes.length ∧ Node.Paired nodes
  | whileLoop, nodes =>
      nodes.length = 2 ∧ ∃ body, nodes[1]? = some body ∧ body.IsBlock
  | forLoop, nodes =>
    nodes.length ∈ [1, 2, 4] ∧ ∃ body, nodes.getLast? = some body
      ∧ body.IsBlock

/-- The builder of the kind. -/
def builder : Gatherer → Builder
  | program => Builder.program
  | block => Builder.block
  | list => Builder.list
  | call => Builder.call
  | ifElse => Builder.ifElse
  | whileLoop => Builder.whileLoop
  | forLoop => Builder.forLoop

variable {gatherer : Gatherer} {action : String} {fragments : List Fragment}

theorem builder?_of_mem_actions (h : action ∈ gatherer.actions) :
    builder? action = some gatherer.builder := by
  cases gatherer with
  | program | block | list =>
      cases List.mem_singleton.mp h
      rfl
  | call | ifElse | whileLoop | forLoop =>
      rcases List.mem_pair.mp h with rfl | rfl
      · rfl
      · rfl

/-- An action makes what its builder makes. -/
theorem synthesize_eq_ok_iff (h : action ∈ gatherer.actions) {rule : Nat}
    {node : Node} :
    synthesize action fragments rule = .ok node
      ↔ gatherer.builder fragments = .ok node := by
  unfold synthesize
  rw [builder?_of_mem_actions h]
  dsimp only
  cases gatherer.builder fragments <;> simp

theorem exists_builder_iff :
    (∃ node, gatherer.builder fragments = .ok node)
      ↔ gatherer.Takes (flatten fragments) := by
  cases gatherer with
  | program | block | list => exact ⟨fun _ => trivial, fun _ => ⟨_, rfl⟩⟩
  | call => exact Builder.exists_call_iff
  | ifElse => exact Builder.exists_ifElse_iff
  | whileLoop => exact Builder.exists_whileLoop_iff
  | forLoop => exact Builder.exists_forLoop_iff

theorem kind_of_builder_eq_ok {node : Node}
    (h : gatherer.builder fragments = .ok node) :
    node.kind = gatherer.kind := by
  cases gatherer with
  | program | block | list =>
      cases h
      rfl
  | call => exact Builder.kind_of_call_eq_ok h
  | ifElse => exact Builder.kind_of_ifElse_eq_ok h
  | whileLoop => exact Builder.kind_of_whileLoop_eq_ok h
  | forLoop => exact Builder.kind_of_forLoop_eq_ok h

theorem children_of_builder_eq_ok {node : Node}
    (h : gatherer.builder fragments = .ok node) :
    node.children = flatten fragments := by
  cases gatherer with
  | program | block | list =>
      cases h
      rfl
  | call => exact (Builder.of_call_eq_ok h).1
  | ifElse => exact (Builder.of_ifElse_eq_ok h).1
  | whileLoop => exact (Builder.of_whileLoop_eq_ok h).1
  | forLoop => exact (Builder.of_forLoop_eq_ok h).1

end Gatherer

/-- An action that looks at nodes only succeeds exactly if the nodes to which
the fragments come make up a node of its kind, and then the children of what it
makes are these nodes, in this order: none is lost, and none is added. -/
theorem synthesize_gathers (gatherer : Gatherer) {action : String}
    (h : action ∈ gatherer.actions) (fragments : List Fragment) (rule : Nat) :
    ((∃ node, synthesize action fragments rule = .ok node)
        ↔ gatherer.Takes (Fragment.nodes fragments))
      ∧ ∀ node, synthesize action fragments rule = .ok node →
        node.kind = gatherer.kind
          ∧ node.children = Fragment.nodes fragments := by
  simp only [Gatherer.synthesize_eq_ok_iff h, ← Fragment.flatten_eq_nodes]
  exact ⟨Gatherer.exists_builder_iff, fun node hnode =>
    ⟨Gatherer.kind_of_builder_eq_ok hnode,
      Gatherer.children_of_builder_eq_ok hnode⟩⟩

/-- An alternative whose second condition comes in a list with its branch. -/
def Fragment.alternative : List Fragment :=
  [.token ⟨.keyword, "if", ⟨1, 1⟩⟩, .node (.identifier "a"), .node (.block []),
    .node (.list [.identifier "b", .block [.identifier "x"]]),
    .token ⟨.keyword, "else", ⟨2, 1⟩⟩, .node (.block [.identifier "y"])]

theorem synthesize_gathers_alternative :
    "IfStmt" ∈ Gatherer.ifElse.actions
      ∧ ∃ node, synthesize "IfStmt" Fragment.alternative 0 = .ok node
      ∧ node.kind = "If"
        ∧ node.children = [.identifier "a", .block [], .identifier "b",
          .block [.identifier "x"], .block [.identifier "y"]] := by
  have hmem : "IfStmt" ∈ Gatherer.ifElse.actions := by decide
  obtain ⟨hsucceeds, hmakes⟩ :=
    synthesize_gathers .ifElse hmem Fragment.alternative 0
  have hpaired : Node.Paired (Fragment.nodes Fragment.alternative) :=
    Node.paired_cons_cons_iff.mpr ⟨⟨_, rfl⟩, Node.paired_cons_cons_iff.mpr
      ⟨⟨_, rfl⟩, Node.paired_singleton_iff.mpr ⟨_, rfl⟩⟩⟩
  obtain ⟨node, hnode⟩ := hsucceeds.mpr ⟨by decide, hpaired⟩
  obtain ⟨hkind, hchildren⟩ := hmakes node hnode
  exact ⟨hmem, node, hnode, hkind, hchildren⟩

end ShiftReduce
