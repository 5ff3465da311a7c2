/-
Trees without nested lists.

A list is a sequence on its way to a node that takes it apart. It is taken
apart one level deep, so what is in it must not be a list again, and this holds
because lists are made by taking lists apart. A node that looks at nodes only
takes all of them, so its children are what is left of the fragments without
tokens and lists, and that is all there is to say about sequences, calls and
control statements, except that their bodies have been checked to be blocks.
The other nodes take their children as they are.

So whatever the builders are given, a node is well formed at every depth if the
nodes it is made from are.
-/
import Mathlib.Logic.Relation
import ShiftReduce.Synthesis.SemanticAction

namespace ShiftReduce

open Fragment (flatten)

-- ======================================================= well-formed trees

namespace Node

/-- A sequence that has not been taken apart. -/
def IsList (node : Node) : Prop := ∃ items, node = .list items

/-- A node that can be a body. -/
def IsBlock (node : Node) : Prop := ∃ items, node = .block items

/-- The nodes directly inside of a sequence, a call or a control statement:
items, callee and arguments, conditions, branches and bodies. -/
def plainParts : Node → List Node
  | program items => items
  | block items => items
  | list items => items
  | call callee args => callee :: args
  | ifElse condition thenBranch elifs elseBranch =>
    (ifElse condition thenBranch elifs elseBranch).children
  | whileLoop condition body => [condition, body]
  | forLoop init condition update body =>
      (forLoop init condition update body).children
  | _ => []

/-- The branches of an alternative, and the bodies of loops and functions. -/
def bodies : Node → List Node
  | funcDecl _ _ _ body => [body]
  | ifElse _ thenBranch elifs elseBranch =>
    thenBranch :: elifs.map Prod.snd ++ elseBranch.toList
  | whileLoop _ body => [body]
  | forLoop _ _ _ body => [body]
  | _ => []

/-- Directly inside of a node there is no list that should have been taken
apart, and every body is a block. -/
structure Tidy (node : Node) : Prop where
  plain : ∀ part ∈ node.plainParts, ¬ part.IsList
  bodies : ∀ body ∈ node.bodies, body.IsBlock

/-- A node is the other one or inside of it, at any depth. -/
def Within (node root : Node) : Prop :=
  Relation.ReflTransGen (fun outer inner => inner ∈ outer.children) root node

/-- A tree is tidy at every depth. -/
def WellFormed (root : Node) : Prop :=
  ∀ node : Node, node.Within root → node.Tidy

variable {node root : Node}

theorem wellFormed_iff :
    root.WellFormed ↔ root.Tidy ∧ ∀ c ∈ root.children, c.WellFormed := by
  constructor
  · intro h
    exact ⟨h root .refl, fun c hc node hnode => h node (.head hc hnode)⟩
  · rintro ⟨htidy, hbelow⟩ node hnode
    rcases Relation.ReflTransGen.cases_head hnode with rfl | ⟨c, hc, hnode⟩
    · exact htidy
    · exact hbelow c hc node hnode

theorem mem_children_of_mem_plainParts {part : Node}
    (h : part ∈ node.plainParts) : part ∈ node.children := by
  cases node with
  | program | block | list | call | ifElse | whileLoop | forLoop => exact h
  | _ => cases h

/-- A well-formed node that may be anywhere in a tree. -/
structure Plain (node : Node) : Prop where
  wellFormed : node.WellFormed
  notList : ¬ node.IsList

/-- A node with plain nodes inside is well formed if its bodies are blocks. -/
theorem WellFormed.of_plain (h : ∀ c ∈ node.children, c.Plain)
    (hbodies : ∀ body ∈ node.bodies, body.IsBlock) : node.WellFormed :=
  wellFormed_iff.mpr
    ⟨⟨fun part hpart =>
      (h part (mem_children_of_mem_plainParts hpart)).notList, hbodies⟩,
      fun c hc => (h c hc).wellFormed⟩

/-- A node that may have lists inside is well formed if what is inside is, and
its bodies are blocks. -/
theorem WellFormed.of_children (hparts : node.plainParts = [])
    (hbodies : ∀ body ∈ node.bodies, body.IsBlock)
    (h : ∀ c ∈ node.children, c.WellFormed) : node.WellFormed := by
  refine wellFormed_iff.mpr ⟨⟨?_, hbodies⟩, h⟩
  rw [hparts]
  exact List.forall_mem_nil _

/-- A node with nothing inside is well formed. -/
theorem WellFormed.of_leaf (hchildren : node.children = [])
    (hbodies : node.bodies = []) : node.WellFormed := by
  refine .of_plain ?_ ?_
  · rw [hchildren]
    exact List.forall_mem_nil _
  · rw [hbodies]
    exact List.forall_mem_nil _

end Node

open Node

-- ============================================================== fragments

/-- The node, if the fragment is one, is well formed. -/
def Fragment.WellFormed : Fragment → Prop
  | node n => n.WellFormed
  | token _ => True

variable {children : List Fragment} {node : Node}

/-- What is left when lists have been taken apart is plain: the items of a list
are no lists, and other nodes are none themselves. -/
theorem Fragment.plain_of_mem_flatten (hc : ∀ f ∈ children, f.WellFormed)
    (h : node ∈ flatten children) : node.Plain := by
  obtain ⟨f, hf, hnode⟩ := List.mem_flatMap.mp h
  have hwell := hc f hf
  cases f with
  | token => cases hnode
  | node n =>
      cases n with
      | list items =>
          obtain ⟨htidy, hitems⟩ := wellFormed_iff.mp hwell
          exact ⟨hitems node hnode, htidy.plain node hnode⟩
      | _ =>
          obtain rfl := List.mem_singleton.mp hnode
          exact ⟨hwell, nofun⟩

/-- A node that takes all that is left of some fragments. -/
theorem Node.WellFormed.of_flatten (hc : ∀ f ∈ children, f.WellFormed)
    (hchildren : node.children = flatten children)
    (hbodies : ∀ body ∈ node.bodies, body.IsBlock) : node.WellFormed :=
  .of_plain
    (fun _ hmem => Fragment.plain_of_mem_flatten hc (hchildren ▸ hmem)) hbodies

-- =============================================================== builders

namespace Builder

theorem bind_eq_ok {α β : Type} {x : Except ShapeFault α}
    {f : α → Except ShapeFault β} {b : β} :
    (x >>= f) = .ok b ↔ ∃ a, x = .ok a ∧ f a = .ok b := by
  cases x with
  | error e => simp [bind, Except.bind]
  | ok a => simp [bind, Except.bind]

theorem map_eq_ok {α β : Type} {x : Except ShapeFault α} {f : α → β} {b : β} :
    x.map f = .ok b ↔ ∃ a, x = .ok a ∧ f a = b := by
  cases x with
  | error e => simp [Except.map]
  | ok a => simp [Except.map]

theorem needBlock_eq_ok {n : Node} :
    needBlock n = .ok node ↔ n = node ∧ n.IsBlock := by
  cases n with
  | block items => simp [needBlock, IsBlock]
  | _ => simp [needBlock, IsBlock]

-- ================================================= nodes of nodes only

/-- The pairs and the last block make up the nodes that they are made from. -/
theorem of_branches_eq_ok {nodes : List Node} {elifs : List (Node × Node)}
    {last : Option Node} (h : branches nodes = .ok (elifs, last)) :
    nodes = elifs.flatMap (fun elif => [elif.1, elif.2]) ++ last.toList
      ∧ (∀ elif ∈ elifs, elif.2.IsBlock) ∧ ∀ body ∈ last, body.IsBlock := by
  induction nodes using branches.induct generalizing elifs last with
  | case1 =>
      cases h
      exact ⟨rfl, nofun, nofun⟩
  | case2 n =>
      obtain ⟨body, hbody, heq⟩ := map_eq_ok.mp h
      obtain ⟨rfl, hblock⟩ := needBlock_eq_ok.mp hbody
      cases heq
      exact ⟨rfl, nofun, fun body hbody => Option.some.inj hbody ▸ hblock⟩
  | case3 condition branch rest ih =>
      obtain ⟨body, hbody, h⟩ := bind_eq_ok.mp h
      obtain ⟨⟨elifs', last'⟩, hrest, heq⟩ := bind_eq_ok.mp h
      obtain ⟨rfl, hblock⟩ := needBlock_eq_ok.mp hbody
      cases heq
      obtain ⟨hnodes, helifs, hlast⟩ := ih hrest
      exact ⟨congrArg _ (congrArg _ hnodes),
        List.forall_mem_cons.mpr ⟨hblock, helifs⟩, hlast⟩

theorem of_call_eq_ok (h : call children = .ok node) :
    node.children = flatten children ∧ ∀ body ∈ node.bodies, body.IsBlock := by
  unfold call at h
  split at h
  · cases h
  · next callee args hnodes =>
      cases h
      exact ⟨hnodes.symm, nofun⟩

theorem of_ifElse_eq_ok (h : ifElse children = .ok node) :
    node.children = flatten children ∧ ∀ body ∈ node.bodies, body.IsBlock := by
  unfold ifElse at h
  split at h
  · cases h
  · cases h
  · next condition thenBranch rest hnodes =>
      obtain ⟨body, hbody, h⟩ := bind_eq_ok.mp h
      obtain ⟨⟨elifs, last⟩, hbranches, heq⟩ := bind_eq_ok.mp h
      obtain ⟨rfl, hblock⟩ := needBlock_eq_ok.mp hbody
      obtain ⟨hrest, helifs, hlast⟩ := of_branches_eq_ok hbranches
      cases heq
      constructor
      · rw [hnodes, hrest]
        rfl
      · intro body hbody
        rcases List.mem_append.mp hbody with hbody | hbody
        · rcases List.mem_cons.mp hbody with rfl | hbody
          · exact hblock
          · obtain ⟨elif, helif, rfl⟩ := List.mem_map.mp hbody
            exact helifs elif helif
        · exact hlast body (Option.mem_toList.mp hbody)

theorem of_whileLoop_eq_ok (h : whileLoop children = .ok node) :
    node.children = flatten children ∧ ∀ body ∈ node.bodies, body.IsBlock := by
  unfold whileLoop at h
  split at h
  · next condition last hnodes =>
      obtain ⟨body, hbody, rfl⟩ := map_eq_ok.mp h
      obtain ⟨rfl, hblock⟩ := needBlock_eq_ok.mp hbody
      exact ⟨hnodes.symm,
        fun body hbody => List.mem_singleton.mp hbody ▸ hblock⟩
  · cases h

theorem of_forLoop_eq_ok (h : forLoop children = .ok node) :
    node.children = flatten children ∧ ∀ body ∈ node.bodies, body.IsBlock := by
  unfold forLoop at h
  dsimp only at h
  split at h
  · cases h
  · next last hlast =>
      obtain ⟨body, hbody, h⟩ := bind_eq_ok.mp h
      obtain ⟨rfl, hblock⟩ := needBlock_eq_ok.mp hbody
      obtain ⟨front, hnodes⟩ := List.getLast?_eq_some_iff.mp hlast
      have hbodies : ∀ body ∈ [last], body.IsBlock :=
        fun body hbody => List.mem_singleton.mp hbody ▸ hblock
      rw [hnodes, List.dropLast_concat] at h
      -- no node, the condition, or the three parts stand before the body
      match front, h with
      | [], h | [condition], h | [init, condition, update], h =>
          cases h
          exact ⟨hnodes.symm, hbodies⟩
      | [init, condition], h => cases h
      | _ :: _ :: _ :: _ :: _, h => cases h

-- ================================================= nodes of any fragments

section

variable (hc : ∀ f ∈ children, f.WellFormed)

include hc

theorem varDecl_wellFormed (h : varDecl children = .ok node) :
    node.WellFormed := by
  obtain ⟨name, -, h⟩ := bind_eq_ok.mp h
  obtain ⟨type, -, h⟩ := bind_eq_ok.mp h
  obtain ⟨init, hinit, heq⟩ := bind_eq_ok.mp h
  cases heq
  refine .of_children rfl nofun fun c hmem => ?_
  obtain rfl := Option.mem_toList.mp hmem
  have hvalue : .node c ∈ children.drop 2 := by
    unfold initializer at hinit
    split at hinit
    · cases hinit
    · next sign rest hrest =>
        split at hinit
        · cases hinit
        · split at hinit
          · cases hinit
            rw [hrest]
            exact List.mem_cons_of_mem _ (List.mem_singleton_self _)
          · cases hinit
          · cases hinit
  exact hc _ (List.mem_of_mem_drop hvalue)

theorem constDecl_wellFormed (h : constDecl children = .ok node) :
    node.WellFormed := by
  unfold constDecl at h
  split at h
  · next name type sign value =>
      split at h
      · cases h
      · obtain ⟨_, -, h⟩ := bind_eq_ok.mp h
        obtain ⟨_, -, heq⟩ := bind_eq_ok.mp h
        cases heq
        refine .of_children rfl nofun fun c hmem => ?_
        obtain rfl := List.mem_singleton.mp hmem
        exact hc (.node _) (by simp)
  · cases h

theorem wellFormed_of_mem_splice {f : Fragment} (hf : f ∈ splice children) :
    f.WellFormed := by
  obtain ⟨g, hg, hf⟩ := List.mem_flatMap.mp hf
  have hwell := hc g hg
  split at hf
  · next items =>
      obtain ⟨n, hn, rfl⟩ := List.mem_map.mp hf
      exact (wellFormed_iff.mp hwell).2 n hn
  · obtain rfl := List.mem_singleton.mp hf
    exact hwell

theorem funcDecl_wellFormed (h : funcDecl children = .ok node) :
    node.WellFormed := by
  unfold funcDecl at h
  split at h
  · next last front hfragments =>
      obtain ⟨body, hbody, h⟩ := bind_eq_ok.mp h
      obtain ⟨_, -, h⟩ := bind_eq_ok.mp h
      obtain ⟨_, -, h⟩ := bind_eq_ok.mp h
      obtain ⟨_, -, heq⟩ := bind_eq_ok.mp h
      obtain ⟨rfl, hblock⟩ := needBlock_eq_ok.mp hbody
      cases heq
      have hlast : .node last ∈ splice children := by
        rw [← List.mem_reverse, hfragments]
        exact List.mem_cons_self
      refine .of_children rfl
        (fun body hbody => List.mem_singleton.mp hbody ▸ hblock) ?_
      exact fun c hmem =>
        List.mem_singleton.mp hmem ▸ wellFormed_of_mem_splice hc hlast
  · cases h

theorem assign_wellFormed (h : assign children = .ok node) :
    node.WellFormed := by
  unfold assign at h
  split at h
  · next target sign value =>
      split at h
      · cases h
      · obtain ⟨_, -, heq⟩ := bind_eq_ok.mp h
        cases heq
        refine .of_children rfl nofun fun c hmem => ?_
        obtain rfl := List.mem_singleton.mp hmem
        exact hc (.node _) (by simp)
  · cases h

theorem binary_wellFormed (h : binary children = .ok node) :
    node.WellFormed := by
  unfold binary at h
  split at h
  · next left op right =>
      cases h
      refine .of_children rfl nofun
        (List.forall_mem_cons.mpr ⟨?_, List.forall_mem_singleton.mpr ?_⟩)
      · exact hc (.node left) (by simp)
      · exact hc (.node right) (by simp)
  · cases h

theorem unary_wellFormed (h : unary children = .ok node) :
    node.WellFormed := by
  unfold unary at h
  split at h
  · next op operand =>
      cases h
      exact .of_children rfl nofun
        (List.forall_mem_singleton.mpr (hc (.node operand) (by simp)))
  · cases h

end

theorem literal_wellFormed (h : literal children = .ok node) :
    node.WellFormed := by
  unfold literal at h
  split at h
  · split at h
    · cases h
      exact .of_leaf rfl rfl
    · cases h
  · cases h
    exact .of_leaf rfl rfl
  · cases h

theorem number_wellFormed (h : number children = .ok node) :
    node.WellFormed := by
  unfold number at h
  split at h
  · split at h
    · exact literal_wellFormed h
    · cases h
  · cases h

theorem identifier_wellFormed (h : identifier children = .ok node) :
    node.WellFormed := by
  unfold identifier at h
  split at h
  · obtain ⟨name, -, rfl⟩ := map_eq_ok.mp h
    exact .of_leaf rfl rfl
  · cases h

theorem param_wellFormed (h : param children = .ok node) :
    node.WellFormed := by
  unfold param at h
  split at h
  · obtain ⟨_, -, h⟩ := bind_eq_ok.mp h
    obtain ⟨_, -, heq⟩ := bind_eq_ok.mp h
    cases heq
    exact .of_leaf rfl rfl
  · cases h

end Builder

-- ======================================================= semantic actions

/-- The builders that an action can name, each once. -/
inductive Builder.Named : Builder → Prop where
  | program : Named Builder.program
  | block : Named Builder.block
  | list : Named Builder.list
  | varDecl : Named Builder.varDecl
  | constDecl : Named Builder.constDecl
  | funcDecl : Named Builder.funcDecl
  | param : Named Builder.param
  | assign : Named Builder.assign
  | binary : Named Builder.binary
  | unary : Named Builder.unary
  | call : Named Builder.call
  | literal : Named Builder.literal
  | number : Named Builder.number
  | identifier : Named Builder.identifier
  | ifElse : Named Builder.ifElse
  | whileLoop : Named Builder.whileLoop
  | forLoop : Named Builder.forLoop

theorem Builder.named_of_builder? {action : String} {build : Builder}
    (h : builder? action = some build) : build.Named := by
  unfold builder? at h
  split at h <;> cases h
  all_goals constructor

open Builder in
/-- Every builder makes well-formed nodes of well-formed fragments. -/
theorem wellFormed_of_builder? {action : String} {build : Builder}
    (hbuild : builder? action = some build) (hc : ∀ f ∈ children, f.WellFormed)
    (h : build children = .ok node) : node.WellFormed := by
  cases named_of_builder? hbuild with
  | program | block | list =>
      cases h
      exact .of_flatten hc rfl nofun
  | varDecl => exact varDecl_wellFormed hc h
  | constDecl => exact constDecl_wellFormed hc h
  | funcDecl => exact funcDecl_wellFormed hc h
  | param => exact param_wellFormed h
  | assign => exact assign_wellFormed hc h
  | binary => exact binary_wellFormed hc h
  | unary => exact unary_wellFormed hc h
  | call =>
      obtain ⟨hnodes, hbodies⟩ := of_call_eq_ok h
      exact .of_flatten hc hnodes hbodies
  | literal => exact literal_wellFormed h
  | number => exact number_wellFormed h
  | identifier => exact identifier_wellFormed h
  | ifElse =>
      obtain ⟨hnodes, hbodies⟩ := of_ifElse_eq_ok h
      exact .of_flatten hc hnodes hbodies
  | whileLoop =>
      obtain ⟨hnodes, hbodies⟩ := of_whileLoop_eq_ok h
      exact .of_flatten hc hnodes hbodies
  | forLoop =>
      obtain ⟨hnodes, hbodies⟩ := of_forLoop_eq_ok h
      exact .of_flatten hc hnodes hbodies

theorem wellFormed_of_synthesize {action : String} {rule : Nat}
    (hc : ∀ f ∈ children, f.WellFormed)
    (h : synthesize action children rule = .ok node) : node.WellFormed := by
  unfold synthesize at h
  split at h
  · cases h
  · next build hbuild =>
      split at h
      · next hbuilt =>
          cases h
          exact wellFormed_of_builder? hbuild hc hbuilt
      · cases h

end ShiftReduce
