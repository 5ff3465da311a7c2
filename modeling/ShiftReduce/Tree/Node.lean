/-
Syntax trees.

A tree is made of sixteen kinds of nodes. A list is a sequence on its way
to a node that takes it apart, and a parameter is on its way to a function
declaration; both may also be left over and stay in the tree. The children
of a node are the nodes directly inside of it, in the order of the source.
-/
import ShiftReduce.Tree.Literal

namespace ShiftReduce

/-- A parameter of a function. -/
structure Param where
  name : String
  type : String
deriving DecidableEq, Repr

/-- A node of a syntax tree, with all that is below it. -/
inductive Node where
  | program (items : List Node)
  | block (items : List Node)
  /-- A sequence that is spliced into the node that receives it. -/
  | list (items : List Node)
  | varDecl (name type : String) (init : Option Node)
  | constDecl (name type : String) (value : Node)
  | funcDecl (name : String) (params : List Param)
      (returnType : String) (body : Node)
  | param (param : Param)
  | assign (target : String) (value : Node)
  | binary (left : Node) (op : String) (right : Node)
  | unary (op : String) (operand : Node)
  | call (callee : Node) (args : List Node)
  | literal (literal : Literal)
  | identifier (name : String)
  | ifElse (condition thenBranch : Node) (elifs : List (Node × Node))
      (elseBranch : Option Node)
  | whileLoop (condition body : Node)
  | forLoop (init condition update : Option Node) (body : Node)
deriving Inhabited

namespace Node

/-- The name of the kind of a node. -/
def kind : Node → String
  | program _ => "Program"
  | block _ => "Block"
  | list _ => "List"
  | varDecl .. => "VarDecl"
  | constDecl .. => "ConstDecl"
  | funcDecl .. => "FuncDecl"
  | param _ => "Param"
  | assign .. => "Assign"
  | binary .. => "Binary"
  | unary .. => "Unary"
  | call .. => "Call"
  | literal _ => "Literal"
  | identifier _ => "Identifier"
  | ifElse .. => "If"
  | whileLoop .. => "While"
  | forLoop .. => "For"

/-- The nodes directly inside of a node, in the order of the source. -/
def children : Node → List Node
  | program items => items
  | block items => items
  | list items => items
  | varDecl _ _ init => init.toList
  | constDecl _ _ value => [value]
  | funcDecl _ _ _ body => [body]
  | param _ => []
  | assign _ value => [value]
  | binary left _ right => [left, right]
  | unary _ operand => [operand]
  | call callee args => callee :: args
  | literal _ => []
  | identifier _ => []
  | ifElse condition thenBranch elifs elseBranch =>
    condition :: thenBranch :: elifs.flatMap (fun elif => [elif.1, elif.2])
      ++ elseBranch.toList
  | whileLoop condition body => [condition, body]
  | forLoop init condition update body =>
    init.toList ++ condition.toList ++ update.toList ++ [body]

/-- The parameters that a node itself holds. -/
def params : Node → List Param
  | funcDecl _ params _ _ => params
  | param p => [p]
  | _ => []

-- =========================================================== descent

private theorem sizeOf_lt_of_mem_toList {c : Node} {o : Option Node}
    (h : c ∈ o.toList) : sizeOf c < sizeOf o := by
  cases o with
  | none => simp at h
  | some d =>
    simp only [Option.toList_some, List.mem_singleton] at h
    subst h
    simp

/-- A child is smaller than the node that it is inside of, so descending
from node to child comes to an end. -/
theorem sizeOf_lt_of_mem_children {c node : Node} (h : c ∈ node.children) :
    sizeOf c < sizeOf node := by
  cases node with
  | program items =>
    have : sizeOf c < sizeOf items := List.sizeOf_lt_of_mem h
    simp only [program.sizeOf_spec]
    omega
  | block items =>
    have : sizeOf c < sizeOf items := List.sizeOf_lt_of_mem h
    simp only [block.sizeOf_spec]
    omega
  | list items =>
    have : sizeOf c < sizeOf items := List.sizeOf_lt_of_mem h
    simp only [list.sizeOf_spec]
    omega
  | varDecl name type init =>
    have := sizeOf_lt_of_mem_toList h
    simp only [varDecl.sizeOf_spec]
    omega
  | constDecl name type value =>
    obtain rfl := List.mem_singleton.1 h
    simp only [constDecl.sizeOf_spec]
    omega
  | funcDecl name params returnType body =>
    obtain rfl := List.mem_singleton.1 h
    simp only [funcDecl.sizeOf_spec]
    omega
  | assign target value =>
    obtain rfl := List.mem_singleton.1 h
    simp only [assign.sizeOf_spec]
    omega
  | unary op operand =>
    obtain rfl := List.mem_singleton.1 h
    simp only [unary.sizeOf_spec]
    omega
  | param p => simp [children] at h
  | literal l => simp [children] at h
  | identifier name => simp [children] at h
  | binary left op right =>
    simp only [children, List.mem_cons, List.not_mem_nil, or_false] at h
    simp only [binary.sizeOf_spec]
    rcases h with rfl | rfl <;> omega
  | whileLoop condition body =>
    simp only [children, List.mem_cons, List.not_mem_nil, or_false] at h
    simp only [whileLoop.sizeOf_spec]
    rcases h with rfl | rfl <;> omega
  | call callee args =>
    rcases List.mem_cons.1 h with rfl | h
    · simp only [call.sizeOf_spec]
      omega
    · have := List.sizeOf_lt_of_mem h
      simp only [call.sizeOf_spec]
      omega
  | ifElse condition thenBranch elifs elseBranch =>
    simp only [children, List.cons_append, List.mem_cons, List.mem_append,
      List.mem_flatMap] at h
    simp only [ifElse.sizeOf_spec]
    rcases h with rfl | rfl | ⟨⟨a, b⟩, hp, hc⟩ | h
    · omega
    · omega
    · have := List.sizeOf_lt_of_mem hp
      simp only [List.not_mem_nil, or_false] at hc
      simp only [Prod.mk.sizeOf_spec] at this
      rcases hc with rfl | rfl <;> omega
    · have := sizeOf_lt_of_mem_toList h
      omega
  | forLoop init condition update body =>
    simp only [children, List.mem_append, List.mem_singleton] at h
    simp only [forLoop.sizeOf_spec]
    rcases h with ((h | h) | h) | rfl
    · have := sizeOf_lt_of_mem_toList h
      omega
    · have := sizeOf_lt_of_mem_toList h
      omega
    · have := sizeOf_lt_of_mem_toList h
      omega
    · omega

end Node

end ShiftReduce
