/-
Visiting a tree.

A visitor is told of every node that it comes to, first before and then
after what is inside of it, and of the parameters; it may refuse to go
into a node. What it gathers is a state that is passed along.
-/
import ShiftReduce.Tree.Node

namespace ShiftReduce

/-- What is done on the way through a tree; `σ` is what is gathered. -/
structure Visitor (σ : Type) where
  /-- On coming to a node. -/
  enter : σ → Node → σ
  /-- Whether to go into a node. -/
  descends : Node → Bool
  /-- On a parameter of a node that is gone into, before the children. -/
  param : σ → Param → σ
  /-- On leaving a node. -/
  leave : σ → Node → σ

namespace Visitor

variable {σ : Type}

/-- Visit a node with all that is inside of it. -/
def visit (v : Visitor σ) (s : σ) (node : Node) : σ :=
  let entered := v.enter s node
  let walked :=
    if v.descends node then
      node.children.attach.foldl (fun s c => v.visit s c.1)
        (node.params.foldl v.param entered)
    else entered
  v.leave walked node
termination_by sizeOf node
decreasing_by exact Node.sizeOf_lt_of_mem_children c.2

/-- Visit the parameters and the children of a node, but not the node. -/
def walk (v : Visitor σ) (s : σ) (node : Node) : σ :=
  node.children.foldl v.visit (node.params.foldl v.param s)

/-- Between entering and leaving a node a visitor walks through it, unless
it refuses to. -/
theorem visit_eq (v : Visitor σ) (s : σ) (node : Node) :
    v.visit s node
      = v.leave
          (if v.descends node then v.walk (v.enter s node) node
            else v.enter s node)
          node := by
  rw [visit]
  simp only [walk, List.foldl_subtype, List.unattach_attach]

end Visitor

end ShiftReduce
