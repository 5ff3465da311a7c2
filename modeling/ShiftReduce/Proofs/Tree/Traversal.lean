/-
What a traversal comes to.

A visitor that notes down what it meets and always goes on is told of a tree
the way the tree is written: of a node, of its parameters, and then of what is
below it, part by part. So it meets what is at the addresses of the tree, in
the order of the addresses, every address once; and it is told of the
parameters in a label right after the node with this label, before anything
below. Nothing of a tree is without an address, since a tree is known from the
labels at its addresses.
-/
import ShiftReduce.Proofs.Tree.Places
import ShiftReduce.Tree.Visit

namespace ShiftReduce

namespace Node

/-- What holds of a node if it holds of its children holds of every node. -/
theorem children_induction {motive : Node → Prop}
    (step : ∀ node, (∀ child ∈ node.children, motive child) → motive node)
    (node : Node) : motive node :=
  step node fun child _ => children_induction step child
termination_by sizeOf node
decreasing_by exact sizeOf_lt_of_mem_children ‹_›

/-- Trees with the same labels at the same addresses are the same: no part of
a tree is without an address. -/
theorem eq_of_label_at? {a b : Node}
    (h : ∀ address, (a.at? address).map label = (b.at? address).map label) :
    a = b := by
  induction a using children_induction generalizing b with
  | step a ih =>
      have hlabel : a.label = b.label := Option.some.inj (h [])
      refine eq_of_label_of_part? hlabel fun place => ?_
      -- what is at the addresses that start with this place
      have hbelow : ∀ address,
          ((a.part? place).bind fun part => part.at? address).map label
            = ((b.part? place).bind fun part => part.at? address).map label :=
        fun address => h (place :: address)
      cases hpart : a.part? place with
      | none =>
          rw [hpart] at hbelow
          cases hother : b.part? place with
          | none => rfl
          | some other =>
              rw [hother] at hbelow
              cases hbelow []
      | some part =>
          rw [hpart] at hbelow
          cases hother : b.part? place with
          | none =>
              rw [hother] at hbelow
              cases hbelow []
          | some other =>
              rw [hother] at hbelow
              rw [ih part (mem_children_of_part? hpart) hbelow]

end Node

namespace Visitor

variable {σ : Type}

/-- A visitor that notes down nodes and parameters, goes into every node and
does nothing on the way back. -/
def recording (enter : σ → Node → σ) (param : σ → Param → σ) : Visitor σ where
  enter := enter
  descends := fun _ => true
  param := param
  leave := fun s _ => s

/-- What is noted down at a node itself. -/
def note (enter : σ → Node → σ) (param : σ → Param → σ) (s : σ) (node : Node) :
    σ :=
  node.label.params.foldl param (enter s node)

variable (enter : σ → Node → σ) (param : σ → Param → σ)

theorem visit_recording (s : σ) (node : Node) :
    (recording enter param).visit s node
      = node.children.foldl (recording enter param).visit
        (note enter param s node) := by
  rw [visit_eq, note, Node.params_label]
  rfl

/-- A traversal notes down what is at the addresses of the tree. -/
theorem visit_recording_eq_foldl (s : σ) (node : Node) :
    (recording enter param).visit s node
      = (node.addresses.filterMap node.at?).foldl (note enter param) s := by
  induction node using Node.children_induction generalizing s with
  | step node ih =>
      rw [visit_recording, Node.filterMap_at?_addresses, List.foldl_cons,
        List.foldl_flatMap]
      exact List.foldl_ext _ _ _ fun s child hchild => ih child hchild s

/-- A traversal comes to every place in a tree once, in the order of the
source, and to the parameters of a node after the node and before what is
below it. The places are all that there is to a tree: another one differs in
what some of them says, or has other places. -/
theorem visits_each_place_once (node : Node) :
    ∃ addresses : List (List Place),
      addresses.Pairwise (List.Lex Place.Before) ∧ addresses.Nodup
        ∧ (∀ address,
            address ∈ addresses ↔ ∃ part, node.at? address = some part)
        ∧ (∀ other : Node,
            (∀ address,
              (other.at? address).map Node.label
                = (node.at? address).map Node.label) →
            other = node)
        ∧ ∀ (σ : Type) (enter : σ → Node → σ) (param : σ → Param → σ) (s : σ),
            (recording enter param).visit s node
              = (addresses.filterMap node.at?).foldl
                  (fun s part => part.label.params.foldl param (enter s part))
                  s :=
  ⟨node.addresses, node.pairwise_addresses, node.nodup_addresses,
    fun _ => Node.mem_addresses_iff, fun _ => Node.eq_of_label_at?,
    fun _ enter param s => visit_recording_eq_foldl enter param s node⟩

end Visitor

end ShiftReduce
