/-
Building nodes from their children.

Every kind of node has a builder that says which sequences of fragments it
takes apart and how. The builders that group or control (`program`, `call`,
`ifElse` and their like) look at nodes only: tokens drop out, and lists are
replaced by their items. The others want every fragment in its place.
-/
import ShiftReduce.Synthesis.Fault

namespace ShiftReduce

open Fragment (flatten isAssignSign name? type?)

/-- A way to make a node from fragments, or to say what is wrong with
them. -/
abbrev Builder := List Fragment → Except ShapeFault Node

namespace Builder

/-- The value of an option, whose absence contradicts an expectation. -/
def need {α : Type} (what : Expectation) : Option α → Except ShapeFault α
  | some a => .ok a
  | none => .error (.expected what)

/-- A node that has to be a block. -/
def needBlock : Node → Except ShapeFault Node
  | .block items => .ok (.block items)
  | _ => .error (.expected .block)

-- ========================================================== grouping

/-- A program takes all nodes. -/
def program (children : List Fragment) : Except ShapeFault Node :=
  .ok (.program (flatten children))

/-- A block takes all nodes. -/
def block (children : List Fragment) : Except ShapeFault Node :=
  .ok (.block (flatten children))

/-- A list takes all nodes, so that lists do not nest. -/
def list (children : List Fragment) : Except ShapeFault Node :=
  .ok (.list (flatten children))

/-- A call takes a callee, and all nodes behind it as arguments. -/
def call (children : List Fragment) : Except ShapeFault Node :=
  match flatten children with
  | [] => .error (.expected .callee)
  | callee :: args => .ok (.call callee args)

-- ====================================================== declarations

/-- Behind the name and the type of a variable there is nothing, or the
sign of assignment and a node. -/
def initializer : List Fragment → Except ShapeFault (Option Node)
  | [] => .ok none
  | sign :: rest =>
    if !isAssignSign sign then .error .unexpectedChildren
    else match rest with
      | [.node value] => .ok (some value)
      | .node _ :: _ :: _ => .error .tooManyChildren
      | _ => .error (.expected .initializer)

/-- `[name, type]` or `[name, type, sign, value]`. -/
def varDecl (children : List Fragment) : Except ShapeFault Node := do
  let name ← need .variableName (children.head?.bind name?)
  let type ← need .typeName
    ((children.tail.head?.filter fun f => !isAssignSign f).bind type?)
  let init ← initializer (children.drop 2)
  .ok (.varDecl name type init)

/-- `[name, type, sign, value]`. -/
def constDecl : Builder
  | [name, type, sign, .node value] =>
    if !isAssignSign sign then .error (.expected .constantDeclaration)
    else do
      let name ← need .constantName (name? name)
      let type ← need .typeName (type? type)
      .ok (.constDecl name type value)
  | _ => .error (.expected .constantDeclaration)

/-- `[name, type]`. -/
def param : Builder
  | [name, type] => do
    let name ← need .parameterName (name? name)
    let type ← need .typeName (type? type)
    .ok (.param ⟨name, type⟩)
  | _ => .error (.expected .parameter)

/-- The fragments with every list replaced by its items. -/
def splice (children : List Fragment) : List Fragment :=
  children.flatMap fun
    | .node (.list items) => items.map .node
    | f => [f]

/-- The parameter that a fragment is. -/
def parameter? : Fragment → Option Param
  | .node (.param p) => some p
  | _ => none

/-- `[name, parameters, return type, body]`, where the parameters may come
in lists. The fragments are looked at from the last to the first. -/
def funcDecl (children : List Fragment) : Except ShapeFault Node :=
  match (splice children).reverse with
  | .node body :: front => do
    let body ← needBlock body
    let returnType ← need .returnType (front.head?.bind type?)
    let front := front.tail.reverse
    let name ← need .functionName (front.head?.bind name?)
    let params ← need .parameters (front.tail.mapM parameter?)
    .ok (.funcDecl name params returnType body)
  | _ => .error (.expected .functionBody)

-- ======================================================= expressions

/-- `[target, sign, value]`. -/
def assign : Builder
  | [target, sign, .node value] =>
    if !isAssignSign sign then .error (.expected .assignment)
    else do
      let target ← need .assignmentTarget (name? target)
      .ok (.assign target value)
  | _ => .error (.expected .assignment)

/-- `[node, operator, node]`. -/
def binary : Builder
  | [.node left, .token op, .node right] => .ok (.binary left op.lexeme right)
  | _ => .error (.expected .binaryOperation)

/-- `[operator, node]`. -/
def unary : Builder
  | [.token op, .node operand] => .ok (.unary op.lexeme operand)
  | _ => .error (.expected .unaryOperation)

/-- One token that is a literal, or a literal that has been built
before. -/
def literal : Builder
  | [.token t] =>
    match Literal.ofToken t with
    | .ok l => .ok (.literal l)
    | .error reason => .error (.literal reason)
  | [.node (.literal l)] => .ok (.literal l)
  | _ => .error (.expected .literalToken)

/-- One token that is a number. -/
def number : Builder
  | [.token t] =>
    if t.kind = .integer ∨ t.kind = .float then literal [.token t]
    else .error (.expected .numericToken)
  | _ => .error (.expected .numericToken)

/-- One identifier. -/
def identifier : Builder
  | [f] => (need .identifier (name? f)).map .identifier
  | _ => .error (.expected .singleIdentifier)

-- =========================================================== control

/-- Behind the first branch there are pairs of a condition and a block, and
perhaps one more block. -/
def branches : List Node → Except ShapeFault (List (Node × Node) × Option Node)
  | [] => .ok ([], none)
  | [last] => (needBlock last).map fun b => ([], some b)
  | condition :: branch :: rest => do
    let branch ← needBlock branch
    let (elifs, last) ← branches rest
    .ok ((condition, branch) :: elifs, last)

/-- `[condition, block, (condition, block)*, block?]`. -/
def ifElse (children : List Fragment) : Except ShapeFault Node :=
  match flatten children with
  | [] => .error (.expected .condition)
  | [_] => .error (.expected .block)
  | condition :: thenBranch :: rest => do
    let thenBranch ← needBlock thenBranch
    let (elifs, last) ← branches rest
    .ok (.ifElse condition thenBranch elifs last)

/-- `[condition, block]`. -/
def whileLoop (children : List Fragment) : Except ShapeFault Node :=
  match flatten children with
  | [condition, body] =>
      (needBlock body).map fun body => .whileLoop condition body
  | _ => .error (.expected .whileLoop)

/-- `[block]`, `[condition, block]` or `[init, condition, update, block]`.
The last node is looked at first. -/
def forLoop (children : List Fragment) : Except ShapeFault Node :=
  let nodes := flatten children
  match nodes.getLast? with
  | none => .error (.expected .loopBody)
  | some body => do
    let body ← needBlock body
    match nodes.dropLast with
    | [] => .ok (.forLoop none none none body)
    | [condition] => .ok (.forLoop none (some condition) none body)
    | [init, condition, update] =>
      .ok (.forLoop (some init) (some condition) (some update) body)
    | _ => .error (.expected .forLoop)

end Builder

end ShiftReduce
