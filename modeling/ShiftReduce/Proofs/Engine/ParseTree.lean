/-
Parse trees, and the forest of a run.

An engine never holds the parse tree of its input: it keeps one fragment
for each symbol that has something to say, and one flag for each symbol
that tells whether it has one. The parse trees are what the fragments are
the values of. A token is a leaf, and a reduction makes a tree of the trees
of the symbols that it takes off the stack; the value of a token is the
token, if it is of interest, and the value of a reduction is what its
semantic action makes of the values of its children, or without an action
the first node among them.

The forest of a run holds the tree of every symbol in the place of the
symbol. It grows beside the configuration by what the table tells the
engine to do, and it is never asked for anything.
-/
import ShiftReduce.Engine.Run

namespace ShiftReduce

/-- How a symbol came about. -/
inductive ParseTree where
  /-- It is the symbol of a token of the input. -/
  | leaf (token : Token)
  /-- It is the left-hand side of a rule by which its children were
  reduced, with the semantic action of the reduction. -/
  | inner (rule : Nat) (left : Symbol) (action : Option String)
      (children : List ParseTree)

namespace ParseTree

-- ============================================================= reading

/-- The symbol at the root. -/
def symbol : ParseTree → Symbol
  | leaf token => token.symbol
  | inner _ left _ _ => left

/-- The tokens at the leaves, from left to right. -/
def leaves : ParseTree → List Token
  | leaf token => [token]
  | inner _ _ _ children => children.flatMap leaves
termination_by tree => sizeOf tree

/-- What a tree contributes to the syntax tree, if it contributes
anything. -/
def value : ParseTree → Option Fragment
  | leaf token => if token.isSignificant then some (.token token) else none
  | inner rule _ (some name) children =>
    match synthesize name (children.filterMap value) rule with
    | .ok node => some (.node node)
    | .error _ => none
  | inner _ _ none children =>
    ((children.filterMap value).findSome? Fragment.node?).map .node
termination_by tree => sizeOf tree

/-- The warning that a reduction deserves: it has no semantic action, and
the values of its children are not a single node. -/
def ownWarning (rule : Nat) (left : Symbol) :
    Option String → List Fragment → List Warning
  | some _, _ => []
  | none, [.node _] => []
  | none, values =>
      [⟨rule, left, values.length, (values.findSome? Fragment.node?).isSome⟩]

/-- The warnings that the reductions of a tree deserve, those of the
children before that of their parent. -/
def warnings : ParseTree → List Warning
  | leaf _ => []
  | inner rule left action children =>
    children.flatMap warnings
      ++ ownWarning rule left action (children.filterMap value)
termination_by tree => sizeOf tree

/-- A leaf has a value exactly if its token is of interest. -/
theorem isSome_value_leaf (token : Token) :
    (leaf token).value.isSome = token.isSignificant := by
  rw [value]
  cases token.isSignificant <;> rfl

/-- What a reduction leaves behind is the value of its tree, and its warning
is the one that the tree deserves. -/
theorem of_reducedNode {rule : Nat} {left : Symbol} {action : Option String}
    {children : List ParseTree} {node : Option Node} {warning : Option Warning}
    (h : reducedNode rule left (children.filterMap value) action
      = .ok (node, warning)) :
    (inner rule left action children).value = node.map .node
      ∧ warning.toList
        = ownWarning rule left action (children.filterMap value) := by
  cases action with
  | some name =>
      rw [value]
      simp only [reducedNode] at h
      cases hbuilt : synthesize name (children.filterMap value) rule with
      | error e =>
          rw [hbuilt] at h
          cases h
      | ok built =>
          rw [hbuilt] at h
          cases h
          exact ⟨rfl, rfl⟩
  | none =>
      rw [value]
      generalize children.filterMap value = values at h ⊢
      simp only [reducedNode, promote, List.head?_filterMap] at h
      split at h
      · next hone =>
        cases h
        refine ⟨rfl, ?_⟩
        obtain ⟨hlen, hnode⟩ := hone
        obtain ⟨fragment, rfl⟩ := List.length_eq_one_iff.mp hlen
        -- the single fragment is a node, so there is nothing to warn of
        cases fragment with
        | node n => rfl
        | token token => cases hnode
      · next hmany =>
        cases h
        refine ⟨rfl, ?_⟩
        unfold ownWarning
        split
        · next heq => cases heq
        · exact absurd ⟨rfl, rfl⟩ hmany
        · rfl

end ParseTree

-- ============================================================== forests

/-- The trees of the symbols of a configuration: those on the stack above
its bottom, the last one first, and those in the queue. -/
structure Forest where
  stack : List ParseTree
  queue : List ParseTree

namespace Forest

variable {σ : Type}

/-- At the start every symbol of the input is a leaf. -/
def ofTokens (tokens : List Token) : Forest :=
  { stack := []
    queue := tokens.map .leaf
      ++ [.leaf (Token.endAt (Configuration.endPosition tokens))] }

/-- The tree of the next symbol goes onto the stack with its symbol. -/
def shift (f : Forest) : Forest :=
  match f.queue with
  | [] => f
  | tree :: queue => ⟨tree :: f.stack, queue⟩

/-- The trees of a right-hand side become the children of one tree, which
waits in front of the others. -/
def reduce (f : Forest) (index : Nat) (p : Production)
    (action : Option String) : Forest :=
  { stack := f.stack.drop p.right.length
    queue := .inner index p.left action (f.stack.take p.right.length).reverse
      :: f.queue }

/-- The forest behind a step from a configuration. -/
def grow (t : ParseTable σ) (c : Configuration σ) (f : Forest) : Forest :=
  if c.completed then f
  else match c.queue, c.stack with
    | lookahead :: _, top :: _ =>
      match t.action? top.state lookahead.symbol with
      | some (.shift _) => f.shift
      | some (.reduce index action) =>
        match t.rule? index with
        | some p => f.reduce index p action
        | none => f
      | none => f
    | _, _ => f

/-- All trees in the order in which their tokens stand in the input. -/
def trees (f : Forest) : List ParseTree := f.stack.reverse ++ f.queue

/-- The value of the reduced symbol that waits at the head of the queue, if
there is such a symbol and if it has a value. -/
def waiting (c : Configuration σ) (f : Forest) : List Fragment :=
  match c.queue, f.queue with
  | head :: _, tree :: _ => if head.reduced then tree.value.toList else []
  | _, _ => []

end Forest

-- ================================================================= runs

/-- A run from the start without failed steps has come to a configuration,
with the trees of its symbols and with the warnings on the way. -/
inductive Grows {σ : Type} (t : ParseTable σ) (tokens : List Token) :
    Configuration σ → Forest → List Warning → Prop where
  | start : Grows t tokens (.start t tokens) (.ofTokens tokens) []
  | step {c : Configuration σ} {f : Forest} {ws : List Warning} {s : Step}
      (run : Grows t tokens c f ws) (ok : (c.step t).result = .ok s) :
      Grows t tokens (c.step t).config (f.grow t c)
        (ws ++ (c.step t).warning.toList)

end ShiftReduce
