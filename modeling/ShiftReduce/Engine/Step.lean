/-
One step of an engine.

A step takes a symbol from the queue and asks the table what to do. To
shift is to put the symbol onto the stack, and its token to the fragments
if it is of interest. To reduce is to take the right-hand side of a rule
off the stack, to make a node of its fragments, and to put the left-hand
side in front of the symbol that was taken, so that it will be shifted
next. When the start symbol is reduced, parsing is complete.

A step that fails leaves behind what it had already done: the symbol stays
taken, and a reduction whose semantic action refuses its children has
already used them up.
-/
import ShiftReduce.Engine.Configuration
import ShiftReduce.Engine.Error
import ShiftReduce.Text.Quoted

namespace ShiftReduce

/-- What a step has done. -/
inductive Step where
  | shifted (symbol : Symbol)
  | reduced (rule : Nat) (left : Symbol)
  | completed
deriving DecidableEq, Repr

/-- What happens during a step. -/
inductive ParseEvent (σ : Type) where
  | shift (symbol : Symbol) (target : σ)
  /-- A reduction by an existing rule is about to be made. -/
  | reduce (production : Production) (lookahead : Symbol)
  /-- A rule without a semantic action has reduced so many fragments. -/
  | noAction (rule children : Nat)
  | completed

/-- What comes of a step: the configuration behind it, also of a step that
fails, the result, the warning if there is one, and the events in order. -/
structure Outcome (σ : Type) where
  config : Configuration σ
  result : Except ParseError Step
  warning : Option Warning
  events : List (ParseEvent σ)

/-- What a rule without a semantic action passes on: the first node among
its fragments. Only a rule with a single fragment, which is a node, does so
without a warning. -/
def promote (rule : Nat) (left : Symbol) (children : List Fragment) :
    Option Node × Option Warning :=
  let first := (children.filterMap Fragment.node?).head?
  if children.length = 1 ∧ first.isSome then (first, none)
  else (first, some ⟨rule, left, children.length, first.isSome⟩)

/-- The node that a reduction leaves, if it leaves one: what the semantic
action makes of the fragments, or what is passed on without one. -/
def reducedNode (rule : Nat) (left : Symbol) (children : List Fragment) :
    Option String → Except SynthesisError (Option Node × Option Warning)
  | some action =>
    match synthesize action children rule with
    | .ok node => .ok (some node, none)
    | .error e => .error e
  | none => .ok (promote rule left children)

namespace Configuration

variable {σ : Type}

/-- The outcome of a step that fails in a configuration. -/
def fail (c : Configuration σ) (events : List (ParseEvent σ))
    (error : ParseError) : Outcome σ :=
  ⟨c, .error error, none, events⟩

/-- Shift a symbol that has been taken from the queue. -/
def shift (c : Configuration σ) (lookahead : Queued) (target : σ) :
    Outcome σ :=
  { config :=
      { c with
        stack := ⟨lookahead.symbol, target, lookahead.significant⟩ :: c.stack
        fragments :=
          if lookahead.significant && !lookahead.reduced
          then .token lookahead.token :: c.fragments else c.fragments }
    result := .ok (.shifted lookahead.symbol)
    warning := none
    events := [.shift lookahead.symbol target] }

/-- Whether the right-hand side of a rule is on top of the stack. The entry
at the bottom never takes part in a reduction. -/
def topMatches (c : Configuration σ) (right : List Symbol) : Bool :=
  decide (right.length < c.stack.length)
    && ((c.stack.take right.length).map StackEntry.symbol).reverse == right

/-- The configuration in which a rule has been reduced to `node`, with the
entries and fragments of its right-hand side already gone. -/
def requeue (t : ParseTable σ) (c : Configuration σ) (lookahead : Queued)
    (left : Symbol) (node : Option Node) : Configuration σ :=
  { c with
    queue := ⟨left, lookahead.token, node.isSome, true⟩ :: lookahead :: c.queue
    fragments := node.toList.map .node ++ c.fragments
    completed := left == t.startSymbol }

/-- Reduce by a rule on a symbol that has been taken from the queue. -/
def reduce (t : ParseTable σ) (c : Configuration σ) (lookahead : Queued)
    (index : Nat) (action : Option String) : Outcome σ :=
  match t.rule? index with
  | none => c.fail [] (.table (.unknownRule index))
  | some production =>
    let left := production.left
    let n := production.right.length
    let begun := [.reduce production lookahead.symbol]
    if !c.topMatches production.right then
      c.fail begun
        (.table (.stackMismatch index production.right c.stackSymbols))
    else
      let popped := { c with stack := c.stack.drop n }
      let count := ((c.stack.take n).filter StackEntry.carries).length
      if c.fragments.length < count then
        popped.fail begun
          (.table (.fragmentsMissing index count c.fragments.length))
      else
        let children := (c.fragments.take count).reverse
        let emptied := { popped with fragments := c.fragments.drop count }
        match reducedNode index left children action with
        | .error e => emptied.fail begun (.synthesis e)
        | .ok (node, warning) =>
          let next := emptied.requeue t lookahead left node
          { config := next
            result :=
              .ok (if next.completed then .completed else .reduced index left)
            warning := warning
            events := begun
              ++ warning.toList.map (fun w => .noAction w.rule w.children)
              ++ if next.completed then [.completed] else [] }

/-- Take a symbol from the queue and do what the table says. A completed
configuration stays as it is. -/
def step (t : ParseTable σ) (c : Configuration σ) : Outcome σ :=
  if c.completed then ⟨c, .ok .completed, none, []⟩
  else match c.queue with
    | [] =>
        c.fail [] (.table (.incomplete c.stackSymbols [] c.fragments.length))
    | lookahead :: rest =>
      let taken := { c with queue := rest }
      match c.stack with
      | [] => taken.fail [] (.table .emptyStack)
      | top :: _ =>
        match t.action? top.state lookahead.symbol with
        | none =>
          taken.fail [] (.unexpectedToken
            (t.stateName top.state) lookahead.symbol
            lookahead.token.position)
        | some (.shift target) => taken.shift lookahead target
        | some (.reduce index action) => taken.reduce t lookahead index action

end Configuration

end ShiftReduce
