/-
Parsing from the first token to the tree.

Steps are taken until one fails or nothing is left to do, and then it is
checked whether what is left is a success: the start symbol in front of the
end of the input, an empty stack, and a single node. A table may make an
engine go on for ever, so the number of steps is limited by the caller.
-/
import ShiftReduce.Automaton.Build
import ShiftReduce.Engine.Step

namespace ShiftReduce

namespace ParseEvent

/-- How much an event matters. -/
def level {σ : Type} : ParseEvent σ → LogLevel
  | noAction .. => .debug
  | _ => .trace

/-- The text of an event of an engine whose states are numbers. -/
def message : ParseEvent Nat → String
  | shift symbol target =>
    "shift " ++ symbol ++ " => StateId \x7b raw: "
      ++ toString target ++ " \x7d"
  | reduce production lookahead =>
    "reduce " ++ production.left ++ " -> " ++ Text.showTexts production.right
      ++ " on "
      ++ lookahead
  | noAction rule children =>
    "rule " ++ toString rule ++ " has no semantic action for "
      ++ toString children
      ++ " children"
  | completed => "completed"

end ParseEvent

/-- What comes of some steps. -/
structure Run (σ : Type) where
  /-- The configuration behind the last step. -/
  config : Configuration σ
  /-- The error of the last step, if it failed. -/
  error : Option ParseError
  warnings : List Warning
  events : List (ParseEvent σ)

/-- What comes of parsing. -/
structure ParseReport (σ : Type) where
  result : Except ParseError Node
  warnings : List Warning
  events : List (ParseEvent σ)

namespace Configuration

variable {σ : Type}

/-- Take steps until one fails or nothing is left to do. There is no
answer if that takes more steps than the limit. -/
def run (t : ParseTable σ) : (limit : Nat) → Configuration σ → Option (Run σ)
  | limit, c =>
    if c.isDone then some ⟨c, none, [], []⟩
    else match limit with
      | 0 => none
      | limit + 1 =>
        let o := c.step t
        match o.result with
        | .error e => some ⟨o.config, some e, o.warning.toList, o.events⟩
        | .ok _ =>
          (o.config.run t limit).map fun r =>
            { r with
              warnings := o.warning.toList ++ r.warnings
              events := o.events ++ r.events }

/-- The tree of a configuration that is a success. -/
def finish [DecidableEq σ] (t : ParseTable σ) (c : Configuration σ) :
    Except ParseError Node :=
  let stackOk := match c.stack with
    | [bottom] =>
        bottom.symbol == t.startSymbol && decide (bottom.state = t.initial)
    | _ => false
  let queueOk := match c.queue with
    | [head, last] => head.symbol == t.startSymbol && last.symbol == endMarker
    | _ => false
  match c.fragments with
  | [.node root] =>
    if c.completed && stackOk && queueOk then .ok root
    else .error (.table (.incomplete c.stackSymbols c.queueSymbols 1))
  | fragments =>
    .error
      (.table (.incomplete c.stackSymbols c.queueSymbols fragments.length))

/-- The outcomes of single steps, at most as many as the limit. Unless it
is told to keep going, the engine stops when nothing is left to do and
after a step that fails. -/
def trace (t : ParseTable σ) (keepGoing : Bool) :
    (limit : Nat) → Configuration σ →
    List (Outcome σ)
  | 0, _ => []
  | limit + 1, c =>
    if c.isDone && !keepGoing then []
    else
      let o := c.step t
      let stops := match o.result with
        | .error _ => !keepGoing
        | .ok _ => false
      o :: if stops then [] else o.config.trace t keepGoing limit

end Configuration

/-- Parse some tokens. There is no answer if that takes more steps than the
limit. -/
def parseWithin {σ : Type} [DecidableEq σ] (limit : Nat) (t : ParseTable σ)
    (tokens : List Token) : Option (ParseReport σ) :=
  ((Configuration.start t tokens).run t limit).map fun r =>
    { result := match r.error with
        | some e => .error e
        | none => r.config.finish t
      warnings := r.warnings
      events := r.events }

end ShiftReduce
