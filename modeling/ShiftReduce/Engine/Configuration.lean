/-
Where an engine stands.

A configuration has three parts. The queue holds the symbols that are still
to be shifted: those of the input, led by the left-hand side of the rule
that was reduced last, if there is one. The stack holds the symbols that
have been shifted, with the states that they led to, above an entry for the
start that is never removed. And the fragments are what the symbols on the
stack, and the reduced symbol in the queue, have contributed to the tree so
far; each of these symbols remembers whether it has contributed one. Stack
and fragments are kept with their tops in front.
-/
import ShiftReduce.Engine.ParseTable
import ShiftReduce.Tree.Fragment

namespace ShiftReduce

/-- A symbol that waits to be shifted. -/
structure Queued where
  symbol : Symbol
  /-- The token of the symbol; for a reduced symbol, the token at which it
  was reduced. -/
  token : Token
  /-- Whether the symbol contributes to the tree: a token when it is
  shifted, a reduced symbol with the node that it has left already. -/
  significant : Bool
  /-- Whether the symbol comes from a reduction and not from the input. -/
  reduced : Bool
deriving DecidableEq, Repr

/-- The symbol of a token of the input. -/
def Queued.ofToken (token : Token) : Queued :=
  ⟨token.symbol, token, token.isSignificant, false⟩

/-- A symbol that has been shifted. -/
structure StackEntry (σ : Type) where
  symbol : Symbol
  /-- The state after the shift. -/
  state : σ
  /-- Whether the symbol has a fragment. -/
  carries : Bool
deriving DecidableEq, Repr

/-- What an engine has done and still has to do. -/
structure Configuration (σ : Type) where
  /-- The symbols still to be shifted, the next one first. -/
  queue : List Queued
  /-- The symbols that have been shifted, the last one first. -/
  stack : List (StackEntry σ)
  /-- The fragments, the latest first. -/
  fragments : List Fragment
  /-- Whether the start symbol has been reduced. -/
  completed : Bool

namespace Configuration

variable {σ : Type}

/-- The position at which the input ends: that of its last token. -/
def endPosition (tokens : List Token) : Position :=
  match tokens.getLast? with
  | none => Position.first
  | some t => t.position

/-- The configuration in which parsing starts. The end of the input is a
symbol of its own behind the tokens. -/
def start (t : ParseTable σ) (tokens : List Token) : Configuration σ :=
  { queue :=
      tokens.map Queued.ofToken
        ++ [Queued.ofToken (Token.endAt (endPosition tokens))]
    stack := [⟨t.startSymbol, t.initial, false⟩]
    fragments := []
    completed := false }

/-- Whether there is nothing left to do. -/
def isDone (c : Configuration σ) : Bool := c.completed || c.queue.isEmpty

/-- The symbols on the stack, from the bottom to the top. -/
def stackSymbols (c : Configuration σ) : List Symbol :=
  (c.stack.map StackEntry.symbol).reverse

/-- The symbols in the queue, from the next one on. -/
def queueSymbols (c : Configuration σ) : List Symbol :=
  c.queue.map Queued.symbol

end Configuration

end ShiftReduce
