/-
Parser actions.

In a state and on a symbol a parser either shifts, which consumes the
symbol and moves to another state, or reduces by a rule, which replaces
the right-hand side of the rule on the stack by its left-hand side. A
reduction carries the name of the semantic action of its rule.
-/

namespace ShiftReduce

/-- What a parser does next; `σ` is the type of its states. -/
inductive Action (σ : Type) where
  /-- Consume the symbol and go to a state. -/
  | shift (target : σ)
  /-- Replace the right-hand side of a rule by its left-hand side. -/
  | reduce (rule : Nat) (action : Option String)
deriving DecidableEq, Repr

end ShiftReduce
