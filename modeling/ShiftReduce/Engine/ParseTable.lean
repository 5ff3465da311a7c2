/-
What an engine needs to know to parse.

The engine does not care where its actions come from. It asks for the
action in a state and on a symbol, for the sides of a rule, and for names
to put into messages; nothing obliges the answers to fit together. A built
table with its grammar answers these questions, and so does a plain list
of cells.
-/
import ShiftReduce.Table.Name

namespace ShiftReduce

/-- The two sides of a rule. -/
structure Production where
  left : Symbol
  right : List Symbol
deriving DecidableEq, Repr

/-- The actions and rules by which an engine parses; `σ` is the type of its
states. -/
structure ParseTable (σ : Type) where
  startSymbol : Symbol
  initial : σ
  action? : σ → Symbol → Option (Action σ)
  rule? : Nat → Option Production
  stateName : σ → String

/-- Parse by a table with the rules of a grammar. -/
def Table.parseTable (t : Table) (g : Grammar) : ParseTable Nat :=
  { startSymbol := t.startSymbol
    initial := Table.initial
    action? := t.action?
    rule? := fun index => (g.rule? index).map fun rule =>
      ⟨rule.left, rule.right⟩
    stateName := t.stateName }

/-- One cell of a table that is given cell by cell. -/
structure LooseCell where
  state : Nat
  symbol : Symbol
  action : Action Nat
deriving DecidableEq, Repr

/-- A table that is given cell by cell. -/
structure CellTable where
  startSymbol : Symbol
  initial : Nat
  rules : List Production
  cells : List LooseCell

namespace CellTable

/-- The action in the first cell for a state and a symbol. -/
def action? (t : CellTable) (state : Nat) (symbol : Symbol) :
    Option (Action Nat) :=
  (t.cells.find? fun c => c.state == state && c.symbol == symbol).map
    LooseCell.action

/-- Parse by the first matching cell. -/
def parseTable (t : CellTable) : ParseTable Nat :=
  { startSymbol := t.startSymbol
    initial := t.initial
    action? := t.action?
    rule? := fun index => t.rules[index]?
    stateName := fun state => toString state }

end CellTable

end ShiftReduce
