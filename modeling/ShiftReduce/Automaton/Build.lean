/-
Building the action table of a grammar.

The graph of items is merged until no cell is ambiguous, the states that
can be reached are numbered, and the reductions are entered. How many
rounds of merging are allowed is a parameter; a grammar that needs more is
refused. The report of a build also tells what happened on the way.
-/
import ShiftReduce.Automaton.ItemGraph
import ShiftReduce.Automaton.Merge
import ShiftReduce.Automaton.Reach
import ShiftReduce.Automaton.Reduce
import ShiftReduce.Table.Basic

namespace ShiftReduce

/-- Why there is no table. -/
inductive BuildError where
  /-- The text is not a grammar. -/
  | grammar (reason : GrammarError)
  /-- Cells were still ambiguous after the allowed number of rounds. -/
  | nonTermination (rounds : Nat)
deriving DecidableEq, Repr

/-- The text of a build error. -/
def BuildError.message : BuildError → String
  | .grammar _ => "invalid grammar"
  | .nonTermination rounds =>
    "state merging did not converge after " ++ toString rounds ++ " rounds"

/-- The code under which a build error is listed. -/
def BuildError.code : BuildError → String
  | .grammar reason => reason.code
  | .nonTermination _ => "B007"

/-- How much a log entry matters. -/
inductive LogLevel where
  | warn
  | debug
  | trace
deriving DecidableEq, Repr

/-- The name of a level. -/
def LogLevel.name : LogLevel → String
  | .warn => "WARN"
  | .debug => "DEBUG"
  | .trace => "TRACE"

/-- Whether entries of a level belong into a log down to another. -/
def LogLevel.within : (level limit : LogLevel) → Bool
  | .warn, _ => true
  | .debug, .warn => false
  | .debug, _ => true
  | .trace, .trace => true
  | .trace, _ => false

/-- What happens during a build. -/
inductive BuildEvent where
  /-- A rule names a semantic action that does not exist. -/
  | unknownAction (rule : Nat) (name : String)
  /-- A union of so many items was entered as a state. -/
  | mergedState (items : Nat)
  /-- A round of merging has ended. -/
  | mergeRound (round cells states : Nat)
  /-- A reduction was turned away. -/
  | conflict (startSymbol : Symbol) (conflict : Conflict)
  /-- The table has so many states. -/
  | finished (states : Nat)

/-- How much an event matters. -/
def BuildEvent.level : BuildEvent → LogLevel
  | unknownAction .. => .warn
  | mergedState _ => .trace
  | mergeRound .. => .debug
  | conflict .. => .debug
  | finished _ => .debug

/-- The text of an event. -/
def BuildEvent.message : BuildEvent → String
  | unknownAction rule name =>
    "rule " ++ toString rule ++ ": unknown semantic action `" ++ name ++ "'"
  | mergedState items => "merged state with " ++ toString items ++ " items"
  | mergeRound round cells states =>
    "merge round " ++ toString round ++ ": " ++ toString cells ++ " cells, "
      ++ toString states ++ " states"
  | conflict startSymbol c => c.message startSymbol
  | finished states => toString states ++ " states"

/-- What comes of a build: a table or an error, the conflicts, and the
events in order. -/
structure BuildReport where
  result : Except BuildError Table
  conflicts : List Conflict
  log : List BuildEvent

namespace Rows

/-- The events of the rounds of merging that lead from `rows` through
`rounds`, the first of which is counted as round `n`. -/
def mergeLog (n : Nat) (rows : Rows) : List Rows → List BuildEvent
  | [] => []
  | next :: rounds =>
    (next.keys.drop rows.size).map (fun key => .mergedState key.items.length)
      ++ .mergeRound n rows.ambiguous.length next.size
        :: mergeLog (n + 1) next rounds

end Rows

/-- The action of a cell, with states by number. The first target is the
only one once merging has ended, and it is always among the states. -/
def Cell.action? (g : Grammar) (states : OrderedSet StateKey) (cell : Cell) :
    Option (Action Nat) :=
  match cell.shifts, cell.reduce with
  | target :: _, _ =>
      some (.shift ((states.indexOf? target).getD Table.initial))
  | [], some rule => some (.reduce rule ((g.rule? rule).bind Rule.action))
  | [], none => none

/-- The fillings of the given states, in their order. -/
def Grammar.fillings (g : Grammar) (follow : FollowSets) (rows : Rows)
    (states : OrderedSet StateKey) : List Filling :=
  let terminals := g.terminals
  states.elements.map (Filling.ofState g follow terminals rows)

/-- The table with the given states and rows. -/
def Table.ofFillings (g : Grammar) (states : OrderedSet StateKey)
    (fillings : List Filling) : Table :=
  { startSymbol := g.startSymbol
    states := OrderedMap.zip states (fillings.map fun filling =>
      filling.row.filterMapValues (Cell.action? g states)) }

/-- The number of rounds of merging that are allowed unless something else
is said. -/
def defaultRounds : Nat := 256

/-- Build the action table of a grammar from its FOLLOW sets. -/
def Grammar.buildWith (g : Grammar) (follow : FollowSets) (limit : Nat) :
    BuildReport :=
  let items := Rows.ofGrammar g
  let rounds := items.mergeRounds limit
  let log := Rows.mergeLog 1 items rounds
  if limit < rounds.length then
    { result := .error (.nonTermination limit), conflicts := [], log := log }
  else
    let rows := items.afterRounds rounds
    let states := rows.reachable
    let fillings := g.fillings follow rows states
    let conflicts := fillings.flatMap Filling.conflicts
    let table := Table.ofFillings g states fillings
    { result := .ok table
      conflicts := conflicts
      log := log ++ conflicts.map (.conflict g.startSymbol)
        ++ [.finished table.size] }

/-- Build the action table of a grammar. -/
def Grammar.build (g : Grammar) (limit : Nat) : BuildReport :=
  g.buildWith (FollowSets.ofGrammar g (FirstSets.ofGrammar g)) limit

end ShiftReduce
