/-
From lines of text to a table.

Compiling reads a grammar from lines, notes the rules whose semantic action
does not exist, and builds the table. An action that does not exist is no
reason to stop: it matters only when its rule is used.
-/
import ShiftReduce.Automaton.Build
import ShiftReduce.Synthesis.SemanticAction

namespace ShiftReduce

/-- A grammar with its table. -/
structure Compiled where
  grammar : Grammar
  table : Table
  /-- The conflicts that were resolved in the table. -/
  conflicts : List Conflict

/-- What comes of compiling. -/
structure Compilation where
  result : Except BuildError Compiled
  log : List BuildEvent

/-- The compilation that a build of a grammar amounts to. -/
def Compilation.ofBuild (g : Grammar) (report : BuildReport) : Compilation :=
  { result := report.result.map fun table => ⟨g, table, report.conflicts⟩
    log := report.log }

/-- The rules of a grammar that name a semantic action which does not
exist. -/
def Grammar.unknownActions (g : Grammar) : List BuildEvent :=
  g.numberedRules.filterMap fun p =>
    match p.2.action with
    | none => none
    | some name =>
        if isKnownAction name then none else some (.unknownAction p.1 name)

/-- Compile the grammar that is written on the given lines. -/
def compile (lines : List String) : Compilation :=
  match Grammar.ofLines? lines with
  | .error e => ⟨.error (.grammar e), []⟩
  | .ok g =>
    let compilation := Compilation.ofBuild g (g.build defaultRounds)
    { compilation with log := g.unknownActions ++ compilation.log }

end ShiftReduce
