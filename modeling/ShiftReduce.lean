import ShiftReduce.Analysis.First
import ShiftReduce.Analysis.Follow
import ShiftReduce.Analysis.Inclusion
import ShiftReduce.Analysis.TerminalSet
import ShiftReduce.Automaton.Build
import ShiftReduce.Automaton.ItemGraph
import ShiftReduce.Automaton.LeftCorner
import ShiftReduce.Automaton.Merge
import ShiftReduce.Automaton.Reach
import ShiftReduce.Automaton.Reduce
import ShiftReduce.Automaton.Rows
import ShiftReduce.Collections.OrderedMap
import ShiftReduce.Collections.OrderedSet
import ShiftReduce.Collections.Settle
import ShiftReduce.Collections.Worklist
import ShiftReduce.Compile
import ShiftReduce.Engine.Configuration
import ShiftReduce.Engine.Error
import ShiftReduce.Engine.ParseTable
import ShiftReduce.Engine.Run
import ShiftReduce.Engine.Step
import ShiftReduce.Grammar
import ShiftReduce.Json.Layout
import ShiftReduce.Json.Token
import ShiftReduce.Json.Value
import ShiftReduce.Numeral.Decimal
import ShiftReduce.Numeral.Integer
import ShiftReduce.Numeral.Scientific
import ShiftReduce.Numeral.Shortest
import ShiftReduce.Proofs.Analysis.Ahead
import ShiftReduce.Proofs.Analysis.Checked
import ShiftReduce.Proofs.Analysis.Elements
import ShiftReduce.Proofs.Analysis.Least
import ShiftReduce.Proofs.Analysis.Meaning
import ShiftReduce.Proofs.Analysis.Monotone
import ShiftReduce.Proofs.Analysis.Passes
import ShiftReduce.Proofs.Analysis.Solution
import ShiftReduce.Proofs.Analysis.Terminals
import ShiftReduce.Proofs.Automaton.Cells
import ShiftReduce.Proofs.Automaton.Checked
import ShiftReduce.Proofs.Automaton.Closure
import ShiftReduce.Proofs.Automaton.Corner
import ShiftReduce.Proofs.Automaton.Discovery
import ShiftReduce.Proofs.Automaton.Expansion
import ShiftReduce.Proofs.Automaton.Filling
import ShiftReduce.Proofs.Automaton.Finished
import ShiftReduce.Proofs.Automaton.Graph
import ShiftReduce.Proofs.Automaton.Keys
import ShiftReduce.Proofs.Automaton.Merging
import ShiftReduce.Proofs.Automaton.Reaching
import ShiftReduce.Proofs.Automaton.Renaming
import ShiftReduce.Proofs.Automaton.Resolution
import ShiftReduce.Proofs.Automaton.Rounds
import ShiftReduce.Proofs.Automaton.States
import ShiftReduce.Proofs.Collections.Checked
import ShiftReduce.Proofs.Collections.Lookup
import ShiftReduce.Proofs.Collections.Rank
import ShiftReduce.Proofs.Collections.Service
import ShiftReduce.Proofs.Collections.Waiting
import ShiftReduce.Proofs.Derivation
import ShiftReduce.Proofs.Engine.Arrival
import ShiftReduce.Proofs.Engine.Balance
import ShiftReduce.Proofs.Engine.Circle
import ShiftReduce.Proofs.Engine.Completeness
import ShiftReduce.Proofs.Engine.Consistency
import ShiftReduce.Proofs.Engine.Failure
import ShiftReduce.Proofs.Engine.Forest
import ShiftReduce.Proofs.Engine.Halting
import ShiftReduce.Proofs.Engine.Matching
import ShiftReduce.Proofs.Engine.Move
import ShiftReduce.Proofs.Engine.ParseTree
import ShiftReduce.Proofs.Engine.Path
import ShiftReduce.Proofs.Engine.Potential
import ShiftReduce.Proofs.Engine.RuleOrder
import ShiftReduce.Proofs.Engine.Salvage
import ShiftReduce.Proofs.Engine.Simulation
import ShiftReduce.Proofs.Engine.Soundness
import ShiftReduce.Proofs.Engine.Stopping
import ShiftReduce.Proofs.Engine.TreeValue
import ShiftReduce.Proofs.Engine.Upkeep
import ShiftReduce.Proofs.Engine.Viable
import ShiftReduce.Proofs.Engine.WellFormed
import ShiftReduce.Proofs.Json.Bytes
import ShiftReduce.Proofs.Json.Lexing
import ShiftReduce.Proofs.Json.Parsing
import ShiftReduce.Proofs.RuleText
import ShiftReduce.Proofs.Spelling
import ShiftReduce.Proofs.Synthesis.Gathering
import ShiftReduce.Proofs.Synthesis.WellFormed
import ShiftReduce.Proofs.Table.Basic
import ShiftReduce.Proofs.Table.File
import ShiftReduce.Proofs.Table.Interchange
import ShiftReduce.Proofs.Table.Listing
import ShiftReduce.Proofs.Table.Loading
import ShiftReduce.Proofs.Table.Name
import ShiftReduce.Proofs.Table.Numbering
import ShiftReduce.Proofs.Table.Reread
import ShiftReduce.Proofs.Table.Stable
import ShiftReduce.Proofs.Table.Unambiguous
import ShiftReduce.Proofs.Text.Cutting
import ShiftReduce.Proofs.Text.Words
import ShiftReduce.Proofs.Tree.Places
import ShiftReduce.Proofs.Tree.Traversal
import ShiftReduce.Proofs.Vocabulary
import ShiftReduce.Rule
import ShiftReduce.Symbol
import ShiftReduce.Synthesis.Builder
import ShiftReduce.Synthesis.Fault
import ShiftReduce.Synthesis.SemanticAction
import ShiftReduce.Table.Action
import ShiftReduce.Table.Basic
import ShiftReduce.Table.File
import ShiftReduce.Table.Interchange
import ShiftReduce.Table.Item
import ShiftReduce.Table.Name
import ShiftReduce.Table.StateKey
import ShiftReduce.Text.Blank
import ShiftReduce.Text.CharRange
import ShiftReduce.Text.Invisible
import ShiftReduce.Text.Quoted
import ShiftReduce.Text.Split
import ShiftReduce.Token
import ShiftReduce.Tree.Fragment
import ShiftReduce.Tree.Literal
import ShiftReduce.Tree.Node
import ShiftReduce.Tree.Visit
