/-
FOLLOW sets.

The set of a nonterminal holds the terminals that may stand right behind
it. The end marker follows the start symbol; and wherever a nonterminal
occurs in a rule, what the rest of the right-hand side can begin with
follows it, and if the rest can vanish, so does whatever follows the
left-hand side.
-/
import ShiftReduce.Analysis.First

namespace ShiftReduce

/-- The FOLLOW sets of a grammar. -/
structure FollowSets where
  sets : TerminalFamily

namespace FollowSets

/-- The nonterminals in a right-hand side, each with the symbols behind
it. -/
def occurrences : List Symbol → List (Symbol × List Symbol)
  | [] => []
  | symbol :: rest =>
    if isNonterminal symbol then (symbol, rest) :: occurrences rest
      else occurrences rest

/-- What an occurrence in a rule for `left` demands of the FOLLOW set of
the nonterminal that occurs. -/
def inclusion (first : FirstSets) (terminals : OrderedSet Symbol)
    (left : Symbol) (occurrence : Symbol × List Symbol) : Inclusion :=
  let (begins, vanishes) := first.ofSequence terminals occurrence.2
  ⟨occurrence.1, begins, if vanishes then some left else none⟩

/-- All that the rules demand of the FOLLOW sets. -/
def inclusions (g : Grammar) (first : FirstSets) : List Inclusion :=
  let terminals := g.terminals
  ⟨g.startSymbol, FirstSets.ofTerminal terminals endMarker, none⟩ ::
    g.rules.flatMap fun rule =>
      (occurrences rule.right).map (inclusion first terminals rule.left)

/-- The FOLLOW sets of a grammar. -/
def ofGrammar (g : Grammar) (first : FirstSets) : FollowSets :=
  ⟨TerminalFamily.least g.nonterminals (inclusions g first)⟩

/-- The FOLLOW set of a nonterminal. -/
def get? (follow : FollowSets) (nonterminal : Symbol) : Option TerminalSet :=
  follow.sets.lookup nonterminal

/-- One line for each nonterminal. -/
def toText (follow : FollowSets) (terminals : OrderedSet Symbol) : String :=
  String.join (follow.sets.entries.map fun (nonterminal, set) =>
    "FOLLOW(" ++ nonterminal ++ ") = " ++ set.toText terminals ++ "\n")

end FollowSets

end ShiftReduce
