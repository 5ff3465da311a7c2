/-
FIRST sets.

The set of a nonterminal holds the terminals with which its right-hand
sides begin. A rule contributes through its first symbol only: a leading
nonterminal passes its own set on, but what stands behind it is not looked
at even if it can vanish. Beside the sets it is recorded which
nonterminals have a rule with an empty right-hand side; a nonterminal that
can vanish only through other nonterminals is not among them.
-/
import ShiftReduce.Analysis.Inclusion

namespace ShiftReduce

/-- The FIRST sets of a grammar. -/
structure FirstSets where
  /-- The set of each nonterminal, without a sign for the empty text. -/
  sets : TerminalFamily
  /-- The nonterminals that have an empty rule. -/
  vanishing : OrderedSet Symbol

namespace FirstSets

/-- The set of the number of a terminal, if the grammar has it. -/
def ofTerminal (terminals : OrderedSet Symbol) (symbol : Symbol) :
    TerminalSet :=
  match TerminalId.of? terminals symbol with
  | none => TerminalSet.empty
  | some t => TerminalSet.singleton t

/-- What a rule demands of the FIRST set of its left-hand side. -/
def inclusion? (terminals : OrderedSet Symbol) (rule : Rule) :
    Option Inclusion :=
  match rule.right with
  | [] => none
  | symbol :: _ =>
    if isNonterminal symbol
      then some ⟨rule.left, TerminalSet.empty, some symbol⟩
    else some ⟨rule.left, ofTerminal terminals symbol, none⟩

/-- The FIRST sets of a grammar. -/
def ofGrammar (g : Grammar) : FirstSets :=
  { sets := TerminalFamily.least g.nonterminals
      (g.rules.filterMap (inclusion? g.terminals))
    vanishing :=
      OrderedSet.ofList ((g.rules.filter Rule.isEmpty).map Rule.left) }

/-- The FIRST set of a nonterminal. -/
def get? (first : FirstSets) (nonterminal : Symbol) : Option TerminalSet :=
  first.sets.lookup nonterminal

/-- Whether a nonterminal has an empty rule. -/
def vanishes (first : FirstSets) (nonterminal : Symbol) : Bool :=
  decide (nonterminal ∈ first.vanishing)

/-- The terminals with which a sequence of symbols can begin, and whether
the sequence can vanish. The scan ends at the first symbol that is a
terminal or has no empty rule. -/
def ofSequence (first : FirstSets) (terminals : OrderedSet Symbol) :
    List Symbol → TerminalSet × Bool
  | [] => (TerminalSet.empty, true)
  | symbol :: rest =>
    if !isNonterminal symbol then (ofTerminal terminals symbol, false)
    else
      let here := (first.get? symbol).getD TerminalSet.empty
      if first.vanishes symbol then
        let (more, vanishes) := first.ofSequence terminals rest
        (here.union more, vanishes)
      else (here, false)

/-- One line for each nonterminal. -/
def toText (first : FirstSets) (terminals : OrderedSet Symbol) : String :=
  String.join (first.sets.entries.map fun (nonterminal, set) =>
    "FIRST(" ++ nonterminal ++ ") = " ++ set.toText terminals
      ++ (if first.vanishes nonterminal then " + e" else "") ++ "\n")

end FirstSets

end ShiftReduce
