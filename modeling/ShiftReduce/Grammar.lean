/-
Grammars.

A grammar is a list of rules that is not empty; a rule is referred to by
its position in the list, and the left-hand side of the first rule is the
start symbol. Everything else about a grammar is computed from its rules.
Its terminals are the end marker and then the terminals of the right-hand
sides in the order in which they occur; its nonterminals are the left-hand
sides and then the nonterminals that occur only on the right, which have
no productions. The end marker has the first position among the terminals.
-/
import ShiftReduce.Rule
import ShiftReduce.Collections.WordTree

namespace ShiftReduce

open Text

/-- A list of rules with at least one element. -/
structure Grammar where
  rules : List Rule
  /-- The first rule gives the start symbol. -/
  rules_ne_nil : rules ≠ []

/-- Why the contents of a file are not available as text. -/
inductive SourceError where
  /-- There is no such file. -/
  | notFound
  /-- The bytes of the file are not encoded text. -/
  | notText
deriving DecidableEq, Repr

/-- The text of a source error. -/
def SourceError.message : SourceError → String
  | .notFound => "No such file or directory (os error 2)"
  | .notText => "stream did not contain valid UTF-8"

/-- Why a text is not a grammar. -/
inductive GrammarError where
  | source (reason : SourceError)
  /-- A line, counted from one, is neither blank nor a rule. -/
  | format (line : Nat) (text : String) (reason : FormatError)
  /-- There is not a single rule. -/
  | empty
deriving DecidableEq, Repr

/-- The text of a grammar error. -/
def GrammarError.message : GrammarError → String
  | .source reason => "IO error: " ++ reason.message
  | .format line text reason =>
    "line " ++ toString line ++ ": " ++ reason.message ++ ": `" ++ text ++ "'"
  | .empty => "the grammar contains no rules"

/-- The code under which a grammar error is listed. -/
def GrammarError.code : GrammarError → String
  | .source _ => "G001"
  | .format .. => "B002"
  | .empty => "B001"

/-- Read rules from lines, the first of which has the number `number`.
Blank lines are counted but hold no rule; the first line that is neither
blank nor a rule is reported. -/
def Rule.ofLinesFrom? (number : Nat) :
    List String → Except GrammarError (List Rule)
  | [] => .ok []
  | line :: rest =>
    let text := trim line.toList
    if text.isEmpty then Rule.ofLinesFrom? (number + 1) rest
    else match Rule.ofText? text with
      | .error reason => .error (.format number (String.ofList text) reason)
      | .ok rule => (Rule.ofLinesFrom? (number + 1) rest).map (rule :: ·)

/-- Read rules from the lines of a text. -/
def Rule.ofLines? (lines : List String) : Except GrammarError (List Rule) :=
  Rule.ofLinesFrom? 1 lines

namespace Grammar

-- =========================================================== reading

/-- The grammar of a list of rules. -/
def ofRules? (rules : List Rule) : Except GrammarError Grammar :=
  if h : rules = [] then .error .empty else .ok ⟨rules, h⟩

/-- The grammar whose rules are written on the given lines. -/
def ofLines? (lines : List String) : Except GrammarError Grammar :=
  match Rule.ofLines? lines with
  | .error e => .error e
  | .ok rules => ofRules? rules

/-- The grammar that a text describes. -/
def ofText? (text : String) : Except GrammarError Grammar :=
  ofLines? (lines text)

/-- The grammar that the contents of a file describe. -/
def ofFile? (contents : Except SourceError ByteArray) :
    Except GrammarError Grammar :=
  match contents with
  | .error reason => .error (.source reason)
  | .ok bytes =>
    match String.fromUTF8? bytes with
    | none => .error (.source .notText)
    | some text => ofText? text

-- ============================================================ parts

/-- The left-hand side of the first rule. -/
def startSymbol (g : Grammar) : Symbol := (g.rules.head g.rules_ne_nil).left

/-- The rule with a number. -/
def rule? (g : Grammar) (index : Nat) : Option Rule := g.rules[index]?

/-- The rules with their numbers. -/
def numberedRules (g : Grammar) : List (Nat × Rule) :=
  g.rules.zipIdx.map Prod.swap

/-- The rules of a nonterminal with their numbers, in the order of the
grammar. -/
def productions (g : Grammar) (nonterminal : Symbol) : List (Nat × Rule) :=
  g.numberedRules.filter fun p => p.2.left == nonterminal

/-- The left-hand sides, each at its first rule. -/
def definedSymbols (g : Grammar) : OrderedSet Symbol :=
  OrderedSet.ofList (g.rules.map Rule.left)

/-- The symbols of all right-hand sides, with repetitions. -/
def rightSymbols (g : Grammar) : List Symbol := g.rules.flatMap Rule.right

/-- The terminals, led by the end marker. -/
def terminals (g : Grammar) : OrderedSet Symbol :=
  OrderedSet.ofWords
    (endMarker :: g.rightSymbols.filter fun s => !isNonterminal s)

/-- The nonterminals, led by those that have productions. -/
def nonterminals (g : Grammar) : OrderedSet Symbol :=
  g.definedSymbols.insertAll (g.rightSymbols.filter isNonterminal)

-- =========================================================== writing

/-- The lines that list the vocabulary and the rules of a grammar. -/
def toText (g : Grammar) : String :=
  "## terminals:\n"
    ++ String.join (g.terminals.elements.map (· ++ "\n"))
    ++ "\n## nonterminals:\n"
    ++ String.join (g.nonterminals.elements.map fun nonterminal =>
        nonterminal
          ++ (if nonterminal = g.startSymbol then " (start)" else "") ++ "\n")
    ++ "\n## rules:\n"
    ++ String.join (g.numberedRules.map fun p =>
        toString p.1 ++ ": " ++ p.2.toText ++ "\n")

end Grammar

end ShiftReduce
