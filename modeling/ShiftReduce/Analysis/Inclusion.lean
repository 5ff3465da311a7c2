/-
Least solutions of inclusions between sets of terminals.

FIRST and FOLLOW assign a set of terminals to every nonterminal and are
defined by inclusions: the set of one nonterminal contains some given
terminals, and perhaps the whole set of another nonterminal. A list of
such inclusions has a least solution. It is reached from the empty sets by
adding to every target what its inclusions demand, pass after pass, until
a pass adds nothing; no set can grow beyond the terminals that are
mentioned at all, so what is missing to that bound is the number that
every productive pass lowers.
-/
import ShiftReduce.Analysis.TerminalSet
import ShiftReduce.Collections.OrderedMap
import ShiftReduce.Collections.Settle

namespace ShiftReduce

/-- A set of terminals for each of some nonterminals. -/
abbrev TerminalFamily := OrderedMap Symbol TerminalSet

/-- The demand that the set of `target` contains `terminals` and, if there
is a `source`, the set of that nonterminal. -/
structure Inclusion where
  target : Symbol
  terminals : TerminalSet
  source : Option Symbol

namespace Inclusion

/-- The terminals that an inclusion demands of its target. -/
def demand (family : TerminalFamily) (inclusion : Inclusion) : TerminalSet :=
  match inclusion.source with
  | none => inclusion.terminals
  | some source =>
    inclusion.terminals.union ((family.lookup source).getD TerminalSet.empty)

/-- Add to the target what the inclusion demands. -/
def apply (family : TerminalFamily) (inclusion : Inclusion) : TerminalFamily :=
  let demanded := inclusion.demand family
  family.update inclusion.target fun old =>
    (old.getD TerminalSet.empty).union demanded

end Inclusion

namespace TerminalFamily

/-- The family of empty sets. -/
def empties (nonterminals : OrderedSet Symbol) : TerminalFamily :=
  OrderedMap.ofList (nonterminals.elements.map fun n => (n, TerminalSet.empty))

/-- Apply every inclusion once, each to what the ones before it left. -/
def pass (inclusions : List Inclusion) (family : TerminalFamily) :
    TerminalFamily :=
  inclusions.foldl Inclusion.apply family

/-- The terminals that some inclusion mentions. -/
def mentioned (inclusions : List Inclusion) : TerminalSet :=
  inclusions.foldl (fun all inclusion => all.union inclusion.terminals)
    TerminalSet.empty

/-- How many elements the sets of a family lack altogether if each could
have `bound`. -/
def missing (bound : Nat) (family : TerminalFamily) : Nat :=
  (family.values.map fun s => bound - s.size).foldr Nat.add 0

/-- The least family for the given nonterminals that satisfies the
inclusions. -/
def least (nonterminals : OrderedSet Symbol) (inclusions : List Inclusion) :
    TerminalFamily :=
  settle (missing (mentioned inclusions).size) (pass inclusions)
    (empties nonterminals)

end TerminalFamily

end ShiftReduce
