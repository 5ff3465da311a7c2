/-
Grammar symbols.

A symbol is a text. Angle brackets around at least one character make it a
nonterminal; every other text is a terminal. Symbols are compared by
their code points, which is the order of strings.
-/

namespace ShiftReduce

/-- A terminal or a nonterminal of a grammar. -/
abbrev Symbol := String

/-- The terminal that stands for the end of the input. -/
def endMarker : Symbol := "#"

/-- Whether a text is enclosed in angle brackets and has something
between them. -/
def isBracketed : List Char → Bool
  | '<' :: inner => decide (2 ≤ inner.length) && inner.getLast? == some '>'
  | _ => false

/-- Whether a symbol is a nonterminal. -/
def isNonterminal (symbol : Symbol) : Bool := isBracketed symbol.toList

end ShiftReduce
