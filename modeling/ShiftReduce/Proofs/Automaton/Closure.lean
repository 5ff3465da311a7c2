/-
The positions at which a state may stand.

A state is known by its items, but an engine in that state may as well be
about to read any production of a nonterminal that comes next, and of a
nonterminal that comes next there. This closure of the items is nowhere
computed: the builder copies the moves instead. The two agree in the one
respect that matters, that a state has a successor for every symbol behind
a position at which it may stand.
-/
import ShiftReduce.Proofs.Automaton.Graph

namespace ShiftReduce

namespace Grammar

variable {g : Grammar} {key : StateKey}

/-- A state may stand behind so many symbols of the right-hand side of a
rule. -/
inductive Stands (g : Grammar) (key : StateKey) :
    (index position : Nat) → Prop where
  /-- An item of the state. -/
  | item {i : Item} (h : i ∈ key.items) : Stands g key i.rule i.position
  /-- The beginning of a production of the start symbol, in the start
  state. -/
  | start {index : Nat} {rule : Rule} (hkey : key = .start)
      (hrule : g.rule? index = some rule)
      (hleft : rule.left = g.startSymbol) : Stands g key index 0
  /-- The beginning of a production of the nonterminal that comes next. -/
  | expand {index position q : Nat} {rule production : Rule}
      (h : Stands g key index position)
      (hrule : g.rule? index = some rule)
      (hnext : rule.right[position]? = some production.left)
      (hnonterminal : isNonterminal production.left = true)
      (hproduction : g.rule? q = some production) : Stands g key q 0

/-- A position in front of which a state has read something is an item of
the state. -/
theorem Stands.exists_item {index position : Nat}
    (h : g.Stands key index (position + 1)) :
    ∃ i ∈ key.items, i.rule = index ∧ i.position = position + 1 := by
  generalize hn : position + 1 = n at h
  cases h with
  | item hi => exact ⟨_, hi, rfl, rfl⟩
  | start => cases hn
  | expand => cases hn

/-- The edges from an item of a state, or from the beginnings of the
productions of the start symbol in the start state, lead to successors. -/
theorem mem_successors_of_item {i next : Item} (hi : i ∈ key.items)
    (hedge : g.Edge i.rule i.position next) :
    next ∈ g.successors key next.symbol := by
  cases key with
  | start => cases hi
  | item j => exact ⟨rfl, i, hi, hedge⟩
  | merged js => exact ⟨rfl, i, hi, hedge⟩

/-- A state may only stand where it has successors: on the symbol behind
the position, and if that is a nonterminal on what it leads to. -/
theorem Stands.mem_successors {index position : Nat}
    (h : g.Stands key index position) {next : Item}
    (hedge : g.Edge index position next) :
    next ∈ g.successors key next.symbol := by
  induction h generalizing next with
  | item hi => exact mem_successors_of_item hi hedge
  | start hkey hrule hleft =>
      subst hkey
      exact ⟨rfl, _, _, hrule, hleft, hedge⟩
  | @expand index position q rule production _ hrule hnext
      hnonterminal hproduction ih =>
      -- an edge from the beginning of a production is an edge to a left corner
      cases hedge with
      | @advance production' symbol hproduction' hsymbol =>
          cases hproduction.symm.trans hproduction'
          refine ih (.corner hrule hnext hproduction (.refl hnonterminal) ?_)
          rw [List.head?_eq_getElem?]
          exact hsymbol
      | @corner production' last b symbol r hproduction' hsymbol
          hlast lead first =>
          cases hproduction.symm.trans hproduction'
          refine ih (.corner hrule hnext hlast ?_ first)
          refine .head hnonterminal
            (List.mem_of_getElem? hproduction) rfl ?_ lead
          rw [List.head?_eq_getElem?]
          exact hsymbol

/-- On the symbol behind a position a state goes into the position behind
it. -/
theorem Stands.successor {index position : Nat}
    (h : g.Stands key index position) {rule : Rule} {symbol : Symbol}
    (hrule : g.rule? index = some rule)
    (hsymbol : rule.right[position]? = some symbol) :
    ⟨symbol, index, position + 1⟩ ∈ g.successors key symbol :=
  h.mem_successors (.advance hrule hsymbol)

end Grammar

end ShiftReduce
