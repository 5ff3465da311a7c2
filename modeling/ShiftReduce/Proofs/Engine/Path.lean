/-
The path that lies on the stack.

The states on the stack of an engine are the states that the automaton goes
through on the symbols beside them. Such a path can be read backwards. If
the last state stands behind some symbols of a rule, these symbols lie on
top of the stack, one after the other, and in the state below them the rule
was about to begin. Nothing is assumed about the way in which the engine
came to this stack.

To read one symbol backwards is to look for the edges that lead into an
item. There are two: the one that goes on within the rule, and the one that
enters a production at its first symbol. In the second case the state below
stands in front of a nonterminal that leads to the production, and the
steps of that chain are positions of the state as well.
-/
import ShiftReduce.Engine.Configuration
import ShiftReduce.Proofs.Automaton.Closure
import ShiftReduce.Proofs.Automaton.States

namespace ShiftReduce

namespace Grammar

variable {g : Grammar} {key next origin : StateKey}

-- ============================================================ positions

/-- In front of a nonterminal a state stands at the beginning of every
production to which the nonterminal leads. -/
theorem Stands.of_leads {index position : Nat}
    (h : g.Stands key index position) {rule : Rule}
    (hrule : g.rule? index = some rule) {b c : Symbol}
    (hb : rule.right[position]? = some b) (lead : g.Leads b c) {q : Nat}
    {production : Rule} (hproduction : g.rule? q = some production)
    (hleft : production.left = c) : g.Stands key q 0 := by
  induction lead generalizing q production with
  | refl hnonterminal =>
      subst hleft
      exact .expand h hrule hb hnonterminal hproduction
  | step _ hmem left right hd ih =>
      subst hleft
      obtain ⟨q', hq'⟩ := List.getElem?_of_mem hmem
      apply Stands.expand (ih hq' left) hq' _ hd hproduction
      rw [← List.head?_eq_getElem?]
      exact right

/-- What a state goes into, it goes into from a position at which it
stands. -/
theorem exists_stands_of_mem_successors {symbol : Symbol} {i : Item}
    (h : i ∈ g.successors key symbol) :
    i.symbol = symbol ∧ ∃ index position, g.Stands key index position
      ∧ g.Edge index position i := by
  have hafter : ∀ {s : Set Item}, (∀ k ∈ s, k ∈ key.items) →
      i ∈ g.after s symbol →
      i.symbol = symbol ∧ ∃ index position, g.Stands key index position
        ∧ g.Edge index position i := by
    rintro s hs ⟨hsymbol, k, hk, hedge⟩
    exact ⟨hsymbol, _, _, .item (hs k hk), hedge⟩
  cases key with
  | start =>
      obtain ⟨hsymbol, index, rule, hrule, hleft, hedge⟩ := h
      exact ⟨hsymbol, index, 0, .start rfl hrule hleft, hedge⟩
  | item j => exact hafter (fun k hk => hk) h
  | merged js => exact hafter (fun k hk => hk) h

/-- One symbol backwards: a state that stands behind a symbol was entered
on that symbol, from a state that stands in front of it. -/
theorem Stands.before {symbol : Symbol}
    (hnames : next.Names (g.successors key symbol)) {index position : Nat}
    (h : g.Stands next index (position + 1)) {rule : Rule}
    (hrule : g.rule? index = some rule) :
    rule.right[position]? = some symbol ∧ g.Stands key index position := by
  obtain ⟨i, hi, rfl, hposition⟩ := h.exists_item
  obtain ⟨rfl, index, position', hstands, hedge⟩ :=
    exists_stands_of_mem_successors (hnames.mem_iff.mpr hi)
  cases hedge with
  | advance hrule' hsymbol =>
      cases hrule.symm.trans hrule'
      cases hposition
      exact ⟨hsymbol, hstands⟩
  | corner hrule' hb hproduction lead first =>
      cases hrule.symm.trans hproduction
      cases hposition
      rw [← List.head?_eq_getElem?]
      exact ⟨first, hstands.of_leads hrule' hb lead hproduction rfl⟩

/-- A state of the table at the beginning of a production goes on with the
left-hand side, unless that is the start symbol. -/
theorem Stands.successors_nonempty (hkernel : Kernel g key) {index : Nat}
    (h : g.Stands key index 0) {rule : Rule}
    (hrule : g.rule? index = some rule) (hleft : rule.left ≠ g.startSymbol) :
    (g.successors key rule.left).Nonempty := by
  generalize hzero : 0 = position at h
  cases h with
  | item hi =>
      -- an item is behind a symbol
      obtain ⟨-, n, -, hposition, -⟩ := hkernel.isItem _ hi
      omega
  | start _ hrule' hleft' =>
      cases hrule.symm.trans hrule'
      exact absurd hleft' hleft
  | expand h hrule' hnext _ hproduction =>
      cases hrule.symm.trans hproduction
      exact ⟨_, h.successor hrule' hnext⟩

-- ============================================================= the path

/-- The states on a stack are those through which the automaton goes on the
symbols of the stack, from the start state at the bottom to the state with
the given key. -/
inductive Trodden (g : Grammar) (t : Table) :
    List (StackEntry Nat) → StateKey → Prop where
  | bottom {entry : StackEntry Nat} (hkey : t.key? entry.state = some .start) :
      Trodden g t [entry] .start
  | push {entry : StackEntry Nat} {below : List (StackEntry Nat)}
      {key next : StateKey}
      (h : Trodden g t below key) (hkey : t.key? entry.state = some next)
      (hnames : next.Names (g.successors key entry.symbol)) :
      Trodden g t (entry :: below) next

namespace Trodden

variable {t : Table} {stack : List (StackEntry Nat)}

/-- The last state of a path is the state on top. -/
theorem exists_top (h : Trodden g t stack key) :
    ∃ top below, stack = top :: below ∧ t.key? top.state = some key := by
  cases h with
  | bottom hkey => exact ⟨_, [], rfl, hkey⟩
  | push _ hkey _ => exact ⟨_, _, rfl, hkey⟩

theorem key?_top {top : StackEntry Nat} {below : List (StackEntry Nat)}
    (h : Trodden g t (top :: below) key) : t.key? top.state = some key := by
  cases h with
  | bottom hkey => exact hkey
  | push _ hkey _ => exact hkey

/-- If the last state of a path stands behind some symbols of a rule, these
symbols are on top of the stack, and the state below them stands at the
beginning of the rule. -/
theorem read (h : Trodden g t stack key) {index position : Nat}
    (hstands : g.Stands key index position) {rule : Rule}
    (hrule : g.rule? index = some rule) :
    ∃ popped remaining origin, stack = popped ++ remaining
      ∧ Trodden g t remaining origin
      ∧ (popped.map StackEntry.symbol).reverse = rule.right.take position
      ∧ g.Stands origin index 0 := by
  induction position generalizing stack key with
  | zero => exact ⟨[], stack, key, rfl, h, by simp, hstands⟩
  | succ position ih =>
      cases h with
      | bottom =>
          -- the start state has no items
          obtain ⟨i, hi, -⟩ := hstands.exists_item
          cases hi
      | push h hkey hnames =>
          rename_i entry below key
          obtain ⟨hsymbol, hbefore⟩ := hstands.before hnames hrule
          obtain ⟨popped, remaining, origin, rfl, hremaining, hsymbols,
            horigin⟩ := ih h hbefore
          refine ⟨entry :: popped, remaining, origin, rfl,
            hremaining, ?_, horigin⟩
          rw [List.map_cons, List.reverse_cons, hsymbols,
            List.take_add_one, hsymbol]
          rfl

/-- The bottom of a path is not read by any rule. -/
theorem ne_nil (h : Trodden g t stack key) : stack ≠ [] := by
  obtain ⟨top, below, rfl, -⟩ := h.exists_top
  exact List.cons_ne_nil _ _

end Trodden

end Grammar

end ShiftReduce
