/-
What the states of a built table are like.

A state other than the start is a set of items that can be in after some
word, and all of them have just read the last symbol of that word. So the
items of a state agree in their symbol, each is a position behind a symbol
of some rule, and the key lists them in ascending order. As the symbol does
not tell them apart, the order is that of their rules, and two items of
different rules are listed in the order of the grammar.
-/
import ShiftReduce.Proofs.Automaton.Finished
import ShiftReduce.Proofs.Table.Basic

namespace ShiftReduce

namespace Item

/-- Of two items with one symbol the lesser has the lesser rule, unless
they are of one rule. -/
theorem rule_lt_of_compare {i j : Item} (h : compare i j = .lt)
    (hsymbol : i.symbol = j.symbol) :
    i.rule < j.rule ∨ i.rule = j.rule ∧ i.position < j.position := by
  have hlex : ((compare i.symbol j.symbol).then
      ((compare i.rule j.rule).then (compare i.position j.position)))
        = .lt := h
  rw [hsymbol, Std.ReflOrd.compare_self, Ordering.then_eq_lt] at hlex
  rcases hlex with hlex | ⟨-, hlex⟩
  · cases hlex
  · rcases Ordering.then_eq_lt.mp hlex with hlt | ⟨heq, hlt⟩
    · exact Or.inl (Nat.compare_eq_lt.mp hlt)
    · exact Or.inr ⟨Nat.compare_eq_eq.mp heq, Nat.compare_eq_lt.mp hlt⟩

end Item

theorem StateKey.Names.ascending {key : StateKey} {s : Set Item}
    (h : key.Names s) : Item.Ascending key.items := by
  cases key with
  | start => exact h.elim
  | item i => exact List.pairwise_singleton _ _
  | merged is => exact h.2.1

namespace Grammar

variable {g : Grammar}

/-- The items in which the graph may be after a word have read its last
symbol, and edges lead to them. -/
theorem exists_symbol_of_reached (symbol : Symbol) (word : List Symbol) :
    ∃ last, ∀ i ∈ g.reached symbol word, i.symbol = last ∧ ∃ index position,
      g.Edge index position i := by
  induction word using List.reverseRecOn with
  | nil =>
      refine ⟨symbol, fun i hi => ?_⟩
      obtain ⟨hsymbol, index, -, -, -, hedge⟩ := hi
      exact ⟨hsymbol, index, 0, hedge⟩
  | append_singleton word last _ =>
      refine ⟨last, fun i hi => ?_⟩
      rw [reached_concat] at hi
      obtain ⟨hsymbol, k, -, hedge⟩ := hi
      exact ⟨hsymbol, k.rule, k.position, hedge⟩

/-- What a state of the table is made of: items in ascending order, all
behind the same symbol. -/
structure Kernel (g : Grammar) (key : StateKey) : Prop where
  ascending : Item.Ascending key.items
  symbol : ∃ symbol, ∀ i ∈ key.items, i.symbol = symbol
  isItem : ∀ i ∈ key.items, ∃ rule n, g.rule? i.rule = some rule
    ∧ i.position = n + 1
    ∧ rule.right[n]? = some i.symbol

variable {follow : FollowSets} {limit : Nat} {t : Table}

theorem startSymbol_of_buildWith
    (h : (g.buildWith follow limit).result = .ok t) :
    t.startSymbol = g.startSymbol := by
  obtain ⟨rows, -, -, rfl, -⟩ := of_buildWith_ok h
  rfl

theorem kernel_of_mem_states (h : (g.buildWith follow limit).result = .ok t)
    {key : StateKey} (hkey : key ∈ t.states.keys) : Kernel g key := by
  rcases (mem_states_iff h).mp hkey with rfl | ⟨symbol, word, hnames⟩
  · exact ⟨List.Pairwise.nil, ⟨g.startSymbol, by simp [StateKey.items]⟩,
      by simp [StateKey.items]⟩
  · obtain ⟨last, hall⟩ := g.exists_symbol_of_reached symbol word
    refine ⟨hnames.ascending, ⟨last, fun i hi => ?_⟩, fun i hi => ?_⟩
    · exact (hall i (hnames.mem_iff.mpr hi)).1
    · obtain ⟨index, position, hedge⟩ := (hall i (hnames.mem_iff.mpr hi)).2
      exact hedge.isItem

end Grammar

end ShiftReduce
