/-
Left corners.

A state that can move on a nonterminal can also move on whatever the
nonterminal may begin with: on the first symbol of each of its
productions, and if that is a nonterminal again, on what its productions
begin with, and so on. These are the left corners of the item that the
move on the nonterminal leads to. They are listed in the order in which a
worklist serves them; the productions of a nonterminal are entered only
once, when an item with that symbol is first served.

Entering the productions of a nonterminal uses up their rules, and serving
an item uses up the item, so the rules that are still to be entered and
the items that wait together bound the work.
-/
import ShiftReduce.Collections.Worklist
import ShiftReduce.Grammar
import ShiftReduce.Table.Item

namespace ShiftReduce

namespace Grammar

/-- The first items of the productions of a nonterminal; a production
without symbols has none. -/
def firstItems (g : Grammar) (nonterminal : Symbol) : List Item :=
  (g.productions nonterminal).filterMap fun p =>
    p.2.right.head?.map fun symbol => ⟨symbol, p.1, 1⟩

/-- The number of rules whose left-hand side has not been expanded. -/
def unexpanded (g : Grammar) (expanded : OrderedSet Symbol) : Nat :=
  (g.rules.filter fun rule => decide (rule.left ∉ expanded)).length

-- ============================================================= bounds

/-- A nonterminal has as many productions as there are rules with it on
the left. -/
theorem length_productions (g : Grammar) (nonterminal : Symbol) :
    (g.productions nonterminal).length
      = (g.rules.filter fun rule => rule.left == nonterminal).length := by
  have h : g.numberedRules.map Prod.snd = g.rules := by
    simp [numberedRules, Function.comp_def]
  conv => rhs; rw [← h]
  rw [List.filter_map, List.length_map]
  rfl

/-- No nonterminal has more first items than rules. -/
theorem length_firstItems_le (g : Grammar) (nonterminal : Symbol) :
    (g.firstItems nonterminal).length
      ≤ (g.rules.filter fun rule => rule.left == nonterminal).length := by
  rw [← length_productions]
  exact List.length_filterMap_le _ _

private theorem filter_insert_length (rules : List Rule)
    (expanded : OrderedSet Symbol) (b : Symbol) (hb : b ∉ expanded) :
    (rules.filter fun rule => decide (rule.left ∉ expanded.insert b)).length
        + (rules.filter fun rule => rule.left == b).length
      = (rules.filter fun rule => decide (rule.left ∉ expanded)).length := by
  induction rules with
  | nil => rfl
  | cons r rs ih =>
    by_cases h : r.left = b
    · simp only [List.filter_cons, OrderedSet.mem_insert, h]
      simp [hb] at ih ⊢
      omega
    · have hne : (r.left == b) = false := beq_false_of_ne h
      by_cases he : r.left ∈ expanded
      · simpa [List.filter_cons, he, h, hne] using ih
      · simp [he, h] at ih ⊢
        omega

/-- Expanding a nonterminal uses up its rules. -/
theorem unexpanded_insert (g : Grammar) (expanded : OrderedSet Symbol)
    (b : Symbol) (hb : b ∉ expanded) :
    g.unexpanded (expanded.insert b)
        + (g.rules.filter fun rule => rule.left == b).length
      = g.unexpanded expanded :=
  filter_insert_length g.rules expanded b hb

-- ========================================================== expansion

/-- The items that are served while `pending` waits and the productions of
the nonterminals in `expanded` have been entered. -/
def leftCornersFrom (g : Grammar) (expanded : OrderedSet Symbol)
    (pending : Worklist Item) : List Item :=
  match _served : pending.pop? with
  | none => []
  | some (item, rest) =>
    if _fresh : isNonterminal item.symbol ∧ item.symbol ∉ expanded then
      item :: g.leftCornersFrom (expanded.insert item.symbol)
        (rest.pushAll (g.firstItems item.symbol))
    else item :: g.leftCornersFrom expanded rest
termination_by g.unexpanded expanded + pending.waiting.length
decreasing_by
  · have h1 := Worklist.length_waiting_of_pop? _served
    have h2 :=
      Worklist.length_waiting_pushAll_le rest (g.firstItems item.symbol)
    have h3 := g.length_firstItems_le item.symbol
    have h4 := g.unexpanded_insert expanded item.symbol _fresh.2
    omega
  · have h1 := Worklist.length_waiting_of_pop? _served
    omega

/-- The left corners of an item: the item itself, and the first items of
all productions that its symbol may begin with. -/
def leftCorners (g : Grammar) (item : Item) : List Item :=
  g.leftCornersFrom OrderedSet.empty (Worklist.ofList [item])

end Grammar

end ShiftReduce
