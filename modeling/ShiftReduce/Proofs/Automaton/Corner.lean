/-
The left corners of an item, as a closure.

The worklist enters the productions of a nonterminal once and may serve an
item several times, in an order of its own. What it lists in the end is a
closure that knows of none of this: the item itself, and the first item of
every production of every nonterminal that can be reached from the symbol
of the item through leading nonterminals.

The one half is that nothing else is served. For the other it is enough
that the list is closed under entering productions, and the loop keeps
track of which nonterminals it still owes that to: those that are expanded
already are owed nothing, because their first items were let wait when they
were expanded.
-/
import ShiftReduce.Automaton.LeftCorner
import ShiftReduce.Proofs.Collections.Waiting

namespace ShiftReduce

namespace Grammar

-- ======================================================== first items

theorem mem_numberedRules_iff (g : Grammar) {index : Nat} {rule : Rule} :
    (index, rule) ∈ g.numberedRules ↔ g.rule? index = some rule := by
  unfold numberedRules rule?
  rw [List.mem_map]
  constructor
  · intro h
    obtain ⟨⟨r, i⟩, hmem, heq⟩ := h
    cases heq
    exact List.mem_zipIdx_iff_getElem?.mp hmem
  · intro h
    exact ⟨(rule, index), List.mem_zipIdx_iff_getElem?.mpr h, rfl⟩

/-- A first item of a nonterminal is the position behind the first symbol
of one of its productions. -/
theorem mem_firstItems_iff (g : Grammar) {nonterminal : Symbol} {item : Item} :
    item ∈ g.firstItems nonterminal
      ↔ ∃ rule, g.rule? item.rule = some rule ∧ rule.left = nonterminal
          ∧ rule.right.head? = some item.symbol ∧ item.position = 1 := by
  unfold firstItems productions
  simp only [List.mem_filterMap, List.mem_filter, Option.map_eq_some_iff]
  constructor
  · intro h
    obtain ⟨⟨index, rule⟩, ⟨hmem, hleft⟩, symbol, hhead, rfl⟩ := h
    exact ⟨rule, g.mem_numberedRules_iff.mp hmem,
      by simpa using hleft, hhead, rfl⟩
  · intro h
    obtain ⟨rule, hrule, hleft, hhead, hposition⟩ := h
    refine ⟨(item.rule, rule), ⟨g.mem_numberedRules_iff.mpr hrule,
      by simpa using hleft⟩, item.symbol, hhead, ?_⟩
    rw [← hposition]

-- ===================================================== leading symbols

/-- The second nonterminal can be reached from the first through leading
nonterminals: it is the first, or begins a production of one that can be
reached. -/
inductive Leads (g : Grammar) : Symbol → Symbol → Prop where
  | refl {b : Symbol} (h : isNonterminal b = true) : Leads g b b
  | step {b c d : Symbol} {rule : Rule} (h : Leads g b c)
      (hrule : rule ∈ g.rules)
      (left : rule.left = c) (right : rule.right.head? = some d)
      (hd : isNonterminal d = true) : Leads g b d

theorem Leads.isNonterminal {g : Grammar} {b c : Symbol} (h : g.Leads b c) :
    ShiftReduce.isNonterminal c = true := by
  cases h with
  | refl h => exact h
  | step _ _ _ _ hd => exact hd

/-- What the first symbol of a production leads to, its left-hand side
leads to. -/
theorem Leads.head {g : Grammar} {b d e : Symbol} {rule : Rule}
    (hb : ShiftReduce.isNonterminal b = true) (hrule : rule ∈ g.rules)
    (left : rule.left = b) (right : rule.right.head? = some d)
    (h : g.Leads d e) : g.Leads b e := by
  induction h with
  | refl hd => exact .step (.refl hb) hrule left right hd
  | step _ hrule' left' right' hd' ih => exact .step ih hrule' left' right' hd'

/-- A first item of a nonterminal leads where the nonterminal does. -/
theorem Leads.of_firstItem {g : Grammar} {b c : Symbol} {item : Item}
    (hb : ShiftReduce.isNonterminal b = true) (hitem : item ∈ g.firstItems b)
    (h : g.Leads item.symbol c) : g.Leads b c := by
  obtain ⟨rule, hrule, hleft, hhead, -⟩ := g.mem_firstItems_iff.mp hitem
  exact .head hb (List.mem_of_getElem? hrule) hleft hhead h

-- ========================================================== the closure

/-- Whatever is served waited, or is the first item of a nonterminal that
something waiting leads to. -/
theorem of_mem_leftCornersFrom (g : Grammar) (expanded : OrderedSet Symbol)
    (pending : Worklist Item) (hpending : pending.Coherent) {item : Item}
    (h : item ∈ g.leftCornersFrom expanded pending) :
    ∃ origin ∈ pending.waiting,
      item = origin
        ∨ ∃ c, g.Leads origin.symbol c ∧ item ∈ g.firstItems c := by
  fun_induction leftCornersFrom g expanded pending with
  | case1 expanded pending served => cases h
  | case2 expanded pending served rest hserved fresh ih =>
      have hwaiting := Worklist.waiting_of_pop? hserved
      have hrest := hpending.of_pop? hserved
      rw [hwaiting]
      rcases List.mem_cons.mp h with rfl | h
      · exact ⟨item, List.mem_cons_self, Or.inl rfl⟩
      · obtain ⟨origin, horigin, hitem⟩ := ih (hrest.pushAll _) h
        rcases hrest.mem_waiting_pushAll.mp horigin with horigin | hfirst
        · exact ⟨origin, List.mem_cons_of_mem _ horigin, hitem⟩
        · refine ⟨served, List.mem_cons_self, Or.inr ?_⟩
          rcases hitem with rfl | ⟨c, hc, hitem⟩
          · exact ⟨served.symbol, .refl fresh.1, hfirst⟩
          · exact ⟨c, .of_firstItem fresh.1 hfirst hc, hitem⟩
  | case3 expanded pending served rest hserved stale ih =>
      have hwaiting := Worklist.waiting_of_pop? hserved
      rw [hwaiting]
      rcases List.mem_cons.mp h with rfl | h
      · exact ⟨item, List.mem_cons_self, Or.inl rfl⟩
      · obtain ⟨origin, horigin, hitem⟩ := ih (hpending.of_pop? hserved) h
        exact ⟨origin, List.mem_cons_of_mem _ horigin, hitem⟩

/-- Whatever waits is served. -/
theorem mem_leftCornersFrom_of_waiting (g : Grammar)
    (expanded : OrderedSet Symbol) (pending : Worklist Item)
    (hpending : pending.Coherent) {item : Item} (h : item ∈ pending.waiting) :
    item ∈ g.leftCornersFrom expanded pending := by
  fun_induction leftCornersFrom g expanded pending with
  | case1 expanded pending served =>
      rw [Worklist.waiting_of_pop?_none served] at h
      cases h
  | case2 expanded pending served rest hserved fresh ih =>
      have hrest := hpending.of_pop? hserved
      rw [Worklist.waiting_of_pop? hserved] at h
      rcases List.mem_cons.mp h with rfl | h
      · exact List.mem_cons_self
      · exact List.mem_cons_of_mem _
          (ih (hrest.pushAll _) (hrest.mem_waiting_pushAll.mpr (Or.inl h)))
  | case3 expanded pending served rest hserved stale ih =>
      rw [Worklist.waiting_of_pop? hserved] at h
      rcases List.mem_cons.mp h with rfl | h
      · exact List.mem_cons_self
      · exact List.mem_cons_of_mem _ (ih (hpending.of_pop? hserved) h)

/-- With an item whose symbol is a nonterminal that had not been expanded,
the first items of the nonterminal are served too. -/
theorem firstItems_subset_leftCornersFrom (g : Grammar)
    (expanded : OrderedSet Symbol) (pending : Worklist Item)
    (hpending : pending.Coherent) {item : Item}
    (h : item ∈ g.leftCornersFrom expanded pending)
    (hitem : ShiftReduce.isNonterminal item.symbol = true)
    (hfresh : item.symbol ∉ expanded) :
    ∀ first ∈ g.firstItems item.symbol,
      first ∈ g.leftCornersFrom expanded pending := by
  fun_induction leftCornersFrom g expanded pending with
  | case1 expanded pending served => cases h
  | case2 expanded pending served rest hserved fresh ih =>
      have hrest := hpending.of_pop? hserved
      intro first hfirst
      refine List.mem_cons_of_mem _ ?_
      by_cases hsame : item.symbol = served.symbol
      · -- this is the nonterminal that is expanded here
        refine mem_leftCornersFrom_of_waiting g _ _ (hrest.pushAll _) ?_
        rw [hsame] at hfirst
        exact hrest.mem_waiting_pushAll.mpr (Or.inr hfirst)
      · have hlater : item ∈ g.leftCornersFrom (expanded.insert served.symbol)
            (rest.pushAll (g.firstItems served.symbol)) := by
          rcases List.mem_cons.mp h with rfl | h
          · exact absurd rfl hsame
          · exact h
        refine ih (hrest.pushAll _) hlater ?_ first hfirst
        rw [OrderedSet.mem_insert]
        exact fun hmem => hmem.elim hfresh hsame
  | case3 expanded pending served rest hserved stale ih =>
      intro first hfirst
      refine List.mem_cons_of_mem _ ?_
      refine ih (hpending.of_pop? hserved) ?_ hfresh first hfirst
      rcases List.mem_cons.mp h with rfl | h
      · exact absurd ⟨hitem, hfresh⟩ stale
      · exact h

/-- The left corners of an item are the item, and the first items of all
nonterminals that its symbol leads to. -/
theorem mem_leftCorners_iff (g : Grammar) {origin item : Item} :
    item ∈ g.leftCorners origin
      ↔ item = origin
        ∨ ∃ c, g.Leads origin.symbol c ∧ item ∈ g.firstItems c := by
  have hempty : (Worklist.empty : Worklist Item).Coherent :=
    Worklist.coherent_empty
  have hpending : (Worklist.ofList [origin]).Coherent := hempty.pushAll _
  have hwaiting : ∀ i, i ∈ (Worklist.ofList [origin]).waiting
      ↔ i = origin := by
    intro i
    unfold Worklist.ofList
    rw [hempty.mem_waiting_pushAll]
    simp [Worklist.empty]
  have horigin : origin ∈ g.leftCorners origin :=
    mem_leftCornersFrom_of_waiting g _ _ hpending ((hwaiting origin).mpr rfl)
  have hclosed : ∀ i ∈ g.leftCorners origin,
      ShiftReduce.isNonterminal i.symbol = true →
      ∀ first ∈ g.firstItems i.symbol, first ∈ g.leftCorners origin := by
    intro i hi hsymbol
    exact firstItems_subset_leftCornersFrom g _ _ hpending hi hsymbol fun h =>
      nomatch h
  constructor
  · intro h
    obtain ⟨i, hi, hitem⟩ := of_mem_leftCornersFrom g _ _ hpending h
    rw [(hwaiting i).mp hi] at hitem
    exact hitem
  · intro h
    rcases h with rfl | ⟨c, hlead, hitem⟩
    · exact horigin
    · -- every nonterminal on the way has been served as the symbol of an item
      have hserved : ∃ i ∈ g.leftCorners origin, i.symbol = c := by
        clear hitem
        induction hlead with
        | refl => exact ⟨origin, horigin, rfl⟩
        | step hlead hrule left right hd ih =>
            obtain ⟨i, hi, hsymbol⟩ := ih
            obtain ⟨index, hindex⟩ := List.getElem?_of_mem hrule
            refine ⟨⟨_, index, 1⟩, hclosed i hi ?_ _ ?_, rfl⟩
            · rw [hsymbol]
              exact hlead.isNonterminal
            · exact g.mem_firstItems_iff.mpr ⟨_, hindex,
                by rw [left, hsymbol], right, rfl⟩
      obtain ⟨i, hi, rfl⟩ := hserved
      exact hclosed i hi hlead.isNonterminal item hitem

end Grammar

end ShiftReduce
