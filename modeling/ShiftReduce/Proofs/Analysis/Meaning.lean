/-
What FIRST and FOLLOW mean.

Both families of sets are computed from what stands next to what in the
rules. What they are to say is a matter of derivations: with which
terminals the lists begin that a nonterminal derives, and which terminals
stand behind it in the lists that are derived from the start symbol and
the end of the input.

Without empty rules the two agree. A replacement at the front of a list
changes its first symbol, but what it begins with only becomes less, so
nothing that is derived is missed. Behind a nonterminal the same is true of
its neighbour: the invariant of a derivation is that every nonterminal has
in its FOLLOW set whatever the symbol behind it begins with. The other
direction follows the way in which an element came into its set. There a
FOLLOW set may hold too much, since it is fed by all rules, and a rule says
nothing about derivations from the start symbol if these never come to its
left-hand side.

The sets hold numbers. Every terminal that is to be in a set has its number
there, and every number is there because of such a terminal. As long as a
grammar has no more terminals than there are numbers, the names that are read
off a set are those of these terminals and no others. Beyond that a number
speaks for several terminals and is read as the first of them.
-/
import Mathlib.Data.List.Chain
import ShiftReduce.Proofs.Analysis.Elements

namespace ShiftReduce

/-- The number of the symbol among the terminals is an element of the set. -/
def TerminalSet.Has (s : TerminalSet) (terminals : OrderedSet Symbol)
    (symbol : Symbol) : Prop :=
  ∃ n, TerminalId.of? terminals symbol = some n ∧ s.contains n = true

/-- The set consists of the numbers of the terminals that have a property. -/
def TerminalSet.Comprises (s : TerminalSet) (terminals : OrderedSet Symbol)
    (P : Symbol → Prop) : Prop :=
  ∀ n, s.contains n = true
    ↔ ∃ symbol, TerminalId.of? terminals symbol = some n ∧ P symbol

/-- Read as names, the set consists of the terminals that have a property. -/
def TerminalSet.Lists (s : TerminalSet) (terminals : OrderedSet Symbol)
    (P : Symbol → Prop) : Prop :=
  ∀ symbol, symbol ∈ s.names terminals
    ↔ isNonterminal symbol = false ∧ P symbol

namespace Grammar

variable {g : Grammar}

/-- A nonterminal derives a list that begins with the terminal. -/
def BeginsWith (g : Grammar) (nonterminal terminal : Symbol) : Prop :=
  ∃ rest, Derives g.Produces [nonterminal] (terminal :: rest)

/-- Before the end of the input the start symbol derives a list in which the
terminal stands right behind the nonterminal. -/
def FollowedBy (g : Grammar) (nonterminal terminal : Symbol) : Prop :=
  ∃ before after, Derives g.Produces [g.startSymbol, endMarker]
    (before ++ nonterminal :: terminal :: after)

/-- The start symbol derives a list in which the symbol occurs. -/
def Occurs (g : Grammar) (symbol : Symbol) : Prop :=
  ∃ before after,
    Derives g.Produces [g.startSymbol] (before ++ symbol :: after)

/-- All terminals that come up in a derivation are numbered. -/
theorem mem_terminals_of_derives {u v : List Symbol}
    (hu : ∀ symbol ∈ u, isNonterminal symbol = false → symbol ∈ g.terminals)
    (h : Derives g.Produces u v) :
    ∀ symbol ∈ v, isNonterminal symbol = false → symbol ∈ g.terminals := by
  induction h with
  | refl => exact hu
  | tail _ hlast ih =>
      cases hlast with
      | replace before after hp =>
          intro symbol hsymbol hterminal
          rcases List.mem_append.mp hsymbol with hsymbol | hsymbol
          · rcases List.mem_append.mp hsymbol with hsymbol | hsymbol
            · exact ih symbol (List.mem_append_left _ hsymbol) hterminal
            · obtain ⟨-, rule, hrule, -, hright⟩ := hp
              rw [← hright] at hsymbol
              exact mem_terminals_iff.mpr
                (Or.inr ⟨⟨rule, hrule, hsymbol⟩, hterminal⟩)
          · exact ih symbol (List.mem_append_right _
              (List.mem_cons_of_mem _ hsymbol)) hterminal

theorem BeginsWith.mem_terminals {nonterminal terminal : Symbol}
    (h : g.BeginsWith nonterminal terminal)
    (hnonterminal : isNonterminal nonterminal = true)
    (hterminal : isNonterminal terminal = false) : terminal ∈ g.terminals := by
  obtain ⟨rest, hderives⟩ := h
  refine mem_terminals_of_derives
    (fun symbol hsymbol hsymbolT => ?_) hderives terminal
    List.mem_cons_self hterminal
  rw [List.mem_singleton.mp hsymbol, hnonterminal] at hsymbolT
  cases hsymbolT

theorem FollowedBy.mem_terminals (hstart : isNonterminal g.startSymbol = true)
    {nonterminal terminal : Symbol} (h : g.FollowedBy nonterminal terminal)
    (hterminal : isNonterminal terminal = false) : terminal ∈ g.terminals := by
  obtain ⟨before, after, hderives⟩ := h
  refine mem_terminals_of_derives
    (fun symbol hsymbol hsymbolT => ?_) hderives terminal
    (by simp) hterminal
  rcases List.mem_cons.mp hsymbol with rfl | hsymbol
  · rw [hstart] at hsymbolT
    cases hsymbolT
  · exact mem_terminals_iff.mpr (Or.inl (List.mem_singleton.mp hsymbol))

-- ============================================================== FIRST

theorem produces_of_mem (hfull : ∀ rule ∈ g.rules, rule.right ≠ [])
    {rule : Rule} (hrule : rule ∈ g.rules) :
    g.Produces ⟨rule.left, rule.right⟩ :=
  ⟨hfull rule hrule, rule, hrule, rfl, rfl⟩

/-- Whatever a list derives, it begins as its first symbol may begin. -/
theorem contains_beginning_of_derives
    (hleft : ∀ rule ∈ g.rules, isNonterminal rule.left = true)
    {symbols rest : List Symbol} {terminal : Symbol}
    (h : Derives g.Produces symbols (terminal :: rest)) {n : TerminalId}
    (hn : TerminalId.of? g.terminals terminal = some n) :
    ∃ symbol behind, symbols = symbol :: behind
      ∧ (g.first.beginning g.terminals symbol).contains n = true := by
  induction h using Relation.ReflTransGen.head_induction_on with
  | refl =>
      refine ⟨terminal, rest, rfl, ?_⟩
      have hterminal :=
        isNonterminal_of_mem_terminals (TerminalId.mem_of_of? hn)
      rw [FirstSets.beginning_of_terminal hterminal]
      exact FirstSets.contains_ofTerminal hn
  | head hstep _ ih =>
      obtain ⟨symbol, behind, heq, hcontains⟩ := ih
      cases hstep with
      | replace before after hp =>
          cases before with
          | cons front before =>
              -- the replacement is made behind the first symbol
              cases heq
              exact ⟨symbol, _, rfl, hcontains⟩
          | nil =>
              obtain ⟨nonempty, rule, hrule, hruleLeft, hright⟩ := hp
              obtain ⟨head, tail, hcons⟩ := List.exists_cons_of_ne_nil nonempty
              rw [hcons] at heq
              cases heq
              have hhead : rule.right.head? = some symbol := by
                rw [hright, hcons]
                rfl
              refine ⟨_, after, rfl, ?_⟩
              rw [← hruleLeft,
                FirstSets.beginning_of_nonterminal (hleft rule hrule)]
              exact FirstSets.beginning_le hrule hhead n hcontains

/-- Every element of a FIRST set begins a list that is derived. -/
theorem beginsWith_of_contains (hfull : ∀ rule ∈ g.rules, rule.right ≠ [])
    {nonterminal : Symbol} {n : TerminalId}
    (h : (g.first.sets.setAt nonterminal).contains n = true) :
    ∃ terminal, TerminalId.of? g.terminals terminal = some n
      ∧ g.BeginsWith nonterminal terminal := by
  refine first_induction ?_ ?_ h
  · intro rule hrule symbol rest hright _
    refine ⟨rest, ?_⟩
    have hstep := Derives.replace [] [] (produces_of_mem hfull hrule)
    simpa [hright] using hstep
  · intro rule hrule symbol rest hright _ terminal hbegins
    obtain ⟨behind, hderives⟩ := hbegins
    refine ⟨behind ++ rest, ?_⟩
    have hstep := Derives.replace [] [] (produces_of_mem hfull hrule)
    have hrest := hderives.append_right rest
    refine Derives.trans ?_ hrest
    simpa [hright] using hstep

/-- What a symbol may begin with begins a list that it derives. -/
theorem derives_of_contains_beginning
    (hfull : ∀ rule ∈ g.rules, rule.right ≠ []) {symbol : Symbol}
    {n : TerminalId}
    (h : (g.first.beginning g.terminals symbol).contains n = true) :
    ∃ terminal rest, TerminalId.of? g.terminals terminal = some n
      ∧ Derives g.Produces [symbol] (terminal :: rest) := by
  unfold FirstSets.beginning at h
  split at h
  · obtain ⟨terminal, hterminal, rest, hderives⟩ :=
      beginsWith_of_contains hfull h
    exact ⟨terminal, rest, hterminal, hderives⟩
  · exact ⟨symbol, [], eq_of_contains_ofTerminal h, Derives.refl _⟩

-- ============================================================= FOLLOW

/-- Two neighbours that the FOLLOW sets allow for: if the first is a
nonterminal, whatever the second begins with is in its FOLLOW set. -/
def Allows (g : Grammar) (symbol next : Symbol) : Prop :=
  isNonterminal symbol = true →
    g.first.beginning g.terminals next ≤ g.follow.setAt symbol

/-- Neighbours in a rule are allowed for. -/
theorem isChain_right {rule : Rule} (hrule : rule ∈ g.rules) :
    rule.right.IsChain g.Allows := by
  rw [List.isChain_iff_forall_rel_of_append_cons_cons]
  intro symbol next before after hright hsymbol n hn
  refine ofSequence_le_follow hrule hright hsymbol n ?_
  exact FirstSets.beginning_le_ofSequence g.first g.terminals next after n hn

/-- A replacement keeps neighbours allowed for: at the front of the right-hand
side less may begin than with the left-hand side, and what follows its end is
what followed the left-hand side. -/
theorem isChain_of_rewrites
    (hleft : ∀ rule ∈ g.rules, isNonterminal rule.left = true)
    {u v : List Symbol} (h : Rewrites g.Produces u v)
      (hu : u.IsChain g.Allows) : v.IsChain g.Allows := by
  cases h with
  | @replace before after p hp =>
      obtain ⟨nonempty, rule, hrule, hruleLeft, hright⟩ := hp
      rw [← hright] at nonempty ⊢
      rw [← hruleLeft] at hu
      have hnonterminal := hleft rule hrule
      obtain ⟨hbefore, hrest, hfront⟩ := List.isChain_append.mp hu
      obtain ⟨hback, hafter⟩ := List.isChain_cons.mp hrest
      rw [List.append_assoc, List.isChain_append, List.isChain_append]
      refine ⟨hbefore, ⟨isChain_right hrule, hafter, ?_⟩, ?_⟩
      · intro symbol hsymbol next hnext hsymbolN
        obtain ⟨before, hlast⟩ := List.getLast?_eq_some_iff.mp hsymbol
        exact TerminalSet.le_trans (hback next hnext hnonterminal)
          (follow_le_of_last hrule hlast hsymbolN)
      · intro symbol hsymbol next hnext hsymbolN
        rw [List.head?_append_of_ne_nil _ nonempty] at hnext
        have hallows := hfront symbol hsymbol rule.left rfl hsymbolN
        rw [FirstSets.beginning_of_nonterminal hnonterminal] at hallows
        exact TerminalSet.le_trans (FirstSets.beginning_le hrule hnext) hallows

/-- Before the end of the input only such lists are derived from the start
symbol whose neighbours are allowed for. -/
theorem isChain_of_derives
    (hleft : ∀ rule ∈ g.rules, isNonterminal rule.left = true)
    {symbols : List Symbol}
    (h : Derives g.Produces [g.startSymbol, endMarker] symbols) :
    symbols.IsChain g.Allows := by
  induction h with
  | refl =>
      rw [List.isChain_cons_cons]
      refine ⟨fun _ n hn => ?_, List.isChain_singleton _⟩
      rw [FirstSets.beginning_of_terminal (by decide)] at hn
      exact demand_le_follow List.mem_cons_self n hn
  | tail _ hlast ih => exact isChain_of_rewrites hleft hlast ih

/-- Whatever follows a nonterminal in a derivation is in its FOLLOW set. -/
theorem FollowedBy.contains
    (hleft : ∀ rule ∈ g.rules, isNonterminal rule.left = true)
    {nonterminal terminal : Symbol}
    (hnonterminal : isNonterminal nonterminal = true)
    (h : g.FollowedBy nonterminal terminal) {n : TerminalId}
    (hn : TerminalId.of? g.terminals terminal = some n) :
    (g.follow.setAt nonterminal).contains n = true := by
  obtain ⟨before, after, hderives⟩ := h
  have hchain := isChain_of_derives hleft hderives
  rw [List.isChain_iff_forall_rel_of_append_cons_cons] at hchain
  refine hchain rfl hnonterminal n ?_
  have hterminal := isNonterminal_of_mem_terminals (TerminalId.mem_of_of? hn)
  rw [FirstSets.beginning_of_terminal hterminal]
  exact FirstSets.contains_ofTerminal hn

/-- Without empty rules a list begins as its first symbol may begin, and only
the empty list vanishes. -/
theorem ofSequence_of_full (hfull : ∀ rule ∈ g.rules, rule.right ≠ [])
    (symbols : List Symbol) :
    g.first.ofSequence g.terminals symbols
      = match symbols with
        | [] => (TerminalSet.empty, true)
        | symbol :: _ => (g.first.beginning g.terminals symbol, false) := by
  have hvanishes : ∀ symbol, g.first.vanishes symbol = false := by
    intro symbol
    unfold FirstSets.vanishes
    rw [decide_eq_false_iff_not]
    intro hmem
    have hempty := OrderedSet.mem_ofList.mp hmem
    obtain ⟨rule, hrule, -⟩ := List.mem_map.mp hempty
    obtain ⟨hrule, hnil⟩ := List.mem_filter.mp hrule
    exact hfull rule hrule (List.isEmpty_iff.mp hnil)
  cases symbols with
  | nil => rfl
  | cons symbol rest =>
      unfold FirstSets.ofSequence FirstSets.beginning
      dsimp only
      cases hsymbol : isNonterminal symbol with
      | false => simp
      | true =>
          simp only [Bool.not_true, Bool.false_eq_true, if_false,
            if_true, hvanishes symbol]
          rfl

/-- Every element of a FOLLOW set follows the nonterminal in a derivation, if
the derivations come to all left-hand sides. -/
theorem followedBy_of_contains (hfull : ∀ rule ∈ g.rules, rule.right ≠ [])
    (hoccurs : ∀ rule ∈ g.rules, g.Occurs rule.left) {nonterminal : Symbol}
    {n : TerminalId} (h : (g.follow.setAt nonterminal).contains n = true) :
    ∃ terminal, TerminalId.of? g.terminals terminal = some n
      ∧ g.FollowedBy nonterminal terminal := by
  refine follow_induction ⟨[], [], Derives.refl _⟩ ?_ ?_ h
  · intro rule hrule front symbol after hright _ n hn
    rw [ofSequence_of_full hfull] at hn
    cases after with
    | nil =>
        dsimp only at hn
        rw [TerminalSet.contains_empty] at hn
        cases hn
    | cons next after =>
        obtain ⟨terminal, rest, hterminal, hnext⟩ :=
          derives_of_contains_beginning hfull hn
        obtain ⟨before, behind, hleft⟩ := hoccurs rule hrule
        refine ⟨terminal, hterminal, before ++ front,
          rest ++ after ++ behind ++ [endMarker], ?_⟩
        have hstart := hleft.append_right [endMarker]
        have hrule := Derives.replace before (behind ++ [endMarker])
          (produces_of_mem hfull hrule)
        have hinner :=
          (hnext.append_left (before ++ front ++ [symbol])).append_right
          (after ++ behind ++ [endMarker])
        simp only [hright, List.append_assoc,
          List.cons_append, List.nil_append]
          at hstart hrule hinner ⊢
        exact (hstart.trans hrule).trans hinner
  · intro rule hrule front symbol after hright _ hvanishes terminal hfollowed
    rw [ofSequence_of_full hfull] at hvanishes
    cases after with
    | cons next after => cases hvanishes
    | nil =>
        obtain ⟨before, behind, hderives⟩ := hfollowed
        refine ⟨before ++ front, behind, ?_⟩
        have hrule := Derives.replace before (terminal :: behind)
          (produces_of_mem hfull hrule)
        simp only [hright, List.append_assoc,
          List.cons_append, List.nil_append]
          at hderives hrule ⊢
        exact hderives.trans hrule

-- ========================================================= the meaning

theorem isNonterminal_of_mem_nonterminals
    (hleft : ∀ rule ∈ g.rules, isNonterminal rule.left = true)
    {symbol : Symbol} (h : symbol ∈ g.nonterminals) :
    isNonterminal symbol = true := by
  rcases mem_nonterminals_iff.mp h with ⟨rule, hrule, rfl⟩ | ⟨-, h⟩
  · exact hleft rule hrule
  · exact h

/-- A set comprises the terminals with a property if its elements are numbers
of such terminals and all terminals that have it are among its elements. -/
theorem comprises_of_elements {s : TerminalSet} {P : Symbol → Prop}
    (helements : ∀ n, s.contains n = true →
      ∃ terminal, TerminalId.of? g.terminals terminal = some n ∧ P terminal)
    (hall : ∀ symbol, isNonterminal symbol = false → P symbol →
      s.Has g.terminals symbol) : s.Comprises g.terminals P := by
  refine fun n => ⟨helements n, ?_⟩
  rintro ⟨symbol, hnumber, hP⟩
  have hterminal :=
    isNonterminal_of_mem_terminals (TerminalId.mem_of_of? hnumber)
  obtain ⟨m, hm, hcontains⟩ := hall symbol hterminal hP
  cases hnumber.symm.trans hm
  exact hcontains

/-- As long as there are no more terminals than numbers, what a set has it has
by name. -/
theorem mem_names_of_has (hsize : g.terminals.size ≤ TerminalId.limit)
    {s : TerminalSet} {symbol : Symbol} (h : s.Has g.terminals symbol) :
    symbol ∈ s.names g.terminals := by
  obtain ⟨n, hn, hcontains⟩ := h
  exact TerminalSet.mem_names_iff.mpr
    ⟨n, hcontains, TerminalId.name?_of_of? hsize hn⟩

/-- And a set that comprises the terminals with a property lists them. -/
theorem lists_of_comprises (hsize : g.terminals.size ≤ TerminalId.limit)
    {s : TerminalSet} {P : Symbol → Prop} (h : s.Comprises g.terminals P)
    (hall : ∀ symbol, isNonterminal symbol = false → P symbol →
      s.Has g.terminals symbol) : s.Lists g.terminals P := by
  refine fun symbol => ⟨fun hname => ?_, fun hP => ?_⟩
  · obtain ⟨n, hcontains, hn⟩ := TerminalSet.mem_names_iff.mp hname
    obtain ⟨other, hother, hP⟩ := (h n).mp hcontains
    cases (TerminalId.name?_of_of? hsize hother).symm.trans hn
    exact ⟨isNonterminal_of_mem_terminals (TerminalId.mem_of_name? hn), hP⟩
  · exact mem_names_of_has hsize (hall symbol hP.1 hP.2)

/-- In a grammar without empty rules FIRST and FOLLOW mean what they say, by
numbers of terminals. The FIRST set of a nonterminal consists of the numbers
of the terminals with which the lists begin that it derives. The FOLLOW set
has the number of every terminal that stands right behind the nonterminal in
a list derived from the start symbol before the end of the input, and no other
if such lists come to every left-hand side. If there are no more terminals
than numbers, the same is true of the terminals themselves. -/
theorem first_follow_comprise {lines : List String}
    (hread : ofLines? lines = .ok g)
    (hfull : ∀ rule ∈ g.rules, rule.right ≠ []) {nonterminal : Symbol}
    (hnonterminal : nonterminal ∈ g.nonterminals) :
    ∃ first follow, (FirstSets.ofGrammar g).get? nonterminal = some first
      ∧ (FollowSets.ofGrammar g (FirstSets.ofGrammar g)).get? nonterminal
        = some follow
      ∧ first.Comprises g.terminals (g.BeginsWith nonterminal)
      ∧ (∀ terminal, isNonterminal terminal = false →
        g.FollowedBy nonterminal terminal → follow.Has g.terminals terminal)
      ∧ ((∀ rule ∈ g.rules, g.Occurs rule.left) →
        follow.Comprises g.terminals (g.FollowedBy nonterminal))
      ∧ (g.terminals.size ≤ TerminalId.limit →
        first.Lists g.terminals (g.BeginsWith nonterminal)
        ∧ (∀ terminal, isNonterminal terminal = false →
          g.FollowedBy nonterminal terminal →
          terminal ∈ follow.names g.terminals)
        ∧ ((∀ rule ∈ g.rules, g.Occurs rule.left) →
          follow.Lists g.terminals (g.FollowedBy nonterminal))) := by
  have hleft := isNonterminal_left hread
  have hsymbol := isNonterminal_of_mem_nonterminals hleft hnonterminal
  have hfirstKey : nonterminal ∈ g.first.sets.keys :=
    (TerminalFamily.keys_least fun _ =>
      FirstSets.target_mem_nonterminals).mpr hnonterminal
  have hfollowKey : nonterminal ∈ g.follow.keys :=
    (TerminalFamily.keys_least fun _ =>
      follow_target_mem_nonterminals).mpr hnonterminal
  obtain ⟨first, hfirst⟩ := (OrderedMap.mem_keys_iff _).mp hfirstKey
  obtain ⟨follow, hfollow⟩ := (OrderedMap.mem_keys_iff _).mp hfollowKey
  have hfirstSet : g.first.sets.setAt nonterminal = first := by
    unfold TerminalFamily.setAt
    rw [hfirst]
    rfl
  have hfollowSet : g.follow.setAt nonterminal = follow := by
    unfold TerminalFamily.setAt
    rw [hfollow]
    rfl
  have hbegins : ∀ terminal, isNonterminal terminal = false →
      g.BeginsWith nonterminal terminal → first.Has g.terminals terminal := by
    intro terminal hterminal hbegins
    obtain ⟨n, hn⟩ :=
      TerminalId.exists_of? (hbegins.mem_terminals hsymbol hterminal)
    obtain ⟨rest, hderives⟩ := hbegins
    obtain ⟨symbol, behind, heq, hcontains⟩ :=
      contains_beginning_of_derives hleft hderives hn
    cases heq
    rw [FirstSets.beginning_of_nonterminal hsymbol, hfirstSet] at hcontains
    exact ⟨n, hn, hcontains⟩
  have hfollows : ∀ terminal, isNonterminal terminal = false →
      g.FollowedBy nonterminal terminal →
      follow.Has g.terminals terminal := by
    intro terminal hterminal hfollowed
    obtain ⟨n, hn⟩ := TerminalId.exists_of?
      (hfollowed.mem_terminals (isNonterminal_startSymbol hleft) hterminal)
    have hcontains := hfollowed.contains hleft hsymbol hn
    rw [hfollowSet] at hcontains
    exact ⟨n, hn, hcontains⟩
  have hfirstAll : first.Comprises g.terminals (g.BeginsWith nonterminal) := by
    refine comprises_of_elements (fun n hn => ?_) hbegins
    rw [← hfirstSet] at hn
    exact beginsWith_of_contains hfull hn
  have hfollowAll : (∀ rule ∈ g.rules, g.Occurs rule.left) →
      follow.Comprises g.terminals (g.FollowedBy nonterminal) := by
    intro hoccurs
    refine comprises_of_elements (fun n hn => ?_) hfollows
    rw [← hfollowSet] at hn
    exact followedBy_of_contains hfull hoccurs hn
  refine ⟨first, follow, hfirst, hfollow, hfirstAll, hfollows, hfollowAll,
    fun hsize => ⟨lists_of_comprises hsize hfirstAll hbegins, ?_, ?_⟩⟩
  · exact fun terminal hterminal hfollowed =>
      mem_names_of_has hsize (hfollows terminal hterminal hfollowed)
  · exact fun hoccurs =>
      lists_of_comprises hsize (hfollowAll hoccurs) hfollows

/-- Sums are defined by a left recursion, and both of their left-hand sides
occur in the sentential forms, so that the FIRST and the FOLLOW set of a
summand are exactly what they should be. -/
theorem first_follow_comprise_summand :
    ∃ g first follow,
      ofLines? ["<sum> -> <sum> + <term>", "<sum> -> <term>",
          "<term> -> name"]
        = .ok g
      ∧ (FirstSets.ofGrammar g).get? "<term>" = some first
      ∧ (FollowSets.ofGrammar g (FirstSets.ofGrammar g)).get? "<term>"
        = some follow
      ∧ first.Lists g.terminals (g.BeginsWith "<term>")
      ∧ follow.Lists g.terminals (g.FollowedBy "<term>") := by
  have hcheck : (match ofLines? ["<sum> -> <sum> + <term>",
      "<sum> -> <term>", "<term> -> name"]
      with
      | .error _ => false
      | .ok g => decide (g.rules = [⟨"<sum>", ["<sum>", "+", "<term>"], none⟩,
          ⟨"<sum>", ["<term>"], none⟩, ⟨"<term>", ["name"], none⟩]))
            = true := by decide +kernel
  split at hcheck
  · cases hcheck
  · next g hread =>
      have hrules := of_decide_eq_true hcheck
      have hfull : ∀ rule ∈ g.rules, rule.right ≠ [] := by
        rw [hrules]
        decide
      have hsummand : "<term>" ∈ g.nonterminals := by
        refine mem_nonterminals_iff.mpr
          (Or.inl ⟨⟨"<term>", ["name"], none⟩, ?_, rfl⟩)
        rw [hrules]
        decide
      have hstart : g.startSymbol = "<sum>" := by
        simp only [startSymbol, hrules, List.head_cons]
      have hterm : g.Produces ⟨"<sum>", ["<term>"]⟩ := by
        have hmem : ⟨"<sum>", ["<term>"], none⟩ ∈ g.rules := by simp [hrules]
        exact produces_of_mem hfull hmem
      have hoccurs : ∀ rule ∈ g.rules, g.Occurs rule.left := by
        have hsum : g.Occurs "<sum>" :=
          ⟨[], [], by rw [hstart]; exact Derives.refl _⟩
        have hinner : g.Occurs "<term>" :=
          ⟨[], [], by rw [hstart]; exact Derives.replace [] [] hterm⟩
        rw [hrules]
        simp only [List.forall_mem_cons, List.not_mem_nil, false_imp_iff,
          implies_true, and_true]
        exact ⟨hsum, hsum, hinner⟩
      have hsize : g.terminals.size ≤ TerminalId.limit := by
        unfold terminals rightSymbols
        rw [hrules]
        decide +kernel
      obtain ⟨first, follow, hfirst, hfollow, -, -, -, hnames⟩ :=
        first_follow_comprise hread hfull hsummand
      obtain ⟨hbegins, -, hfollows⟩ := hnames hsize
      exact ⟨g, first, follow, hread, hfirst, hfollow, hbegins,
        hfollows hoccurs⟩

end Grammar

end ShiftReduce
