/-
The tables of grammars are read back.

Every symbol of a grammar that is read from lines is a word, so it is not
empty and has no space in it, and the names of the states of its table can
be read. What a symbol may do is to look like a reduction. A shift on such a
symbol is into a state whose name begins with it, and is read as the
reduction. This is the only thing that is not read back: a table survives
being stored exactly if it does not shift on a symbol of that form.
-/
import ShiftReduce.Proofs.Automaton.States
import ShiftReduce.Proofs.Engine.Completeness
import ShiftReduce.Proofs.Engine.Path
import ShiftReduce.Proofs.RuleText
import ShiftReduce.Proofs.Table.File
import ShiftReduce.Proofs.Table.Interchange
import ShiftReduce.Proofs.Vocabulary

namespace ShiftReduce

open Text

-- ================================================================== rules

namespace Rule

/-- The symbols on the right of a rule are words, and its action has a
name. -/
theorem solid_of_ofText? {text : List Char} {rule : Rule}
    (h : ofText? text = .ok rule) :
    (∀ symbol ∈ rule.right, symbol ≠ "" ∧ ' ' ∉ symbol.toList)
      ∧ rule.action ≠ some "" := by
  have hrule := expressible_of_ofText? h
  refine ⟨fun symbol hsymbol => ?_, fun hempty => ?_⟩
  · obtain ⟨hne, hblank⟩ := hrule.right symbol hsymbol
    refine ⟨fun hnil => hne (String.toList_eq_nil_iff.mpr hnil),
      fun hspace => ?_⟩
    exact absurd (hblank ' ' hspace) (by decide)
  · exact (hrule.action "" hempty).1 rfl

end Rule

namespace Grammar

/-- A grammar whose tables can be written by name: the start symbol is a
nonterminal, the others have no spaces in them, actions have names, and
rules and positions have numbers below the limits. -/
structure Legible (g : Grammar) : Prop where
  start : isNonterminal g.startSymbol = true
  solid : ∀ rule ∈ g.rules, ∀ symbol ∈ rule.right, symbol ≠ ""
    ∧ ' ' ∉ symbol.toList
  action : ∀ rule ∈ g.rules, rule.action ≠ some ""
  rules : g.rules.length ≤ Item.ruleLimit
  right : ∀ rule ∈ g.rules, rule.right.length < Item.positionLimit

variable {g : Grammar}

theorem solid_of_lines {lines : List String} (h : ofLines? lines = .ok g) :
    ∀ rule ∈ g.rules,
      (∀ symbol ∈ rule.right, symbol ≠ "" ∧ ' ' ∉ symbol.toList)
        ∧ rule.action ≠ some "" := by
  intro rule hrule
  obtain ⟨text, htext⟩ := exists_text h rule hrule
  exact Rule.solid_of_ofText? htext

theorem legible_of_lines {lines : List String} (h : ofLines? lines = .ok g)
    (hrules : g.rules.length ≤ Item.ruleLimit)
    (hright : ∀ rule ∈ g.rules, rule.right.length < Item.positionLimit) :
    g.Legible where
  start := isNonterminal_startSymbol (isNonterminal_left h)
  solid := fun rule hrule => (solid_of_lines h rule hrule).1
  action := fun rule hrule => (solid_of_lines h rule hrule).2
  rules := hrules
  right := hright

-- ================================================================= tables

variable {follow : FollowSets} {limit : Nat} {t : Table}

theorem rule_lt {index : Nat} {rule : Rule} (h : g.rule? index = some rule) :
    index < g.rules.length :=
  (List.getElem?_eq_some_iff.mp h).1

theorem Legible.item (hg : g.Legible) {key : StateKey} (hkernel : Kernel g key)
    {i : Item} (hi : i ∈ key.items) : i.Legible := by
  obtain ⟨rule, n, hrule, hposition, hsymbol⟩ := hkernel.isItem i hi
  have hmem : rule ∈ g.rules := List.mem_of_getElem? hrule
  have hlt : i.rule < g.rules.length := rule_lt hrule
  have hn : n < rule.right.length := (List.getElem?_eq_some_iff.mp hsymbol).1
  have hrules := hg.rules
  have hright := hg.right rule hmem
  obtain ⟨hne, hsolid⟩ :=
    hg.solid rule hmem i.symbol (List.mem_of_getElem? hsymbol)
  exact ⟨hne, hsolid, by omega, by omega⟩

/-- The names of the states can be told from each other if the symbols have no
spaces in them. -/
theorem solid_of_mem_states (h : (g.buildWith follow limit).result = .ok t)
    (hsolid : ∀ rule ∈ g.rules, ∀ symbol ∈ rule.right, ' ' ∉ symbol.toList)
    {key : StateKey} (hkey : key ∈ t.states.keys) : key.Solid := by
  have hitems : ∀ i ∈ key.items, ' ' ∉ i.symbol.toList := by
    intro i hi
    obtain ⟨rule, n, hrule, -, hsymbol⟩ :=
      (kernel_of_mem_states h hkey).isItem i hi
    exact hsolid rule (List.mem_of_getElem? hrule) i.symbol
      (List.mem_of_getElem? hsymbol)
  rcases (mem_states_iff h).mp hkey with rfl | ⟨symbol, word, hnames⟩
  · trivial
  · cases key with
    | start => exact hnames.elim
    | item i => exact hitems i (List.mem_singleton_self i)
    | merged is => exact ⟨hnames.1, hitems⟩

theorem Legible.key (hg : g.Legible)
    (h : (g.buildWith follow limit).result = .ok t) {key : StateKey}
    (hkey : key ∈ t.states.keys) : key.Legible :=
  (solid_of_mem_states h
  (fun rule hrule symbol hsymbol => (hg.solid rule hrule symbol hsymbol).2)
    hkey).legible fun _ hi => hg.item (kernel_of_mem_states h hkey) hi

/-- The tables of a grammar that can be written by name can be read. -/
theorem Legible.table (hg : g.Legible)
    (h : (g.buildWith follow limit).result = .ok t) : t.Legible where
  start := by
    rw [startSymbol_of_buildWith h]
    exact hg.start
  first := by
    show (t.states.entries.map Prod.fst).head? = _
    rw [List.head?_eq_getElem?, List.getElem?_map]
    exact key?_initial h
  keys := fun key hkey => hg.key h hkey
  shift := by
    intro state symbol target haction
    obtain ⟨key, hkey⟩ := Table.exists_key?_of_action? haction
    obtain ⟨next, hnext, -⟩ := (action?_eq_shift_iff h hkey).mp haction
    exact ⟨next, hnext⟩
  reduce := by
    intro state symbol index name haction
    obtain ⟨key, -, hmem⟩ := mem_reductions_of_action? h haction
    obtain ⟨-, -, -, rule, hrule, -⟩ := StateKey.mem_reductions_iff.mp hmem
    have hlt := rule_lt hrule
    have hrules := hg.rules
    refine ⟨by omega, ?_⟩
    rw [name_of_action? h haction, hrule]
    exact hg.action rule (List.mem_of_getElem? hrule)

/-- A shift on a symbol is into a state whose name is taken for a reduction
exactly if the symbol looks like one. -/
theorem Legible.reduceOfText?_stateName (hg : g.Legible)
    (h : (g.buildWith follow limit).result = .ok t) {state target : Nat}
    {symbol : Symbol}
      (haction : t.action? state symbol = some (.shift target)) :
    (Action.reduceOfText? (t.stateName target).toList : Option (Action Nat))
      = none
      ↔ ¬ LooksReduced symbol := by
  obtain ⟨key, hkey⟩ := Table.exists_key?_of_action? haction
  obtain ⟨next, hnext, hnames⟩ := (action?_eq_shift_iff h hkey).mp haction
  have hsymbol : ∀ i ∈ next.items, i.symbol = symbol :=
    fun i hi => (exists_stands_of_mem_successors (hnames.mem_iff.mpr hi)).1
  have hlegible := hg.key h (Table.mem_keys_of_key? hnext)
  obtain ⟨hne, -, -⟩ := hlegible.solid.name_eq hnames.ne_start t.startSymbol
  have hhead := List.head?_eq_some_head hne
  rw [Table.stateName, hnext, ← hsymbol _ (List.head_mem hne)]
  exact hlegible.reduceOfText?_toText_eq_none_iff hhead t.startSymbol

/-- A shift is read back unless its symbol looks like a reduction. Then it is
read as a reduction. -/
theorem Legible.actionOfText?_shift (hg : g.Legible)
    (h : (g.buildWith follow limit).result = .ok t) {state target : Nat}
    {symbol : Symbol}
      (haction : t.action? state symbol = some (.shift target)) :
    (¬ LooksReduced symbol →
      t.actionOfText? (t.actionText (.shift target)) = .ok (.shift target))
    ∧ (LooksReduced symbol → ∃ rule name,
      t.actionOfText? (t.actionText (.shift target))
        = .ok (.reduce rule name)) := by
  have hname := hg.reduceOfText?_stateName h haction
  obtain ⟨next, hnext⟩ := (hg.table h).shift state symbol target haction
  constructor
  · intro hplain
    exact Table.actionOfText?_shift (hg.table h) hnext (hname.mpr hplain)
  · intro hlooks
    cases hreduce : (Action.reduceOfText? (t.stateName target).toList :
        Option (Action Nat)) with
    | none => exact absurd hlooks (hname.mp hreduce)
    | some action =>
        obtain ⟨rule, name, rfl, -, -⟩ := Action.reduceOfText?_eq_some hreduce
        exact ⟨rule, name, Table.actionOfText?_shift_of_reduce hreduce⟩

end Grammar

-- ========================================================= stored tables

/-- What becomes of a compiled table that is written as JSON and read again.
Reading never fails, and gives the same states and cells with every action
as its text is read. The text of a reduction is read back. The text of a
shift is read back unless the symbol looks like a reduction; then it is read
as a reduction. So the table is the same exactly if it does not shift on a
symbol of that form. -/
theorem compile_stored {lines : List String} {out : Compiled}
    (hcompiled : (compile lines).result = .ok out)
    (hrules : out.grammar.rules.length ≤ Item.ruleLimit)
    (hright : ∀ rule ∈ out.grammar.rules,
      rule.right.length < Item.positionLimit) :
    Table.ofJson? out.table.toJson
      = .ok (out.table.mapActions out.table.reread)
    ∧ (∀ state symbol action, out.table.action? state symbol = some action →
      out.table.actionOfText? (out.table.actionText action)
        = .ok (out.table.reread action))
    ∧ (∀ state symbol rule name,
      out.table.action? state symbol = some (.reduce rule name) →
      out.table.reread (.reduce rule name) = .reduce rule name)
    ∧ (∀ state symbol target,
        out.table.action? state symbol = some (.shift target) →
      (¬ LooksReduced symbol →
        out.table.reread (.shift target) = .shift target)
      ∧ (LooksReduced symbol → ∃ rule name,
        out.table.reread (.shift target) = .reduce rule name))
    ∧ (Table.ofJson? out.table.toJson = .ok out.table
      ↔ ∀ state symbol target,
        out.table.action? state symbol = some (.shift target) →
        ¬ LooksReduced symbol) := by
  obtain ⟨hread, hbuilt, -⟩ := of_compile_ok hcompiled
  have hg : out.grammar.Legible := Grammar.legible_of_lines hread hrules hright
  have htable : out.table.Legible := hg.table hbuilt
  have hstored : Table.ofJson? out.table.toJson
      = .ok (out.table.mapActions out.table.reread) := by
    rw [Table.ofJson?_toJson]
    exact Table.toTable?_ofTable htable
  have hreduce : ∀ state symbol rule name,
      out.table.action? state symbol = some (.reduce rule name) →
      out.table.reread (.reduce rule name) = .reduce rule name := by
    intro state symbol rule name haction
    obtain ⟨hrule, hname⟩ := htable.reduce state symbol rule name haction
    exact Table.reread_eq (Table.actionOfText?_reduce hrule hname)
  have hshift : ∀ state symbol target,
      out.table.action? state symbol = some (.shift target) →
      (¬ LooksReduced symbol →
        out.table.reread (.shift target) = .shift target)
      ∧ (LooksReduced symbol → ∃ rule name,
        out.table.reread (.shift target) = .reduce rule name) := by
    intro state symbol target haction
    obtain ⟨hplain, hlooks⟩ := hg.actionOfText?_shift hbuilt haction
    refine ⟨fun h => Table.reread_eq (hplain h), fun h => ?_⟩
    obtain ⟨rule, name, htext⟩ := hlooks h
    exact ⟨rule, name, Table.reread_eq htext⟩
  refine ⟨hstored, fun state symbol action =>
    Table.actionOfText?_actionText htable, hreduce, hshift, ?_⟩
  rw [hstored, Except.ok.injEq, Table.mapActions_eq_self_iff]
  constructor
  · intro hsame state symbol target haction hlooks
    obtain ⟨rule, name, hread⟩ := (hshift state symbol target haction).2 hlooks
    rw [hsame state symbol (.shift target) haction] at hread
    cases hread
  · intro hplain state symbol action haction
    cases action with
    | reduce rule name => exact hreduce state symbol rule name haction
    | shift target =>
        exact (hshift state symbol target haction).1
          (hplain state symbol target haction)

/-- The symbol of the grammar is written like the reduction by the first rule
with an action `x`, and is taken for it. -/
theorem compile_stored_reduction :
    ∃ out, (compile ["<S> -> R0~x"]).result = .ok out
      ∧ out.table.action? 0 "R0~x" = some (.shift 1)
      ∧ ∃ read, Table.ofJson? out.table.toJson = .ok read
      ∧ read ≠ out.table := by
  have hcheck : (match (compile ["<S> -> R0~x"]).result with
      | .error _ => false
      | .ok out => decide (out.grammar.rules = [⟨"<S>", ["R0~x"], none⟩])
        && decide (out.table.action? 0 "R0~x" = some (.shift 1))) = true := by
    decide +kernel
  split at hcheck
  · cases hcheck
  · next out hout =>
      simp only [Bool.and_eq_true, decide_eq_true_eq] at hcheck
      obtain ⟨hrules, hshift⟩ := hcheck
      have hlooks : LooksReduced "R0~x" := ⟨['0'], ['x'], 0, rfl, rfl⟩
      obtain ⟨hread, -, -, -, hsame⟩ :=
        compile_stored hout (by rw [hrules]; decide)
        (by rw [hrules]; decide)
      refine ⟨out, hout, hshift, _, hread, fun heq => ?_⟩
      rw [heq] at hread
      exact hsame.mp hread 0 "R0~x" 1 hshift hlooks

end ShiftReduce
