/-
Completeness of the engine for grammars without conflicts.

An engine reads tokens that spell the rest of a right-hand side, from a
state that stands at that position, and comes to a state that stands behind
it, with the symbols of the rest on the stack. A terminal it shifts. For a
nonterminal it first reads what spells one of its productions, which the
state stands at the beginning of; it reduces, because the token that is
next may stand behind the nonterminal and no conflict has turned the
reduction away; and it shifts the nonterminal from where it began.

The induction follows the spelling. What makes it go through is that the
stack below is never looked at and that FOLLOW sees every token ahead. The
start symbol is left out of the right-hand sides because an engine stops as
soon as it is reduced. And the terminals have to have numbers of their own:
FOLLOW is read by names when the reductions are entered, and a terminal that
shares the number of an earlier one would be left without its reductions.
-/
import ShiftReduce.Compile
import ShiftReduce.Proofs.Analysis.Ahead
import ShiftReduce.Proofs.Automaton.Closure
import ShiftReduce.Proofs.Automaton.Finished
import ShiftReduce.Proofs.Engine.Arrival
import ShiftReduce.Proofs.Engine.Balance

namespace ShiftReduce

open ShiftReduce.Configuration

/-- What is left of a list behind a position begins with the element at the
position. -/
theorem of_drop_eq_cons {α : Type} {l rest : List α} {a : α} {n : Nat}
    (h : l.drop n = a :: rest) : l[n]? = some a ∧ l.drop (n + 1) = rest := by
  constructor
  · rw [← List.head?_drop, h]
    rfl
  · rw [← List.tail_drop, h]
    rfl

/-- The table of a grammar with nonterminals on the left, built without
conflicts, whose start symbol occurs on no right-hand side and whose terminals
all have numbers of their own. -/
structure Grammar.Tabulated (g : Grammar) (limit : Nat) (t : Table) :
    Prop where
  built : (g.build limit).result = .ok t
  clear : (g.build limit).conflicts = []
  left : ∀ rule ∈ g.rules, isNonterminal rule.left = true
  apart : ∀ rule ∈ g.rules, g.startSymbol ∉ rule.right
  numbered : g.terminals.size ≤ TerminalId.limit

/-- The engine is at work in the state with a key. -/
structure Configuration.At (t : Table) (key : StateKey)
    (c : Configuration Nat) : Prop where
  going : c.completed = false
  top : ∃ entry below, c.stack = entry :: below ∧ t.key? entry.state = some key

namespace Grammar.Tabulated

variable {g : Grammar} {limit : Nat} {t : Table} {key : StateKey}

theorem startSymbol_eq (h : g.Tabulated limit t) :
    t.startSymbol = g.startSymbol := by
  obtain ⟨rows, -, -, rfl, -⟩ := of_buildWith_ok h.built
  rfl

-- ============================================================== actions

/-- On the symbol behind a position at which it stands, a state shifts into
one that stands behind the symbol. -/
theorem action_shift (h : g.Tabulated limit t) {state : Nat}
    (hkey : t.key? state = some key) {index position : Nat}
    (hstands : g.Stands key index position) {rule : Rule}
    (hrule : g.rule? index = some rule) {symbol : Symbol}
    (hsymbol : rule.right[position]? = some symbol) :
    ∃ target next, t.action? state symbol = some (.shift target)
      ∧ t.key? target = some next ∧ g.Stands next index (position + 1) := by
  have hsuccessor := hstands.successor hrule hsymbol
  obtain ⟨target, haction⟩ := exists_shift h.built hkey ⟨_, hsuccessor⟩
  obtain ⟨next, hnext, hnames⟩ :=
    (action?_eq_shift_iff h.built hkey).mp haction
  exact ⟨target, next, haction, hnext, .item (hnames.mem_iff.mp hsuccessor)⟩

/-- A state that stands at the end of a rule reduces on what may stand
behind the left-hand side. -/
theorem action_reduce (h : g.Tabulated limit t) {state : Nat}
    (hkey : t.key? state = some key) {index : Nat} {rule : Rule}
    (hrule : g.rule? index = some rule) (hne : rule.right ≠ [])
    (hstands : g.Stands key index rule.right.length) {terminal : Symbol}
    (hahead : g.Ahead rule.left terminal) :
    t.action? state terminal = some (.reduce index rule.action) := by
  obtain ⟨n, hn⟩ :=
    Nat.exists_eq_succ_of_ne_zero (mt List.length_eq_zero_iff.mp hne)
  rw [hn] at hstands
  obtain ⟨i, hi, rfl, hposition⟩ := hstands.exists_item
  obtain ⟨set, hset, hname⟩ := hahead
  have hmem := StateKey.mem_reductions_iff.mpr
    ⟨i, hi, rfl, rule, hrule, hposition.trans hn.symm, set, hset, hname⟩
  rw [action?_of_mem_reductions h.built h.clear hkey hmem, hrule]
  rfl

-- ============================================================== reading

/-- What the engine has come to when it has read some symbols from a
configuration: they are on the stack, what was behind them waits, and it is
in a state that stands behind them. -/
structure Read (g : Grammar) (t : Table) (c : Configuration Nat)
    (symbols : List Symbol) (queue : List Queued) (index position : Nat)
    (c' : Configuration Nat) : Prop where
  queue : c'.queue = queue
  stack : ∃ pushed, c'.stack = pushed ++ c.stack
    ∧ (pushed.map StackEntry.symbol).reverse = symbols
  stands : ∃ key, At t key c' ∧ g.Stands key index (position + symbols.length)

/-- To read one list of symbols and then another is to read both. -/
theorem Read.append {c c' c'' : Configuration Nat} {u v : List Symbol}
    {queue queue' : List Queued} {index position : Nat}
    (h : Read g t c u queue index position c')
    (h' : Read g t c' v queue' index (position + u.length) c'') :
    Read g t c (u ++ v) queue' index position c'' := by
  obtain ⟨pushed, hstack, hsymbols⟩ := h.stack
  obtain ⟨pushed', hstack', hsymbols'⟩ := h'.stack
  refine ⟨h'.queue, ⟨pushed' ++ pushed, ?_, ?_⟩, ?_⟩
  · rw [hstack', hstack, List.append_assoc]
  · rw [List.map_append, List.reverse_append, hsymbols, hsymbols']
  · rw [List.length_append, ← Nat.add_assoc]
    exact h'.stands

/-- The engine shifts the symbol behind a position at which it stands. -/
theorem read_shift (h : g.Tabulated limit t) {c : Configuration Nat}
    (hc : At t key c) {index position : Nat}
    (hstands : g.Stands key index position) {rule : Rule}
    (hrule : g.rule? index = some rule) {next : Queued} {behind : List Queued}
    (queue : c.queue = next :: behind)
    (hsymbol : rule.right[position]? = some next.symbol) :
    ∃ c', Reaches (t.parseTable g) c c'
      ∧ Read g t c [next.symbol] behind index position c' := by
  obtain ⟨top, below, stack, hkey⟩ := hc.top
  obtain ⟨target, key', haction, hnext, hstands'⟩ :=
    h.action_shift hkey hstands hrule hsymbol
  have hstep :=
    step_of_shift (t := t.parseTable g) hc.going queue stack haction
  have hok : (c.step (t.parseTable g)).result
      = .ok (.shifted next.symbol) := by
    rw [hstep]
    rfl
  refine ⟨_, (Reaches.refl c).step hok, ?_⟩
  rw [hstep]
  exact ⟨rfl, ⟨[⟨next.symbol, target, next.significant⟩], rfl, rfl⟩,
    key', ⟨hc.going, _, _, rfl, hnext⟩, hstands'⟩

/-- The engine reduces by a rule at whose end it stands, if the token that
is next may stand behind the left-hand side, unless the semantic action
fails. -/
theorem step_reduce (h : g.Tabulated limit t) {c : Configuration Nat}
    (hc : At t key c) (hbalanced : Balanced (t.parseTable g) c) {index : Nat}
    {rule : Rule} (hrule : g.rule? index = some rule) (hne : rule.right ≠ [])
    (hstands : g.Stands key index rule.right.length) {lookahead : Queued}
    {behind : List Queued} (queue : c.queue = lookahead :: behind)
    (hahead : g.Ahead rule.left lookahead.symbol)
    {popped remaining : List (StackEntry Nat)}
    (split : c.stack = popped ++ remaining) (bottom : remaining ≠ [])
    (symbols : (popped.map StackEntry.symbol).reverse = rule.right) :
    (∃ e, (c.step (t.parseTable g)).result = .error (.synthesis e))
      ∨ ∃ node fragments,
        (c.step (t.parseTable g)).result
            = .ok (if rule.left = t.startSymbol then .completed
              else .reduced index rule.left)
          ∧ (c.step (t.parseTable g)).config
            = { queue :=
                  ⟨rule.left, lookahead.token, node, true⟩
                    :: lookahead :: behind
                stack := remaining
                fragments := fragments
                completed := rule.left == t.startSymbol } := by
  obtain ⟨top, below, stack, hkey⟩ := hc.top
  have haction := h.action_reduce hkey hrule hne hstands hahead
  have hproduction : (t.parseTable g).rule? index
      = some ⟨rule.left, rule.right⟩ :=
    Option.map_eq_some_iff.mpr ⟨rule, hrule, rfl⟩
  rw [step_of_reduce (t := t.parseTable g) hc.going queue stack haction]
  exact reduce_of_split rule.action hproduction split bottom symbols
    (hbalanced.enough split)

/-- The token that is next when a nonterminal within a rule has been spelled
may stand behind the nonterminal. -/
theorem ahead_behind (h : g.Tabulated limit t) {rule : Rule}
    (hrule : rule ∈ g.rules) {before after : List Symbol} {symbol : Symbol}
    (hright : rule.right = before ++ symbol :: after)
    (hsymbol : isNonterminal symbol = true) {tokens : List Token}
    (hspells : g.Spells after tokens) {last : Queued}
    (hlast : g.Ahead rule.left last.symbol) (behind : List Queued) :
    ∃ lookahead rest,
      tokens.map Queued.ofToken ++ last :: behind = lookahead :: rest
      ∧ g.Ahead symbol lookahead.symbol := by
  cases tokens with
  | nil =>
      refine ⟨last, behind, rfl, ?_⟩
      have hnil : after = [] := by
        by_contra hne
        exact hspells.ne_nil hne rfl
      subst hnil
      exact ahead_of_last hrule hright hsymbol hlast
  | cons token tokens =>
      exact ⟨.ofToken token, _, rfl,
        ahead_of_spells h.left h.numbered hrule hright hsymbol hspells⟩

/-- When the engine has read a production of a nonterminal from a state that
stands in front of the nonterminal, it reduces and shifts the nonterminal,
so that it has read that. -/
theorem read_nonterminal (h : g.Tabulated limit t) {c c₁ : Configuration Nat}
    (hc : At t key c) {index position : Nat}
    (hstands : g.Stands key index position) {rule : Rule}
    (hrule : g.rule? index = some rule) {q : Nat} {production : Rule}
    (hproduction : g.rule? q = some production)
    (nonempty : production.right ≠ [])
    (hsymbol : rule.right[position]? = some production.left)
    {lookahead : Queued} {behind : List Queued}
    (hahead : g.Ahead production.left lookahead.symbol)
    (hbalanced : Balanced (t.parseTable g) c₁)
    (hread : Read g t c production.right (lookahead :: behind) q 0 c₁) :
    Arrives (t.parseTable g) c₁
      (Read g t c [production.left] (lookahead :: behind) index position) := by
  obtain ⟨pushed, hstack, hpushed⟩ := hread.stack
  obtain ⟨key₁, hat, hstands₁⟩ := hread.stands
  rw [Nat.zero_add] at hstands₁
  obtain ⟨top, below, hbelow, hkey⟩ := hc.top
  have hbottom : c.stack ≠ [] := by
    rw [hbelow]
    exact List.cons_ne_nil _ _
  have hother : production.left ≠ t.startSymbol := by
    rw [h.startSymbol_eq]
    intro heq
    exact h.apart rule (List.mem_of_getElem? hrule)
      (heq ▸ List.mem_of_getElem? hsymbol)
  rcases h.step_reduce hat hbalanced hproduction nonempty hstands₁
    hread.queue hahead hstack
    hbottom hpushed with ⟨e, herror⟩ | ⟨node, fragments, hok, hconfig⟩
  · exact Or.inr ⟨c₁, e, .refl c₁, herror⟩
  · refine .andThen ((Reaches.refl c₁).step hok) ?_
    rw [hconfig]
    -- the nonterminal waits, above the stack on which its production was begun
    obtain ⟨c₂, hreach, hread₂⟩ := h.read_shift
      (c := ⟨⟨production.left, lookahead.token, node, true⟩ :: lookahead
        :: behind, c.stack, fragments, production.left == t.startSymbol⟩)
      ⟨beq_false_of_ne hother, hc.top⟩ hstands hrule rfl hsymbol
    exact Or.inl ⟨c₂, hreach, hread₂.queue, hread₂.stack, hread₂.stands⟩

/-- The engine reads whatever spells the rest of a right-hand side, from a
state that stands there, if the symbol that waits behind it may stand
behind the left-hand side. -/
theorem reads (h : g.Tabulated limit t) {symbols : List Symbol}
    {tokens : List Token} (hspells : g.Spells symbols tokens)
    {c : Configuration Nat} (hc : At t key c)
    (hbalanced : Balanced (t.parseTable g) c) {index position : Nat}
    (hstands : g.Stands key index position) {rule : Rule}
    (hrule : g.rule? index = some rule)
    (hrest : rule.right.drop position = symbols) {last : Queued}
    {behind : List Queued}
    (queue : c.queue = tokens.map Queued.ofToken ++ last :: behind)
    (hlast : g.Ahead rule.left last.symbol) :
    Arrives (t.parseTable g) c
      (Read g t c symbols (last :: behind) index position) := by
  induction hspells generalizing key c index position rule last behind with
  | nil => exact .here ⟨queue, ⟨[], rfl, rfl⟩, key, hc, hstands⟩
  | @token token symbols tokens terminal rest ih =>
      obtain ⟨hsymbol, hrest'⟩ := of_drop_eq_cons hrest
      obtain ⟨c₁, hreach, hread⟩ := h.read_shift hc hstands hrule queue hsymbol
      obtain ⟨key₁, hat, hstands₁⟩ := hread.stands
      have hbalanced₁ := hreach.preserves Move.balanced hbalanced
      refine .andThen hreach ?_
      refine (ih hat hbalanced₁ hstands₁ hrule hrest' hread.queue hlast).bind
        ?_
      exact fun c₂ _ hread₂ => .here (hread.append hread₂)
  | @rule q production symbols front tokens hproduction nonempty inner
      rest ihinner ihrest =>
      obtain ⟨hsymbol, hrest'⟩ := of_drop_eq_cons hrest
      have hleft := h.left production (List.mem_of_getElem? hproduction)
      have hright : rule.right
          = rule.right.take position ++ production.left :: symbols := by
        rw [← hrest, List.take_append_drop]
      obtain ⟨lookahead, others, hqueue, hahead⟩ :=
        h.ahead_behind (List.mem_of_getElem? hrule) hright
          hleft rest hlast behind
      rw [List.map_append, List.append_assoc, hqueue] at queue
      -- first the production, from its beginning
      have hbegin := Stands.expand hstands hrule hsymbol hleft hproduction
      refine (ihinner hc hbalanced hbegin hproduction rfl queue hahead).bind ?_
      intro c₁ hreach₁ hread₁
      have hbalanced₁ := hreach₁.preserves Move.balanced hbalanced
      -- then the nonterminal
      refine (h.read_nonterminal hc hstands hrule hproduction nonempty
        hsymbol hahead hbalanced₁
        hread₁).bind ?_
      intro c₂ hreach₂ hread₂
      have hbalanced₂ := hreach₂.preserves Move.balanced hbalanced₁
      -- and then what is behind it
      obtain ⟨key₂, hat, hstands₂⟩ := hread₂.stands
      refine (ihrest hat hbalanced₂ hstands₂ hrule hrest'
        (hread₂.queue.trans hqueue.symm)
        hlast).bind ?_
      exact fun c₃ _ hread₃ => .here (hread₂.append hread₃)

-- ============================================================ sentences

/-- The start symbol is spelled by what spells one of its productions. -/
theorem exists_production (h : g.Tabulated limit t) {tokens : List Token}
    (hspells : g.Spells [g.startSymbol] tokens) :
    ∃ index rule, g.rule? index = some rule ∧ rule.left = g.startSymbol
      ∧ rule.right ≠ []
      ∧ g.Spells rule.right tokens := by
  have hnonterminal : isNonterminal g.startSymbol = true :=
    h.left _ (List.head_mem g.rules_ne_nil)
  generalize hsymbols : [g.startSymbol] = symbols at hspells
  cases hspells with
  | nil => cases hsymbols
  | token token terminal rest =>
      rw [(List.cons.inj hsymbols).1, terminal] at hnonterminal
      cases hnonterminal
  | @rule index rule _ front _ hrule nonempty inner rest =>
      obtain ⟨hleft, hnil⟩ := List.cons.inj hsymbols
      rw [← hnil] at rest
      rw [rest.eq_nil, List.append_nil]
      exact ⟨index, rule, hrule, hleft.symm, nonempty, inner⟩

/-- The engine reads all of an input that the start symbol derives, and
reduces the start symbol in front of its end. -/
theorem completes (h : g.Tabulated limit t) {tokens : List Token}
    (hspells : g.Spells [g.startSymbol] tokens) :
    Arrives (t.parseTable g) (start (t.parseTable g) tokens) fun c =>
      c.completed = false ∧ (c.step (t.parseTable g)).result = .ok .completed
        ∧ (c.step (t.parseTable g)).config.completed = true
        ∧ (c.step (t.parseTable g)).config.stack = [(t.parseTable g).bottom]
        ∧ (c.step (t.parseTable g)).config.queueSymbols
          = [g.startSymbol, endMarker] := by
  obtain ⟨index, rule, hrule, hleft, hne, hinner⟩ :=
    h.exists_production hspells
  have hstart : At t .start (start (t.parseTable g) tokens) :=
    ⟨rfl, _, _, rfl, key?_initial h.built⟩
  have hend : g.Ahead rule.left endMarker := by
    rw [hleft]
    exact ahead_start
  refine (h.reads hinner hstart (balanced_start _ _)
    (.start rfl hrule hleft) hrule rfl rfl
    hend).bind ?_
  intro c hreach hread
  obtain ⟨pushed, hstack, hpushed⟩ := hread.stack
  obtain ⟨key, hat, hstands⟩ := hread.stands
  rw [Nat.zero_add] at hstands
  have hbalanced := hreach.preserves Move.balanced (balanced_start _ _)
  rcases h.step_reduce hat hbalanced hrule hne hstands hread.queue hend hstack
    (List.cons_ne_nil _ _) hpushed with ⟨e, herror⟩ | ⟨node,
      fragments, hok, hconfig⟩
  · exact Or.inr ⟨c, e, .refl c, herror⟩
  · refine .here ⟨hat.going, ?_⟩
    rw [hok, hconfig, hleft, h.startSymbol_eq]
    exact ⟨by rw [if_pos rfl], beq_self_eq_true _,
      by rw [← h.startSymbol_eq]; rfl, rfl⟩

end Grammar.Tabulated

-- ========================================================= completeness

theorem of_compile_ok {lines : List String} {out : Compiled}
    (h : (compile lines).result = .ok out) :
    Grammar.ofLines? lines = .ok out.grammar
      ∧ (out.grammar.build defaultRounds).result = .ok out.table
      ∧ (out.grammar.build defaultRounds).conflicts = out.conflicts := by
  unfold compile at h
  split at h
  · cases h
  · next g hg =>
      dsimp only [Compilation.ofBuild] at h
      cases hresult : (g.build defaultRounds).result with
      | error e => rw [hresult] at h; cases h
      | ok table =>
          rw [hresult] at h
          cases h
          exact ⟨hg, hresult, rfl⟩

/-- Completeness of the compiled engine. If a grammar compiles without
conflicts, its start symbol occurs on no right-hand side and it has no more
terminals than there are numbers for them, an input that the start symbol
derives by rules that are not empty is parsed: no step fails for another
reason than a semantic action, and if none of these does, the start symbol is
reduced in the end, with the stack back at its bottom and only the start
symbol and the end of the input waiting. -/
theorem compile_complete {lines : List String} {out : Compiled}
    (hcompiled : (compile lines).result = .ok out)
    (hclear : out.conflicts = [])
    (hstart : ∀ rule ∈ out.grammar.rules, out.grammar.startSymbol ∉ rule.right)
    (hsize : out.grammar.terminals.size ≤ TerminalId.limit)
    {tokens : List Token}
    (hterminals : ∀ token ∈ tokens, isNonterminal token.symbol = false)
    (hderives : Derives out.grammar.Produces [out.grammar.startSymbol]
      (tokens.map Token.symbol)) :
    (∀ c error, Reaches (out.table.parseTable out.grammar)
        (start (out.table.parseTable out.grammar) tokens) c →
      (c.step (out.table.parseTable out.grammar)).result = .error error →
      ∃ e, error = .synthesis e)
    ∧ ((∀ c e, Reaches (out.table.parseTable out.grammar)
        (start (out.table.parseTable out.grammar) tokens) c →
      (c.step (out.table.parseTable out.grammar)).result
        ≠ .error (.synthesis e)) →
      ∃ c, Reaches (out.table.parseTable out.grammar)
          (start (out.table.parseTable out.grammar) tokens) c
        ∧ c.completed = false
        ∧ (c.step (out.table.parseTable out.grammar)).result = .ok .completed
        ∧ (c.step (out.table.parseTable out.grammar)).config.stack
          = [(out.table.parseTable out.grammar).bottom]
        ∧ (c.step (out.table.parseTable out.grammar)).config.queueSymbols
          = [out.grammar.startSymbol, endMarker]) := by
  obtain ⟨hread, hbuilt, hconflicts⟩ := of_compile_ok hcompiled
  have htabulated : out.grammar.Tabulated defaultRounds out.table :=
    ⟨hbuilt, hconflicts.trans hclear, Grammar.isNonterminal_left hread,
      hstart, hsize⟩
  have harrives :=
    htabulated.completes (Grammar.Spells.of_derives hterminals hderives)
  constructor
  · intro c error hreach herror
    refine (harrives.bind (R := fun c => c.completed = true)
      ?_).error_synthesis
      (fun _ h => h) hreach herror
    rintro c' - ⟨-, hok, hdone, -⟩
    exact Or.inl ⟨_, (Reaches.refl c').step hok, hdone⟩
  · intro hactions
    rcases harrives with ⟨c, hreach, hgoing, hok, -, hstack, hqueue⟩
      | ⟨c, e, hreach, herror⟩
    · exact ⟨c, hreach, hgoing, hok, hstack, hqueue⟩
    · exact absurd herror (hactions c e hreach)

/-- An identifier is derived by a grammar, which has an empty rule besides,
and is read to the end by its engine. -/
theorem compile_complete_identifier :
    ∃ out,
      (compile ["<S> -> <T>", "<T> -> id ~Ident", "<U> -> e"]).result = .ok out
      ∧ out.conflicts = []
      ∧ Derives out.grammar.Produces ["<S>"] ["id"]
      ∧ ∃ c, Reaches (out.table.parseTable out.grammar)
          (start (out.table.parseTable out.grammar)
            [⟨.identifier, "x", .first⟩]) c
        ∧ (c.step (out.table.parseTable out.grammar)).result = .ok .completed
        ∧ (c.step (out.table.parseTable out.grammar)).config.queueSymbols
          = [out.grammar.startSymbol, endMarker] := by
  have hcheck : (match (compile ["<S> -> <T>", "<T> -> id ~Ident",
      "<U> -> e"]).result with
      | .error _ => false
      | .ok out => decide (out.conflicts = []) && decide (out.grammar.rules =
          [⟨"<S>", ["<T>"], none⟩, ⟨"<T>", ["id"], some "Ident"⟩,
            ⟨"<U>", [], none⟩])
        && match parseWithin 8 (out.table.parseTable out.grammar)
            [⟨.identifier, "x", .first⟩] with
          | none => false
          | some report =>
              report.result.toOption.isSome) = true := by decide +kernel
  split at hcheck
  · cases hcheck
  · next out hout =>
      simp only [Bool.and_eq_true, decide_eq_true_eq] at hcheck
      obtain ⟨⟨hclear, hrules⟩, hparses⟩ := hcheck
      have hsymbol : out.grammar.startSymbol = "<S>" := by
        simp only [Grammar.startSymbol, hrules, List.head_cons]
      have hstart : ∀ rule ∈ out.grammar.rules,
          out.grammar.startSymbol ∉ rule.right := by
        rw [hsymbol, hrules]
        decide
      have hsize : out.grammar.terminals.size ≤ TerminalId.limit := by
        unfold Grammar.terminals Grammar.rightSymbols
        rw [hrules]
        decide +kernel
      have hproduces : ∀ rule ∈ out.grammar.rules, rule.right ≠ [] →
          out.grammar.Produces ⟨rule.left, rule.right⟩ :=
        fun rule hrule hne => ⟨hne, rule, hrule, rfl, rfl⟩
      have hderives : Derives out.grammar.Produces ["<S>"] ["id"] := by
        rw [hrules] at hproduces
        have hfirst := Derives.replace [] []
          (hproduces ⟨"<S>", ["<T>"], none⟩ (by simp) (by simp))
        exact hfirst.trans (Derives.replace [] []
          (hproduces ⟨"<T>", ["id"], some "Ident"⟩ (by simp) (by simp)))
      split at hparses
      · cases hparses
      · next report hreport =>
          cases hresult : report.result with
          | error e => rw [hresult] at hparses; cases hparses
          | ok root =>
              obtain ⟨r, hrun, hnone, hfinish, -⟩ :=
                of_parseWithin_ok hreport hresult
              have hreach := reaches_of_run hrun hnone
              have hterminals :
                  ∀ token ∈ ([⟨.identifier, "x", .first⟩] : List Token),
                  isNonterminal token.symbol = false := by decide
              have hcomplete :=
                (compile_complete hout hclear hstart hsize hterminals
                  (hsymbol ▸ hderives)).2
              obtain ⟨c, hc, -, hok, -, hqueue⟩ :=
                  hcomplete fun c e hc herror => by
                obtain ⟨s, hs⟩ := hreach.step_ok (of_finish_ok hfinish).1 hc
                rw [hs] at herror
                cases herror
              exact ⟨out, hout, hclear, hderives, c, hc, hok, hqueue⟩

end ShiftReduce
