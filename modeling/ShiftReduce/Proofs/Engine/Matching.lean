/-
Symbols are matched by their text.

A row of a table has one cell for every symbol, and whether the symbol is a
terminal can be told from its text only. Nor does it matter to the engine
where a symbol comes from: whatever is next is looked up by its text, be it a
token of the input or the left-hand side of a rule. So a token that has the
text of a nonterminal is shifted wherever the nonterminal would be after a
reduction, without any of its rules having been read. If there is no such
token in the input, every token that is shifted is matched as a terminal, and
the cells of nonterminals are left to the symbols that have been reduced.

This is true at every moment, also behind steps that have failed: what such a
step leaves is still a path of the automaton in front of a rest of the input.
-/
import ShiftReduce.Proofs.Engine.Consistency
import ShiftReduce.Proofs.Engine.Failure
import ShiftReduce.Proofs.Vocabulary

namespace ShiftReduce

open ShiftReduce.Configuration

-- ================================================== behind an error

namespace Grammar

variable {g : Grammar} {key : StateKey} {follow : FollowSets}
    {limit : Nat} {t : Table}

/-- To lose the symbol that is next is to stay on the path. -/
theorem OnPath.behind {input : List Queued} {c : Configuration Nat}
    (hc : OnPath g t input c) (going : c.completed = false)
    {lookahead : Queued} {behind : List Queued}
    (queue : c.queue = lookahead :: behind) :
    OnPath g t input { c with queue := behind } := by
  intro _
  obtain ⟨key, hpath, hawaits⟩ := hc going
  rw [queue] at hawaits
  exact ⟨key, hpath, .input hawaits.tail⟩

/-- So is to lose the entries of a right-hand side as well. -/
theorem OnPath.below (h : (g.buildWith follow limit).result = .ok t)
    {input : List Queued} {c : Configuration Nat} (hc : OnPath g t input c)
    (going : c.completed = false) {lookahead : Queued} {behind : List Queued}
    (queue : c.queue = lookahead :: behind) {top : StackEntry Nat}
    {below popped remaining : List (StackEntry Nat)}
    (stack : c.stack = top :: below) {index : Nat} {name : Option String}
    (action : t.action? top.state lookahead.symbol = some (.reduce index name))
    {p : Production} (rule : (t.parseTable g).rule? index = some p)
    (split : c.stack = popped ++ remaining)
    (symbols : (popped.map StackEntry.symbol).reverse = p.right)
    (fragments : List Fragment) :
    OnPath g t input { c with
      queue := behind, stack := remaining, fragments := fragments } := by
  intro _
  obtain ⟨key, hpath, hawaits⟩ := hc going
  rw [queue] at hawaits
  rw [stack] at hpath split
  obtain ⟨-, origin, hremaining, -⟩ :=
    hpath.of_reduce h action rule split symbols
  exact ⟨origin, hremaining, .input hawaits.tail⟩

/-- Every failure stays on the path. -/
theorem OnPath.failure (h : (g.buildWith follow limit).result = .ok t)
    {input : List Queued} {c c' : Configuration Nat} {e : ParseError}
    (hfailure : Failure (t.parseTable g) c c' e) (hc : OnPath g t input c) :
    OnPath g t input c' := by
  cases hfailure with
  | exhausted going queue => exact hc
  | bottomless going queue stack => exact hc.behind going queue
  | unexpected going queue stack action => exact hc.behind going queue
  | unknownRule going queue stack action rule => exact hc.behind going queue
  | mismatch going queue stack action rule symbols =>
      exact hc.behind going queue
  | fragmentsMissing going queue stack action rule split bottom symbols few =>
      exact hc.below h going queue stack action rule split symbols c.fragments
  | refused going queue stack action rule split bottom symbols
      parts count built =>
      exact hc.below h going queue stack action rule split symbols _

/-- However often an engine has been asked for a step, it is on the path. -/
theorem onPath_of_continues (h : (g.buildWith follow limit).result = .ok t)
    {tokens : List Token} {c : Configuration Nat}
    (hrun : Continues (t.parseTable g) (start (t.parseTable g) tokens) c) :
    OnPath g t (start (t.parseTable g) tokens).queue c := by
  apply hrun.preserves _ _ (onPath_start h tokens)
  · intro _ _ _ hmove hc
    exact hc.move h hmove
  · intro _ _ _ hfailure hc
    exact hc.failure h hfailure

end Grammar

-- ============================================================= shifting

namespace Configuration

variable {σ : Type}

theorem reduce_ne_shifted {t : ParseTable σ} {c : Configuration σ}
    {lookahead : Queued} {index : Nat} {name : Option String}
      {symbol : Symbol} :
    (reduce t c lookahead index name).result ≠ .ok (.shifted symbol) := by
  intro h
  unfold reduce at h
  split at h
  · cases h
  · dsimp only at h
    split at h
    · cases h
    · split at h
      · cases h
      · split at h
        · cases h
        · dsimp only at h
          split at h <;> cases h

/-- A step shifts the symbol that is next exactly if the cell of the symbol
says so. -/
theorem step_shifted_iff {t : ParseTable σ} {c : Configuration σ}
    {head : Queued} {behind : List Queued} {top : StackEntry σ}
    {below : List (StackEntry σ)} (going : c.completed = false)
    (queue : c.queue = head :: behind) (stack : c.stack = top :: below) :
    (c.step t).result = .ok (.shifted head.symbol)
      ↔ ∃ target, t.action? top.state head.symbol = some (.shift target) := by
  constructor
  · intro h
    cases action : t.action? top.state head.symbol with
    | none =>
        have hfails : (c.step t).result
            = .error (.unexpectedToken (t.stateName top.state)
            head.symbol head.token.position) := by
          rw [step, if_neg (by simp [going]), queue]
          simp only [stack, action, fail]
        cases h.symm.trans hfails
    | some cell =>
        cases cell with
        | shift target => exact ⟨target, rfl⟩
        | reduce index name =>
            rw [step_of_reduce going queue stack action] at h
            exact absurd h reduce_ne_shifted
  · intro h
    obtain ⟨target, action⟩ := h
    rw [step_of_shift going queue stack action]
    rfl

end Configuration

namespace Grammar

variable {g : Grammar} {key : StateKey} {limit : Nat} {t : Table}

/-- A symbol on which a state goes on is a symbol of the grammar, a terminal
or a nonterminal according to its text. -/
theorem mem_vocabulary_of_successors {symbol : Symbol}
    (h : (g.successors key symbol).Nonempty) :
    (isNonterminal symbol = false → symbol ∈ g.terminals)
      ∧ (isNonterminal symbol = true → symbol ∈ g.nonterminals) := by
  obtain ⟨i, hi⟩ := h
  obtain ⟨rfl, _, _, -, hedge⟩ := exists_stands_of_mem_successors hi
  obtain ⟨rule, n, hrule, -, hn⟩ := hedge.isItem
  have hoccurs : ∃ rule ∈ g.rules, i.symbol ∈ rule.right :=
    ⟨rule, List.mem_of_getElem? hrule, List.mem_of_getElem? hn⟩
  constructor
  · intro hterminal
    exact mem_terminals_iff.mpr (Or.inr ⟨hoccurs, hterminal⟩)
  · intro hnonterminal
    exact mem_nonterminals_iff.mpr (Or.inr ⟨hoccurs, hnonterminal⟩)

/-- A symbol that waits without having been reduced is a token of the input
or the end of it. -/
theorem Awaits.exists_token {pt : ParseTable Nat} {tokens : List Token}
    {head : Queued} {behind : List Queued}
    (h : Awaits g key (start pt tokens).queue (head :: behind))
    (hinput : head.reduced = false) :
    ∃ token, (token ∈ tokens ∨ token = .endAt (endPosition tokens))
      ∧ head = .ofToken token := by
  cases h with
  | input hrest =>
      exact (reduced_of_mem_start (hrest.subset List.mem_cons_self)).2
  | reduced hreduced => rw [hreduced] at hinput; cases hinput

/-- What is next is shifted exactly if the state on top goes on with its text,
wherever it comes from; it is then a terminal or a nonterminal of the grammar,
according to its text. Unless a token of the input has the text of a
nonterminal, what is shifted from the input is a terminal of the grammar, and
a nonterminal is shifted only where it has been reduced. -/
theorem shifted_by_text (h : (g.build limit).result = .ok t)
    {tokens : List Token} {c : Configuration Nat}
    (hrun : Continues (t.parseTable g) (start (t.parseTable g) tokens) c)
    (going : c.completed = false) {head : Queued} {behind : List Queued}
    (queue : c.queue = head :: behind) :
    (∃ top below key, c.stack = top :: below ∧ t.key? top.state = some key
      ∧ ((c.step (t.parseTable g)).result = .ok (.shifted head.symbol)
        ↔ (g.successors key head.symbol).Nonempty))
    ∧ ((c.step (t.parseTable g)).result = .ok (.shifted head.symbol) →
        (isNonterminal head.symbol = false → head.symbol ∈ g.terminals)
        ∧ (isNonterminal head.symbol = true → head.symbol ∈ g.nonterminals)
        ∧ ((∀ token ∈ tokens, isNonterminal token.symbol = false) →
          (head.reduced = false → head.symbol ∈ g.terminals)
          ∧ (isNonterminal head.symbol = true → head.reduced = true))) := by
  obtain ⟨key, hpath, hawaits⟩ := onPath_of_continues h hrun going
  rw [queue] at hawaits
  obtain ⟨top, below, stack, hkey⟩ := hpath.exists_top
  have hshifts : (c.step (t.parseTable g)).result = .ok (.shifted head.symbol)
      ↔ (g.successors key head.symbol).Nonempty := by
    rw [step_shifted_iff going queue stack]
    constructor
    · intro hshift
      obtain ⟨target, action⟩ := hshift
      obtain ⟨next, -, hnames⟩ := (action?_eq_shift_iff h hkey).mp action
      exact hnames.nonempty
    · exact exists_shift h hkey
  refine ⟨⟨top, below, key, stack, hkey, hshifts⟩, ?_⟩
  intro hshift
  obtain ⟨hterminal, hnonterminal⟩ :=
    mem_vocabulary_of_successors (hshifts.mp hshift)
  refine ⟨hterminal, hnonterminal, ?_⟩
  intro htokens
  have hplain : head.reduced = false → isNonterminal head.symbol = false := by
    intro hinput
    obtain ⟨token, htoken | rfl, rfl⟩ := hawaits.exists_token hinput
    · exact htokens token htoken
    · show isNonterminal endMarker = false
      decide
  constructor
  · intro hinput
    exact hterminal (hplain hinput)
  · intro hbracketed
    by_contra hinput
    rw [Bool.not_eq_true] at hinput
    rw [hplain hinput] at hbracketed
    cases hbracketed

/-- A block that begins with another one. -/
def blocks : Grammar where
  rules := [⟨"<S>", ["<A>", "x"], some "Block"⟩, ⟨"<A>", ["y"], some "Block"⟩]
  rules_ne_nil := List.cons_ne_nil _ _

/-- A token that has the text of the inner block is shifted in place of one. -/
theorem shifted_by_text_blocks :
    ∃ t, (blocks.build 8).result = .ok t ∧ ∃ head behind,
      (start (t.parseTable blocks) [⟨.keyword, "<A>", .first⟩]).queue
        = head :: behind
      ∧ head.reduced = false ∧ head.symbol ∈ blocks.nonterminals
      ∧ ((start (t.parseTable blocks) [⟨.keyword, "<A>", .first⟩]).step
          (t.parseTable blocks)).result = .ok (.shifted head.symbol) := by
  have hstep : (match (blocks.build 8).result with
      | .error _ => false
      | .ok t =>
        match ((start (t.parseTable blocks) [⟨.keyword, "<A>", .first⟩]).step
            (t.parseTable blocks)).result with
        | .ok (.shifted symbol) => symbol == "<A>"
        | _ => false) = true := by decide +kernel
  cases hresult : (blocks.build 8).result with
  | error e =>
      rw [hresult] at hstep
      cases hstep
  | ok t =>
      rw [hresult] at hstep
      dsimp only at hstep
      split at hstep
      · next symbol hshift =>
        obtain rfl := beq_iff_eq.mp hstep
        have hrun : Continues (t.parseTable blocks)
            (start (t.parseTable blocks) [⟨.keyword, "<A>", .first⟩])
              _ := .refl
        have hmatched := (shifted_by_text hresult hrun rfl rfl).2 hshift
        exact ⟨t, rfl, _, _, rfl, rfl, hmatched.2.1 (by decide), hshift⟩
      · cases hstep

end Grammar

end ShiftReduce
