/-
A built table fits its engine.

Two things are true of an engine with a built table before it is done. The
states on the stack are a path of the automaton, and what waits is the rest
of the input, perhaps behind one symbol that was reduced last; then the
state on top has somewhere to go on that symbol. For a reduction happens
where the state stands at the end of a rule, so the rule can be read off
the stack, and the state under it was about to begin the rule, which means
that it was in front of the left-hand side.

It follows that a reduced symbol is always shifted, and so the engine never
reduces twice without a shift in between. It follows as well what may go
wrong at all: a token of the input finds no action, or a semantic action
fails, or the input is used up. How conflicts were resolved does not matter
here.
-/
import ShiftReduce.Proofs.Derivation
import ShiftReduce.Proofs.Engine.Arrival
import ShiftReduce.Proofs.Engine.Balance
import ShiftReduce.Proofs.Engine.Path

namespace ShiftReduce

open ShiftReduce.Configuration

namespace Grammar

variable {g : Grammar} {key : StateKey} {follow : FollowSets}
    {limit : Nat} {t : Table}

-- ============================================================ reductions

/-- Where a state reduces it stands at the end of the rule, which is not
empty. -/
theorem stands_of_reduce (h : (g.buildWith follow limit).result = .ok t)
    {state index : Nat} (hkey : t.key? state = some key) {symbol : Symbol}
    {name : Option String}
    (haction : t.action? state symbol = some (.reduce index name)) :
    ∃ rule, g.rule? index = some rule ∧ rule.right ≠ []
      ∧ g.Stands key index rule.right.length := by
  obtain ⟨key', hkey', hmem⟩ := mem_reductions_of_action? h haction
  cases hkey.symm.trans hkey'
  obtain ⟨i, hi, rfl, rule, hrule, hposition, -⟩ :=
    StateKey.mem_reductions_iff.mp hmem
  obtain ⟨-, n, -, hn, -⟩ :=
    (kernel_of_mem_states h (Table.mem_keys_of_key? hkey)).isItem i hi
  refine ⟨rule, hrule, ?_, ?_⟩
  · apply List.ne_nil_of_length_pos
    omega
  · rw [← hposition]
    exact .item hi

/-- Where the top of a path reduces, the right-hand side lies on the stack,
and the state under it goes on with the left-hand side, unless that is the
start symbol. -/
theorem Trodden.read_reduce (h : (g.buildWith follow limit).result = .ok t)
    {top : StackEntry Nat} {below : List (StackEntry Nat)}
    (hpath : Trodden g t (top :: below) key) {symbol : Symbol} {index : Nat}
    {name : Option String}
    (haction : t.action? top.state symbol = some (.reduce index name)) :
    ∃ rule popped remaining origin, g.rule? index = some rule ∧ rule.right ≠ []
      ∧ top :: below = popped ++ remaining ∧ Trodden g t remaining origin
      ∧ (popped.map StackEntry.symbol).reverse = rule.right
      ∧ (rule.left ≠ g.startSymbol →
        (g.successors origin rule.left).Nonempty) := by
  obtain ⟨rule, hrule, hne, hstands⟩ :=
    stands_of_reduce h hpath.key?_top haction
  obtain ⟨popped, remaining, origin, hsplit, hremaining, hsymbols, hbegin⟩ :=
    hpath.read hstands hrule
  refine ⟨rule, popped, remaining, origin, hrule, hne, hsplit,
    hremaining, ?_, ?_⟩
  · rw [hsymbols, List.take_length]
  · obtain ⟨entry, _, rfl, hkey⟩ := hremaining.exists_top
    exact hbegin.successors_nonempty
      (kernel_of_mem_states h (Table.mem_keys_of_key? hkey)) hrule

/-- What the engine takes off its stack in a reduction is what can be read
off the path. -/
theorem Trodden.of_reduce (h : (g.buildWith follow limit).result = .ok t)
    {top : StackEntry Nat} {below popped remaining : List (StackEntry Nat)}
    (hpath : Trodden g t (top :: below) key) {symbol : Symbol} {index : Nat}
    {name : Option String}
    (haction : t.action? top.state symbol = some (.reduce index name))
    {p : Production} (hproduction : (t.parseTable g).rule? index = some p)
    (hsplit : top :: below = popped ++ remaining)
    (hsymbols : (popped.map StackEntry.symbol).reverse = p.right) :
    g.Produces p ∧ ∃ origin, Trodden g t remaining origin
      ∧ (p.left ≠ g.startSymbol → (g.successors origin p.left).Nonempty) := by
  obtain ⟨rule, popped', remaining', origin, hrule, hne, hsplit', hremaining,
      hsymbols', hgoes⟩ :=
    hpath.read_reduce h haction
  have hp : some p = some ⟨rule.left, rule.right⟩ := by
    rw [← hproduction]
    show (g.rule? index).map _ = _
    rw [hrule]
    rfl
  cases hp
  have hlength : popped.length = popped'.length := by
    have hlengths := congrArg List.length (hsymbols.trans hsymbols'.symm)
    simpa using hlengths
  obtain ⟨rfl, rfl⟩ := List.append_inj (hsplit.symm.trans hsplit') hlength
  exact ⟨⟨hne, rule, List.mem_of_getElem? hrule, rfl, rfl⟩, origin,
    hremaining, hgoes⟩

-- ============================================================= the queue

/-- What waits in front of the input: nothing, or a reduced symbol on which
the state goes on. -/
inductive Awaits (g : Grammar) (key : StateKey) (input : List Queued) :
    List Queued → Prop where
  | input {rest : List Queued} (hrest : rest <:+ input) :
      Awaits g key input rest
  | reduced {head : Queued} {rest : List Queued}
      (hreduced : head.reduced = true)
      (hgoes : (g.successors key head.symbol).Nonempty)
      (hrest : rest <:+ input)
      (hne : rest ≠ []) : Awaits g key input (head :: rest)

theorem Awaits.tail {input rest : List Queued} {head : Queued}
    (h : Awaits g key input (head :: rest)) : rest <:+ input := by
  cases h with
  | input hrest => exact (List.suffix_cons head rest).trans hrest
  | reduced _ _ hrest _ => exact hrest

/-- Where a built table reduces, a token of the input is next: a reduced
symbol would be shifted. -/
theorem Awaits.input_of_reduce (h : (g.buildWith follow limit).result = .ok t)
    {input behind : List Queued} {head : Queued}
    (hawaits : Awaits g key input (head :: behind)) {state : Nat}
    (hkey : t.key? state = some key) {index : Nat} {name : Option String}
    (haction : t.action? state head.symbol = some (.reduce index name)) :
    head :: behind <:+ input := by
  cases hawaits with
  | input hrest => exact hrest
  | reduced _ hgoes _ _ =>
      obtain ⟨target, hshift⟩ := exists_shift h hkey hgoes
      cases hshift.symm.trans haction

/-- Where the engine is on its path, unless it is done. -/
def OnPath (g : Grammar) (t : Table) (input : List Queued)
    (c : Configuration Nat) : Prop :=
  c.completed = false →
    ∃ key, Trodden g t c.stack key ∧ Awaits g key input c.queue

theorem onPath_start (h : (g.buildWith follow limit).result = .ok t)
    (tokens : List Token) :
    OnPath g t (start (t.parseTable g) tokens).queue
      (start (t.parseTable g) tokens) := by
  intro _
  exact ⟨.start, .bottom (key?_initial h), .input (List.suffix_refl _)⟩

/-- On a reduced symbol a built table shifts. -/
theorem Awaits.shift_of_reduced (h : (g.buildWith follow limit).result = .ok t)
    {input behind : List Queued} {head : Queued}
    (hawaits : Awaits g key input (head :: behind))
    (hinput : ∀ q ∈ input, q.reduced = false) (hreduced : head.reduced = true)
    {state : Nat} (hkey : t.key? state = some key) :
    ∃ target, t.action? state head.symbol = some (.shift target) := by
  cases hawaits with
  | input hrest =>
      rw [hinput head (hrest.subset List.mem_cons_self)] at hreduced
      cases hreduced
  | reduced _ hgoes _ _ => exact exists_shift h hkey hgoes

/-- Every move stays on the path. -/
theorem OnPath.move (h : (g.buildWith follow limit).result = .ok t)
    {input : List Queued} {c c' : Configuration Nat} {w : Option Warning}
    (hmove : Move (t.parseTable g) c c' w) (hc : OnPath g t input c) :
    OnPath g t input c' := by
  cases hmove with
  | rest done => exact hc
  | shift going queue stack action =>
      intro _
      obtain ⟨key, hpath, hawaits⟩ := hc going
      rw [queue] at hawaits
      rw [stack] at hpath ⊢
      obtain ⟨next, hnext, hnames⟩ :=
        (action?_eq_shift_iff h hpath.key?_top).mp action
      exact ⟨next, .push hpath hnext hnames, .input hawaits.tail⟩
  | reduce going queue stack action rule split bottom symbols
      parts count built =>
      rename_i lookahead behind top below popped remaining _
        _ index name p node
      obtain ⟨key, hpath, hawaits⟩ := hc going
      rw [queue] at hawaits
      rw [stack] at hpath
      rw [stack] at split
      obtain ⟨-, origin, hremaining, hgoes⟩ :=
        hpath.of_reduce h action rule split symbols
      have hsuffix := hawaits.input_of_reduce h hpath.key?_top action
      intro hgoing
      have hleft : p.left ≠ g.startSymbol := by
        rw [← startSymbol_of_buildWith h]
        exact beq_eq_false_iff_ne.mp hgoing
      exact ⟨origin, hremaining,
        .reduced rfl (hgoes hleft) hsuffix (List.cons_ne_nil _ _)⟩

/-- Every configuration of a run is on the path. -/
theorem onPath_of_reaches (h : (g.buildWith follow limit).result = .ok t)
    {tokens : List Token} {c : Configuration Nat}
    (hreach : Reaches (t.parseTable g) (start (t.parseTable g) tokens) c) :
    OnPath g t (start (t.parseTable g) tokens).queue c := by
  apply hreach.preserves _ (onPath_start h tokens)
  intro _ _ _ hmove hc
  exact hc.move h hmove

-- ============================================================== failures

/-- A reduction that a built table asks for fails only where the semantic
action does, if there are fragments for whatever is taken off the stack. -/
theorem reduce_fails (h : (g.buildWith follow limit).result = .ok t)
    {c : Configuration Nat}
    (henough : ∀ {popped remaining : List (StackEntry Nat)},
      c.stack = popped ++ remaining →
        (popped.filter StackEntry.carries).length ≤ c.fragments.length)
    (going : c.completed = false) {head : Queued} {behind : List Queued}
    (queue : c.queue = head :: behind) {top : StackEntry Nat}
    {below : List (StackEntry Nat)} (stack : c.stack = top :: below)
    (hpath : Trodden g t c.stack key) {index : Nat} {name : Option String}
    (haction : t.action? top.state head.symbol = some (.reduce index name))
    {error : ParseError}
    (herror : (c.step (t.parseTable g)).result = .error error) :
    ∃ e, error = .synthesis e := by
  rw [stack] at hpath
  obtain ⟨rule, popped, remaining, origin, hrule, -, hsplit,
      hremaining, hsymbols, -⟩ :=
    hpath.read_reduce h haction
  have hproduction : (t.parseTable g).rule? index
      = some ⟨rule.left, rule.right⟩ :=
    Option.map_eq_some_iff.mpr ⟨rule, hrule, rfl⟩
  rw [step_of_reduce (t := t.parseTable g) going queue stack haction] at herror
  rcases reduce_of_split (c := { c with queue := behind }) name hproduction
    (stack.trans hsplit) hremaining.ne_nil hsymbols
      (henough (stack.trans hsplit))
    with ⟨e, hfails⟩ | ⟨node, fragments, hok, -⟩
  · exact ⟨e, Except.error.inj (herror.symm.trans hfails)⟩
  · cases herror.symm.trans hok

/-- What can go wrong in a step of an engine with a built table: a token of
the input finds no action, a semantic action fails, or nothing waits. -/
theorem failure_of_onPath (h : (g.buildWith follow limit).result = .ok t)
    {input : List Queued} {c : Configuration Nat} (hc : OnPath g t input c)
    (henough : ∀ {popped remaining : List (StackEntry Nat)},
      c.stack = popped ++ remaining →
        (popped.filter StackEntry.carries).length ≤ c.fragments.length)
    (error : ParseError)
    (herror : (c.step (t.parseTable g)).result = .error error) :
    (∃ head ∈ input, c.queue.head? = some head
        ∧ ∃ state,
          error = .unexpectedToken state head.symbol head.token.position)
      ∨ (∃ e, error = .synthesis e)
      ∨ c.queue = [] ∧ ∃ stack fragments,
        error = .table (.incomplete stack [] fragments) := by
  cases going : c.completed with
  | true =>
      rw [step, if_pos going] at herror
      cases herror
  | false =>
      obtain ⟨key, hpath, hawaits⟩ := hc going
      obtain ⟨top, below, stack, hkey⟩ := hpath.exists_top
      cases queue : c.queue with
      | nil =>
          rw [step, if_neg (by simp [going]), queue] at herror
          cases herror
          exact Or.inr (Or.inr ⟨rfl, _, _, rfl⟩)
      | cons head behind =>
          rw [queue] at hawaits
          cases haction : t.action? top.state head.symbol with
          | none =>
              have hhead : head ∈ input := by
                cases hawaits with
                | input hrest => exact hrest.subset List.mem_cons_self
                | reduced _ hgoes _ _ =>
                    obtain ⟨target, hshift⟩ := exists_shift h hkey hgoes
                    cases haction.symm.trans hshift
              have haction' : (t.parseTable g).action? top.state head.symbol
                = none := haction
              rw [step, if_neg (by simp [going]), queue] at herror
              simp only [stack, haction', fail] at herror
              cases herror
              exact Or.inl ⟨head, hhead, rfl, _, rfl⟩
          | some action =>
              cases action with
              | shift target =>
                  rw [step_of_shift (t := t.parseTable g) going queue stack
                    haction] at herror
                  cases herror
              | reduce index name =>
                  exact Or.inr (Or.inl
                    (reduce_fails h henough going queue stack
                      hpath haction herror))

/-- A built table is consistent with the engine, however its conflicts were
resolved. In no run does a rule turn out not to exist or not to be on the
stack; if a reduced symbol is next, it is shifted; and if a symbol finds no
action, it is a token of the input or the end of it. -/
theorem build_consistent (h : (g.build limit).result = .ok t)
    {tokens : List Token} {c : Configuration Nat}
    (hreach : Reaches (t.parseTable g) (start (t.parseTable g) tokens) c) :
    (∀ rule,
      (c.step (t.parseTable g)).result ≠ .error (.table (.unknownRule rule)))
    ∧ (∀ rule expected found, (c.step (t.parseTable g)).result
        ≠ .error (.table (.stackMismatch rule expected found)))
    ∧ (∀ head behind, c.completed = false → c.queue = head :: behind →
        head.reduced = true →
        ∃ top below target, c.stack = top :: below
          ∧ t.action? top.state head.symbol = some (.shift target))
    ∧ ∀ state symbol position,
        (c.step (t.parseTable g)).result
          = .error (.unexpectedToken state symbol position) →
        ∃ token, (token ∈ tokens ∨ token = .endAt (endPosition tokens))
          ∧ c.queue.head? = some (.ofToken token) ∧ symbol = token.symbol
          ∧ position = token.position := by
  have hpath := onPath_of_reaches h hreach
  have hinput : ∀ q ∈ (start (t.parseTable g) tokens).queue,
      q.reduced = false :=
    fun q hq => (reduced_of_mem_start hq).1
  have hfails := failure_of_onPath h hpath hreach.balanced.enough
  refine ⟨?_, ?_, ?_, ?_⟩
  · intro rule herror
    rcases hfails _ herror with ⟨_, -, -, _, heq⟩ | ⟨_, heq⟩
      | ⟨-, _, _, heq⟩ <;> cases heq
  · intro rule expected found herror
    rcases hfails _ herror with ⟨_, -, -, _, heq⟩ | ⟨_, heq⟩
      | ⟨-, _, _, heq⟩ <;> cases heq
  · intro head behind hgoing hqueue hreduced
    obtain ⟨key, htrodden, hawaits⟩ := hpath hgoing
    rw [hqueue] at hawaits
    obtain ⟨top, below, hstack, hkey⟩ := htrodden.exists_top
    obtain ⟨target, hshift⟩ := hawaits.shift_of_reduced h hinput hreduced hkey
    exact ⟨top, below, target, hstack, hshift⟩
  · intro state symbol position herror
    rcases hfails _ herror with ⟨head, hhead, hqueue, _, heq⟩
      | ⟨_, heq⟩ | ⟨-, _, _, heq⟩
    · obtain ⟨-, token, htoken, rfl⟩ := reduced_of_mem_start hhead
      cases heq
      exact ⟨token, htoken, hqueue, rfl, rfl⟩
    · cases heq
    · cases heq

/-- The sum that has been read is next, in front of an operator, and is
shifted. -/
theorem build_consistent_sums :
    ∃ t, (sums.build 8).result = .ok t ∧ ∃ c head behind top below target,
      Reaches (t.parseTable sums) (start (t.parseTable sums)
        [⟨.keyword, "name", .first⟩, ⟨.operator, "+", .first⟩]) c
      ∧ c.queue = head :: behind ∧ head.symbol = "<sum>" ∧ head.reduced = true
      ∧ c.stack = top :: below
      ∧ t.action? top.state "<sum>" = some (.shift target) := by
  have hsteps : (match (sums.build 8).result with
      | .error _ => false
      | .ok t =>
        let c := start (t.parseTable sums)
          [⟨.keyword, "name", .first⟩, ⟨.operator, "+", .first⟩]
        let shifted := c.step (t.parseTable sums)
        let reduced := shifted.config.step (t.parseTable sums)
        shifted.result.toOption.isSome && reduced.result.toOption.isSome
          && !reduced.config.completed
          && match reduced.config.queue with
            | head :: _ => head.symbol == "<sum>" && head.reduced
            | [] => false) = true := by decide +kernel
  cases hresult : (sums.build 8).result with
  | error e =>
      rw [hresult] at hsteps
      cases hsteps
  | ok t =>
      rw [hresult] at hsteps
      simp only [Bool.and_eq_true, Bool.not_eq_true'] at hsteps
      obtain ⟨⟨⟨hshifted, hreduced⟩, hgoing⟩, hqueue⟩ := hsteps
      split at hqueue
      · next head behind queue =>
        simp only [Bool.and_eq_true, beq_iff_eq] at hqueue
        obtain ⟨_, hok⟩ := step_ok_of_isSome hshifted
        obtain ⟨_, hok'⟩ := step_ok_of_isSome hreduced
        have hreach := ((Reaches.refl _).step hok).step hok'
        obtain ⟨top, below, target, hstack, hshift⟩ :=
          (build_consistent hresult hreach).2.2.1 head behind
            hgoing queue hqueue.2
        rw [hqueue.1] at hshift
        exact ⟨t, rfl, _, head, behind, top, below, target, hreach, queue,
          hqueue.1, hqueue.2, hstack, hshift⟩
      · cases hqueue

end Grammar

end ShiftReduce
