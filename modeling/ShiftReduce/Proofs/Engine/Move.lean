/-
What a successful step does.

A step that succeeds either finds the configuration completed and leaves it
alone, or shifts, or reduces, and `Move` says once what each of the three
needs and leaves behind. The stack and the fragments are described by how
they fall apart, not by how many entries are taken off them, so that an
invariant of the engine is proved by cases on the move and never by opening
the step itself.

`Reaches` is a run without failed steps. A property that every move keeps
is kept by every run (`Reaches.preserves`), and the loop that parses is such
a run as long as it meets no error (`reaches_of_run`).
-/
import Mathlib.Logic.Relation
import Mathlib.Tactic.SplitIfs
import ShiftReduce.Engine.Run

namespace ShiftReduce

variable {σ : Type}

-- ============================================================== moves

/-- What a step that succeeds does to a configuration: the configuration
that it leaves, and the warning if there is one. -/
inductive Move (t : ParseTable σ) (c : Configuration σ) :
    Configuration σ → Option Warning → Prop where
  /-- A completed configuration stays as it is. -/
  | rest (done : c.completed = true) : Move t c c none
  /-- The next symbol goes onto the stack; if it is a token of interest, it
  is a fragment from now on. -/
  | shift {lookahead : Queued} {behind : List Queued} {top : StackEntry σ}
      {below : List (StackEntry σ)} {target : σ}
      (going : c.completed = false)
      (queue : c.queue = lookahead :: behind)
      (stack : c.stack = top :: below)
      (action : t.action? top.state lookahead.symbol = some (.shift target)) :
      Move t c
        { queue := behind
          stack := ⟨lookahead.symbol, target, lookahead.significant⟩ :: c.stack
          fragments :=
            if lookahead.significant && !lookahead.reduced
            then .token lookahead.token :: c.fragments else c.fragments
          completed := false }
        none
  /-- The entries and fragments of a right-hand side make room for those of
  its left-hand side, which waits in front of the lookahead. -/
  | reduce {lookahead : Queued} {behind : List Queued} {top : StackEntry σ}
      {below popped remaining : List (StackEntry σ)}
      {children fragments : List Fragment}
      {index : Nat} {name : Option String} {p : Production}
      {node : Option Node}
      {warning : Option Warning}
      (going : c.completed = false)
      (queue : c.queue = lookahead :: behind)
      (stack : c.stack = top :: below)
      (action : t.action? top.state lookahead.symbol
        = some (.reduce index name))
      (rule : t.rule? index = some p)
      (split : c.stack = popped ++ remaining)
      (bottom : remaining ≠ [])
      (symbols : (popped.map StackEntry.symbol).reverse = p.right)
      (parts : c.fragments = children.reverse ++ fragments)
      (count : children.length = (popped.filter StackEntry.carries).length)
      (built : reducedNode index p.left children name = .ok (node, warning)) :
      Move t c
        { queue :=
            ⟨p.left, lookahead.token, node.isSome, true⟩ :: lookahead :: behind
          stack := remaining
          fragments := node.toList.map .node ++ fragments
          completed := p.left == t.startSymbol }
        warning

namespace Configuration

/-- The right-hand side of a rule is on top of the stack exactly when the
stack falls apart into entries with its symbols and a rest that still has
the bottom. -/
theorem topMatches_iff (c : Configuration σ) (right : List Symbol) :
    c.topMatches right = true
      ↔ c.stack.drop right.length ≠ []
        ∧ ((c.stack.take right.length).map StackEntry.symbol).reverse
          = right := by
  unfold topMatches
  rw [Bool.and_eq_true, decide_eq_true_eq, beq_iff_eq, ne_eq,
    List.drop_eq_nil_iff, Nat.not_le]

/-- A reduction that succeeds has found its rule, its right-hand side and
its fragments, and has built what it leaves. -/
theorem move_of_reduce_ok {t : ParseTable σ} {c : Configuration σ}
    {lookahead : Queued} {behind : List Queued} {top : StackEntry σ}
    {below : List (StackEntry σ)} {index : Nat} {name : Option String}
    {s : Step} (going : c.completed = false)
    (queue : c.queue = lookahead :: behind) (stack : c.stack = top :: below)
    (action : t.action? top.state lookahead.symbol = some (.reduce index name))
    (h : (reduce t { c with queue := behind } lookahead index name).result
      = .ok s) :
    Move t c (reduce t { c with queue := behind } lookahead index name).config
      (reduce t { c with queue := behind } lookahead index name).warning := by
  unfold reduce at h ⊢
  split at h
  · cases h
  · next p rule =>
    simp only at h ⊢
    split at h
    · cases h
    · next hmatch =>
      rw [if_neg hmatch]
      split at h
      · cases h
      · next hcount =>
        rw [if_neg hcount]
        split at h
        · cases h
        · next node warning built =>
          -- the pieces are the entries and fragments that the step counts off
          have hmatch' : c.topMatches p.right = true := by
            rw [Bool.not_eq_true', Bool.not_eq_false] at hmatch
            exact hmatch
          obtain ⟨bottom, symbols⟩ := (topMatches_iff c p.right).mp hmatch'
          refine Move.reduce going queue stack action rule
            (List.take_append_drop p.right.length c.stack).symm bottom
              symbols ?_ ?_ built
          · rw [List.reverse_reverse, List.take_append_drop]
          · rw [List.length_reverse, List.length_take,
              Nat.min_eq_left (Nat.not_lt.mp hcount)]

/-- Every step that succeeds is a move. -/
theorem move_of_step_ok {t : ParseTable σ} {c : Configuration σ} {s : Step}
    (h : (c.step t).result = .ok s) :
    Move t c (c.step t).config (c.step t).warning := by
  unfold step at h ⊢
  split at h
  · next done =>
    rw [if_pos done]
    exact .rest done
  · next hdone =>
    have going : c.completed = false := by simpa using hdone
    rw [if_neg hdone]
    split at h
    · cases h
    · next lookahead behind queue =>
      simp only at h ⊢
      split at h
      · cases h
      · next top below stack =>
        split at h
        · cases h
        · next target action =>
          simp only [shift]
          have hmove := Move.shift going queue stack action
          rw [going]
          exact hmove
        · next index name action =>
          exact move_of_reduce_ok going queue stack action h

-- ================================================= steps that are known

/-- On a symbol that it may shift, a configuration shifts. -/
theorem step_of_shift {t : ParseTable σ} {c : Configuration σ}
    {lookahead : Queued} {behind : List Queued} {top : StackEntry σ}
    {below : List (StackEntry σ)} {target : σ} (going : c.completed = false)
    (queue : c.queue = lookahead :: behind) (stack : c.stack = top :: below)
    (action : t.action? top.state lookahead.symbol = some (.shift target)) :
    c.step t = shift { c with queue := behind } lookahead target := by
  obtain ⟨q, st, fs, done⟩ := c
  subst going queue stack
  simp [step, action]

/-- On a symbol on which it may reduce, a configuration reduces. -/
theorem step_of_reduce {t : ParseTable σ} {c : Configuration σ}
    {lookahead : Queued} {behind : List Queued} {top : StackEntry σ}
    {below : List (StackEntry σ)} {index : Nat} {name : Option String}
    (going : c.completed = false) (queue : c.queue = lookahead :: behind)
    (stack : c.stack = top :: below)
    (action : t.action? top.state lookahead.symbol
      = some (.reduce index name)) :
    c.step t = reduce t { c with queue := behind } lookahead index name := by
  obtain ⟨q, st, fs, done⟩ := c
  subst going queue stack
  simp [step, action]

/-- A reduction that finds its right-hand side on the stack, and enough
fragments for it, fails only where the semantic action refuses them. -/
theorem reduce_of_split {t : ParseTable σ} {c : Configuration σ}
    {lookahead : Queued} {popped remaining : List (StackEntry σ)} {index : Nat}
    {p : Production} (name : Option String) (rule : t.rule? index = some p)
    (split : c.stack = popped ++ remaining) (bottom : remaining ≠ [])
    (symbols : (popped.map StackEntry.symbol).reverse = p.right)
    (enough : (popped.filter StackEntry.carries).length ≤ c.fragments.length) :
    (∃ e, (reduce t c lookahead index name).result = .error (.synthesis e))
      ∨ ∃ node fragments,
        (reduce t c lookahead index name).result
            = .ok (if p.left = t.startSymbol then .completed
              else .reduced index p.left)
          ∧ (reduce t c lookahead index name).config
            = { queue :=
                  ⟨p.left, lookahead.token, node, true⟩
                    :: lookahead :: c.queue
                stack := remaining
                fragments := fragments
                completed := p.left == t.startSymbol } := by
  have hlen : p.right.length = popped.length := by
    rw [← symbols, List.length_reverse, List.length_map]
  have htake : c.stack.take p.right.length = popped := by
    rw [split, hlen, List.take_left]
  have hdrop : c.stack.drop p.right.length = remaining := by
    rw [split, hlen, List.drop_left]
  have hmatch : c.topMatches p.right = true := by
    rw [topMatches_iff, htake, hdrop]
    exact ⟨bottom, symbols⟩
  unfold reduce
  simp only [rule, hmatch, Bool.not_true, Bool.false_eq_true,
    if_false, htake, hdrop]
  rw [if_neg (Nat.not_lt.mpr enough)]
  cases reducedNode index p.left _ name with
  | error e => exact Or.inl ⟨e, rfl⟩
  | ok built =>
      refine Or.inr ⟨_, _, ?_, rfl⟩
      simp only [requeue, beq_iff_eq]

-- ============================================================ the start

/-- At the start the tokens of the input wait, with its end behind them, and
none of them is reduced. -/
theorem reduced_of_mem_start {t : ParseTable σ} {tokens : List Token}
    {q : Queued} (hq : q ∈ (start t tokens).queue) :
    q.reduced = false
      ∧ ∃ token, (token ∈ tokens ∨ token = .endAt (endPosition tokens))
      ∧ q = .ofToken token := by
  simp only [start, List.mem_append, List.mem_map, List.mem_singleton] at hq
  rcases hq with ⟨token, htoken, rfl⟩ | rfl
  · exact ⟨rfl, token, Or.inl htoken, rfl⟩
  · exact ⟨rfl, _, Or.inr rfl, rfl⟩

-- ================================================================= runs

/-- The second configuration comes of the first by steps none of which
fails. -/
def Reaches (t : ParseTable σ) : Configuration σ → Configuration σ → Prop :=
  Relation.ReflTransGen fun c c' => ∃ s, (c.step t).result = .ok s
    ∧ (c.step t).config = c'

namespace Reaches

variable {t : ParseTable σ}

theorem refl (c : Configuration σ) : Reaches t c c :=
  Relation.ReflTransGen.refl

theorem trans {c c' c'' : Configuration σ} (h : Reaches t c c')
    (h' : Reaches t c' c'') :
    Reaches t c c'' := Relation.ReflTransGen.trans h h'

theorem step {c c' : Configuration σ} {s : Step} (h : Reaches t c c')
    (hs : (c'.step t).result = .ok s) : Reaches t c (c'.step t).config :=
  Relation.ReflTransGen.tail h ⟨s, hs, rfl⟩

theorem head {c c' : Configuration σ} {s : Step}
    (hs : (c.step t).result = .ok s) (h : Reaches t (c.step t).config c') :
    Reaches t c c' :=
  Relation.ReflTransGen.head ⟨s, hs, rfl⟩ h

/-- A property that every move keeps is kept by every run. -/
theorem preserves {I : Configuration σ → Prop}
    (keep : ∀ {c c' : Configuration σ} {w : Option Warning},
      Move t c c' w → I c → I c')
    {c c' : Configuration σ} (h : Reaches t c c') (hc : I c) : I c' := by
  induction h with
  | refl => exact hc
  | tail _ hlast ih =>
      obtain ⟨s, hs, rfl⟩ := hlast
      exact keep (move_of_step_ok hs) ih

end Reaches

/-- A property of a configuration and of the warnings so far that every
successful step keeps holds when nothing is left to do, unless there has
been an error. -/
theorem run_induction {t : ParseTable σ}
    {I : Configuration σ → List Warning → Prop}
    (keep : ∀ {c : Configuration σ} {ws : List Warning} {s : Step}, I c ws →
      (c.step t).result = .ok s →
      I (c.step t).config (ws ++ (c.step t).warning.toList))
    {limit : Nat} {c : Configuration σ} (ws : List Warning) (hc : I c ws)
    {r : Run σ} (h : c.run t limit = some r) (ok : r.error = none) :
    I r.config (ws ++ r.warnings) := by
  induction limit generalizing c ws r with
  | zero =>
      unfold run at h
      split at h
      · cases h
        simpa using hc
      · cases h
  | succ limit ih =>
      unfold run at h
      split at h
      · cases h
        simpa using hc
      · simp only at h
        split at h
        · cases h
          cases ok
        · next s hs =>
          obtain ⟨r', hr', heq⟩ := Option.map_eq_some_iff.mp h
          subst heq
          have hrest := ih _ (keep hc hs) hr' ok
          simpa using hrest

/-- Steps that are taken until nothing is left to do, without an error, are
a run. -/
theorem reaches_of_run {t : ParseTable σ} {limit : Nat} {c : Configuration σ}
    {r : Run σ} (h : c.run t limit = some r) (ok : r.error = none) :
    Reaches t c r.config :=
  run_induction (I := fun c' _ => Reaches t c c') (fun hc hs => hc.step hs) []
    (Reaches.refl c) h ok

-- ============================================================== success

/-- Stack and queue are as at the end of a parse: nothing lies above the
bottom, and the start symbol, which has been reduced, waits in front of the
end of the input. -/
structure AtEnd (t : ParseTable σ) (c : Configuration σ) : Prop where
  completed : c.completed = true
  stack : ∃ bottom, c.stack = [bottom] ∧ bottom.symbol = t.startSymbol
    ∧ bottom.state = t.initial
  queue : ∃ head last, c.queue = [head, last] ∧ head.symbol = t.startSymbol
    ∧ last.symbol = endMarker

/-- A configuration is finished with success exactly if it is at the end and
a single node is left. -/
theorem finish_eq_ok_iff [DecidableEq σ] {t : ParseTable σ}
    {c : Configuration σ} {root : Node} :
    c.finish t = .ok root ↔ AtEnd t c ∧ c.fragments = [.node root] := by
  unfold finish
  simp only
  constructor
  · intro h
    split at h
    · next node hfragments =>
      split_ifs at h with hok
      cases h
      simp only [Bool.and_eq_true] at hok
      obtain ⟨⟨hdone, hstack⟩, hqueue⟩ := hok
      split at hstack
      · next bottom hs =>
        split at hqueue
        · next head last hq =>
          simp only [Bool.and_eq_true, beq_iff_eq, decide_eq_true_eq]
            at hqueue hstack
          exact ⟨⟨hdone, ⟨bottom, hs, hstack⟩, head, last, hq, hqueue⟩,
            hfragments⟩
        · cases hqueue
      · cases hstack
    · cases h
  · rintro ⟨⟨hdone, ⟨bottom, hs, hsymbol, hstate⟩, head, last, hq, hhead,
      hlast⟩, hfragments⟩
    simp [hdone, hs, hsymbol, hstate, hq, hhead, hlast, hfragments]

/-- A configuration is finished with success only if the start symbol is
reduced, the stack is back at its bottom, the start symbol and the end of
the input wait, and a single node is left. -/
theorem of_finish_ok [DecidableEq σ] {t : ParseTable σ} {c : Configuration σ}
    {root : Node} (h : c.finish t = .ok root) :
    c.completed = true ∧ c.fragments = [.node root]
      ∧ (∃ bottom, c.stack = [bottom])
      ∧ ∃ head last, c.queue = [head, last] ∧ head.symbol = t.startSymbol
        ∧ last.symbol = endMarker := by
  obtain ⟨⟨hdone, ⟨bottom, hstack, -⟩, hqueue⟩, hfragments⟩ :=
    finish_eq_ok_iff.mp h
  exact ⟨hdone, hfragments, ⟨bottom, hstack⟩, hqueue⟩

end Configuration

/-- Parsing succeeds only by a run without errors to a configuration that is
finished with success. -/
theorem of_parseWithin_ok [DecidableEq σ] {limit : Nat} {t : ParseTable σ}
    {tokens : List Token} {report : ParseReport σ} {root : Node}
    (h : parseWithin limit t tokens = some report)
    (hok : report.result = .ok root) :
    ∃ r, (Configuration.start t tokens).run t limit = some r ∧ r.error = none
      ∧ r.config.finish t = .ok root ∧ r.warnings = report.warnings := by
  obtain ⟨r, hr, rfl⟩ := Option.map_eq_some_iff.mp h
  simp only at hok
  split at hok
  · cases hok
  · next hnone => exact ⟨r, hr, hnone, hok, rfl⟩

end ShiftReduce
