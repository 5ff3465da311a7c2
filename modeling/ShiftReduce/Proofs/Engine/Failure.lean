/-
What a failing step leaves behind.

A step that fails has already begun, and what it did is not taken back. The
symbol that was next is gone from the queue in every case but one, where
there was none. If a reduction had found its rule, and the right-hand side
of the rule on the stack, these entries are gone as well, and if a semantic
action has refused its children, so are they. `Failure` lists the seven ways
to fail, each with what it needs, what it leaves and what it reports.

An engine can be asked for another step after one that has failed, and goes
on from what was left. `Continues` is a run in which steps may fail, and a
property that every move and every failure keeps is kept by it.
-/
import ShiftReduce.Proofs.Engine.Move

namespace ShiftReduce

variable {σ : Type}

-- =========================================================== failures

/-- What a step that fails does to a configuration: the configuration that
it leaves, and the error. -/
inductive Failure (t : ParseTable σ) (c : Configuration σ) :
    Configuration σ → ParseError → Prop where
  /-- Nothing waits. -/
  | exhausted (going : c.completed = false) (queue : c.queue = []) :
      Failure t c c (.table (.incomplete c.stackSymbols [] c.fragments.length))
  /-- Not even the bottom of the stack is there. -/
  | bottomless {lookahead : Queued} {behind : List Queued}
      (going : c.completed = false)
      (queue : c.queue = lookahead :: behind)
      (stack : c.stack = []) :
      Failure t c { c with queue := behind } (.table .emptyStack)
  /-- The table has no action for the symbol. -/
  | unexpected {lookahead : Queued} {behind : List Queued} {top : StackEntry σ}
      {below : List (StackEntry σ)}
      (going : c.completed = false)
      (queue : c.queue = lookahead :: behind)
      (stack : c.stack = top :: below)
      (action : t.action? top.state lookahead.symbol = none) :
      Failure t c { c with queue := behind }
        (.unexpectedToken (t.stateName top.state) lookahead.symbol
          lookahead.token.position)
  /-- The rule of a reduction does not exist. -/
  | unknownRule {lookahead : Queued} {behind : List Queued}
      {top : StackEntry σ}
      {below : List (StackEntry σ)} {index : Nat} {name : Option String}
      (going : c.completed = false)
      (queue : c.queue = lookahead :: behind)
      (stack : c.stack = top :: below)
      (action : t.action? top.state lookahead.symbol
        = some (.reduce index name))
      (rule : t.rule? index = none) :
      Failure t c { c with queue := behind } (.table (.unknownRule index))
  /-- The right-hand side of the rule is not on top of the stack. -/
  | mismatch {lookahead : Queued} {behind : List Queued} {top : StackEntry σ}
      {below : List (StackEntry σ)} {index : Nat}
      {name : Option String} {p : Production}
      (going : c.completed = false)
      (queue : c.queue = lookahead :: behind)
      (stack : c.stack = top :: below)
      (action : t.action? top.state lookahead.symbol
        = some (.reduce index name))
      (rule : t.rule? index = some p)
      (symbols : c.topMatches p.right = false) :
      Failure t c { c with queue := behind }
        (.table (.stackMismatch index p.right c.stackSymbols))
  /-- The entries of the right-hand side promise more fragments than there
  are. -/
  | fragmentsMissing {lookahead : Queued} {behind : List Queued}
      {top : StackEntry σ}
      {below popped remaining : List (StackEntry σ)} {index : Nat}
      {name : Option String}
      {p : Production}
      (going : c.completed = false)
      (queue : c.queue = lookahead :: behind)
      (stack : c.stack = top :: below)
      (action : t.action? top.state lookahead.symbol
        = some (.reduce index name))
      (rule : t.rule? index = some p)
      (split : c.stack = popped ++ remaining)
      (bottom : remaining ≠ [])
      (symbols : (popped.map StackEntry.symbol).reverse = p.right)
      (few : c.fragments.length < (popped.filter StackEntry.carries).length) :
      Failure t c { c with queue := behind, stack := remaining }
        (.table
          (.fragmentsMissing index (popped.filter StackEntry.carries).length
            c.fragments.length))
  /-- The semantic action of the rule refuses its children. -/
  | refused {lookahead : Queued} {behind : List Queued} {top : StackEntry σ}
      {below popped remaining : List (StackEntry σ)}
      {children fragments : List Fragment}
      {index : Nat} {name : Option String} {p : Production}
      {error : SynthesisError}
      (going : c.completed = false)
      (queue : c.queue = lookahead :: behind)
      (stack : c.stack = top :: below)
      (action : t.action? top.state lookahead.symbol
        = some (.reduce index name))
      (rule : t.rule? index = some p)
      (split : c.stack = popped ++ remaining)
      (bottom : remaining ≠ [])
      (symbols : (popped.map StackEntry.symbol).reverse = p.right)
      (parts : c.fragments = children.reverse ++ fragments)
      (count : children.length = (popped.filter StackEntry.carries).length)
      (built : reducedNode index p.left children name = .error error) :
      Failure t c
        { c with queue := behind, stack := remaining, fragments := fragments }
        (.synthesis error)

namespace Configuration

/-- A reduction fails for want of its rule, its right-hand side or its
fragments, or in its semantic action. -/
theorem failure_of_reduce_error {t : ParseTable σ} {c : Configuration σ}
    {lookahead : Queued} {behind : List Queued} {top : StackEntry σ}
    {below : List (StackEntry σ)} {index : Nat} {name : Option String}
    {e : ParseError} (going : c.completed = false)
    (queue : c.queue = lookahead :: behind) (stack : c.stack = top :: below)
    (action : t.action? top.state lookahead.symbol = some (.reduce index name))
    (h : (reduce t { c with queue := behind } lookahead index name).result
      = .error e) :
    Failure t c
      (reduce t { c with queue := behind } lookahead index name).config e := by
  unfold reduce at h ⊢
  split at h
  · next rule =>
    cases h
    exact .unknownRule going queue stack action rule
  · next p rule =>
    simp only at h ⊢
    split at h
    · next hmatch =>
      rw [if_pos hmatch]
      cases h
      rw [Bool.not_eq_true'] at hmatch
      exact .mismatch going queue stack action rule hmatch
    · next hmatch =>
      -- the pieces are the entries and fragments that the step counts off
      have hmatch' : c.topMatches p.right = true := by
        rw [Bool.not_eq_true', Bool.not_eq_false] at hmatch
        exact hmatch
      obtain ⟨bottom, symbols⟩ := (topMatches_iff c p.right).mp hmatch'
      have hsplit := (List.take_append_drop p.right.length c.stack).symm
      rw [if_neg hmatch]
      split at h
      · next hcount =>
        rw [if_pos hcount]
        cases h
        exact .fragmentsMissing going queue stack action rule hsplit
          bottom symbols hcount
      · next hcount =>
        rw [if_neg hcount]
        split at h
        · next error built =>
          cases h
          refine .refused going queue stack action rule hsplit bottom
            symbols ?_ ?_ built
          · rw [List.reverse_reverse, List.take_append_drop]
          · rw [List.length_reverse, List.length_take,
              Nat.min_eq_left (Nat.not_lt.mp hcount)]
        · cases h

/-- Every step that fails does so in one of the seven ways. -/
theorem failure_of_step_error {t : ParseTable σ} {c : Configuration σ}
    {e : ParseError} (h : (c.step t).result = .error e) :
    Failure t c (c.step t).config e := by
  unfold step at h ⊢
  split at h
  · cases h
  · next hdone =>
    have going : c.completed = false := by simpa using hdone
    rw [if_neg hdone]
    split at h
    · next queue =>
      cases h
      exact .exhausted going queue
    · next lookahead behind queue =>
      simp only at h ⊢
      split at h
      · next stack =>
        cases h
        exact .bottomless going queue stack
      · next top below stack =>
        split at h
        · next action =>
          cases h
          exact .unexpected going queue stack action
        · cases h
        · next index name action =>
          exact failure_of_reduce_error going queue stack action h

-- ================================================================= runs

/-- The second configuration comes of the first by steps, whether they fail
or not. -/
def Continues (t : ParseTable σ) : Configuration σ → Configuration σ → Prop :=
  Relation.ReflTransGen fun c c' => (c.step t).config = c'

/-- Steps none of which fails are steps. -/
theorem Reaches.continues {t : ParseTable σ} {c c' : Configuration σ}
    (h : Reaches t c c') : Continues t c c' := by
  induction h with
  | refl => exact .refl
  | tail _ hlast ih =>
      obtain ⟨s, -, hstep⟩ := hlast
      exact ih.tail hstep

/-- A property that every move and every failure keeps is kept by every run,
also behind a step that has failed. -/
theorem Continues.preserves {t : ParseTable σ} {I : Configuration σ → Prop}
    (move : ∀ {c c' : Configuration σ} {w : Option Warning},
      Move t c c' w → I c → I c')
    (failure : ∀ {c c' : Configuration σ} {e : ParseError},
      Failure t c c' e → I c → I c')
    {c c' : Configuration σ} (h : Continues t c c') (hc : I c) : I c' := by
  induction h with
  | refl => exact hc
  | tail _ hlast ih =>
      rename_i c _ _
      subst hlast
      cases hresult : (c.step t).result with
      | ok s => exact move (move_of_step_ok hresult) ih
      | error e => exact failure (failure_of_step_error hresult) ih

end Configuration

end ShiftReduce
