/-
Engines that never stop.

A rule with a single symbol on its right-hand side lengthens neither the
stack nor the input: after the reduction and the shift that follows there is
another symbol on the stack, over the same state and in front of the same
token. If several such rules lead in a circle, and on the token that is next
each of them is the one that is reduced, the engine goes round for ever.
Nothing stops it, because it does not remember where it has been.

Whether the engine is on a circle can be seen from three things: the state
under the symbol, the symbol, and the token ahead. One turn of the engine
replaces the symbol and keeps the other two.
-/
import ShiftReduce.Compile
import ShiftReduce.Proofs.Engine.Arrival
import ShiftReduce.Proofs.Engine.Balance

namespace ShiftReduce

open ShiftReduce.Configuration

variable {σ : Type}

-- =============================================================== climbing

/-- Over a state and in front of a terminal, the first symbol is replaced by
the second: the state shifts the first symbol, and the state behind it
reduces by a rule that has it as its whole right-hand side. -/
def ParseTable.Climb (t : ParseTable σ) (origin : σ) (terminal : Symbol)
    (a b : Symbol) (name : Option String) : Prop :=
  ∃ target index, t.action? origin a = some (.shift target)
    ∧ t.action? target terminal = some (.reduce index name)
    ∧ t.rule? index = some ⟨b, [a]⟩ ∧ b ≠ t.startSymbol

/-- The first symbol is replaced by the second, whatever the action. -/
def ParseTable.Climbs (t : ParseTable σ) (origin : σ) (terminal : Symbol)
    (a b : Symbol) : Prop :=
  ∃ name, t.Climb origin terminal a b name

namespace Configuration

variable {t : ParseTable σ} {c : Configuration σ} {origin : σ}
    {terminal a : Symbol}

/-- Over which state and in front of which terminal the engine has a symbol
that was shifted last, or was reduced and is about to be shifted. -/
inductive Faces (t : ParseTable σ) (c : Configuration σ) :
    σ → Symbol → Symbol → Prop where
  | waiting {head lookahead : Queued} {behind : List Queued}
      {origin : StackEntry σ}
      {below : List (StackEntry σ)}
      (queue : c.queue = head :: lookahead :: behind)
      (reduced : head.reduced = true) (stack : c.stack = origin :: below) :
      Faces t c origin.state lookahead.symbol head.symbol
  | shifted {lookahead : Queued} {behind : List Queued}
      {top origin : StackEntry σ}
      {below : List (StackEntry σ)} (queue : c.queue = lookahead :: behind)
      (stack : c.stack = top :: origin :: below)
      (shift : t.action? origin.state top.symbol = some (.shift top.state)) :
      Faces t c origin.state lookahead.symbol top.symbol

/-- The engine is on a circle: it will come back to the symbol that it has,
over the same state and in front of the same terminal. -/
def OnCircle (t : ParseTable σ) (c : Configuration σ) : Prop :=
  ∃ origin terminal a, Faces t c origin terminal a
    ∧ Relation.TransGen (t.Climbs origin terminal) a a

-- ============================================================== going on

/-- If some configurations are not done and succeed in a step to another one
of them, the engine does not stop. -/
theorem run_eq_none {I : Configuration σ → Prop}
    (goes : ∀ c, I c → c.isDone = false
      ∧ ∃ s, (c.step t).result = .ok s ∧ I (c.step t).config)
    (hc : I c) (limit : Nat) : c.run t limit = none := by
  induction limit generalizing c with
  | zero =>
      obtain ⟨hgoing, -⟩ := goes c hc
      simp [run, hgoing]
  | succ limit ih =>
      obtain ⟨hgoing, s, hs, hnext⟩ := goes c hc
      unfold run
      simp [hgoing, hs, ih hnext]

/-- If the engine does not stop from where it comes to, it does not stop. -/
theorem Reaches.run_eq_none {c' : Configuration σ} (h : Reaches t c c')
    (hnever : ∀ limit, c'.run t limit = none) (limit : Nat) :
    c.run t limit = none := by
  induction h using Relation.ReflTransGen.head_induction_on
      generalizing limit with
  | refl => exact hnever limit
  | head hstep _ ih =>
      rename_i c next _
      obtain ⟨s, hs, rfl⟩ := hstep
      cases hgoing : c.isDone with
      | true =>
          have hnone := ih 0
          rw [step_of_isDone hgoing hs, run, if_pos hgoing] at hnone
          cases hnone
      | false =>
          cases limit with
          | zero => simp [run, hgoing]
          | succ limit =>
              unfold run
              simp [hgoing, hs, ih limit]

/-- Without a semantic action a reduction does not fail in one. -/
theorem reduce_none_ne_synthesis {lookahead : Queued} {index : Nat}
    {e : SynthesisError} :
    (reduce t c lookahead index none).result ≠ .error (.synthesis e) := by
  unfold reduce
  split
  · simp [fail]
  · dsimp only
    split
    · simp [fail]
    · split <;> simp [fail, reducedNode]

/-- An engine that faces a symbol shifts it if it waits, and replaces it if
it has been shifted. -/
theorem Faces.step_ok (h : Faces t c origin terminal a)
    (going : c.completed = false) (hbalanced : Balanced t c) {b : Symbol}
    (hclimb : t.Climb origin terminal a b none) :
    ∃ s, (c.step t).result = .ok s ∧ (c.step t).config.completed = false
      ∧ (Faces t (c.step t).config origin terminal a
        ∨ Faces t (c.step t).config origin terminal b) := by
  obtain ⟨target, index, hshift, hreduce, hrule, hleft⟩ := hclimb
  cases h with
  | waiting queue reduced stack =>
      rename_i head lookahead behind origin below
      rw [step_of_shift going queue stack hshift]
      refine ⟨_, rfl, going, Or.inl ?_⟩
      have hstack : (shift { c with queue := lookahead :: behind } head
            target).config.stack
          = ⟨head.symbol, target, head.significant⟩ :: origin :: below := by
        show _ :: c.stack = _
        rw [stack]
      exact .shifted rfl hstack hshift
  | shifted queue stack shift =>
      rename_i lookahead behind top entry below
      cases hshift.symm.trans shift
      rw [step_of_reduce going queue stack hreduce]
      have hsplit : c.stack = [top] ++ (entry :: below) := stack
      rcases @reduce_of_split σ t { c with queue := behind } lookahead _ _ _
        _ none hrule hsplit
        (List.cons_ne_nil _ _) rfl (hbalanced.enough hsplit)
        with ⟨e, hfails⟩ | ⟨node, fragments, hok, hconfig⟩
      · exact absurd hfails reduce_none_ne_synthesis
      · refine ⟨_, hok, ?_, Or.inr ?_⟩
        · rw [hconfig, beq_eq_false_iff_ne]
          exact hleft
        · rw [hconfig]
          show Faces t _ entry.state lookahead.symbol
            (Queued.mk b lookahead.token node true).symbol
          exact .waiting rfl rfl rfl

/-- An engine that comes to a circle of rules without semantic actions does
not stop. -/
theorem run_of_circle (hbalanced : Balanced t c) (going : c.completed = false)
    (hfaces : Faces t c origin terminal a)
    (hcircle :
      Relation.TransGen (fun a b => t.Climb origin terminal a b none) a a)
    (limit : Nat) : c.run t limit = none := by
  apply run_eq_none (I := fun c => Balanced t c ∧ c.completed = false
    ∧ ∃ a, Faces t c origin terminal a
      ∧ Relation.TransGen (fun a b => t.Climb origin terminal a b none) a a)
  · rintro c ⟨hbalanced, going, a, hfaces, hcircle⟩
    obtain ⟨b, hclimb, hback⟩ := Relation.TransGen.head'_iff.mp hcircle
    obtain ⟨s, hs, hgoing, hnext⟩ := hfaces.step_ok going hbalanced hclimb
    have hdone : c.isDone = false := by
      cases hfaces <;> simp [isDone, *]
    refine ⟨hdone, s, hs, (move_of_step_ok hs).balanced hbalanced, hgoing, ?_⟩
    rcases hnext with hnext | hnext
    · exact ⟨a, hnext, hcircle⟩
    · -- the circle is gone round from its next symbol
      exact ⟨b, hnext, Relation.TransGen.tail' hback hclimb⟩
  · exact ⟨hbalanced, going, a, hfaces, hcircle⟩

/-- A grammar with two nonterminals that are renamings of each other. -/
def renamings : List String :=
  ["<S> -> <A> y", "<S> -> z <A> w", "<A> -> <B>", "<B> -> <A>", "<B> -> x"]

/-- The grammar compiles, and its engine does not stop on `x w`: in front of
`w` each of the nonterminals is replaced by the other one. -/
theorem run_of_circle_renamings :
    ∃ out, (compile renamings).result = .ok out
      ∧ ∀ limit, (start (out.table.parseTable out.grammar)
          [⟨.keyword, "x", .first⟩, ⟨.keyword, "w", .first⟩]).run
        (out.table.parseTable out.grammar) limit = none := by
  have hcheck : (match (compile renamings).result with
      | .error _ => false
      | .ok out =>
        let t := out.table.parseTable out.grammar
        let shifted :=
          (start t [⟨.keyword, "x", .first⟩, ⟨.keyword, "w", .first⟩]).step t
        let reduced := shifted.config.step t
        decide (t.action? 0 "<A>" = some (.shift 1)
          ∧ t.action? 1 "w" = some (.reduce 3 none)
          ∧ t.rule? 3 = some ⟨"<B>", ["<A>"]⟩ ∧ "<B>" ≠ t.startSymbol)
        && decide (t.action? 0 "<B>" = some (.shift 2)
          ∧ t.action? 2 "w" = some (.reduce 2 none)
          ∧ t.rule? 2 = some ⟨"<A>", ["<B>"]⟩ ∧ "<A>" ≠ t.startSymbol)
        && (shifted.result.toOption.isSome && reduced.result.toOption.isSome)
        && decide (reduced.config.completed = false
          ∧ reduced.config.stack = [⟨"<S>", 0, false⟩]
          ∧ reduced.config.queue = [⟨"<B>", ⟨.keyword, "w", .first⟩, false,
            true⟩, .ofToken ⟨.keyword, "w", .first⟩,
            .ofToken (.endAt .first)])) = true := by
    decide +kernel
  split at hcheck
  · cases hcheck
  · next out hout =>
      simp only [Bool.and_eq_true, decide_eq_true_eq] at hcheck
      obtain ⟨⟨⟨⟨hshiftA, hreduceA, hruleA, hstartB⟩, hshiftB,
        hreduceB, hruleB, hstartA⟩, hshifted, hreduced⟩, hgoing,
        hstack, hqueue⟩ := hcheck
      obtain ⟨_, hok⟩ := step_ok_of_isSome hshifted
      obtain ⟨_, hok'⟩ := step_ok_of_isSome hreduced
      have hreach := ((Reaches.refl _).step hok).step hok'
      have hcircle : Relation.TransGen
          (fun a b => (out.table.parseTable out.grammar).Climb 0 "w" a b none)
            "<B>" "<B>" :=
        .tail (.single ⟨2, 2, hshiftB, hreduceB, hruleB, hstartA⟩)
          ⟨1, 3, hshiftA, hreduceA, hruleA, hstartB⟩
      exact ⟨out, hout, hreach.run_eq_none
        (run_of_circle hreach.balanced hgoing
          (.waiting hqueue rfl hstack) hcircle)⟩

end Configuration

end ShiftReduce
