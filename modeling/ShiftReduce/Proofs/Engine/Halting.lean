/-
Engines that stop.

On a built table an engine stops, unless it comes to a circle. To see this
every configuration is given a measure that each step lowers. Its greater
part, the weight, counts a token that waits twice and a symbol that has been
shifted or reduced once:

- a token that is shifted is counted once instead of twice;
- a reduction of two symbols or more leaves fewer symbols on the stack;
- a reduced symbol counts the same in the queue and on the stack, and a
  reduction of one symbol replaces it by another.

In the last case the smaller part falls. It looks at the symbol on top, the
state under it and the token that is next, and counts the symbols that may
still come in its place; off a circle there is one less of them after each
replacement. There are never more of them than left-hand sides of rules
with a single symbol, so the measure has an explicit bound, and so has the
number of steps.
-/
import Mathlib.Tactic.Ring
import ShiftReduce.Proofs.Collections.Rank
import ShiftReduce.Proofs.Engine.Circle
import ShiftReduce.Proofs.Engine.Consistency
import ShiftReduce.Proofs.Engine.Stopping

namespace ShiftReduce

open ShiftReduce.Configuration

namespace Configuration

variable {σ : Type} {t : ParseTable σ} {c : Configuration σ}

-- ============================================================ the measure

/-- How often a symbol may still be replaced: that on top of the stack, and
twice for each and once more if it has still to be shifted. -/
noncomputable def phase (t : ParseTable σ) (names : Finset Symbol)
    (c : Configuration σ) : Nat :=
  match c.queue, c.stack with
  | ⟨a, _, _, true⟩ :: lookahead :: _, origin :: _ =>
    2 * rank names (t.Climbs origin.state lookahead.symbol) a + 1
  | ⟨terminal, _, _, false⟩ :: _, top :: origin :: _ =>
    2 * rank names (t.Climbs origin.state terminal) top.symbol
  | _, _ => 0

theorem phase_lt (names : Finset Symbol) (c : Configuration σ) :
    phase t names c < 2 * (names.card + 1) := by
  unfold phase
  split
  · next a _ _ lookahead _ origin _ _ _ =>
      have hrank := rank_le_card (s := names)
        (R := t.Climbs origin.state lookahead.symbol) a
      omega
  · next terminal _ _ _ top origin _ _ _ =>
      have hrank := rank_le_card (s := names)
        (R := t.Climbs origin.state terminal) top.symbol
      omega
  · omega

/-- The weight, and within the same weight the phase. -/
noncomputable def effort (t : ParseTable σ) (names : Finset Symbol)
    (c : Configuration σ) : Nat :=
  c.weight * (2 * (names.card + 1)) + phase t names c

theorem effort_lt_of_weight_lt {names : Finset Symbol} {c' : Configuration σ}
    (h : c'.weight < c.weight) : effort t names c' < effort t names c :=
  scaled_add_lt h (Nat.lt_add_left _ (phase_lt names c'))

theorem effort_lt_of_phase_lt {names : Finset Symbol} {c' : Configuration σ}
    (hweight : c'.weight = c.weight) (h : phase t names c' < phase t names c) :
    effort t names c' < effort t names c := by
  unfold effort
  rw [hweight]
  omega

end Configuration

namespace Grammar

variable {g : Grammar} {limit : Nat} {t : Table}

/-- The left-hand sides of the rules with a single symbol. -/
def renamers (g : Grammar) : Finset Symbol :=
  ((g.rules.filter fun rule => rule.right.length == 1).map Rule.left).toFinset

theorem Produces.mem_renamers {p : Production} (h : g.Produces p)
    (hsingle : p.right.length = 1) : p.left ∈ g.renamers := by
  obtain ⟨-, rule, hrule, hleft, hright⟩ := h
  unfold renamers
  rw [List.mem_toFinset, ← hleft]
  apply List.mem_map_of_mem
  rw [List.mem_filter]
  simp [hrule, hright, hsingle]

/-- On the path the state on top is the one that the state under it goes
into. -/
theorem Trodden.action?_top {follow : FollowSets}
    (h : (g.buildWith follow limit).result = .ok t) {key : StateKey}
    {top origin : StackEntry Nat} {below : List (StackEntry Nat)}
    (hpath : Trodden g t (top :: origin :: below) key) :
    t.action? origin.state top.symbol = some (.shift top.state) := by
  cases hpath with
  | push hbelow hkey hnames =>
      exact (action?_eq_shift_iff h hbelow.key?_top).mpr ⟨_, hkey, hnames⟩

/-- Behind what waits in front of it, the input has only tokens. -/
theorem reduced_of_suffix {input rest : List Queued}
    (hinput : ∀ q ∈ input, q.reduced = false) (hrest : rest <:+ input) :
    ∀ q ∈ rest, q.reduced = false :=
  fun q hq => hinput q (hrest.subset hq)

/-- A shift lowers the measure: the weight, if a token is shifted, and the
phase, if a reduced symbol is. -/
theorem effort_lt_of_shift {input behind : List Queued}
    (hinput : ∀ q ∈ input, q.reduced = false) {key : StateKey} {head : Queued}
    (hawaits : Awaits g key input (head :: behind)) {top : StackEntry Nat}
    {below : List (StackEntry Nat)} {target : Nat}
    {carries completed completed' : Bool}
    {fragments fragments' : List Fragment} :
    effort (t.parseTable g) g.renamers
        ⟨behind, ⟨head.symbol, target, carries⟩ :: top :: below,
          fragments', completed'⟩
      < effort (t.parseTable g) g.renamers
        ⟨head :: behind, top :: below, fragments, completed⟩ := by
  cases hawaits with
  | input hrest =>
      apply effort_lt_of_weight_lt
      exact weight_lt_of_shift (hinput head (hrest.subset List.mem_cons_self))
  | reduced hreduced _ hrest hne =>
      apply effort_lt_of_phase_lt
      · exact weight_eq_of_shift hreduced
      · obtain ⟨lookahead, rest, rfl⟩ := List.exists_cons_of_ne_nil hne
        have hlookahead :=
          reduced_of_suffix hinput hrest lookahead List.mem_cons_self
        obtain ⟨a, _, _, _⟩ := head
        obtain ⟨terminal, _, _, _⟩ := lookahead
        cases hreduced
        cases hlookahead
        simp [phase]

/-- A reduction off a circle lowers the measure: the weight, if several
symbols are reduced, and the phase, if a single one is. -/
theorem effort_lt_of_reduce {p : Production} (hproduces : g.Produces p)
    {lookahead : Queued} (hlookahead : lookahead.reduced = false)
    {behind : List Queued} {popped remaining : List (StackEntry Nat)}
    (hsymbols : (popped.map StackEntry.symbol).reverse = p.right)
    {origin : StackEntry Nat} {below : List (StackEntry Nat)}
    (hremaining : remaining = origin :: below)
    (hclimbs : ∀ top, popped = [top] →
      (t.parseTable g).Climbs origin.state lookahead.symbol top.symbol p.left)
    {significant completed completed' : Bool}
    {fragments fragments' : List Fragment}
    (hcircle : ¬ OnCircle (t.parseTable g)
      ⟨⟨p.left, lookahead.token, significant, true⟩ :: lookahead :: behind,
        remaining, fragments', completed'⟩) :
    effort (t.parseTable g) g.renamers
        ⟨⟨p.left, lookahead.token, significant, true⟩ :: lookahead :: behind,
          remaining, fragments', completed'⟩
      < effort (t.parseTable g) g.renamers
        ⟨lookahead :: behind, popped ++ remaining, fragments, completed⟩ := by
  subst hremaining
  have hlength : popped.length = p.right.length := by
    rw [← hsymbols, List.length_reverse, List.length_map]
  have hpositive : 0 < p.right.length := List.length_pos_iff.mpr hproduces.1
  by_cases hsingle : popped.length = 1
  · obtain ⟨top, rfl⟩ := List.length_eq_one_iff.mp hsingle
    apply effort_lt_of_phase_lt
    · exact weight_eq_of_reduce rfl (List.cons_ne_nil _ _) hsingle
    · -- the symbol on top has been replaced, off a circle
      have hrank : rank g.renamers
          ((t.parseTable g).Climbs origin.state lookahead.symbol) p.left
          < rank g.renamers ((t.parseTable g).Climbs origin.state
            lookahead.symbol) top.symbol := by
        apply rank_lt (hclimbs top rfl) (hproduces.mem_renamers (by omega))
        intro hturn
        exact hcircle ⟨_, _, _, .waiting rfl rfl rfl, hturn⟩
      obtain ⟨terminal, _, _, _⟩ := lookahead
      cases hlookahead
      dsimp only at hrank
      simp only [phase, List.singleton_append]
      omega
  · apply effort_lt_of_weight_lt
    exact weight_lt_of_reduce rfl (List.cons_ne_nil _ _) (by omega)

/-- A move off a circle lowers the measure, unless the parse is completed
before or after it. -/
theorem effort_lt_of_move (h : (g.build limit).result = .ok t)
    {input : List Queued} (hinput : ∀ q ∈ input, q.reduced = false)
    {c c' : Configuration Nat} {w : Option Warning} (hc : OnPath g t input c)
    (going : c.completed = false) (hmove : Move (t.parseTable g) c c' w)
    (going' : c'.completed = false)
      (hcircle : ¬ OnCircle (t.parseTable g) c') :
    effort (t.parseTable g) g.renamers c'
      < effort (t.parseTable g) g.renamers c := by
  obtain ⟨key, hpath, hawaits⟩ := hc going
  cases hmove with
  | rest done => cases going.symm.trans done
  | shift _ queue stack action =>
      obtain ⟨_, _, _, _⟩ := c
      subst queue stack
      exact effort_lt_of_shift hinput hawaits
  | reduce going₀ queue stack action rule split bottom symbols
      parts count built =>
      rename_i lookahead behind top below popped remaining _
        _ index name p node
      obtain ⟨_, _, _, _⟩ := c
      subst queue stack
      have hsplit : top :: below = popped ++ remaining := split
      obtain ⟨hproduces, key', hremaining, -⟩ :=
        hpath.of_reduce h action rule hsplit symbols
      obtain ⟨origin, rest, hrest, -⟩ := hremaining.exists_top
      have hsuffix := hawaits.input_of_reduce h hpath.key?_top action
      rw [hsplit]
      apply effort_lt_of_reduce hproduces
        (reduced_of_suffix hinput hsuffix lookahead List.mem_cons_self)
          symbols hrest _ hcircle
      rintro _ rfl
      cases hsplit
      subst hrest
      refine ⟨name, top.state, index, hpath.action?_top h, action, ?_, ?_⟩
      · rw [rule, Option.some.injEq]
        exact congrArg (Production.mk p.left) symbols.symm
      · exact beq_eq_false_iff_ne.mp going'

-- ============================================================== the bound

theorem effort_start (tokens : List Token) :
    effort (t.parseTable g) g.renamers (start (t.parseTable g) tokens)
      = 4 * (tokens.length + 1) * (g.renamers.card + 1) := by
  have hinput : ∀ q ∈ (start (t.parseTable g) tokens).queue,
      q.reduced = false :=
    fun q hq => (reduced_of_mem_start hq).1
  have hphase : phase (t.parseTable g) g.renamers
      (start (t.parseTable g) tokens) = 0 := by
    unfold phase
    split
    · next hqueue _ =>
        have hfirst := hinput _ (hqueue ▸ List.mem_cons_self)
        cases hfirst
    · next hstack => cases hstack
    · rfl
  unfold effort
  rw [weight_start, hphase]
  ring

/-- What waits makes the measure positive. -/
theorem effort_pos {c : Configuration Nat} (hdone : c.isDone = false) :
    0 < effort (t.parseTable g) g.renamers c := by
  have hweight := weight_pos hdone
  unfold effort
  have hproduct : 0 < c.weight * (2 * (g.renamers.card + 1)) := by
    apply Nat.mul_pos hweight
    omega
  omega

/-- An engine with a built table stops, unless it comes to a circle. A
limit for the number of its steps is four times the number of tokens, the
end of the input included, times the number of left-hand sides of rules with
a single symbol, plus one. -/
theorem build_halts (h : (g.build limit).result = .ok t)
    (tokens : List Token) :
    (∃ r, (start (t.parseTable g) tokens).run (t.parseTable g)
        (4 * (tokens.length + 1) * (g.renamers.card + 1)) = some r
      ∧ (r.error ≠ none ∨ r.config.isDone = true))
    ∨ ∃ c, Reaches (t.parseTable g) (start (t.parseTable g) tokens) c
      ∧ OnCircle (t.parseTable g) c := by
  by_cases hcircle :
      ∃ c, Reaches (t.parseTable g) (start (t.parseTable g) tokens) c
        ∧ OnCircle (t.parseTable g) c
  · exact Or.inr hcircle
  · left
    have hinput : ∀ q ∈ (start (t.parseTable g) tokens).queue,
        q.reduced = false :=
      fun q hq => (reduced_of_mem_start hq).1
    have hruns := exists_run_of_measure
      (t := t.parseTable g)
      (I := Reaches (t.parseTable g) (start (t.parseTable g) tokens))
      (effort (t.parseTable g) g.renamers) ?_
        (fun _ _ => effort_pos) (Reaches.refl _)
      (effort_start tokens).le
    · obtain ⟨r, hr⟩ := hruns
      exact ⟨r, hr, stopped_of_run hr⟩
    · intro c s hreach hdone hs
      have hnext := hreach.step hs
      cases hcompleted : (c.step (t.parseTable g)).config.completed with
      | true => exact Or.inl (by simp [isDone, hcompleted])
      | false =>
          refine Or.inr ⟨hnext, ?_⟩
          apply effort_lt_of_move h hinput (onPath_of_reaches h hreach) _
            (move_of_step_ok hs)
            hcompleted
          · exact fun hturn => hcircle ⟨_, hnext, hturn⟩
          · unfold isDone at hdone
            simp at hdone
            exact hdone.1

/-- Two rules of `sums` have a single symbol, so the engine has 24 steps for
a name. -/
theorem build_halts_sums :
    ∃ t, (sums.build 8).result = .ok t
      ∧ ((∃ r, (start (t.parseTable sums) [⟨.keyword, "name", .first⟩]).run
            (t.parseTable sums) 24 = some r
          ∧ (r.error ≠ none ∨ r.config.isDone = true))
        ∨ ∃ c, Reaches (t.parseTable sums)
            (start (t.parseTable sums) [⟨.keyword, "name", .first⟩]) c
          ∧ OnCircle (t.parseTable sums) c) := by
  have hbuilds : (sums.build 8).result.toOption.isSome = true := by
    decide +kernel
  cases hresult : (sums.build 8).result with
  | error e =>
      rw [hresult] at hbuilds
      cases hbuilds
  | ok t =>
      have hlimit :
          24 = 4 * (([⟨.keyword, "name", .first⟩] : List Token).length + 1)
          * (sums.renamers.card + 1) := by decide +kernel
      rw [hlimit]
      exact ⟨t, rfl, build_halts hresult _⟩

end Grammar

end ShiftReduce
