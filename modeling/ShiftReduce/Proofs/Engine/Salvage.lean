/-
What is left of an input behind errors.

An engine that has failed may be asked for more steps, and nothing in it
remembers the failure. What it went on from is a path of the automaton, so it
may well come to its end with a tree. But a failing step has lost what it
took: the token that was next, and perhaps the right-hand side for which a
semantic action was refused. With these tokens left out of the input, what
was said of runs without errors is true again: the productions lead from what
is on the stack and waits in front of the rest of the input back to what has
been shifted. So the tree that comes out in the end stands for the tokens that
are left, of which there is one fewer for every error at least.

Only two kinds of errors can be survived: a token that has no action, and a
semantic action that is refused. Where the failing step has taken the end of
the input, or found it taken, every further step fails. And a parse from the
first token to the tree ends with its first error.
-/
import ShiftReduce.Compile
import ShiftReduce.Proofs.Engine.Arrival
import ShiftReduce.Proofs.Engine.Matching
import ShiftReduce.Proofs.Engine.Stopping
import ShiftReduce.Proofs.Engine.Upkeep
import ShiftReduce.Proofs.Engine.Viable

namespace ShiftReduce

variable {σ : Type}

open ShiftReduce.Configuration

-- ============================================== parsing from the first token

theorem Failure.going {t : ParseTable σ} {c c' : Configuration σ}
    {e : ParseError} (h : Failure t c c' e) :
    c.completed = false ∧ c'.completed = false := by
  cases h <;> exact ⟨‹_›, ‹_›⟩

namespace Configuration

variable {t : ParseTable σ} {c c' : Configuration σ} {e : ParseError}

/-- A configuration in which a step fails is not completed. -/
theorem going_of_step_error (h : (c.step t).result = .error e) :
    c.completed = false :=
  (failure_of_step_error h).going.1

/-- Nothing waits, and the start symbol has not been reduced. -/
structure Spent (c : Configuration σ) : Prop where
  queue : c.queue = []
  going : c.completed = false

namespace Spent

/-- Without a symbol a step fails, and leaves everything as it is. -/
theorem step (hc : Spent c) :
    c.step t = c.fail []
      (.table (.incomplete c.stackSymbols [] c.fragments.length)) := by
  rw [Configuration.step, if_neg (by simp [hc.going]), hc.queue]

/-- Nothing comes of a spent configuration but itself. -/
theorem eq_of_continues (hc : Spent c) (h : Continues t c c') : c' = c := by
  induction h with
  | refl => rfl
  | tail _ hlast ih =>
      subst ih
      rw [← hlast, hc.step]
      rfl

/-- The check at the end reports what a step reports. -/
theorem finish [DecidableEq σ] (hc : Spent c) :
    c.finish t = .error
      (.table (.incomplete c.stackSymbols [] c.fragments.length)) := by
  unfold Configuration.finish
  simp only [hc.going, Bool.false_and, Bool.false_eq_true, if_false,
    queueSymbols, hc.queue, List.map_nil]
  split
  · next root hfragments => rw [hfragments]; rfl
  · rfl

end Spent

/-- The error of a run is that of a step behind steps that succeeded. -/
theorem error_of_run {limit : Nat} {r : Run σ} (hrun : c.run t limit = some r)
    (herror : r.error = some e) :
    ∃ last, Reaches t c last ∧ (last.step t).result = .error e := by
  induction limit generalizing c r with
  | zero =>
      unfold run at hrun
      split at hrun
      · cases hrun
        cases herror
      · cases hrun
  | succ limit ih =>
      unfold run at hrun
      split at hrun
      · cases hrun
        cases herror
      · simp only at hrun
        split at hrun
        · next hfails =>
            cases hrun
            cases herror
            exact ⟨c, .refl c, hfails⟩
        · next hok =>
            obtain ⟨r', hr', rfl⟩ := Option.map_eq_some_iff.mp hrun
            obtain ⟨last, hreach, hfails⟩ := ih (r := r') hr' herror
            exact ⟨last, .head hok hreach, hfails⟩

/-- In front of a step that fails the loop stops, if not before. -/
theorem Reaches.exists_run (hreach : Reaches t c c')
    (herror : (c'.step t).result = .error e) :
    ∃ limit r, c.run t limit = some r := by
  induction hreach using Relation.ReflTransGen.head_induction_on with
  | refl =>
      refine ⟨1, ?_⟩
      unfold run
      split
      · exact ⟨_, rfl⟩
      · dsimp only
        rw [herror]
        exact ⟨_, rfl⟩
  | head hstep _ ih =>
      obtain ⟨s, hok, rfl⟩ := hstep
      obtain ⟨limit, r, hrun⟩ := ih
      refine ⟨limit + 1, ?_⟩
      unfold run
      split
      · exact ⟨_, rfl⟩
      · dsimp only
        rw [hok, hrun]
        exact ⟨_, rfl⟩

/-- Parsing from the first token ends with the error of the first step that
fails. -/
theorem parse_first_error [DecidableEq σ] {tokens : List Token}
    (hreach : Reaches t (start t tokens) c)
    (herror : (c.step t).result = .error e) {limit : Nat}
    {report : ParseReport σ}
    (hparse : parseWithin limit t tokens = some report) :
    report.result = .error e := by
  obtain ⟨r, hrun, rfl⟩ := Option.map_eq_some_iff.mp hparse
  dsimp only
  cases hlast : r.error with
  | some e' =>
      obtain ⟨last, hreach', herror'⟩ := error_of_run hrun hlast
      cases hreach.eq_of_error hreach' herror herror'
      cases herror.symm.trans herror'
      rfl
  | none =>
      -- the loop has come to the configuration of which the step fails, and
      -- has not asked for it since nothing waits
      have hreach' := reaches_of_run hrun hlast
      have hgoing : r.config.completed = false := by
        rw [← Bool.not_eq_true]
        intro hdone
        obtain ⟨s, hok⟩ := hreach'.step_ok hdone hreach
        cases herror.symm.trans hok
      have hdone := (stopped_of_run hrun).resolve_left (not_not_intro hlast)
      rw [isDone, hgoing, Bool.false_or, List.isEmpty_iff] at hdone
      have hspent : Spent r.config := ⟨hdone, hgoing⟩
      have hfails := congrArg Outcome.result (hspent.step (t := t))
      cases hreach.eq_of_error hreach' herror hfails
      cases herror.symm.trans hfails
      exact hspent.finish

-- ======================================================= runs with errors

/-- The second configuration comes of the first by steps, and those of them
that failed have reported the errors, one after the other. -/
inductive Endures (t : ParseTable σ) (c : Configuration σ) :
    List ParseError → Configuration σ → Prop where
  | refl : Endures t c [] c
  | ok {errors : List ParseError} {c' : Configuration σ} {s : Step}
      (h : Endures t c errors c') (hok : (c'.step t).result = .ok s) :
      Endures t c errors (c'.step t).config
  | error {errors : List ParseError} {c' : Configuration σ} {e : ParseError}
      (h : Endures t c errors c') (herror : (c'.step t).result = .error e) :
      Endures t c (errors ++ [e]) (c'.step t).config

theorem Endures.continues {errors : List ParseError}
    (h : Endures t c errors c') : Continues t c c' := by
  induction h with
  | refl => exact .refl
  | ok _ _ ih => exact ih.tail rfl
  | error _ _ ih => exact ih.tail rfl

end Configuration

-- ====================================================== what is saved

namespace Configuration

/-- With as many tokens left out of the input as there were errors, or more,
the configuration accounts for it. -/
def Salvaged (P : Production → Prop) (input : List Queued) (errors : Nat)
    (c : Configuration σ) : Prop :=
  ∃ saved, saved.Sublist input ∧ saved.length + errors ≤ input.length
    ∧ Accounts P saved c

/-- If a token is lost, and with it what was on top of the stack, then the
tokens that it was made of are left out as well. -/
theorem Salvaged.lose {P : Production → Prop} {input : List Queued} {n : Nat}
    {c : Configuration σ} (hc : Salvaged P input n c) {lookahead : Queued}
    {behind : List Queued} (queue : c.queue = lookahead :: behind)
    (htoken : lookahead.reduced = false)
    {popped remaining : List (StackEntry σ)}
    (split : c.stack = popped ++ remaining) (bottom : remaining ≠ [])
    (fragments : List Fragment) :
    Salvaged P input (n + 1)
      { c with
        queue := behind, stack := remaining, fragments := fragments } := by
  obtain ⟨saved, hsublist, hlength, waiting, shifted, rest, hqueue, hcut,
    hwaiting, hder⟩ := hc
  obtain rfl : waiting = [] := by
    cases waiting with
    | nil => rfl
    | cons head others =>
        rw [queue] at hqueue
        obtain ⟨rfl, -⟩ := List.cons.inj hqueue
        cases htoken.symm.trans (hwaiting lookahead List.mem_cons_self)
  obtain rfl : rest = lookahead :: behind := (queue.symm.trans hqueue).symm
  subst hcut
  rw [split, word_append popped bottom, List.map_nil, List.append_nil] at hder
  obtain ⟨front, back, hshifted, hfront, -⟩ := hder.of_append
  obtain ⟨before, lost, rfl, rfl, -⟩ := List.map_eq_append_iff.mp hshifted
  refine ⟨before ++ behind, ?_, ?_, [], before, behind, rfl, rfl,
    List.forall_mem_nil _, ?_⟩
  · refine List.Sublist.trans ?_ hsublist
    rw [List.append_assoc]
    refine (List.Sublist.refl before).append ?_
    exact (List.sublist_cons_self lookahead behind).trans
      (List.sublist_append_right _ _)
  · simp only [List.length_append, List.length_cons] at hlength ⊢
    omega
  · simpa using hfront

/-- The start symbol, when it has been reduced, waits in front of a token. -/
def Crowned (c : Configuration σ) : Prop :=
  c.completed = true → ∃ head next behind, c.queue = head :: next :: behind
    ∧ head.reduced = true ∧ next.reduced = false

theorem sublist_of_concat {α : Type} {as bs : List α} {a b : α}
    (h : (as ++ [a]).Sublist (bs ++ [b])) : as.Sublist bs := by
  have htail := (List.reverse_sublist.mpr h).tail
  simpa using htail

/-- At the end of a parse the start symbol derives what has been saved of the
input in front of its end. -/
theorem Salvaged.derives {P : Production → Prop} {t : ParseTable σ}
    {tokens : List Token} {n : Nat} {c : Configuration σ}
    (hc : Salvaged P (start t tokens).queue n c) (hcrowned : Crowned c)
    (h : AtEnd t c) :
    ∃ kept : List Token, kept.Sublist tokens ∧ kept.length + n ≤ tokens.length
      ∧ Derives P [t.startSymbol] (kept.map Token.symbol) := by
  obtain ⟨saved, hsublist, hlength, waiting, shifted, rest, hqueue, rfl,
    hwaiting, hder⟩ := hc
  obtain ⟨hdone, ⟨bottom, stack, -⟩, head, last, queue, hhead, -⟩ := h
  obtain ⟨_, _, _, queue', hreduced, htoken⟩ := hcrowned hdone
  cases queue.symm.trans queue'
  -- the start symbol alone waits in front of the input
  obtain ⟨rfl, rfl⟩ : waiting = [head] ∧ rest = [last] := by
    rw [queue] at hqueue
    cases waiting with
    | nil =>
        obtain rfl : rest = [head, last] := hqueue.symm
        have hmem : head ∈ shifted ++ [head, last] := by simp
        cases hreduced.symm.trans
          (reduced_of_mem_start (hsublist.subset hmem)).1
    | cons first others =>
        obtain ⟨rfl, hothers⟩ := List.cons.inj hqueue
        cases others with
        | nil => exact ⟨rfl, hothers.symm⟩
        | cons second others =>
            obtain ⟨rfl, -⟩ := List.cons.inj hothers
            cases htoken.symm.trans (hwaiting last (by simp))
  obtain ⟨kept, hkept, rfl⟩ :=
    List.sublist_map_iff.mp (sublist_of_concat hsublist)
  refine ⟨kept, hkept, ?_, ?_⟩
  · simp only [start, List.length_append, List.length_map,
      List.length_singleton] at hlength
    omega
  · rw [stack, List.map_map] at hder
    simpa [word, hhead, Function.comp_def, Queued.ofToken] using hder

end Configuration

-- ====================================================== built tables

namespace Grammar

variable {g : Grammar} {follow : FollowSets} {limit : Nat} {t : Table}
    {tokens : List Token}
  {c c' : Configuration Nat} {e : ParseError}

/-- Every move leaves the start symbol, when it has been reduced, in front of
a token. -/
theorem crowned_of_move (h : (g.buildWith follow limit).result = .ok t)
    {input : List Queued} (hinput : ∀ q ∈ input, q.reduced = false)
    {w : Option Warning} (hmove : Move (t.parseTable g) c c' w)
    (hpath : OnPath g t input c) (hc : Crowned c) : Crowned c' := by
  cases hmove with
  | rest done => exact hc
  | shift going queue stack action => exact fun hdone => nomatch hdone
  | reduce going queue stack action rule split bottom symbols
      parts count built =>
      intro _
      obtain ⟨key, htrodden, hawaits⟩ := hpath going
      rw [queue] at hawaits
      rw [stack] at htrodden
      have hsuffix := hawaits.input_of_reduce h htrodden.key?_top action
      exact ⟨_, _, _, rfl, rfl, hinput _ (hsuffix.subset List.mem_cons_self)⟩

theorem crowned_of_continues (h : (g.buildWith follow limit).result = .ok t)
    (hrun : Continues (t.parseTable g) (start (t.parseTable g) tokens) c) :
    Crowned c := by
  refine And.right (hrun.preserves (I := fun c =>
    OnPath g t (start (t.parseTable g) tokens).queue c ∧ Crowned c) ?_ ?_ ?_)
  · rintro _ _ _ hmove ⟨hpath, hc⟩
    have hinput : ∀ q ∈ (start (t.parseTable g) tokens).queue,
        q.reduced = false :=
      fun q hq => (reduced_of_mem_start hq).1
    exact ⟨hpath.move h hmove, crowned_of_move h hinput hmove hpath hc⟩
  · rintro _ _ _ hfailure ⟨hpath, -⟩
    refine ⟨hpath.failure h hfailure, fun hdone => ?_⟩
    cases hfailure.going.2.symm.trans hdone
  · exact ⟨onPath_start h tokens, fun hdone => nomatch hdone⟩

/-- A step of a built table that fails has found nothing waiting, or has lost
a token of the input that has no action, or has lost a token and a right-hand
side for which the semantic action was refused. -/
theorem loss_of_step_error (h : (g.buildWith follow limit).result = .ok t)
    {input : List Queued} (hpath : OnPath g t input c)
    (henough : ∀ {popped remaining : List (StackEntry Nat)},
      c.stack = popped ++ remaining →
        (popped.filter StackEntry.carries).length ≤ c.fragments.length)
    (herror : (c.step (t.parseTable g)).result = .error e) :
    c.queue = [] ∨ ∃ lookahead behind popped remaining fragments,
      c.queue = lookahead :: behind ∧ lookahead :: behind <:+ input
      ∧ c.stack = popped ++ remaining ∧ remaining ≠ []
      ∧ (c.step (t.parseTable g)).config
          = { c with
            queue := behind, stack := remaining, fragments := fragments }
      ∧ ((∃ state,
        e = .unexpectedToken state lookahead.symbol lookahead.token.position)
        ∨ ∃ reason, e = .synthesis reason) := by
  have hkinds := failure_of_onPath h hpath henough e herror
  have hfailure := failure_of_step_error herror
  obtain ⟨key, htrodden, hawaits⟩ := hpath hfailure.going.1
  obtain ⟨top, below, hstack, hkey⟩ := htrodden.exists_top
  generalize (c.step (t.parseTable g)).config = c' at hfailure ⊢
  cases hfailure with
  | exhausted going queue => exact Or.inl queue
  | unexpected going queue stack action =>
      refine Or.inr ⟨_, _, [], c.stack, c.fragments, queue, ?_, rfl,
        htrodden.ne_nil, rfl, Or.inl ⟨_, rfl⟩⟩
      rw [queue] at hawaits
      cases hstack.symm.trans stack
      cases hawaits with
      | input hrest => exact hrest
      | reduced _ hgoes _ _ =>
          -- a reduced symbol would have been shifted
          obtain ⟨target, hshift⟩ := exists_shift h hkey hgoes
          cases hshift.symm.trans action
  | refused going queue stack action rule split bottom symbols
      parts count built =>
      rw [queue] at hawaits
      cases hstack.symm.trans stack
      exact Or.inr ⟨_, _, _, _, _, queue,
        hawaits.input_of_reduce h hkey action, split, bottom,
        rfl, Or.inr ⟨_, rfl⟩⟩
  | _ =>
      rcases hkinds with ⟨_, -, -, _, heq⟩ | ⟨_, heq⟩ | ⟨-, _, _, heq⟩ <;>
        cases heq

/-- An error that can be survived: a token of the input has no action, or a
semantic action is refused. -/
def Bearable (tokens : List Token) (e : ParseError) : Prop :=
  (∃ token ∈ tokens, ∃ state,
    e = .unexpectedToken state token.symbol token.position)
    ∨ ∃ reason, e = .synthesis reason

/-- A step that fails leaves the engine spent, or it could bear the error and
one more token is lost. -/
theorem salvaged_of_step_error (h : (g.buildWith follow limit).result = .ok t)
    (hrun : Continues (t.parseTable g) (start (t.parseTable g) tokens) c)
    {n : Nat}
    (hc : Salvaged g.Produces (start (t.parseTable g) tokens).queue n c)
    (herror : (c.step (t.parseTable g)).result = .error e) :
    Spent (c.step (t.parseTable g)).config
      ∨ Bearable tokens e
        ∧ Salvaged g.Produces (start (t.parseTable g) tokens).queue (n + 1)
            (c.step (t.parseTable g)).config := by
  have hgoing := going_of_step_error herror
  rcases loss_of_step_error h (onPath_of_continues h hrun)
      hrun.provided.carries_le herror with
    hnil | ⟨lookahead, behind, popped, remaining, fragments, queue, hsuffix,
      split, bottom, hconfig, hkind⟩
  · have hspent : Spent c := ⟨hnil, hgoing⟩
    rw [hspent.step]
    exact Or.inl hspent
  · rw [hconfig]
    have htoken := (reduced_of_mem_start (hsuffix.subset List.mem_cons_self)).1
    have hlost := hc.lose queue htoken split bottom fragments
    rcases hkind with ⟨state, rfl⟩ | ⟨reason, rfl⟩
    · rcases List.suffix_concat_iff.mp hsuffix with
        hempty | ⟨front, hfront, htokens⟩
      · cases hempty
      · cases front with
        | nil =>
            -- it was the end of the input that found no action
            obtain ⟨-, rfl⟩ := List.cons.inj hfront
            exact Or.inl ⟨rfl, hgoing⟩
        | cons first others =>
            obtain ⟨rfl, -⟩ := List.cons.inj hfront
            obtain ⟨token, hmem, rfl⟩ :=
              List.mem_map.mp (htokens.subset List.mem_cons_self)
            exact Or.inr ⟨Or.inl ⟨token, hmem, state, rfl⟩, hlost⟩
    · exact Or.inr ⟨Or.inr ⟨reason, rfl⟩, hlost⟩

/-- Behind some errors an engine with a built table is spent, or it could bear
them all and accounts for what is left of the input. -/
theorem salvaged_of_endures (h : (g.buildWith follow limit).result = .ok t)
    {errors : List ParseError}
    (hrun : Endures (t.parseTable g)
      (start (t.parseTable g) tokens) errors c) :
    Spent c ∨ (∀ e ∈ errors, Bearable tokens e)
      ∧ Salvaged g.Produces (start (t.parseTable g) tokens).queue
        errors.length c := by
  induction hrun with
  | refl =>
      refine Or.inr ⟨List.forall_mem_nil _, _, List.Sublist.refl _,
        Nat.le_refl _, ?_⟩
      exact accounts_start g.Produces (t.parseTable g) tokens
  | ok _ hok ih =>
      rcases ih with hspent | ⟨hall, saved, hsublist, hlength, haccounts⟩
      · rw [hspent.step] at hok
        cases hok
      · refine Or.inr ⟨hall, saved, hsublist, hlength, ?_⟩
        exact (move_of_step_ok hok).accounts
          (fun _ _ _ _ _ => produces_of_reduce h) haccounts
  | error hrun herror ih =>
      rcases ih with hspent | ⟨hall, hsalvaged⟩
      · rw [hspent.step]
        exact Or.inl hspent
      · rcases salvaged_of_step_error h hrun.continues hsalvaged herror with
          hspent | ⟨he, hlost⟩
        · exact Or.inl hspent
        · rw [List.forall_mem_append, List.forall_mem_singleton,
            List.length_append]
          exact Or.inr ⟨⟨hall, he⟩, hlost⟩

-- ============================================================ the theorem

/-- Parsing from the first token ends, and with the error of the first step
that fails. If an engine is asked for more steps behind an error that leaves
nothing waiting, no tree comes out. If a tree comes out behind other errors,
each of them was a token of the input without an action or a refused semantic
action, and the start symbol derives what is left of the tokens when some are
left out, at least one for every error. -/
theorem parse_behind_errors (h : (g.build limit).result = .ok t)
    (tokens : List Token) :
    (∀ c e, Reaches (t.parseTable g) (start (t.parseTable g) tokens) c →
      (c.step (t.parseTable g)).result = .error e →
      (∃ steps report, parseWithin steps (t.parseTable g) tokens = some report)
      ∧ ∀ steps report,
        parseWithin steps (t.parseTable g) tokens = some report →
          report.result = .error e)
    ∧ (∀ (c : Configuration Nat) e,
      (c.step (t.parseTable g)).result = .error e →
      (c.step (t.parseTable g)).config.queue = [] →
      ∀ c' root,
        Continues (t.parseTable g) (c.step (t.parseTable g)).config c' →
        c'.finish (t.parseTable g) ≠ .ok root)
    ∧ ∀ errors c root,
      Endures (t.parseTable g) (start (t.parseTable g) tokens) errors c →
      c.finish (t.parseTable g) = .ok root →
      (∀ e ∈ errors, Bearable tokens e)
      ∧ ∃ kept : List Token, kept.Sublist tokens
        ∧ kept.length + errors.length ≤ tokens.length
        ∧ Derives g.Produces [g.startSymbol] (kept.map Token.symbol) := by
  refine ⟨?_, ?_, ?_⟩
  · intro c e hreach herror
    constructor
    · obtain ⟨steps, r, hrun⟩ := hreach.exists_run herror
      exact ⟨steps, _, congrArg (Option.map _) hrun⟩
    · intro steps report
      exact parse_first_error hreach herror
  · intro c e herror hqueue c' root hrun
    have hspent : Spent (c.step (t.parseTable g)).config :=
      ⟨hqueue, (failure_of_step_error herror).going.2⟩
    rw [hspent.eq_of_continues hrun, hspent.finish]
    exact nofun
  · intro errors c root hrun hfinish
    obtain ⟨hend, -⟩ := finish_eq_ok_iff.mp hfinish
    rcases salvaged_of_endures h hrun with hspent | ⟨hall, hsalvaged⟩
    · cases hspent.going.symm.trans hend.completed
    · have hderives :=
        hsalvaged.derives (crowned_of_continues h hrun.continues) hend
      have hstart : (t.parseTable g).startSymbol = g.startSymbol :=
        startSymbol_of_buildWith h
      rw [hstart] at hderives
      exact ⟨hall, hderives⟩

/-- A word that is not expected, in front of a name. -/
def misplaced : List Token :=
  [⟨.keyword, "x", .first⟩, ⟨.identifier, "a", .first⟩]

/-- A grammar of single names compiles, and a step of its engine fails, but the
steps that follow lead to a tree. -/
theorem finish_behind_error :
    ∃ out, (compile ["<S> -> id ~Identifier"]).result = .ok out
      ∧ ∃ e c root,
        ((start (out.table.parseTable out.grammar) misplaced).step
          (out.table.parseTable out.grammar)).result = .error e
        ∧ Continues (out.table.parseTable out.grammar)
          ((start (out.table.parseTable out.grammar) misplaced).step
            (out.table.parseTable out.grammar)).config c
        ∧ c.finish (out.table.parseTable out.grammar) = .ok root := by
  have hsteps : (match (compile ["<S> -> id ~Identifier"]).result with
      | .error _ => false
      | .ok out =>
        let t := out.table.parseTable out.grammar
        let failed := (start t misplaced).step t
        let reduced := (failed.config.step t).config.step t
        match failed.result, reduced.config.finish t with
        | .error _, .ok _ => true
        | _, _ => false) = true := by decide +kernel
  split at hsteps
  · cases hsteps
  · next out hout =>
      dsimp only at hsteps
      split at hsteps
      · next e root hfails hfinish =>
        exact ⟨out, hout, e, _, root, hfails,
          .tail (.tail .refl rfl) rfl, hfinish⟩
      · cases hsteps

/-- A name, and nothing else. -/
def lone : Grammar where
  rules := [⟨"<S>", ["id"], some "Identifier"⟩]
  rules_ne_nil := List.cons_ne_nil _ _

/-- The misplaced word is lost, and the tree of the name that is left comes
out. -/
theorem parse_behind_errors_lone :
    ∃ t, (lone.build 8).result = .ok t ∧ ∃ e c root,
      Endures (t.parseTable lone) (start (t.parseTable lone) misplaced) [e] c
      ∧ c.finish (t.parseTable lone) = .ok root
      ∧ Bearable misplaced e
      ∧ ∃ kept : List Token, kept.Sublist misplaced ∧ kept.length ≤ 1
        ∧ Derives lone.Produces ["<S>"] (kept.map Token.symbol) := by
  have hsteps : (match (lone.build 8).result with
      | .error _ => false
      | .ok t =>
        let pt := t.parseTable lone
        let failed := (start pt misplaced).step pt
        let shifted := failed.config.step pt
        let reduced := shifted.config.step pt
        shifted.result.toOption.isSome && reduced.result.toOption.isSome
          && match failed.result, reduced.config.finish pt with
            | .error _, .ok _ => true
            | _, _ => false) = true := by decide +kernel
  cases hresult : (lone.build 8).result with
  | error e =>
      rw [hresult] at hsteps
      cases hsteps
  | ok t =>
      rw [hresult] at hsteps
      simp only [Bool.and_eq_true] at hsteps
      obtain ⟨⟨hshifted, hreduced⟩, hends⟩ := hsteps
      split at hends
      · next e root hfails hfinish =>
        obtain ⟨_, hok⟩ := step_ok_of_isSome hshifted
        obtain ⟨_, hok'⟩ := step_ok_of_isSome hreduced
        have hrun := ((Endures.refl.error hfails).ok hok).ok hok'
        obtain ⟨hall, kept, hkept, hlength, hderives⟩ :=
          (parse_behind_errors hresult misplaced).2.2 _ _ root hrun hfinish
        exact ⟨t, rfl, e, _, root, hrun, hfinish, hall e List.mem_cons_self,
          kept, hkept, Nat.le_of_add_le_add_right hlength, hderives⟩
      · cases hends

end Grammar

end ShiftReduce
