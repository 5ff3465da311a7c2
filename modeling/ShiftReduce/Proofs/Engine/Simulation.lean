/-
One engine follows another.

What an engine does depends on its table only through the answers that the
table gives. So if the states of two tables can be related in such a way
that related states have the same actions, up to the numbers of the rules,
then the engines over the two tables stay side by side: after every step
they have the same queue and the same fragments, and their stacks differ in
nothing but the states, which are related. This holds of steps that fail as
well, which fail for the same reason.

A simulation is what the tables have to satisfy. One lemma says what it
does for a step, for each outcome that a step may have, and the run is an
induction on the number of steps.
-/
import Mathlib.Data.List.Forall2
import ShiftReduce.Engine.Run

namespace ShiftReduce

variable {σ τ : Type}

-- ============================================================ renaming

def Warning.rename (f : Nat → Nat) (w : Warning) : Warning :=
  { w with rule := f w.rule }

def Step.rename (f : Nat → Nat) : Step → Step
  | shifted symbol => shifted symbol
  | reduced rule left => reduced (f rule) left
  | completed => completed

def TableFault.rename (f : Nat → Nat) : TableFault → TableFault
  | unknownRule rule => unknownRule (f rule)
  | stackMismatch rule expected found => stackMismatch (f rule) expected found
  | fragmentsMissing rule required available =>
      fragmentsMissing (f rule) required available
  | emptyStack => emptyStack
  | incomplete stack input fragments => incomplete stack input fragments

def SynthesisError.rename (f : Nat → Nat) : SynthesisError → SynthesisError
  | unknownAction action rule => unknownAction action (f rule)
  | shape action rule fault children => shape action (f rule) fault children

@[simp] theorem Warning.rename_id : Warning.rename id = id := rfl

@[simp] theorem Step.rename_id (s : Step) : s.rename id = s := by
  cases s <;> rfl

@[simp] theorem TableFault.rename_id (fault : TableFault) :
    fault.rename id = fault := by
  cases fault <;> rfl

@[simp] theorem SynthesisError.rename_id (e : SynthesisError) :
    e.rename id = e := by
  cases e <;> rfl

/-- The node of a reduction does not depend on the number of the rule. -/
theorem reducedNode_rename (f : Nat → Nat) (rule : Nat) (left : Symbol)
    (children : List Fragment) (action : Option String) :
    reducedNode (f rule) left children action
      = match reducedNode rule left children action with
        | .error e => .error (e.rename f)
        | .ok (node, warning) =>
          .ok (node, warning.map (Warning.rename f)) := by
  cases action with
  | none =>
      unfold reducedNode promote
      dsimp only
      split
      · rfl
      · rfl
  | some name =>
      unfold reducedNode synthesize
      dsimp only
      cases builder? name with
      | none => rfl
      | some build =>
          dsimp only
          cases build children with
          | error fault => rfl
          | ok node => rfl

-- =========================================================== agreement

/-- Two actions do the same, with related states and renamed rules. -/
inductive Action.Agrees (S : σ → τ → Prop) (f : Nat → Nat) :
    Action σ → Action τ → Prop where
  | shift {target : σ} {target' : τ} (h : S target target') :
      Agrees S f (.shift target) (.shift target')
  | reduce (rule : Nat) (name : Option String) :
      Agrees S f (.reduce rule name) (.reduce (f rule) name)

/-- Two entries of a stack differ in nothing but their related states. -/
structure StackEntry.Agrees (S : σ → τ → Prop) (e : StackEntry σ)
    (e' : StackEntry τ) : Prop where
  symbol : e.symbol = e'.symbol
  state : S e.state e'.state
  carries : e.carries = e'.carries

/-- Two configurations differ in nothing but the related states on their
stacks. -/
structure Configuration.Agrees (S : σ → τ → Prop) (c : Configuration σ)
    (d : Configuration τ) : Prop where
  queue : c.queue = d.queue
  stack : List.Forall₂ (StackEntry.Agrees S) c.stack d.stack
  fragments : c.fragments = d.fragments
  completed : c.completed = d.completed

/-- Two errors have the same reason. A symbol that is not expected is the same
symbol at the same position, in related states. -/
inductive ParseError.Agrees (t : ParseTable σ) (u : ParseTable τ)
    (S : σ → τ → Prop) (f : Nat → Nat) : ParseError → ParseError → Prop where
  | unexpectedToken {state : σ} {state' : τ}
      (h : S state state') (symbol : Symbol)
      (position : Position) :
      Agrees t u S f (.unexpectedToken (t.stateName state) symbol position)
        (.unexpectedToken (u.stateName state') symbol position)
  | table (fault : TableFault) :
      Agrees t u S f (.table fault) (.table (fault.rename f))
  | synthesis (error : SynthesisError) :
      Agrees t u S f (.synthesis error) (.synthesis (error.rename f))

/-- Two steps have done the same or have failed for the same reason. -/
inductive ResultAgrees (t : ParseTable σ) (u : ParseTable τ) (S : σ → τ → Prop)
    (f : Nat → Nat) :
    Except ParseError Step → Except ParseError Step → Prop where
  | ok (step : Step) : ResultAgrees t u S f (.ok step) (.ok (step.rename f))
  | error {e e' : ParseError} (h : e.Agrees t u S f e') :
      ResultAgrees t u S f (.error e) (.error e')

inductive ParseEvent.Agrees (S : σ → τ → Prop) (f : Nat → Nat) :
    ParseEvent σ → ParseEvent τ → Prop where
  | shift (symbol : Symbol) {target : σ} {target' : τ} (h : S target target') :
      Agrees S f (.shift symbol target) (.shift symbol target')
  | reduce (production : Production) (lookahead : Symbol) :
      Agrees S f (.reduce production lookahead) (.reduce production lookahead)
  | noAction (rule children : Nat) :
      Agrees S f (.noAction rule children) (.noAction (f rule) children)
  | completed : Agrees S f .completed .completed

/-- Two outcomes agree in all that they consist of. -/
structure Outcome.Agrees (t : ParseTable σ) (u : ParseTable τ)
    (S : σ → τ → Prop) (f : Nat → Nat) (o : Outcome σ) (o' : Outcome τ) :
    Prop where
  config : o.config.Agrees S o'.config
  result : ResultAgrees t u S f o.result o'.result
  warning : o'.warning = o.warning.map (Warning.rename f)
  events : List.Forall₂ (ParseEvent.Agrees S f) o.events o'.events

/-- The engines over two tables agree on some tokens: they start with the same
configuration, and step after step, also after one that fails, their outcomes
agree. -/
structure RunsAgree (t : ParseTable σ) (u : ParseTable τ) (S : σ → τ → Prop)
    (f : Nat → Nat) (tokens : List Token) : Prop where
  start :
    (Configuration.start t tokens).Agrees S (Configuration.start u tokens)
  steps : ∀ (keepGoing : Bool) (limit : Nat),
    List.Forall₂ (Outcome.Agrees t u S f)
    ((Configuration.start t tokens).trace t keepGoing limit)
    ((Configuration.start u tokens).trace u keepGoing limit)

/-- The second table answers as the first one, in related states and with
renamed rules. -/
structure Simulates (t : ParseTable σ) (u : ParseTable τ) (S : σ → τ → Prop)
    (f : Nat → Nat) : Prop where
  startSymbol : t.startSymbol = u.startSymbol
  initial : S t.initial u.initial
  action : ∀ {state : σ} {state' : τ}, S state state' → ∀ symbol,
    Option.Rel (Action.Agrees S f) (t.action? state symbol)
      (u.action? state' symbol)
  rule : ∀ index, u.rule? (f index) = t.rule? index

variable {t : ParseTable σ} {u : ParseTable τ}
    {S : σ → τ → Prop} {f : Nat → Nat}

-- ============================================================== stacks

theorem StackEntry.Agrees.symbols {stack : List (StackEntry σ)}
    {stack' : List (StackEntry τ)}
    (h : List.Forall₂ (StackEntry.Agrees S) stack stack') :
    stack.map StackEntry.symbol = stack'.map StackEntry.symbol := by
  induction h with
  | nil => rfl
  | cons hentry _ ih => rw [List.map_cons, List.map_cons, hentry.symbol, ih]

theorem StackEntry.Agrees.carrying {stack : List (StackEntry σ)}
    {stack' : List (StackEntry τ)}
    (h : List.Forall₂ (StackEntry.Agrees S) stack stack') :
    (stack.filter StackEntry.carries).length
      = (stack'.filter StackEntry.carries).length := by
  induction h with
  | nil => rfl
  | cons hentry _ ih =>
      rw [List.filter_cons, List.filter_cons, hentry.carries]
      split
      · rw [List.length_cons, List.length_cons, ih]
      · exact ih

namespace Configuration.Agrees

variable {c : Configuration σ} {d : Configuration τ}

theorem stackSymbols (h : c.Agrees S d) : c.stackSymbols = d.stackSymbols := by
  unfold Configuration.stackSymbols
  rw [StackEntry.Agrees.symbols h.stack]

theorem topMatches (h : c.Agrees S d) (right : List Symbol) :
    c.topMatches right = d.topMatches right := by
  have htop :=
    StackEntry.Agrees.symbols (List.forall₂_take right.length h.stack)
  unfold Configuration.topMatches
  rw [h.stack.length_eq, htop]

theorem isDone (h : c.Agrees S d) : c.isDone = d.isDone := by
  unfold Configuration.isDone
  rw [h.completed, h.queue]

theorem mono {S' : σ → τ → Prop}
    (hS : ∀ state state', S state state' → S' state state')
      (h : c.Agrees S d) : c.Agrees S' d where
  queue := h.queue
  stack := h.stack.imp fun _ _ hentry =>
    ⟨hentry.symbol, hS _ _ hentry.state, hentry.carries⟩
  fragments := h.fragments
  completed := h.completed

/-- Configurations that agree fail in agreement. -/
theorem fail (h : c.Agrees S d) {events : List (ParseEvent σ)}
    {events' : List (ParseEvent τ)}
    (hevents : List.Forall₂ (ParseEvent.Agrees S f) events events')
    {e e' : ParseError} (herror : e.Agrees t u S f e') :
    (c.fail events e).Agrees t u S f (d.fail events' e') where
  config := h
  result := .error herror
  warning := rfl
  events := hevents

theorem shift (h : c.Agrees S d) (lookahead : Queued) {target : σ}
    {target' : τ} (htarget : S target target') :
    (c.shift lookahead target).Agrees t u S f (d.shift lookahead target') where
  config :=
    { queue := h.queue
      stack := .cons ⟨rfl, htarget, rfl⟩ h.stack
      fragments := by
        unfold Configuration.shift
        rw [h.fragments]
      completed := h.completed }
  result := .ok (.shifted lookahead.symbol)
  warning := rfl
  events := .cons (.shift lookahead.symbol htarget) .nil

end Configuration.Agrees

-- =============================================================== steps

namespace Simulates

variable {c : Configuration σ} {d : Configuration τ}

/-- Parsing starts in agreement. -/
theorem start (h : Simulates t u S f) (tokens : List Token) :
    (Configuration.start t tokens).Agrees S
      (Configuration.start u tokens) where
  queue := rfl
  stack := .cons ⟨h.startSymbol, h.initial, rfl⟩ .nil
  fragments := rfl
  completed := rfl

/-- What a reduction leaves behind that has built its node. -/
theorem reduced (h : Simulates t u S f) (hc : c.Agrees S d)
    {begun : List (ParseEvent σ)} {begun' : List (ParseEvent τ)}
    (hbegun : List.Forall₂ (ParseEvent.Agrees S f) begun begun')
    (lookahead : Queued) (index : Nat) (left : Symbol) (node : Option Node)
    (warning : Option Warning) :
    Outcome.Agrees t u S f
      { config := c.requeue t lookahead left node
        result := .ok (if (c.requeue t lookahead left node).completed
          then .completed
          else .reduced index left)
        warning := warning
        events :=
          begun ++ warning.toList.map (fun w => .noAction w.rule w.children)
          ++ if (c.requeue t lookahead left node).completed then [.completed]
            else [] }
      { config := d.requeue u lookahead left node
        result := .ok (if (d.requeue u lookahead left node).completed
          then .completed
          else .reduced (f index) left)
        warning := warning.map (Warning.rename f)
        events := begun'
          ++ (warning.map (Warning.rename f)).toList.map
            (fun w => .noAction w.rule w.children)
          ++ if (d.requeue u lookahead left node).completed then [.completed]
            else [] } := by
  have hnext : (c.requeue t lookahead left node).Agrees S
      (d.requeue u lookahead left node) := by
    unfold Configuration.requeue
    rw [h.startSymbol, hc.queue, hc.fragments]
    exact ⟨rfl, hc.stack, rfl, rfl⟩
  have hreported : List.Forall₂ (ParseEvent.Agrees S f)
      (warning.toList.map fun w => .noAction w.rule w.children)
      ((warning.map (Warning.rename f)).toList.map fun w =>
        .noAction w.rule w.children) := by
    cases warning with
    | none => exact .nil
    | some w => exact .cons (.noAction w.rule w.children) .nil
  have hevents := List.rel_append hbegun hreported
  rw [← hnext.completed]
  refine ⟨hnext, ?_, rfl, ?_⟩
  · dsimp only
    split
    · exact .ok .completed
    · exact .ok (.reduced index left)
  · dsimp only
    split
    · exact List.rel_append hevents (.cons .completed .nil)
    · exact List.rel_append hevents .nil

/-- A reduction takes the same entries and fragments on both sides and makes
the same node of them, or fails at the same point. -/
theorem reduce (h : Simulates t u S f) (hc : c.Agrees S d) (lookahead : Queued)
    (index : Nat) (action : Option String) :
    (c.reduce t lookahead index action).Agrees t u S f
      (d.reduce u lookahead (f index) action) := by
  unfold Configuration.reduce
  rw [h.rule]
  cases t.rule? index with
  | none => exact hc.fail .nil (.table (.unknownRule index))
  | some p =>
      have hbegun :
          List.Forall₂ (ParseEvent.Agrees S f) [.reduce p lookahead.symbol]
          [.reduce p lookahead.symbol] :=
            .cons (.reduce p lookahead.symbol) .nil
      have htop := List.forall₂_take p.right.length hc.stack
      have hrest := List.forall₂_drop p.right.length hc.stack
      dsimp only
      rw [← hc.topMatches p.right, ← hc.stackSymbols,
        ← StackEntry.Agrees.carrying htop, ← hc.fragments]
      split
      · exact hc.fail hbegun
          (.table (.stackMismatch index p.right c.stackSymbols))
      · split
        · refine Configuration.Agrees.fail ?_ hbegun
            (.table (.fragmentsMissing index _ _))
          exact ⟨hc.queue, hrest, rfl, hc.completed⟩
        · generalize (c.fragments.take _).reverse = children
          generalize c.fragments.drop _ = fragments
          have hemptied : Configuration.Agrees S
              { c with
                stack := c.stack.drop p.right.length
                fragments := fragments }
              { d with
                stack := d.stack.drop p.right.length
                fragments := fragments } :=
            ⟨hc.queue, hrest, rfl, hc.completed⟩
          rw [reducedNode_rename]
          cases reducedNode index p.left children action with
          | error e => exact hemptied.fail hbegun (.synthesis e)
          | ok built =>
              exact h.reduced hemptied hbegun lookahead index
                p.left built.1 built.2

/-- A step of one engine is a step of the other. -/
theorem step (h : Simulates t u S f) (hc : c.Agrees S d) :
    (c.step t).Agrees t u S f (d.step u) := by
  obtain ⟨queue, stack, fragments, completed⟩ := c
  obtain ⟨queue', stack', fragments', completed'⟩ := d
  have hsymbols := hc.stackSymbols
  obtain ⟨rfl, hstack, rfl, rfl⟩ := id hc
  unfold Configuration.step
  dsimp only
  split
  · exact ⟨hc, .ok .completed, rfl, .nil⟩
  · cases queue with
    | nil =>
        dsimp only
        rw [← hsymbols]
        exact hc.fail .nil (.table (.incomplete _ [] fragments.length))
    | cons lookahead behind =>
        have htaken : Configuration.Agrees S ⟨behind, stack,
            fragments, completed⟩
            ⟨behind, stack', fragments, completed⟩ := ⟨rfl, hstack, rfl, rfl⟩
        cases hstack with
        | nil => exact htaken.fail .nil (.table .emptyStack)
        | @cons top top' below below' htop _ =>
            have haction := h.action htop.state lookahead.symbol
            dsimp only
            generalize t.action? top.state lookahead.symbol
              = found at haction ⊢
            generalize u.action? top'.state lookahead.symbol
              = found' at haction ⊢
            cases haction with
            | none =>
                exact htaken.fail .nil
                  (.unexpectedToken htop.state lookahead.symbol
                  lookahead.token.position)
            | some hagrees =>
                cases hagrees with
                | shift htarget => exact htaken.shift lookahead htarget
                | reduce index name =>
                    exact h.reduce htaken lookahead index name

/-- The engines stay side by side, step after step. -/
theorem trace (h : Simulates t u S f) (keepGoing : Bool) (limit : Nat)
    (hc : c.Agrees S d) :
    List.Forall₂ (Outcome.Agrees t u S f) (c.trace t keepGoing limit)
      (d.trace u keepGoing limit) := by
  induction limit generalizing c d with
  | zero => exact .nil
  | succ limit ih =>
      have hstep := h.step hc
      unfold Configuration.trace
      rw [← hc.isDone]
      split
      · exact .nil
      · have hresult := hstep.result
        refine .cons hstep ?_
        generalize (c.step t).result = result at hresult ⊢
        generalize (d.step u).result = result' at hresult ⊢
        cases hresult with
        | ok _ => exact ih hstep.config
        | error _ =>
            cases keepGoing with
            | true => exact ih hstep.config
            | false => exact .nil

theorem runs (h : Simulates t u S f) (tokens : List Token) :
    RunsAgree t u S f tokens where
  start := h.start tokens
  steps := fun keepGoing limit => h.trace keepGoing limit (h.start tokens)

end Simulates

end ShiftReduce
