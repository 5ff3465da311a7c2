/-
The fragments are the values of the forest.

A configuration has no record of which fragment belongs to which symbol,
only a flag with every symbol. `Labels` ties the two together: every symbol
has the tree that the forest holds in its place, its flag says whether the
tree has a value, and the fragments are the values of the trees on the
stack with the value of the reduced symbol at the head of the queue on
top. That only the head of the queue can be reduced is part of it, and is
where the table matters: were it to reduce on a symbol that is itself the
left-hand side of a rule, two reduced symbols would wait, and the fragment
of the one would lie below the other's children.

A reduction keeps this up because the flags count the values: the fragments
that it takes off are as many as the values of the trees that it takes off,
so they are those values.
-/
import Mathlib.Data.List.Forall2
import ShiftReduce.Proofs.Derivation
import ShiftReduce.Proofs.Engine.Balance
import ShiftReduce.Proofs.Engine.ParseTree

namespace ShiftReduce

variable {σ : Type}

open ShiftReduce.Configuration

/-- A table that never reduces on a symbol which is the left-hand side of
one of its rules. -/
def ParseTable.ShiftsLeftSides (t : ParseTable σ) : Prop :=
  ∀ state symbol index action,
    t.action? state symbol = some (.reduce index action) →
    ∀ p, t.Produces p → p.left ≠ symbol

-- ============================================================== labels

/-- A tree is that of an entry of the stack: it has the symbol of the entry,
and a value if the entry carries a fragment. -/
def StackEntry.HasTree (entry : StackEntry σ) (tree : ParseTree) : Prop :=
  entry.symbol = tree.symbol ∧ entry.carries = tree.value.isSome

/-- A tree is that of a symbol in the queue: it has the symbol, and a value
if the symbol is significant; and it is a leaf if the symbol comes from the
input. -/
def Queued.HasTree (q : Queued) (tree : ParseTree) : Prop :=
  q.symbol = tree.symbol ∧ q.significant = tree.value.isSome
    ∧ (q.reduced = false → tree = .leaf q.token)

theorem Queued.hasTree_ofToken (token : Token) :
    (ofToken token).HasTree (.leaf token) :=
  ⟨rfl, (ParseTree.isSome_value_leaf token).symm, fun _ => rfl⟩

/-- A forest with its warnings is that of a configuration. -/
structure Labels (t : ParseTable σ) (tokens : List Token) (c : Configuration σ)
    (f : Forest) (ws : List Warning) : Prop where
  stack : ∃ above, c.stack = above ++ [t.bottom]
    ∧ List.Forall₂ StackEntry.HasTree above f.stack
  queue : List.Forall₂ Queued.HasTree c.queue f.queue
  /-- Behind the head of the queue there is only input. -/
  input : ∀ q ∈ c.queue.tail, q.reduced = false
  produced : ∀ q ∈ c.queue, q.reduced = true →
    ∃ p, t.Produces p ∧ p.left = q.symbol
  completed : c.completed = true →
    ∃ head behind, c.queue = head :: behind ∧ head.reduced = true
  fragments : c.fragments = f.waiting c ++ f.stack.filterMap ParseTree.value
  leaves : f.trees.flatMap ParseTree.leaves
    = tokens ++ [Token.endAt (endPosition tokens)]
  warnings : f.trees.flatMap ParseTree.warnings = ws

/-- The entries that carry a fragment are as many as the values of their
trees. -/
theorem length_filterMap_value {entries : List (StackEntry σ)}
    {trees : List ParseTree}
    (h : List.Forall₂ StackEntry.HasTree entries trees) :
    (trees.filterMap ParseTree.value).length
      = (entries.filter StackEntry.carries).length := by
  induction h with
  | nil => rfl
  | @cons entry tree _ _ hentry _ ih =>
      obtain ⟨-, hcarries⟩ := hentry
      cases hvalue : tree.value with
      | none => simp [hcarries, hvalue, ih]
      | some fragment => simp [hcarries, hvalue, ih]

/-- If fragments are the values of some trees, and so many of them are cut
off as the entries of the first trees carry, the cut separates the values of
the first trees from those of the others. -/
theorem values_of_parts {entries : List (StackEntry σ)}
    {taken left : List ParseTree} {children fragments : List Fragment}
    (htaken : List.Forall₂ StackEntry.HasTree entries taken)
    (count : children.length = (entries.filter StackEntry.carries).length)
    (h : children.reverse ++ fragments
      = (taken ++ left).filterMap ParseTree.value) :
    taken.filterMap ParseTree.value = children.reverse
      ∧ left.filterMap ParseTree.value = fragments := by
  rw [List.filterMap_append] at h
  have hlen : children.reverse.length
      = (taken.filterMap ParseTree.value).length := by
    rw [List.length_reverse, count, length_filterMap_value htaken]
  obtain ⟨h1, h2⟩ := List.append_inj h hlen
  exact ⟨h1.symm, h2.symm⟩

/-- Input deserves no warnings. -/
theorem warnings_of_input {queue : List Queued} {trees : List ParseTree}
    (h : List.Forall₂ Queued.HasTree queue trees)
    (input : ∀ q ∈ queue, q.reduced = false) :
    trees.flatMap ParseTree.warnings = [] := by
  induction h with
  | nil => rfl
  | @cons q _ _ _ hq _ ih =>
      obtain rfl := hq.2.2 (input q List.mem_cons_self)
      rw [List.flatMap_cons, ParseTree.warnings, List.nil_append]
      exact ih fun q' hq' => input q' (List.mem_cons_of_mem _ hq')

/-- If input is at the head of the queue, no value waits. -/
theorem Forest.waiting_of_input {c : Configuration σ} {f : Forest}
    (h : ∀ q ∈ c.queue.head?, q.reduced = false) : f.waiting c = [] := by
  unfold Forest.waiting
  split
  · next head behind tree trees hq hf =>
    rw [if_neg]
    rw [h head (by rw [hq]; rfl)]
    exact Bool.false_ne_true
  · rfl

-- ============================================================ the start

/-- At the start every symbol has its leaf. -/
theorem labels_start (t : ParseTable σ) (tokens : List Token) :
    Labels t tokens (.start t tokens) (.ofTokens tokens) [] := by
  have hinput : ∀ q ∈ (start t tokens).queue, q.reduced = false :=
    fun q hq => (reduced_of_mem_start hq).1
  have hqueue : List.Forall₂ Queued.HasTree (start t tokens).queue
      (Forest.ofTokens tokens).queue := by
    refine List.rel_append ?_ (.cons (Queued.hasTree_ofToken _) .nil)
    rw [List.forall₂_map_left_iff, List.forall₂_map_right_iff,
      List.forall₂_same]
    exact fun token _ => Queued.hasTree_ofToken token
  refine ⟨⟨[], rfl, .nil⟩, hqueue,
    fun q hq => hinput q (List.mem_of_mem_tail hq), ?_, ?_, ?_, ?_, ?_⟩
  · intro q hq hreduced
    rw [hinput q hq] at hreduced
    cases hreduced
  · intro hdone
    cases hdone
  · rw [Forest.waiting_of_input fun q hq =>
      hinput q (List.mem_of_mem_head? hq)]
    rfl
  · have hleaf : ∀ token : Token, (ParseTree.leaf token).leaves = [token] :=
        fun token => by
      rw [ParseTree.leaves]
    simp [Forest.trees, Forest.ofTokens, List.flatMap_append,
      List.flatMap_map, hleaf]
  · exact warnings_of_input hqueue hinput

-- ============================================================== moves

/-- What a shift does to a forest. -/
theorem Forest.grow_of_shift {t : ParseTable σ} {c : Configuration σ}
    {lookahead : Queued} {behind : List Queued} {top : StackEntry σ}
    {below : List (StackEntry σ)} {target : σ} (f : Forest)
    (going : c.completed = false) (queue : c.queue = lookahead :: behind)
    (stack : c.stack = top :: below)
    (action : t.action? top.state lookahead.symbol = some (.shift target)) :
    f.grow t c = f.shift := by
  unfold grow
  rw [going, queue, stack]
  simp only [Bool.false_eq_true, if_false, action]

/-- What a reduction does to a forest. -/
theorem Forest.grow_of_reduce {t : ParseTable σ} {c : Configuration σ}
    {lookahead : Queued} {behind : List Queued} {top : StackEntry σ}
    {below : List (StackEntry σ)} {index : Nat} {name : Option String}
    {p : Production} (f : Forest) (going : c.completed = false)
    (queue : c.queue = lookahead :: behind) (stack : c.stack = top :: below)
    (action : t.action? top.state lookahead.symbol = some (.reduce index name))
    (rule : t.rule? index = some p) : f.grow t c = f.reduce index p name := by
  unfold grow
  rw [going, queue, stack]
  simp only [Bool.false_eq_true, if_false, action, rule]

/-- The value of the symbol that is shifted joins those on the stack,
whether it waited or comes with the symbol. -/
private theorem shifted_values {lookahead : Queued} {tree : ParseTree}
    (h : lookahead.HasTree tree) (rest : List Fragment) :
    (if lookahead.significant && !lookahead.reduced
      then .token lookahead.token
        :: ((if lookahead.reduced then tree.value.toList else []) ++ rest)
      else (if lookahead.reduced then tree.value.toList else []) ++ rest)
      = tree.value.toList ++ rest := by
  obtain ⟨-, hsignificant, hleaf⟩ := h
  cases hreduced : lookahead.reduced with
  | true => simp
  | false =>
      obtain rfl := hleaf hreduced
      rw [ParseTree.isSome_value_leaf] at hsignificant
      rw [hsignificant, ParseTree.value]
      cases lookahead.token.isSignificant <;> rfl

/-- A shift keeps the labels: the tree moves with its symbol. -/
theorem Labels.shift {t : ParseTable σ} {tokens : List Token}
    {c : Configuration σ} {f : Forest} {ws : List Warning}
    (h : Labels t tokens c f ws) {lookahead : Queued} {behind : List Queued}
    (queue : c.queue = lookahead :: behind) (target : σ) :
    Labels t tokens
      { queue := behind
        stack := ⟨lookahead.symbol, target, lookahead.significant⟩ :: c.stack
        fragments :=
          if lookahead.significant && !lookahead.reduced
          then .token lookahead.token :: c.fragments else c.fragments
        completed := false }
      f.shift ws := by
  obtain ⟨above, habove, hstack⟩ := h.stack
  have hqueue := h.queue
  rw [queue] at hqueue
  obtain ⟨tree, trees, htree, htrees, hf⟩ :=
    List.forall₂_cons_left_iff.mp hqueue
  have hbehind : ∀ q ∈ behind, q.reduced = false := by
    have hinput := h.input
    rw [queue] at hinput
    exact hinput
  have hshift : f.shift = ⟨tree :: f.stack, trees⟩ := by
    unfold Forest.shift
    rw [hf]
  have htreesEq : f.shift.trees = f.trees := by
    rw [hshift]
    simp [Forest.trees, hf]
  refine ⟨⟨⟨lookahead.symbol, target, lookahead.significant⟩ :: above, ?_, ?_⟩,
    ?_, ?_, ?_, ?_, ?_, ?_, ?_⟩
  · rw [habove]
    rfl
  · rw [hshift]
    exact .cons ⟨htree.1, htree.2.1⟩ hstack
  · rw [hshift]
    exact htrees
  · exact fun q hq => hbehind q (List.mem_of_mem_tail hq)
  · exact fun q hq =>
      h.produced q (by rw [queue]; exact List.mem_cons_of_mem _ hq)
  · intro hdone
    cases hdone
  · -- what waited is on the stack now, and only input waits
    rw [Forest.waiting_of_input fun q hq =>
      hbehind q (List.mem_of_mem_head? hq), hshift, List.nil_append,
        List.filterMap_cons]
    have hfragments := h.fragments
    unfold Forest.waiting at hfragments
    rw [queue, hf] at hfragments
    simp only at hfragments ⊢
    rw [hfragments, shifted_values htree]
    cases tree.value <;> rfl
  · rw [htreesEq]
    exact h.leaves
  · rw [htreesEq]
    exact h.warnings

/-- A reduction makes a tree of the trees of the entries that are taken off,
and leaves those of the others. -/
theorem Forest.reduce_of_split (f : Forest)
    {popped below : List (StackEntry σ)}
    (hstack : List.Forall₂ StackEntry.HasTree (popped ++ below) f.stack)
    {p : Production} (hlen : p.right.length = popped.length) (index : Nat)
    (name : Option String) :
    ∃ taken left, f.stack = taken ++ left
      ∧ List.Forall₂ StackEntry.HasTree popped taken
      ∧ List.Forall₂ StackEntry.HasTree below left
      ∧ f.reduce index p name
        = ⟨left, .inner index p.left name taken.reverse :: f.queue⟩ := by
  refine ⟨_, _, (List.take_append_drop p.right.length f.stack).symm,
    ?_, ?_, rfl⟩
  · have htake := List.forall₂_take p.right.length hstack
    rwa [hlen, List.take_left, ← hlen] at htake
  · have hdrop := List.forall₂_drop p.right.length hstack
    rwa [hlen, List.drop_left, ← hlen] at hdrop

/-- A reduction keeps the labels, if its lookahead is input: the fragments
that it takes off are the values of the trees that it takes off. -/
theorem Labels.reduce {t : ParseTable σ} {tokens : List Token}
    {c : Configuration σ} {f : Forest} {ws : List Warning}
    (h : Labels t tokens c f ws) {lookahead : Queued} {behind : List Queued}
    (queue : c.queue = lookahead :: behind)
    (hlookahead : lookahead.reduced = false)
    {popped remaining : List (StackEntry σ)}
    {children fragments : List Fragment} {index : Nat} {name : Option String}
    {p : Production} {node : Option Node} {warning : Option Warning}
    (rule : t.rule? index = some p) (split : c.stack = popped ++ remaining)
    (bottom : remaining ≠ [])
    (symbols : (popped.map StackEntry.symbol).reverse = p.right)
    (parts : c.fragments = children.reverse ++ fragments)
    (count : children.length = (popped.filter StackEntry.carries).length)
    (built : reducedNode index p.left children name = .ok (node, warning)) :
    Labels t tokens
      { queue :=
          ⟨p.left, lookahead.token, node.isSome, true⟩ :: lookahead :: behind
        stack := remaining
        fragments := node.toList.map .node ++ fragments
        completed := p.left == t.startSymbol }
      (f.reduce index p name) (ws ++ warning.toList) := by
  obtain ⟨above, habove, hstack⟩ := h.stack
  obtain ⟨below, rfl, rfl⟩ := above_of_split (habove.symm.trans split) bottom
  have hinput : ∀ q ∈ lookahead :: behind, q.reduced = false := by
    intro q hq
    rcases List.mem_cons.mp hq with rfl | hq
    · exact hlookahead
    · exact h.input q (by rw [queue]; exact hq)
  have hlen : p.right.length = popped.length := by
    rw [← symbols, List.length_reverse, List.length_map]
  obtain ⟨taken, left, hf, htaken, hleft, hreduce⟩ :=
    f.reduce_of_split hstack hlen index name
  -- so the fragments are the values, for both
  have hvalues : taken.filterMap ParseTree.value = children.reverse
      ∧ left.filterMap ParseTree.value = fragments := by
    refine values_of_parts htaken count ?_
    rw [← parts, h.fragments, hf,
      Forest.waiting_of_input (by rw [queue]; simp [hlookahead]),
      List.nil_append]
  have hchildren : taken.reverse.filterMap ParseTree.value = children := by
    rw [List.filterMap_reverse, hvalues.1, List.reverse_reverse]
  rw [← hchildren] at built
  obtain ⟨hvalue, hwarning⟩ := ParseTree.of_reducedNode built
  rw [hreduce]
  refine ⟨⟨below, rfl, hleft⟩, ?_, hinput, ?_, ?_, ?_, ?_, ?_⟩
  · refine .cons ⟨rfl, ?_, fun hno => by cases hno⟩ (queue ▸ h.queue)
    rw [hvalue, Option.isSome_map]
  · intro q hq hreduced
    rcases List.mem_cons.mp hq with rfl | hq
    · exact ⟨p, ⟨index, rule⟩, rfl⟩
    · rw [hinput q hq] at hreduced
      cases hreduced
  · exact fun _ => ⟨_, _, rfl, rfl⟩
  · rw [hvalues.2]
    simp only [Forest.waiting, hvalue, if_true]
    cases node <;> rfl
  · have hleaves := h.leaves
    simp only [Forest.trees, hf, List.reverse_append, List.flatMap_append,
      List.flatMap_cons, ParseTree.leaves, List.append_assoc] at hleaves ⊢
    exact hleaves
  · have hwarnings := h.warnings
    have hnone : f.queue.flatMap ParseTree.warnings = [] :=
      warnings_of_input (queue ▸ h.queue) hinput
    simp only [Forest.trees, hf, List.reverse_append, List.flatMap_append,
      List.flatMap_cons, ParseTree.warnings, hnone, List.append_nil, hwarning]
      at hwarnings ⊢
    rw [← hwarnings]
    simp only [List.append_assoc]

/-- Every step that succeeds keeps the labels. -/
theorem Labels.step {t : ParseTable σ} (hleft : t.ShiftsLeftSides)
    {tokens : List Token} {c : Configuration σ} {f : Forest}
    {ws : List Warning} (h : Labels t tokens c f ws) {s : Step}
    (ok : (c.step t).result = .ok s) :
    Labels t tokens (c.step t).config (f.grow t c)
      (ws ++ (c.step t).warning.toList) := by
  have hmove := move_of_step_ok ok
  generalize (c.step t).config = c' at hmove ⊢
  generalize (c.step t).warning = warning at hmove ⊢
  cases hmove with
  | rest done =>
      unfold Forest.grow
      rw [if_pos done, Option.toList_none, List.append_nil]
      exact h
  | shift going queue stack action =>
      rw [Forest.grow_of_shift f going queue stack action,
        Option.toList_none, List.append_nil]
      exact h.shift queue _
  | @reduce lookahead behind _ _ _ _ _ _ _ _ p _ _ going queue stack
      action rule split bottom
      symbols parts count built =>
      rw [Forest.grow_of_reduce f going queue stack action rule]
      have hlookahead : lookahead.reduced = false := by
        refine Bool.eq_false_iff.mpr fun hreduced => ?_
        have hmem : lookahead ∈ c.queue := by
          rw [queue]; exact List.mem_cons_self
        obtain ⟨p', hp', hp's⟩ := h.produced lookahead hmem hreduced
        exact hleft _ _ _ _ action p' hp' hp's
      exact h.reduce queue hlookahead rule split bottom
        symbols parts count built

-- ================================================================= runs

/-- Every configuration of a run without failed steps is labelled by its
forest. -/
theorem Grows.labels {t : ParseTable σ} (hleft : t.ShiftsLeftSides)
    {tokens : List Token} {c : Configuration σ} {f : Forest}
    {ws : List Warning} (h : Grows t tokens c f ws) :
    Labels t tokens c f ws := by
  induction h with
  | start => exact labels_start t tokens
  | step _ ok ih => exact ih.step hleft ok

/-- Every configuration that is reached has a forest. -/
theorem Configuration.Reaches.grows {t : ParseTable σ} {tokens : List Token}
    {c : Configuration σ} (h : Reaches t (start t tokens) c) :
    ∃ f ws, Grows t tokens c f ws := by
  induction h with
  | refl => exact ⟨_, _, .start⟩
  | tail _ hlast ih =>
      obtain ⟨s, ok, rfl⟩ := hlast
      obtain ⟨f, ws, hgrows⟩ := ih
      exact ⟨_, _, hgrows.step ok⟩

/-- Steps that are taken until nothing is left to do carry the forest on,
and report the warnings. -/
theorem Grows.run {t : ParseTable σ} {tokens : List Token} {limit : Nat}
    {c : Configuration σ} {f : Forest} {ws : List Warning}
    (hgrows : Grows t tokens c f ws) {r : Run σ} (h : c.run t limit = some r)
    (ok : r.error = none) :
    ∃ f', Grows t tokens r.config f' (ws ++ r.warnings) :=
  run_induction (I := fun c ws => ∃ f, Grows t tokens c f ws)
    (fun ⟨_, hgrows⟩ hs => ⟨_, hgrows.step hs⟩) ws ⟨f, hgrows⟩ h ok

/-- In a configuration that is finished with success, the tree of the start
symbol has the node that is left for its value, the tokens for its leaves,
and deserves the warnings that were given. -/
theorem Labels.of_finish_ok [DecidableEq σ] {t : ParseTable σ}
    {tokens : List Token} {c : Configuration σ} {f : Forest}
    {ws : List Warning} (h : Labels t tokens c f ws) {root : Node}
    (hfinish : c.finish t = .ok root) :
    ∃ tree, f.stack = [] ∧ f.queue.head? = some tree
      ∧ tree.symbol = t.startSymbol
      ∧ tree.value = some (.node root) ∧ tree.leaves = tokens
      ∧ tree.warnings = ws := by
  obtain ⟨hdone, hfragments, ⟨bottom, stack⟩, head, last, queue, hhead, -⟩ :=
    Configuration.of_finish_ok hfinish
  have hstack : f.stack = [] := by
    obtain ⟨above, habove, hlabels⟩ := h.stack
    have hlen := congrArg List.length (habove.symm.trans stack)
    simp only [List.length_append, List.length_cons, List.length_nil] at hlen
    obtain rfl := List.length_eq_zero_iff.mp (show above.length = 0 by omega)
    exact List.forall₂_nil_left_iff.mp hlabels
  have hqueue := h.queue
  rw [queue] at hqueue
  obtain ⟨tree, rest, htree, hrest, hf⟩ := List.forall₂_cons_left_iff.mp hqueue
  obtain ⟨final, nothing, hfinal, hnothing, rfl⟩ :=
    List.forall₂_cons_left_iff.mp hrest
  obtain rfl := List.forall₂_nil_left_iff.mp hnothing
  have hreduced : head.reduced = true := by
    obtain ⟨head', behind, heq, hreduced⟩ := h.completed hdone
    rw [queue] at heq
    cases heq
    exact hreduced
  have hinput : last.reduced = false :=
    h.input last (by rw [queue]; exact List.mem_cons_self)
  obtain rfl := hfinal.2.2 hinput
  refine ⟨tree, hstack, by rw [hf]; rfl, by rw [← hhead]; exact htree.1.symm,
    ?_, ?_, ?_⟩
  · have hvalues := h.fragments
    rw [hfragments, hstack] at hvalues
    simp only [Forest.waiting, queue, hf, hreduced, if_true,
      List.filterMap_nil, List.append_nil] at hvalues
    cases hvalue : tree.value with
    | none => rw [hvalue] at hvalues; cases hvalues
    | some fragment =>
        rw [hvalue] at hvalues
        exact congrArg some (List.cons.inj hvalues).1.symm
  · have hleaves := h.leaves
    have hleaf : (ParseTree.leaf last.token).leaves = [last.token] := by
      rw [ParseTree.leaves]
    simp only [Forest.trees, hstack, hf, List.reverse_nil, List.nil_append,
      List.flatMap_cons, List.flatMap_nil, List.append_nil, hleaf] at hleaves
    exact (List.append_inj' hleaves rfl).1
  · have hwarnings := h.warnings
    have hleaf : (ParseTree.leaf last.token).warnings = [] := by
      rw [ParseTree.warnings]
    simpa only [Forest.trees, hstack, hf, List.reverse_nil, List.nil_append,
      List.flatMap_cons, List.flatMap_nil, List.append_nil, hleaf]
      using hwarnings

end ShiftReduce
