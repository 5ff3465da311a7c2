/-
The trees on the fragment stack.

The nodes among the fragments have all been left by reductions: by a semantic
action, which makes a well-formed node of well-formed fragments, or by a rule
without one, which passes on a node that it has been given. A step that fails
only takes fragments away. So under every table, and also when an engine is
asked for steps behind an error, every node among the fragments is well formed
at every depth, and so is the tree that a parse returns.
-/
import ShiftReduce.Proofs.Engine.Failure
import ShiftReduce.Proofs.Synthesis.WellFormed

namespace ShiftReduce

variable {σ : Type}

/-- What a rule without a semantic action passes on is one of its fragments. -/
theorem mem_of_promote {rule : Nat} {left : Symbol} {children : List Fragment}
    {node : Node} (h : (promote rule left children).1 = some node) :
    .node node ∈ children := by
  have hfirst : (children.filterMap Fragment.node?).head? = some node := by
    unfold promote at h
    dsimp only at h
    split at h
    · exact h
    · exact h
  obtain ⟨f, hf, hnode⟩ := List.mem_filterMap.mp (List.mem_of_mem_head? hfirst)
  cases f with
  | token => cases hnode
  | node n =>
      cases hnode
      exact hf

/-- A reduction leaves a well-formed node. -/
theorem wellFormed_of_reducedNode {rule : Nat} {left : Symbol}
    {children : List Fragment} {action : Option String} {node : Node}
    {warning : Option Warning} (hc : ∀ f ∈ children, f.WellFormed)
    (h : reducedNode rule left children action = .ok (some node, warning)) :
    node.WellFormed := by
  unfold reducedNode at h
  split at h
  · split at h
    · next hbuilt =>
        cases h
        exact wellFormed_of_synthesize hc hbuilt
    · cases h
  · have hnode : (promote rule left children).1 = some node := by
      rw [Except.ok.inj h]
    exact hc _ (mem_of_promote hnode)

namespace Configuration

/-- The nodes among the fragments are well formed. -/
def WellFormed (c : Configuration σ) : Prop := ∀ f ∈ c.fragments, f.WellFormed

theorem wellFormed_start (t : ParseTable σ) (tokens : List Token) :
    (start t tokens).WellFormed :=
  List.forall_mem_nil _

theorem WellFormed.of_subset {c c' : Configuration σ} (hc : c.WellFormed)
    (h : c'.fragments ⊆ c.fragments) : c'.WellFormed :=
  fun f hf => hc f (h hf)

end Configuration

open ShiftReduce.Configuration

/-- A move adds a token, or puts a node in place of what it was made from. -/
theorem Move.wellFormed {t : ParseTable σ} {c c' : Configuration σ}
    {w : Option Warning} (h : Move t c c' w) (hc : c.WellFormed) :
    c'.WellFormed := by
  cases h with
  | rest done => exact hc
  | shift going queue stack action =>
      intro f hf
      dsimp only at hf
      split at hf
      · rcases List.mem_cons.mp hf with rfl | hf
        · trivial
        · exact hc f hf
      · exact hc f hf
  | reduce going queue stack action rule split bottom symbols
      parts count built =>
      rename_i lookahead behind top below popped remaining children
        fragments index name p node
      have hfragments : ∀ f ∈ children.reverse ++ fragments, f.WellFormed :=
        parts ▸ hc
      obtain ⟨hchildren, hrest⟩ := List.forall_mem_append.mp hfragments
      refine List.forall_mem_append.mpr ⟨fun f hf => ?_, hrest⟩
      obtain ⟨n, hn, rfl⟩ := List.mem_map.mp hf
      obtain rfl := Option.mem_toList.mp hn
      exact wellFormed_of_reducedNode
        (fun f hf => hchildren f (List.mem_reverse.mpr hf)) built

/-- A failure leaves fragments that were there. -/
theorem Failure.wellFormed {t : ParseTable σ} {c c' : Configuration σ}
    {e : ParseError} (h : Failure t c c' e) (hc : c.WellFormed) :
    c'.WellFormed := by
  cases h with
  | refused going queue stack action rule split bottom symbols
      parts count built =>
      refine hc.of_subset ?_
      rw [parts]
      exact List.subset_append_right _ _
  | _ => exact hc

theorem Configuration.Continues.wellFormed {t : ParseTable σ}
    {tokens : List Token} {c : Configuration σ}
    (h : Continues t (start t tokens) c) : c.WellFormed :=
  h.preserves Move.wellFormed Failure.wellFormed (wellFormed_start t tokens)

/-- The tree of a configuration that is a success is its only fragment. -/
theorem Configuration.WellFormed.finish [DecidableEq σ] {t : ParseTable σ}
    {c : Configuration σ} {root : Node} (hc : c.WellFormed)
    (h : c.finish t = .ok root) : root.WellFormed := by
  obtain ⟨-, hfragments, -, -⟩ := of_finish_ok h
  exact hc (.node root) (hfragments ▸ List.mem_singleton_self _)

-- ============================================================ the theorem

/-- Trees are well formed. Under every table and on every input, and however
often an engine is asked for a step, whether or not steps fail on the way, the
nodes among the fragments are tidy at every depth: no list is an item of a
sequence, the callee or an argument of a call, or a part of a control
statement, and the branches of alternatives and the bodies of loops and
functions are blocks. So is the tree that a configuration is finished with, and
the tree that a parse returns. -/
theorem trees_well_formed [DecidableEq σ] (t : ParseTable σ)
    (tokens : List Token) :
    (∀ c, Continues t (start t tokens) c →
      (∀ node, .node node ∈ c.fragments → node.WellFormed)
      ∧ ∀ root, c.finish t = .ok root → root.WellFormed)
    ∧ ∀ limit report root, parseWithin limit t tokens = some report →
      report.result = .ok root → root.WellFormed := by
  constructor
  · intro c hruns
    exact ⟨fun node hnode => hruns.wellFormed _ hnode,
      fun root => hruns.wellFormed.finish⟩
  · intro limit report root hparse hok
    obtain ⟨r, hr, hnone, hfinish, -⟩ := of_parseWithin_ok hparse hok
    exact (reaches_of_run hr hnone).continues.wellFormed.finish hfinish

/-- A table by which a list is put into a list for every name but the first. -/
def namesTable : CellTable where
  startSymbol := "<S>"
  initial := 0
  rules := [⟨"<S>", ["<L>"]⟩, ⟨"<L>", ["<L>", "<N>"]⟩,
    ⟨"<L>", ["<N>"]⟩, ⟨"<N>", ["id"]⟩]
  cells :=
    [⟨0, "id", .shift 1⟩, ⟨0, "<N>", .shift 2⟩, ⟨0, "<L>", .shift 3⟩,
     ⟨1, "id", .reduce 3 (some "Ident")⟩, ⟨1, "#", .reduce 3 (some "Ident")⟩,
     ⟨2, "id", .reduce 2 (some "List")⟩, ⟨2, "#", .reduce 2 (some "List")⟩,
     ⟨3, "id", .shift 1⟩, ⟨3, "<N>", .shift 4⟩,
     ⟨3, "#", .reduce 0 (some "Block")⟩,
     ⟨4, "id", .reduce 1 (some "List")⟩, ⟨4, "#", .reduce 1 (some "List")⟩]

/-- The names come out side by side. The lists that were put into each other
would not make a well-formed tree. -/
theorem trees_well_formed_names :
    (∃ report, parseWithin 20 namesTable.parseTable
        [⟨.identifier, "x", .first⟩, ⟨.identifier, "y", .first⟩] = some report
      ∧ report.result = .ok (.block [.identifier "x", .identifier "y"])
      ∧ (Node.block [.identifier "x", .identifier "y"]).WellFormed)
    ∧ ¬ (Node.block
      [.list [.list [.identifier "x"], .identifier "y"]]).WellFormed := by
  constructor
  · have hparse : ∃ report, parseWithin 20 namesTable.parseTable
        [⟨.identifier, "x", .first⟩, ⟨.identifier, "y", .first⟩] = some report
        ∧ report.result = .ok (.block [.identifier "x", .identifier "y"]) :=
          ⟨_, rfl, rfl⟩
    obtain ⟨report, hreport, hok⟩ := hparse
    exact ⟨report, hreport, hok,
      (trees_well_formed _ _).2 20 report _ hreport hok⟩
  · intro h
    exact (h _ .refl).plain _ (List.mem_singleton_self _) ⟨_, rfl⟩

end ShiftReduce
