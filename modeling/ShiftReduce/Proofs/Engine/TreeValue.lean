/-
The syntax tree is the value of the parse tree.

The labels of a run say of every moment what the fragments are, and of the
last one what the tree is that comes out; what is left is to see that the
tables of grammars satisfy the one condition under which a forest labels a
run. A built table reduces only on terminals, because nothing else is in a
FOLLOW set, and the rules of a grammar that has been read have nonterminals
on the left.
-/
import ShiftReduce.Proofs.Analysis.Terminals
import ShiftReduce.Proofs.Automaton.Finished
import ShiftReduce.Proofs.Engine.Forest
import ShiftReduce.Proofs.Vocabulary

namespace ShiftReduce

open ShiftReduce.Configuration

/-- The tables of grammars that have been read never reduce on the
left-hand side of a rule. -/
theorem Grammar.shiftsLeftSides {lines : List String} {g : Grammar}
    {limit : Nat} {t : Table} (hread : Grammar.ofLines? lines = .ok g)
    (hbuilt : (g.build limit).result = .ok t) :
    (t.parseTable g).ShiftsLeftSides := by
  rintro state symbol index action haction p ⟨number, hp⟩ rfl
  obtain ⟨key, -, hmem⟩ := Grammar.mem_reductions_of_action? hbuilt haction
  obtain ⟨-, -, -, -, -, -, set, -, hname⟩ :=
    StateKey.mem_reductions_iff.mp hmem
  have hterminal :=
    isNonterminal_of_mem_terminals (TerminalSet.mem_of_mem_names hname)
  obtain ⟨rule, hrule, rfl⟩ := Option.map_eq_some_iff.mp hp
  have hleft :=
    Grammar.isNonterminal_left hread rule (List.mem_of_getElem? hrule)
  rw [hterminal] at hleft
  cases hleft

/-- Lists whose elements correspond have the same image, if elements that
correspond have. -/
theorem map_eq_map_of_forall₂ {α β γ : Type} {R : α → β → Prop} {f : α → γ}
    {g : β → γ} (hR : ∀ a b, R a b → f a = g b) {as : List α} {bs : List β}
    (h : List.Forall₂ R as bs) : as.map f = bs.map g := by
  induction h with
  | nil => rfl
  | cons hab _ ih => rw [List.map_cons, List.map_cons, hR _ _ hab, ih]

variable {σ : Type}

/-- A forest has the symbols of its configuration. -/
theorem Labels.symbols {t : ParseTable σ} {tokens : List Token}
    {c : Configuration σ} {f : Forest} {ws : List Warning}
    (h : Labels t tokens c f ws) :
    c.stackSymbols = t.startSymbol :: f.stack.reverse.map ParseTree.symbol
      ∧ c.queueSymbols = f.queue.map ParseTree.symbol := by
  obtain ⟨above, habove, hstack⟩ := h.stack
  refine ⟨?_, map_eq_map_of_forall₂ (fun _ _ hq => hq.1) h.queue⟩
  have habove' : above.map StackEntry.symbol = f.stack.map ParseTree.symbol :=
    map_eq_map_of_forall₂ (fun _ _ hentry => hentry.1) hstack
  unfold stackSymbols
  rw [habove, List.map_append, List.reverse_append, habove', List.map_reverse]
  rfl

/-- At most one value waits. -/
theorem Forest.reverse_waiting (c : Configuration σ) (f : Forest) :
    (f.waiting c).reverse = f.waiting c := by
  unfold waiting
  split
  · next head behind tree trees hq hf =>
    split
    · cases tree.value <;> rfl
    · rfl
  · rfl

/-- The syntax tree is the value of the parse tree. If a table never reduces
on the left-hand side of a rule, every configuration of a run has a forest
with its symbols, and its fragments are the values of the trees on the
stack, with the value of a reduced symbol at the head of the queue on top;
and when parsing succeeds, the tree of the start symbol has the tokens for
its leaves, what is returned for its value, and deserves the warnings. The
tables of grammars that have been read are such tables. -/
theorem syntax_tree_value :
    (∀ (σ : Type) [DecidableEq σ] (t : ParseTable σ), t.ShiftsLeftSides →
      ∀ tokens : List Token,
        (∀ c, Reaches t (start t tokens) c → ∃ f ws, Grows t tokens c f ws)
        ∧ (∀ c f ws, Grows t tokens c f ws →
          c.stackSymbols
            = t.startSymbol :: f.stack.reverse.map ParseTree.symbol
          ∧ c.queueSymbols = f.queue.map ParseTree.symbol
          ∧ c.fragments.reverse
            = f.stack.reverse.filterMap ParseTree.value ++ f.waiting c)
        ∧ ∀ limit report root, parseWithin limit t tokens = some report →
          report.result = .ok root →
          ∃ c f tree, Grows t tokens c f report.warnings
            ∧ c.finish t = .ok root
            ∧ f.queue.head? = some tree ∧ tree.symbol = t.startSymbol
            ∧ tree.value = some (.node root) ∧ tree.leaves = tokens
            ∧ tree.warnings = report.warnings)
    ∧ ∀ lines g limit table, Grammar.ofLines? lines = .ok g →
        (g.build limit).result = .ok table →
          (table.parseTable g).ShiftsLeftSides := by
  refine ⟨?_, fun lines g limit table => Grammar.shiftsLeftSides⟩
  intro σ _ t hleft tokens
  refine ⟨fun c hc => hc.grows, ?_, ?_⟩
  · intro c f ws hgrows
    have hlabels := hgrows.labels hleft
    obtain ⟨hstack, hqueue⟩ := hlabels.symbols
    refine ⟨hstack, hqueue, ?_⟩
    rw [hlabels.fragments, List.reverse_append, f.reverse_waiting,
      List.filterMap_reverse]
  · intro limit report root hparse hok
    obtain ⟨r, hrun, hnone, hfinish, hwarnings⟩ := of_parseWithin_ok hparse hok
    obtain ⟨f, hgrows⟩ := Grows.start.run hrun hnone
    rw [List.nil_append, hwarnings] at hgrows
    obtain ⟨tree, -, hhead, hsymbol, hvalue, hleaves, htree⟩ :=
      (hgrows.labels hleft).of_finish_ok hfinish
    exact ⟨r.config, f, tree, hgrows, hfinish, hhead, hsymbol,
      hvalue, hleaves, htree⟩

/-- One identifier is parsed by the table of a grammar, and what is returned
is the value of a tree with the identifier for its only leaf. -/
theorem syntax_tree_value_identifier :
    ∃ g table report root, Grammar.ofLines? ["<S> -> <T>",
      "<T> -> id ~Ident"] = .ok g
      ∧ (g.build 4).result = .ok table
      ∧ parseWithin 8 (table.parseTable g) [⟨.identifier, "x", .first⟩]
        = some report
      ∧ report.result = .ok root
      ∧ ∃ tree : ParseTree, tree.value = some (.node root)
        ∧ tree.leaves = [⟨.identifier, "x", .first⟩] := by
  have hparses : (Grammar.ofLines? ["<S> -> <T>",
      "<T> -> id ~Ident"]).toOption.any (fun g =>
      match (g.build 4).result with
      | .error _ => false
      | .ok table =>
        match parseWithin 8 (table.parseTable g)
            [⟨.identifier, "x", .first⟩] with
        | none => false
        | some report =>
            report.result.toOption.isSome) = true := by decide +kernel
  cases hread : Grammar.ofLines? ["<S> -> <T>", "<T> -> id ~Ident"] with
  | error e => rw [hread] at hparses; cases hparses
  | ok g =>
      rw [hread, Except.toOption, Option.any_some] at hparses
      split at hparses
      · cases hparses
      · next table hbuilt =>
          split at hparses
          · cases hparses
          · next report hreport =>
              cases hresult : report.result with
              | error e => rw [hresult] at hparses; cases hparses
              | ok root =>
                  have hleft := syntax_tree_value.2 _ g 4 table hread hbuilt
                  obtain ⟨_, _, tree, -, -, -, -, hvalue, hleaves, -⟩ :=
                    (syntax_tree_value.1 Nat _ hleft _).2.2 8 report
                      root hreport hresult
                  exact ⟨g, table, report, root, rfl, hbuilt, hreport, hresult,
                    tree, hvalue, hleaves⟩

end ShiftReduce
