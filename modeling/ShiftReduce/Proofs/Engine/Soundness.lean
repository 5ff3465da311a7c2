/-
The engine is sound for every table.

Nothing obliges the cells of a table to fit its rules, and yet an engine
accepts only what the rules derive. What has been shifted, followed by what
still waits, can always be rewritten to the input: a shift changes neither,
and a reduction undoes one replacement, since it takes a right-hand side
off the stack and puts the left-hand side in front of the queue. So when
the start symbol and the end of the input are all that is left, the two
together derive the input with its end; and if no rule has the end of the
input on its left, the start symbol derives the input alone.
-/
import ShiftReduce.Proofs.Derivation
import ShiftReduce.Proofs.Engine.Balance

namespace ShiftReduce

variable {σ : Type}

open ShiftReduce.Configuration

-- =========================================================== invariant

namespace Configuration

/-- What has been shifted and what waits can be rewritten to the symbols of
the tokens and the end of the input. -/
def Covers (t : ParseTable σ) (tokens : List Token) (c : Configuration σ) :
    Prop :=
  ∃ above, c.stack = above ++ [t.bottom]
    ∧ Derives t.Produces
        ((above.map StackEntry.symbol).reverse ++ c.queueSymbols)
        (tokens.map Token.symbol ++ [endMarker])

theorem covers_start (t : ParseTable σ) (tokens : List Token) :
    Covers t tokens (start t tokens) := by
  refine ⟨[], rfl, ?_⟩
  have hqueue : (start t tokens).queueSymbols
      = tokens.map Token.symbol ++ [endMarker] := by
    simp only [queueSymbols, start, List.map_append, List.map_map,
      List.map_cons, List.map_nil]
    rfl
  rw [hqueue]
  exact Derives.refl _

end Configuration

/-- Every move keeps the input covered. -/
theorem Move.covers {t : ParseTable σ} {tokens : List Token}
    {c c' : Configuration σ} {w : Option Warning} (h : Move t c c' w)
    (hc : Covers t tokens c) : Covers t tokens c' := by
  obtain ⟨above, habove, hder⟩ := hc
  cases h with
  | rest done => exact ⟨above, habove, hder⟩
  | shift going queue stack action =>
      rename_i lookahead behind top below target
      refine ⟨⟨lookahead.symbol, target, lookahead.significant⟩ :: above, ?_,
        ?_⟩
      · rw [habove]
        rfl
      · simpa [queueSymbols, queue] using hder
  | reduce going queue stack action rule split bottom symbols
      parts count built =>
      rename_i lookahead behind top below popped remaining children
        fragments index name p node
      obtain ⟨below', rfl, rfl⟩ :=
        above_of_split (habove.symm.trans split) bottom
      refine ⟨below', rfl, ?_⟩
      have hstep := Derives.replace (P := t.Produces)
        (below'.map StackEntry.symbol).reverse
        (lookahead.symbol :: behind.map Queued.symbol) ⟨index, rule⟩
      refine hstep.trans ?_
      simpa [queueSymbols, queue, symbols] using hder

/-- Every configuration of a run without failed steps covers the input. -/
theorem Configuration.Reaches.covers {t : ParseTable σ} {tokens : List Token}
    {c : Configuration σ} (h : Reaches t (start t tokens) c) :
    Covers t tokens c :=
  h.preserves Move.covers (covers_start t tokens)

-- ========================================================== acceptance

/-- If the start symbol and the end of the input are all that covers the
input, and the end of the input is no left-hand side, the start symbol
derives the input. -/
theorem derives_of_covers {t : ParseTable σ} {tokens : List Token}
    {c : Configuration σ} (hend : ∀ p, t.Produces p → p.left ≠ endMarker)
    (hc : Covers t tokens c) {bottom : StackEntry σ}
    (stack : c.stack = [bottom]) {head last : Queued}
    (queue : c.queue = [head, last]) (hhead : head.symbol = t.startSymbol)
    (hlast : last.symbol = endMarker) :
    Derives t.Produces [t.startSymbol] (tokens.map Token.symbol) := by
  obtain ⟨above, habove, hder⟩ := hc
  have hnil : above = [] := by
    have hlen := congrArg List.length (habove.symm.trans stack)
    simp only [List.length_append, List.length_cons, List.length_nil] at hlen
    exact List.length_eq_zero_iff.mp (by omega)
  subst hnil
  have hpair : Derives t.Produces ([t.startSymbol] ++ [endMarker])
      (tokens.map Token.symbol ++ [endMarker]) := by
    simpa [queueSymbols, queue, hhead, hlast] using hder
  obtain ⟨u, v, huv, hu, hv⟩ := hpair.of_append
  obtain rfl := hv.eq_of_irreducible hend
  rw [List.append_cancel_right huv]
  exact hu

/-- Soundness of the engine. At every moment of a run without failed steps
the symbols above the bottom of the stack and those in the queue rewrite to
the input and its end; and where no rule has the end of the input on its
left, the start symbol derives every input that is parsed. -/
theorem engine_sound [DecidableEq σ] (t : ParseTable σ)
    (hend : ∀ p, t.Produces p → p.left ≠ endMarker) (tokens : List Token) :
    (∀ c, Reaches t (start t tokens) c →
      ∃ above, c.stack = above ++ [t.bottom]
        ∧ Derives t.Produces
            ((above.map StackEntry.symbol).reverse ++ c.queueSymbols)
            (tokens.map Token.symbol ++ [endMarker]))
    ∧ ∀ limit report root, parseWithin limit t tokens = some report →
        report.result = .ok root →
        Derives t.Produces [t.startSymbol] (tokens.map Token.symbol) := by
  refine ⟨fun c hc => hc.covers, ?_⟩
  intro limit report root hparse hok
  obtain ⟨r, hrun, hnone, hfinish, -⟩ := of_parseWithin_ok hparse hok
  obtain ⟨-, -, ⟨bottom, stack⟩, head, last, queue, hhead, hlast⟩ :=
    of_finish_ok hfinish
  have hcovers := (reaches_of_run hrun hnone).covers
  exact derives_of_covers hend hcovers stack queue hhead hlast

/-- A table with a unit rule over a rule for identifiers. -/
def unitTable : CellTable where
  startSymbol := "<S>"
  initial := 0
  rules := [⟨"<S>", ["<T>"]⟩, ⟨"<T>", ["id"]⟩]
  cells :=
    [⟨0, "id", .shift 1⟩, ⟨1, "#", .reduce 1 (some "Ident")⟩,
      ⟨0, "<T>", .shift 2⟩, ⟨2, "#", .reduce 0 none⟩]

/-- One identifier is parsed by the table, and is derived by its rules. -/
theorem engine_sound_identifier :
    (∀ p, unitTable.parseTable.Produces p → p.left ≠ endMarker)
    ∧ (∃ report root,
        parseWithin 8 unitTable.parseTable [⟨.identifier, "x", .first⟩]
          = some report
        ∧ report.result = .ok root)
    ∧ Derives unitTable.parseTable.Produces ["<S>"] ["id"] := by
  have hend : ∀ p, unitTable.parseTable.Produces p → p.left ≠ endMarker := by
    rintro p ⟨index, hp⟩
    have hmem : p ∈ unitTable.rules := List.mem_of_getElem? hp
    simp only [unitTable, List.mem_cons, List.not_mem_nil, or_false] at hmem
    rcases hmem with rfl | rfl <;> decide
  have hparse : ∃ report root,
      parseWithin 8 unitTable.parseTable [⟨.identifier, "x", .first⟩]
      = some report ∧ report.result = .ok root := ⟨_, _, rfl, rfl⟩
  obtain ⟨report, root, hrun, hok⟩ := hparse
  exact ⟨hend, ⟨report, root, hrun, hok⟩,
    (engine_sound unitTable.parseTable hend [⟨.identifier, "x", .first⟩]).2 8
      report root hrun hok⟩

end ShiftReduce
