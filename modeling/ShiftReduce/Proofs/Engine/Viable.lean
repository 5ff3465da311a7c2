/-
Nothing is shifted that cannot begin a sentence.

A state of a built table may reduce on a token that cannot follow here, since
the tokens on which it reduces are taken from the whole grammar. What is on
the stack makes sense nevertheless. Wherever a state on the stack may stand
in a rule, the symbols of the rule that have been read are on top of the
stack, and the start symbol derives the symbols under them, followed by the
left-hand side of the rule, followed by something: this is true of the start
state, it stays true when a symbol is read, and when a production of the next
symbol is entered the rule that is left is put in place of its left-hand side.
So the stack, together with a reduced symbol on which the state goes on, is
always the beginning of something that the start symbol derives.

The stack in turn derives the tokens that have been shifted, as every
reduction undoes one replacement. Hence a token is shifted only if the tokens
up to it are the beginning of something that the start symbol derives.
-/
import ShiftReduce.Proofs.Engine.Consistency

namespace ShiftReduce

open ShiftReduce.Configuration

-- ======================================================= what was shifted

namespace Configuration

variable {σ : Type}

/-- The symbols above the bottom of a stack, from the bottom to the top. -/
def word (stack : List (StackEntry σ)) : List Symbol :=
  (stack.dropLast.map StackEntry.symbol).reverse

theorem word_cons (entry : StackEntry σ) {below : List (StackEntry σ)}
    (hne : below ≠ []) :
    word (entry :: below) = word below ++ [entry.symbol] := by
  obtain ⟨top, rest, rfl⟩ := List.exists_cons_of_ne_nil hne
  exact List.reverse_cons

theorem word_append (popped : List (StackEntry σ))
    {remaining : List (StackEntry σ)} (hne : remaining ≠ []) :
    word (popped ++ remaining)
      = word remaining ++ (popped.map StackEntry.symbol).reverse := by
  unfold word
  rw [List.dropLast_append_of_ne_nil hne, List.map_append, List.reverse_append]

/-- The input falls into what has been shifted and what has not. From the
former the productions lead back to what is on the stack and the reduced
symbols that wait in front of the latter. -/
def Accounts (P : Production → Prop) (input : List Queued)
    (c : Configuration σ) : Prop :=
  ∃ waiting shifted behind, c.queue = waiting ++ behind
    ∧ input = shifted ++ behind
    ∧ (∀ q ∈ waiting, q.reduced = true)
    ∧ Derives P (word c.stack ++ waiting.map Queued.symbol)
      (shifted.map Queued.symbol)

theorem accounts_start (P : Production → Prop) (t : ParseTable σ)
    (tokens : List Token) :
    Accounts P (start t tokens).queue (start t tokens) :=
  ⟨[], [], _, rfl, rfl, List.forall_mem_nil _, Derives.refl _⟩

end Configuration

/-- Every move keeps account of the input, if all reductions are by the
productions. -/
theorem Move.accounts {σ : Type} {t : ParseTable σ} {P : Production → Prop}
    (hP : ∀ state symbol index name p, t.action? state symbol
      = some (.reduce index name) → t.rule? index = some p → P p)
    {input : List Queued} {c c' : Configuration σ} {w : Option Warning}
    (h : Move t c c' w) (hc : Accounts P input c) : Accounts P input c' := by
  obtain ⟨waiting, shifted, behind, hqueue, hinput, hwaiting, hder⟩ := hc
  cases h with
  | rest done =>
      exact ⟨waiting, shifted, behind, hqueue, hinput, hwaiting, hder⟩
  | shift going queue stack action =>
      rename_i lookahead rest top below target
      have hword :
          word (⟨lookahead.symbol, target, lookahead.significant⟩ :: c.stack)
          = word c.stack ++ [lookahead.symbol] :=
        word_cons _ (stack ▸ List.cons_ne_nil _ _)
      rw [queue] at hqueue
      cases waiting with
      | nil =>
          -- a token of the input
          refine ⟨[], shifted ++ [lookahead], rest, rfl, ?_, hwaiting, ?_⟩
          · rw [List.nil_append] at hqueue
            rw [hinput, ← hqueue, List.append_assoc]
            rfl
          · simpa [hword] using hder.append_right [lookahead.symbol]
      | cons head waiting =>
          obtain ⟨rfl, rfl⟩ := List.cons.inj hqueue
          refine ⟨waiting, shifted, behind, rfl, hinput, ?_, ?_⟩
          · exact fun q hq => hwaiting q (List.mem_cons_of_mem _ hq)
          · simpa [hword] using hder
  | reduce going queue stack action rule split bottom symbols
      parts count built =>
      rename_i lookahead rest top below popped remaining children
        fragments index name p node
      refine ⟨⟨p.left, lookahead.token, node.isSome, true⟩ :: waiting, shifted,
        behind, ?_, hinput, List.forall_mem_cons.mpr ⟨rfl, hwaiting⟩, ?_⟩
      · rw [← queue, hqueue]
        rfl
      · have hreplaced :=
          Derives.replace (word remaining) (waiting.map Queued.symbol)
          (hP _ _ _ _ p action rule)
        rw [split, word_append popped bottom, symbols] at hder
        exact hreplaced.trans hder

namespace Grammar

variable {g : Grammar} {key : StateKey} {t : Table} {limit : Nat}
    {follow : FollowSets}

-- ========================================================= valid positions

/-- The word ends with the symbols of the rule in front of the position, and
the start symbol derives what is in front of them, followed by the left-hand
side of the rule. -/
def Valid (g : Grammar) (word : List Symbol) (index position : Nat) : Prop :=
  ∃ rule front after, g.rule? index = some rule
    ∧ word = front ++ rule.right.take position
    ∧ Derives g.Produces [g.startSymbol] (front ++ rule.left :: after)

namespace Valid

variable {word : List Symbol} {index position : Nat}
    {rule : Rule} {symbol : Symbol}

/-- The start symbol derives the word, followed by the rest of the rule. -/
theorem derives (h : g.Valid word index position)
    (hrule : g.rule? index = some rule) (hne : rule.right ≠ []) :
    ∃ after, Derives g.Produces [g.startSymbol]
      (word ++ (rule.right.drop position ++ after)) := by
  obtain ⟨_, front, after, hrule', rfl, hder⟩ := h
  cases hrule.symm.trans hrule'
  have hproduces : g.Produces ⟨rule.left, rule.right⟩ :=
    ⟨hne, rule, List.mem_of_getElem? hrule, rfl, rfl⟩
  refine ⟨after, hder.trans ?_⟩
  have hreplaced := Derives.replace (P := g.Produces) front after hproduces
  rw [List.append_assoc, ← List.append_assoc (rule.right.take position),
    List.take_append_drop]
  rwa [List.append_assoc] at hreplaced

/-- In front of a symbol the word goes on with it. -/
theorem derives_next (h : g.Valid word index position)
    (hrule : g.rule? index = some rule)
    (hsymbol : rule.right[position]? = some symbol) :
    ∃ after, Derives g.Produces [g.startSymbol] (word ++ symbol :: after) := by
  obtain ⟨hposition, hget⟩ := List.getElem?_eq_some_iff.mp hsymbol
  obtain ⟨after, hder⟩ :=
    h.derives hrule (List.ne_nil_of_length_pos (by omega))
  rw [List.drop_eq_getElem_cons hposition, hget] at hder
  exact ⟨rule.right.drop (position + 1) ++ after, hder⟩

/-- When the symbol behind it has been read, the next position is valid. -/
theorem advance (h : g.Valid word index position)
    (hrule : g.rule? index = some rule)
    (hsymbol : rule.right[position]? = some symbol) :
    g.Valid (word ++ [symbol]) index (position + 1) := by
  obtain ⟨_, front, after, hrule', rfl, hder⟩ := h
  cases hrule.symm.trans hrule'
  refine ⟨rule, front, after, hrule, ?_, hder⟩
  rw [List.take_add_one, hsymbol, List.append_assoc]
  rfl

/-- In front of a nonterminal the beginnings of its productions are valid. -/
theorem expand (h : g.Valid word index position)
    (hrule : g.rule? index = some rule) {q : Nat} {production : Rule}
    (hnext : rule.right[position]? = some production.left)
    (hproduction : g.rule? q = some production) : g.Valid word q 0 := by
  obtain ⟨after, hder⟩ := h.derives_next hrule hnext
  exact ⟨production, word, after, hproduction, by simp, hder⟩

end Valid

/-- Wherever the last state of a path may stand is valid for the symbols
along the path. -/
theorem Trodden.valid {stack : List (StackEntry Nat)}
    (h : Trodden g t stack key) {index position : Nat}
    (hstands : g.Stands key index position) :
    g.Valid (word stack) index position := by
  induction h generalizing index position with
  | bottom hkey =>
      induction hstands with
      | item hi => cases hi
      | start _ hrule hleft =>
          exact ⟨_, [], [], hrule, rfl, hleft ▸ Derives.refl _⟩
      | expand _ hrule hnext _ hproduction ih =>
          exact ih.expand hrule hnext hproduction
  | push hbelow hkey hnames ih =>
      rename_i entry below key next
      induction hstands with
      | item hi =>
          -- the item was entered over the symbol on top, from where the state
          -- below stands
          obtain ⟨hsymbol, index, position, hstands, hedge⟩ :=
            exists_stands_of_mem_successors (hnames.mem_iff.mpr hi)
          rw [word_cons entry hbelow.ne_nil, ← hsymbol]
          cases hedge with
          | advance hrule hnext => exact (ih hstands).advance hrule hnext
          | corner hrule hb hproduction lead first =>
              rw [List.head?_eq_getElem?] at first
              exact (ih (hstands.of_leads hrule hb lead hproduction
                rfl)).advance hproduction first
      | start hstart => exact absurd hstart hnames.ne_start
      | expand _ hrule hnext _ hproduction ih' =>
          exact ih'.expand hrule hnext hproduction

/-- What is on the stack is the beginning of something that the start symbol
derives. -/
theorem Trodden.derives (h : (g.buildWith follow limit).result = .ok t)
    {stack : List (StackEntry Nat)} (hpath : Trodden g t stack key) :
    ∃ after, Derives g.Produces [g.startSymbol] (word stack ++ after) := by
  cases hpath with
  | bottom hkey => exact ⟨[g.startSymbol], Derives.refl _⟩
  | push hbelow hkey hnames =>
      rename_i entry below key
      obtain ⟨i, hi⟩ := hnames.nonempty
      have hitem := hnames.mem_iff.mp hi
      obtain ⟨rule, n, hrule, -, hn⟩ :=
        (kernel_of_mem_states h (Table.mem_keys_of_key? hkey)).isItem i hitem
      have hne : rule.right ≠ [] := by
        rintro hnil
        rw [hnil] at hn
        cases hn
      obtain ⟨after, hder⟩ :=
        ((Trodden.push hbelow hkey hnames).valid (.item hitem)).derives
        hrule hne
      exact ⟨_, hder⟩

/-- So is what is on the stack together with a symbol on which its state goes
on. -/
theorem Trodden.derives_next {stack : List (StackEntry Nat)}
    (hpath : Trodden g t stack key) {symbol : Symbol}
    (hgoes : (g.successors key symbol).Nonempty) :
    ∃ after,
      Derives g.Produces [g.startSymbol] (word stack ++ symbol :: after) := by
  obtain ⟨i, hi⟩ := hgoes
  obtain ⟨rfl, index, position, hstands, hedge⟩ :=
    exists_stands_of_mem_successors hi
  cases hedge with
  | advance hrule hnext => exact (hpath.valid hstands).derives_next hrule hnext
  | corner hrule hb hproduction lead first =>
      rw [List.head?_eq_getElem?] at first
      exact (hpath.valid
        (hstands.of_leads hrule hb lead hproduction rfl)).derives_next
        hproduction first

-- ============================================================ the theorem

/-- In front of the input at most one reduced symbol waits, and the state on
top goes on with it. -/
theorem Awaits.waiting {input waiting behind : List Queued}
    (hawaits : Awaits g key input (waiting ++ behind))
    (hinput : ∀ q ∈ input, q.reduced = false)
    (hwaiting : ∀ q ∈ waiting, q.reduced = true) :
    waiting = [] ∨ ∃ head, waiting = [head] ∧ head.reduced = true
      ∧ (g.successors key head.symbol).Nonempty := by
  have hnil : ∀ {front}, (∀ q ∈ front, q.reduced = true) →
      front ++ behind <:+ input →
      front = [] := by
    intro front hfront hsuffix
    apply List.eq_nil_iff_forall_not_mem.mpr
    intro q hq
    have htoken := hinput q (hsuffix.subset (List.mem_append_left _ hq))
    rw [hfront q hq] at htoken
    cases htoken
  generalize hqueue : waiting ++ behind = queue at hawaits
  cases hawaits with
  | input hrest => exact Or.inl (hnil hwaiting (hqueue ▸ hrest))
  | reduced hreduced hgoes hrest _ =>
      rename_i head rest
      cases waiting with
      | nil => exact Or.inl rfl
      | cons first others =>
          obtain ⟨rfl, rfl⟩ := List.cons.inj hqueue
          obtain rfl :=
            hnil (fun q hq => hwaiting q (List.mem_cons_of_mem _ hq)) hrest
          exact Or.inr ⟨first, rfl, hreduced, hgoes⟩

/-- All reductions of a built table are by productions of the grammar. -/
theorem produces_of_reduce (h : (g.buildWith follow limit).result = .ok t)
    {state index : Nat} {symbol : Symbol} {name : Option String}
    {p : Production}
    (haction : t.action? state symbol = some (.reduce index name))
    (hproduction : (t.parseTable g).rule? index = some p) : g.Produces p := by
  obtain ⟨key, hkey, -⟩ := mem_reductions_of_action? h haction
  obtain ⟨rule, hrule, hne, -⟩ := stands_of_reduce h hkey haction
  have hp : (g.rule? index).map (fun rule => ⟨rule.left, rule.right⟩)
    = some p := hproduction
  rw [hrule] at hp
  cases hp
  exact ⟨hne, rule, List.mem_of_getElem? hrule, rfl, rfl⟩

/-- The stack of an engine with a built table is always the beginning of
something that the start symbol derives, by rules that are not empty, also
together with the reduced symbol that waits, if there is one; and so are the
tokens that have been shifted. -/
theorem shifted_viable (h : (g.build limit).result = .ok t)
    {tokens : List Token} {c : Configuration Nat}
    (hreach : Reaches (t.parseTable g) (start (t.parseTable g) tokens) c)
    (going : c.completed = false) :
    ∃ above waiting shifted behind,
      c.stack = above ++ [(t.parseTable g).bottom]
      ∧ c.queue = waiting ++ behind
      ∧ (waiting = [] ∨ ∃ head, waiting = [head] ∧ head.reduced = true)
      ∧ (∀ q ∈ behind, q.reduced = false)
      ∧ (start (t.parseTable g) tokens).queue = shifted ++ behind
      ∧ (∃ after, Derives g.Produces [g.startSymbol]
          ((above.map StackEntry.symbol).reverse ++ waiting.map Queued.symbol
            ++ after))
      ∧ ∃ after, Derives g.Produces [g.startSymbol]
          (shifted.map Queued.symbol ++ after) := by
  have hinput : ∀ q ∈ (start (t.parseTable g) tokens).queue,
      q.reduced = false :=
    fun q hq => (reduced_of_mem_start hq).1
  obtain ⟨waiting, shifted, behind, hqueue, hcut, hwaiting, hread⟩ :=
    hreach.preserves (Move.accounts fun _ _ _ _ _ => produces_of_reduce h)
      (accounts_start g.Produces (t.parseTable g) tokens)
  obtain ⟨key, hpath, hawaits⟩ := onPath_of_reaches h hreach going
  rw [hqueue] at hawaits
  obtain ⟨above, habove⟩ := hreach.balanced.bottom
  have hword : word c.stack = (above.map StackEntry.symbol).reverse := by
    rw [habove, word, List.dropLast_concat]
  have hone := hawaits.waiting hinput hwaiting
  obtain ⟨after, hder⟩ : ∃ after, Derives g.Produces [g.startSymbol]
      (word c.stack ++ waiting.map Queued.symbol ++ after) := by
    rcases hone with rfl | ⟨head, rfl, -, hgoes⟩
    · obtain ⟨after, hder⟩ := hpath.derives h
      exact ⟨after, by simpa using hder⟩
    · obtain ⟨after, hder⟩ := hpath.derives_next hgoes
      exact ⟨after, by simpa using hder⟩
  refine ⟨above, waiting, shifted, behind, habove, hqueue, ?_, ?_, hcut,
    ⟨after, hword ▸ hder⟩, after, hder.trans (hread.append_right after)⟩
  · exact hone.imp id fun ⟨head, hhead, hreduced, _⟩ => ⟨head, hhead, hreduced⟩
  · intro q hq
    exact hinput q (hcut ▸ List.mem_append_right _ hq)

/-- When the first name has been shifted, what has been read begins a sum. -/
theorem shifted_viable_sums :
    ∃ t, (sums.build 8).result = .ok t ∧ ∃ c shifted behind after,
      Reaches (t.parseTable sums) (start (t.parseTable sums)
        [⟨.keyword, "name", .first⟩, ⟨.operator, "+", .first⟩]) c
      ∧ c.completed = false ∧ c.stack.length = 2
      ∧ (start (t.parseTable sums)
        [⟨.keyword, "name", .first⟩, ⟨.operator, "+", .first⟩]).queue
          = shifted ++ behind
      ∧ Derives sums.Produces [sums.startSymbol]
        (shifted.map Queued.symbol ++ after) := by
  have hstep : (match (sums.build 8).result with
      | .error _ => false
      | .ok t =>
        let shift := (start (t.parseTable sums)
          [⟨.keyword, "name", .first⟩, ⟨.operator, "+", .first⟩]).step
          (t.parseTable sums)
        shift.result.toOption.isSome && !shift.config.completed
          && shift.config.stack.length == 2) = true := by decide +kernel
  cases hresult : (sums.build 8).result with
  | error e =>
      rw [hresult] at hstep
      cases hstep
  | ok t =>
      rw [hresult] at hstep
      simp only [Bool.and_eq_true, Bool.not_eq_true', beq_iff_eq] at hstep
      obtain ⟨⟨hshift, hgoing⟩, hstack⟩ := hstep
      obtain ⟨_, hok⟩ := step_ok_of_isSome hshift
      have hreach := (Reaches.refl _).step hok
      obtain ⟨-, -, shifted, behind, -, -, -, -, hcut, -, after, hder⟩ :=
        shifted_viable hresult hreach hgoing
      exact ⟨t, rfl, _, shifted, behind, after, hreach, hgoing,
        hstack, hcut, hder⟩

end Grammar

end ShiftReduce
