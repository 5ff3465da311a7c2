/-
Names read as they are written.

The key of a state that has been built lists its items in ascending order and
each once, so a set of items has one key and one name. A name that is read is
taken as it stands: its key lists the items in the order in which the name
lists them, and as often. What is sure of a union that has been read is only
that it has two items at least. The order is ascending if it was so in the
name, and two names of the same set read as the same key if they list it in
the same way. Other spellings of the numbers make no difference.

So a file may define a set of items twice without being refused. What it must
not do is to list the items of two states in the same way, and for the first
state that repeats an earlier one in this sense it is reported that a state is
defined twice.
-/
import ShiftReduce.Proofs.Automaton.Keys
import ShiftReduce.Proofs.Table.Numbering
import ShiftReduce.Proofs.Table.Stable

namespace ShiftReduce

open Text

variable {startSymbol : Symbol} {name name' : String}
    {items items' : List Item}

-- ================================================================ names

/-- The pieces between the spaces of a name read as the items. -/
def Lists (name : String) (items : List Item) : Prop :=
  List.Forall₂ (fun piece i => Item.ofText? piece = some i)
    (splitOn ' ' name.toList) items

theorem Lists.ne_nil (h : Lists name items) : items ≠ [] := by
  obtain ⟨piece, pieces, rest, hsplit, -⟩ :=
    exists_splitOn_eq_cons ' ' name.toList
  unfold Lists at h
  rw [hsplit] at h
  rintro rfl
  cases h

/-- Items that can be written are listed by their names with spaces between
them, in any order and as often as they are written. -/
theorem lists_spaced (hne : items ≠ []) (h : ∀ i ∈ items, i.Legible) :
    Lists (spaced (items.map Item.toText)) items := by
  unfold Lists
  rw [Item.splitOn_spaced_toText hne fun i hi => (h i hi).solid,
    List.forall₂_map_left_iff, List.forall₂_same]
  intro i hi
  exact Item.ofText?_toText (h i hi)

namespace StateKey

theorem ofItems_injective : Function.Injective ofItems := by
  intro is js h
  rw [← items_ofItems is, h, items_ofItems]

theorem ofItems_eq_merged_iff {is : List Item} (hne : is ≠ []) :
    ofItems is = merged items ↔ is = items ∧ 2 ≤ is.length := by
  match is, hne with
  | [i], _ => simp [ofItems]
  | i :: j :: is, _ => simp [ofItems]

/-- A name other than the start symbol reads as the key of what it lists. -/
theorem ofText?_eq_some_iff (hname : name ≠ startSymbol) {key : StateKey} :
    ofText? startSymbol name = some key
      ↔ ∃ items, Lists name items ∧ ofItems items = key := by
  unfold ofText?
  rw [if_neg hname, Option.map_eq_some_iff]
  simp only [mapM_eq_some_iff_forall₂]
  rfl

theorem ofText?_of_lists (hname : name ≠ startSymbol) (h : Lists name items) :
    ofText? startSymbol name = some (ofItems items) :=
  (ofText?_eq_some_iff hname).mpr ⟨items, h, rfl⟩

/-- A name reads as a union exactly if it lists the items of the union, and at
least two. -/
theorem ofText?_eq_merged_iff :
    ofText? startSymbol name = some (merged items)
      ↔ name ≠ startSymbol ∧ 2 ≤ items.length ∧ Lists name items := by
  constructor
  · intro h
    have hname : name ≠ startSymbol := by
      rintro rfl
      unfold ofText? at h
      rw [if_pos rfl] at h
      cases h
    obtain ⟨listed, hlists, hkey⟩ := (ofText?_eq_some_iff hname).mp h
    obtain ⟨rfl, hlength⟩ := (ofItems_eq_merged_iff hlists.ne_nil).mp hkey
    exact ⟨hname, hlength, hlists⟩
  · rintro ⟨hname, hlength, hlists⟩
    rw [ofText?_of_lists hname hlists]
    exact congrArg
      some ((ofItems_eq_merged_iff hlists.ne_nil).mpr ⟨rfl, hlength⟩)

/-- A union of at least two items is what uniting it gives exactly if its items
are in ascending order. -/
theorem union_merged_eq_iff (hlength : 2 ≤ items.length) :
    union [merged items] = merged items ↔ Item.Ascending items := by
  have hflat : [merged items].flatMap StateKey.items = items :=
    List.append_nil items
  have hkey : ofItems items = merged items :=
    (ofItems_eq_merged_iff (List.ne_nil_of_length_pos (by omega))).mpr
      ⟨rfl, hlength⟩
  unfold union
  rw [hflat, ← hkey, ofItems_injective.eq_iff]
  exact Item.sorted_eq_self_iff

end StateKey

-- ============================================================ same states

/-- Two names are of the same state for a reader: both are the start symbol, or
they list the same items in the same way. -/
def SameState (startSymbol : Symbol) (name name' : String) : Prop :=
  name = startSymbol ∧ name' = startSymbol
    ∨ name ≠ startSymbol ∧ name' ≠ startSymbol ∧ ∃ items, Lists name items
      ∧ Lists name' items

theorem SameState.symm (h : SameState startSymbol name name') :
    SameState startSymbol name' name := by
  rcases h with ⟨hname, hname'⟩ | ⟨hname, hname', items, hlists, hlists'⟩
  · exact Or.inl ⟨hname', hname⟩
  · exact Or.inr ⟨hname', hname, items, hlists', hlists⟩

theorem SameState.comm :
    SameState startSymbol name name' ↔ SameState startSymbol name' name :=
  ⟨SameState.symm, SameState.symm⟩

/-- This is so exactly if they read as the same key. -/
theorem sameState_iff :
    SameState startSymbol name name'
      ↔ ∃ key, StateKey.ofText? startSymbol name = some key
        ∧ StateKey.ofText? startSymbol name' = some key := by
  have hstart : StateKey.ofText? startSymbol startSymbol = some .start :=
    if_pos rfl
  constructor
  · rintro (⟨rfl, rfl⟩ | ⟨hname, hname', items, h, h'⟩)
    · exact ⟨.start, hstart, hstart⟩
    · exact ⟨_, StateKey.ofText?_of_lists hname h,
        StateKey.ofText?_of_lists hname' h'⟩
  · rintro ⟨key, h, h'⟩
    have hother : ∀ {name : String}, name ≠ startSymbol →
        StateKey.ofText? startSymbol name ≠ some .start := by
      intro name hname hread
      obtain ⟨items, -, hkey⟩ := (StateKey.ofText?_eq_some_iff hname).mp hread
      exact StateKey.ofItems_ne_start items hkey
    by_cases hname : name = startSymbol
    · subst hname
      cases hstart.symm.trans h
      exact Or.inl ⟨rfl, not_not.mp fun hname' => hother hname' h'⟩
    · by_cases hname' : name' = startSymbol
      · subst hname'
        cases hstart.symm.trans h'
        exact absurd h (hother hname)
      · obtain ⟨items, hlists, hkey⟩ :=
          (StateKey.ofText?_eq_some_iff hname).mp h
        obtain ⟨items', hlists', hkey'⟩ :=
          (StateKey.ofText?_eq_some_iff hname').mp h'
        cases StateKey.ofItems_injective (hkey.trans hkey'.symm)
        exact Or.inr ⟨hname, hname', items, hlists, hlists'⟩

-- ================================================================ files

/-- What has an error behind a function that cannot fail has it before. -/
theorem eq_error_of_map {ε α β : Type} {f : α → β} {x : Except ε α} {e : ε}
    (h : x.map f = .error e) : x = .error e := by
  cases x with
  | error _ =>
      cases h
      rfl
  | ok _ => cases h

/-- No text of an action is refused for a state that is defined twice. -/
theorem Action.ofText?_ne_duplicate {keys : List StateKey} {text : String} :
    Action.ofText? startSymbol keys text ≠ .error (.duplicateState name) := by
  intro h
  unfold Action.ofText? at h
  split at h
  · cases h
  · split at h
    · cases h
    · split at h <;> cases h

namespace StoredTable

variable {states : List StoredState}

theorem readCells_ne_duplicate {keys : List StateKey}
    {texts : List (Symbol × String)} :
    readCells startSymbol keys texts ≠ .error (.duplicateState name) := by
  induction texts with
  | nil => exact nofun
  | cons stored texts ih =>
      intro h
      unfold readCells at h
      split at h
      · next haction =>
          cases h
          exact Action.ofText?_ne_duplicate haction
      · exact ih (eq_error_of_map h)

theorem readRows_ne_duplicate {keys : List StateKey} :
    readRows startSymbol keys states ≠ .error (.duplicateState name) := by
  induction states with
  | nil => exact nofun
  | cons state states ih =>
      intro h
      unfold readRows at h
      split at h
      · next hcells =>
          cases h
          exact readCells_ne_duplicate hcells
      · exact ih (eq_error_of_map h)

/-- A state is defined twice for a reader exactly if the first pass says so. -/
theorem toTable?_eq_duplicate_iff {stored : StoredTable} :
    stored.toTable? = .error (.duplicateState name)
      ↔ enterStates stored.startSymbol OrderedSet.empty stored.states
        = .error (.duplicateState name) := by
  unfold toTable?
  constructor
  · intro h
    split at h
    · next hentered =>
        cases h
        exact hentered
    · split at h
      · cases h
      · split at h
        · next hrows =>
            cases h
            exact absurd hrows readRows_ne_duplicate
        · cases h
  · intro h
    rw [h]

section

variable {entered all : OrderedSet StateKey}
    {state : StoredState} {key : StateKey}

theorem enterStates_of_new
    (hkey : StateKey.ofText? startSymbol state.name = some key)
    (hnew : key ∉ entered) :
    enterStates startSymbol entered (state :: states)
      = enterStates startSymbol (entered.insert key) states := by
  rw [enterStates, hkey]
  exact if_neg hnew

theorem enterStates_of_mem
    (hkey : StateKey.ofText? startSymbol state.name = some key)
    (hmem : key ∈ entered) :
    enterStates startSymbol entered (state :: states)
      = .error (.duplicateState state.name) := by
  rw [enterStates, hkey]
  exact if_pos hmem

/-- The first pass takes the states one after the other. -/
theorem enterStates_append {before rest : List StoredState}
    (h : enterStates startSymbol entered before = .ok all) :
    enterStates startSymbol entered (before ++ rest)
      = enterStates startSymbol all rest := by
  induction before generalizing entered with
  | nil =>
      cases h
      rfl
  | cons state before ih =>
      unfold enterStates at h
      split at h
      · cases h
      · next key hkey =>
          split at h
          · cases h
          · next hnew =>
              rw [List.cons_append, enterStates_of_new hkey hnew]
              exact ih h

/-- The first pass ends with a state that is defined twice if the states
before it have all been entered, and its key is among theirs. -/
theorem enterStates_eq_duplicate_iff :
    enterStates startSymbol entered states = .error (.duplicateState name)
      ↔ ∃ before state after all key, states = before ++ state :: after
        ∧ state.name = name
        ∧ enterStates startSymbol entered before = .ok all
        ∧ StateKey.ofText? startSymbol name = some key ∧ key ∈ all := by
  constructor
  · intro h
    induction states generalizing entered with
    | nil => cases h
    | cons state states ih =>
        unfold enterStates at h
        split at h
        · cases h
        · next key hkey =>
            split at h
            · next hmem =>
                cases h
                exact ⟨[], state, states, entered, key, rfl,
                  rfl, rfl, hkey, hmem⟩
            · next hnew =>
                obtain ⟨before, last, after, all, key', rfl, hname, hall,
                  hkey', hmem⟩ := ih h
                refine ⟨state :: before, last, after, all, key', rfl,
                  hname, ?_, hkey', hmem⟩
                rw [enterStates_of_new hkey hnew]
                exact hall
  · rintro ⟨before, state, after, all, key, rfl, rfl, hall, hkey, hmem⟩
    rw [enterStates_append hall, enterStates_of_mem hkey hmem]

end

/-- Names that are entered are of different states, and the keys entered are
those that they read as. -/
theorem enterStates_empty_eq_ok_iff {all : OrderedSet StateKey} :
    enterStates startSymbol OrderedSet.empty states = .ok all
      ↔ List.Forall₂
          (fun state key => StateKey.ofText? startSymbol state.name = some key)
          states all.elements := by
  rw [enterStates_eq_ok_iff]
  simp only [OrderedSet.elements_empty, List.nil_append, exists_eq_left']

/-- The state with this name is the first one that repeats another: all names
before it can be read, no two of them are of the same state, and one of them
is of the same state as this one. -/
def Repeats (stored : StoredTable) (name : String) : Prop :=
  ∃ before state after, stored.states = before ++ state :: after
    ∧ state.name = name
    ∧ (∀ s ∈ before,
        ∃ key, StateKey.ofText? stored.startSymbol s.name = some key)
    ∧ before.Pairwise
        (fun s s' => ¬ SameState stored.startSymbol s.name s'.name)
    ∧ ∃ s ∈ before, SameState stored.startSymbol s.name name

section

variable {found : List StateKey}

theorem mem_found_iff
    (h : List.Forall₂ (fun state key => StateKey.ofText? startSymbol state.name
      = some key) states found)
    {key : StateKey} (hkey : StateKey.ofText? startSymbol name = some key) :
    key ∈ found ↔ ∃ s ∈ states, SameState startSymbol s.name name := by
  constructor
  · intro hmem
    obtain ⟨s, hs, hread⟩ := exists_left_of_forall₂ h hmem
    exact ⟨s, hs, sameState_iff.mpr ⟨key, hread, hkey⟩⟩
  · rintro ⟨s, hs, hsame⟩
    obtain ⟨key', hread, hkey'⟩ := sameState_iff.mp hsame
    obtain ⟨found, hfound, hread'⟩ := exists_right_of_forall₂ h hs
    cases hkey.symm.trans hkey'
    cases hread.symm.trans hread'
    exact hfound

theorem nodup_found_iff
    (h : List.Forall₂ (fun state key => StateKey.ofText? startSymbol state.name
      = some key) states found) :
    found.Nodup ↔ states.Pairwise fun s s' =>
      ¬ SameState startSymbol s.name s'.name := by
  induction h with
  | nil => simp
  | @cons state key states found hkey hrest ih =>
      rw [List.nodup_cons, List.pairwise_cons, ih, mem_found_iff hrest hkey]
      refine and_congr_left fun _ => ?_
      simp only [not_exists, not_and, SameState.comm]

end

/-- Reading reports exactly the first state that repeats another. -/
theorem toTable?_eq_duplicate_iff_repeats {stored : StoredTable} :
    stored.toTable? = .error (.duplicateState name) ↔ stored.Repeats name := by
  rw [toTable?_eq_duplicate_iff, enterStates_eq_duplicate_iff]
  constructor
  · rintro ⟨before, state, after, all, key, hstates, hname, hall, hkey, hmem⟩
    have hread := enterStates_empty_eq_ok_iff.mp hall
    refine ⟨before, state, after, hstates, hname, ?_,
      (nodup_found_iff hread).mp all.nodup, (mem_found_iff hread hkey).mp hmem⟩
    intro s hs
    obtain ⟨key, -, hs⟩ := exists_right_of_forall₂ hread hs
    exact ⟨key, hs⟩
  · rintro ⟨before, state, after, hstates, hname, hnames,
      hdistinct, s, hs, hsame⟩
    obtain ⟨found, hread⟩ := exists_forall₂ hnames
    obtain ⟨key, -, hkey⟩ := sameState_iff.mp hsame
    refine ⟨before, state, after,
      ⟨found, (nodup_found_iff hread).mpr hdistinct⟩, key, hstates, hname,
      enterStates_empty_eq_ok_iff.mpr hread, hkey, ?_⟩
    exact (mem_found_iff hread hkey).mpr ⟨s, hs, hsame⟩

end StoredTable

theorem Table.ofJson?_eq_duplicate_iff {text : String} :
    ofJson? text = .error (.duplicateState name)
      ↔ ∃ stored : StoredTable,
        (Json.Value.ofBytes? (Json.bytesOf text)).bind StoredTable.ofValue?
          = some stored
        ∧ stored.Repeats name := by
  unfold ofJson? ofJsonBytes?
  cases (Json.Value.ofBytes? (Json.bytesOf text)).bind
      StoredTable.ofValue? with
  | none => simp
  | some stored => simp [StoredTable.toTable?_eq_duplicate_iff_repeats]

-- ============================================================ the theorem

/-- A name other than the start symbol reads as a union exactly if it lists at
least two items, and the union lists them as the name does; this is the key
that uniting its items gives exactly if they are in ascending order. Names read
as the same key exactly if they list the same items in the same way, which for
ascending lists is to list the same set. Every way to list some items occurs in
a name. And a state of a file is reported as defined twice exactly if it is the
first one that repeats an earlier one in this sense. -/
theorem names_read_as_listed (startSymbol : Symbol) :
    (∀ name items, StateKey.ofText? startSymbol name = some (.merged items)
      ↔ name ≠ startSymbol ∧ 2 ≤ items.length ∧ Lists name items)
    ∧ (∀ name items, StateKey.ofText? startSymbol name = some (.merged items) →
      (StateKey.union [.merged items] = .merged items ↔ Item.Ascending items))
    ∧ (∀ name name' items items', name ≠ startSymbol → name' ≠ startSymbol →
      Lists name items → Lists name' items' →
      (StateKey.ofText? startSymbol name = StateKey.ofText? startSymbol name'
        ↔ items = items')
      ∧ (Item.Ascending items → Item.Ascending items' →
        (StateKey.ofText? startSymbol name = StateKey.ofText? startSymbol name'
          ↔ ∀ i, i ∈ items ↔ i ∈ items')))
    ∧ (∀ items, items ≠ [] → (∀ i ∈ items, i.Legible) →
      Lists (spaced (items.map Item.toText)) items)
    ∧ ∀ text name, Table.ofJson? text = .error (.duplicateState name)
      ↔ ∃ stored : StoredTable,
        (Json.Value.ofBytes? (Json.bytesOf text)).bind StoredTable.ofValue?
          = some stored
        ∧ stored.Repeats name := by
  refine ⟨fun _ _ => StateKey.ofText?_eq_merged_iff, ?_, ?_,
    fun _ => lists_spaced, fun _ _ => Table.ofJson?_eq_duplicate_iff⟩
  · intro name items h
    obtain ⟨-, hlength, -⟩ := StateKey.ofText?_eq_merged_iff.mp h
    exact StateKey.union_merged_eq_iff hlength
  · intro name name' items items' hname hname' h h'
    have hsame : StateKey.ofText? startSymbol name
        = StateKey.ofText? startSymbol name'
        ↔ items = items' := by
      rw [StateKey.ofText?_of_lists hname h,
        StateKey.ofText?_of_lists hname' h', Option.some.injEq,
        StateKey.ofItems_injective.eq_iff]
    refine ⟨hsame,
      fun hasc hasc' => hsame.trans ⟨?_, hasc.eq_of_mem_iff hasc'⟩⟩
    rintro rfl i
    exact Iff.rfl

/-- A file that defines a set of two items twice, listing them in both
orders. -/
def bothOrdersFile : String :=
  "\x7b\"start_symbol\":\"<S>\",\"states\":["
    ++ "\x7b\"name\":\"<S>\",\"actions\":\x7b\x7d\x7d,"
    ++ "\x7b\"name\":\"a:0:1 b:1:1\",\"actions\":\x7b\x7d\x7d,"
    ++ "\x7b\"name\":\"b:1:1 a:0:1\",\"actions\":\x7b\x7d\x7d]\x7d"

/-- The second one reads as a union that is not in order, the two read as
different keys, and the file is read. -/
theorem names_read_as_listed_both_orders :
    (∃ items, StateKey.ofText? "<S>" "b:1:1 a:0:1" = some (.merged items)
      ∧ 2 ≤ items.length ∧ StateKey.union [.merged items] ≠ .merged items)
    ∧ StateKey.ofText? "<S>" "a:0:1 b:1:1"
      ≠ StateKey.ofText? "<S>" "b:1:1 a:0:1"
    ∧ ∃ t, Table.ofJson? bothOrdersFile = .ok t := by
  have hfirst : StateKey.ofText? "<S>" "a:0:1 b:1:1"
      = some (.merged [⟨"a", 0, 1⟩, ⟨"b", 1, 1⟩]) := by decide +kernel
  have hsecond : StateKey.ofText? "<S>" "b:1:1 a:0:1"
      = some (.merged [⟨"b", 1, 1⟩, ⟨"a", 0, 1⟩]) := by decide +kernel
  obtain ⟨hlists, hunion, hsame, -, -⟩ := names_read_as_listed "<S>"
  obtain ⟨hname, -, hab⟩ := (hlists _ _).mp hfirst
  obtain ⟨hname', hlength, hba⟩ := (hlists _ _).mp hsecond
  refine ⟨⟨_, hsecond, hlength, ?_⟩, ?_, ?_⟩
  · rw [ne_eq, hunion _ _ hsecond]
    unfold Item.Ascending
    decide +kernel
  · rw [ne_eq, (hsame _ _ _ _ hname hname' hab hba).1]
    decide
  · have hread : (Table.ofJson? bothOrdersFile).toOption.isSome = true := by
      decide +kernel
    cases hresult : Table.ofJson? bothOrdersFile with
    | error e =>
        rw [hresult] at hread
        cases hread
    | ok t => exact ⟨t, rfl⟩

end ShiftReduce
