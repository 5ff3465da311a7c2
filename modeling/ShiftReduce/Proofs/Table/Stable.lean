/-
Tables that have been read can be stored.

A file may spell its table in ways in which no table is written: with zeros
in front of numbers, with a plus sign, with the items of a state in any
order. All of this is gone once the file has been read, and what is written
for the table reads as the same table again. The items of every key have
been cut out of a name, so their symbols have no spaces, and their numbers
are within the limits. What remains to be seen is that a shift does not turn
into a reduction by being written differently. A name is taken for a
reduction if its first symbol looks like one, and this symbol has not
changed: if the text in the file was not taken for a reduction, neither is
the text that is written.
-/
import ShiftReduce.Proofs.Table.File
import ShiftReduce.Proofs.Table.Interchange

namespace ShiftReduce

open Text

-- ============================================================ what is read

namespace Item

/-- The text of an item begins with its symbol and a colon, and if it has no
space in it, the item can be written. -/
theorem legible_of_ofText? {text : List Char} {i : Item}
    (h : ofText? text = some i) (hsolid : ' ' ∉ text) :
    i.Legible ∧ ∃ rest, text = i.symbol.toList ++ ':' :: rest := by
  unfold ofText? at h
  simp only [Option.bind_eq_bind, Option.bind_eq_some_iff, Prod.exists] at h
  obtain ⟨front, back, hcut, symbol, number, hfront, position, hposition,
    rule, hrule, h⟩ := h
  have htext := eq_of_splitLast?_eq_some hcut
  rw [eq_of_splitLast?_eq_some hfront] at htext
  split at h
  · cases h
  · next hsymbol =>
      cases h
      refine ⟨⟨?_, ?_, Numeral.lt_of_readPlusBelow? hrule,
        Numeral.lt_of_readPlusBelow? hposition⟩, number ++ ':' :: back, ?_⟩
      · rw [ne_eq, ← String.toList_eq_nil_iff, String.toList_ofList]
        exact fun hnil => hsymbol (List.isEmpty_iff.mpr hnil)
      · rw [String.toList_ofList]
        intro hspace
        rw [htext] at hsolid
        exact hsolid (by simp [hspace])
      · rw [String.toList_ofList, htext]
        simp

end Item

namespace StateKey

/-- A state that has been read from a name can be written. If it is not the
start state, the name begins with the symbol of its first item. -/
theorem legible_of_ofText? {startSymbol : Symbol} {text : String}
    {key : StateKey} (h : ofText? startSymbol text = some key) :
    key.Legible ∧ (text = startSymbol ∧ key = start
      ∨ ∃ i rest, key.items.head? = some i
        ∧ text.toList = i.symbol.toList ++ ':' :: rest) := by
  unfold ofText? at h
  split at h
  · next heq =>
      cases h
      exact ⟨trivial, Or.inl ⟨heq, rfl⟩⟩
  · obtain ⟨items, hitems, rfl⟩ := Option.map_eq_some_iff.mp h
    obtain ⟨piece, pieces, rest, hsplit, htext⟩ :=
      exists_splitOn_eq_cons ' ' text.toList
    have hread := mapM_eq_some_iff_forall₂.mp hitems
    have hlegible : ∀ i ∈ items, i.Legible := by
      intro i hi
      obtain ⟨piece, hmem, hpiece⟩ := exists_left_of_forall₂ hread hi
      exact (Item.legible_of_ofText? hpiece (not_mem_of_mem_splitOn hmem)).1
    rw [hsplit] at hread
    cases hread with
    | @cons _ i _ others hi _ =>
        have hmem : piece ∈ splitOn ' ' text.toList := by
          rw [hsplit]
          exact List.mem_cons_self
        obtain ⟨-, more, hpiece⟩ :=
          Item.legible_of_ofText? hi (not_mem_of_mem_splitOn hmem)
        have hbegins :
            text.toList = i.symbol.toList ++ ':' :: (more ++ rest) := by
          rw [htext, hpiece, List.append_assoc, List.cons_append]
        cases others with
        | nil =>
            exact ⟨hlegible i List.mem_cons_self, Or.inr ⟨i, _, rfl, hbegins⟩⟩
        | cons j others =>
            refine ⟨⟨?_, hlegible⟩, Or.inr ⟨i, _, rfl, hbegins⟩⟩
            simp

end StateKey

-- ================================================================= tables

namespace StoredTable.Describes

variable {stored : StoredTable} {t : Table}

/-- Its shifts are into its states, and what they are written as is not taken
for a reduction, as it was not when they were read. -/
theorem of_shift (h : stored.Describes t) {state target : Nat}
    {symbol : Symbol}
      (haction : t.action? state symbol = some (.shift target)) :
    ∃ key, t.key? target = some key
      ∧ (Action.reduceOfText? (t.stateName target).toList :
        Option (Action Nat)) = none := by
  obtain ⟨text, htext⟩ := h.exists_text haction
  rcases Action.of_ofText?_ok htext with
    hreduce | ⟨hnone, key, target', hkey, hstate, heq⟩
  · obtain ⟨rule, name, heq, -⟩ := Action.reduceOfText?_eq_some hreduce
    cases heq
  · cases heq
    have htarget := Table.key?_of_idxOf? hstate
    refine ⟨key, htarget, ?_⟩
    unfold Table.stateName
    rw [htarget]
    obtain ⟨hlegible, ⟨rfl, rfl⟩ | ⟨i, rest, hi, hbegins⟩⟩ :=
      StateKey.legible_of_ofText? hkey
    · exact hnone
    · rw [hbegins, reduceOfText?_eq_none_iff] at hnone
      exact (hlegible.reduceOfText?_toText_eq_none_iff hi t.startSymbol).mpr
        hnone

/-- A table that has been read can be written. -/
theorem legible (h : stored.Describes t)
    (hstart : isNonterminal t.startSymbol = true) : t.Legible where
  start := hstart
  first := h.first
  keys := by
    intro key hkey
    obtain ⟨name, hname⟩ := h.exists_name hkey
    exact (StateKey.legible_of_ofText? hname).1
  shift := by
    intro state symbol target haction
    obtain ⟨key, hkey, -⟩ := h.of_shift haction
    exact ⟨key, hkey⟩
  reduce := by
    intro state symbol rule name haction
    obtain ⟨text, htext⟩ := h.exists_text haction
    rcases Action.of_ofText?_ok htext with
      hreduce | ⟨-, key, target, -, -, heq⟩
    · obtain ⟨rule, name, heq, hrule, hname⟩ :=
        Action.reduceOfText?_eq_some hreduce
      cases heq
      exact ⟨hrule, hname⟩
    · cases heq

/-- Every action of it is read back from its text. -/
theorem reread_eq (h : stored.Describes t)
    (hstart : isNonterminal t.startSymbol = true) {state : Nat}
    {symbol : Symbol} {action : Action Nat}
    (haction : t.action? state symbol = some action) :
    t.reread action = action := by
  have hlegible := h.legible hstart
  cases action with
  | reduce rule name =>
      obtain ⟨hrule, hname⟩ := hlegible.reduce state symbol rule name haction
      exact Table.reread_eq (Table.actionOfText?_reduce hrule hname)
  | shift target =>
      obtain ⟨key, hkey, hnone⟩ := h.of_shift haction
      exact Table.reread_eq (Table.actionOfText?_shift hlegible hkey hnone)

end StoredTable.Describes

namespace Table

variable {t : Table}

theorem exists_describes {text : String} (h : ofJson? text = .ok t) :
    ∃ stored : StoredTable, stored.Describes t := by
  unfold ofJson? ofJsonBytes? at h
  split at h
  · cases h
  · next stored _ => exact ⟨stored, StoredTable.toTable?_eq_ok_iff.mp h⟩

/-- A table that has been read from a text is well formed: its first state
and no other is the start state, no two states have the same key, and shifts
are into states of the table. And if its start symbol is a nonterminal, the
table is stable: it is read back from the text that stores it, however it was
spelled before. -/
theorem ofJson?_stable {text : String} (h : ofJson? text = .ok t) :
    (∀ state, t.key? state = some .start ↔ state = initial)
    ∧ (∀ state state' key, t.key? state = some key →
      t.key? state' = some key → state = state')
    ∧ (∀ state symbol target, t.action? state symbol = some (.shift target) →
      ∃ key, t.key? target = some key)
    ∧ (isNonterminal t.startSymbol = true → ofJson? t.toJson = .ok t) := by
  obtain ⟨stored, hdescribes⟩ := exists_describes h
  have hinitial := hdescribes.key?_initial
  refine ⟨fun state => ⟨fun hstate => key?_unique hstate hinitial, ?_⟩,
    fun _ _ _ => key?_unique, ?_, fun hstart => ?_⟩
  · rintro rfl
    exact hinitial
  · intro state symbol target haction
    obtain ⟨key, hkey, -⟩ := hdescribes.of_shift haction
    exact ⟨key, hkey⟩
  · have hsame : t.mapActions t.reread = t :=
      mapActions_eq_self_iff.mpr fun _ _ _ => hdescribes.reread_eq hstart
    rw [ofJson?_toJson, toTable?_ofTable (hdescribes.legible hstart), hsame]

/-- A file in which no number is written as a table would write it. -/
def unusualFile : String :=
  "\x7b\"start_symbol\":\"<S>\",\"states\":[\x7b\"name\":\"<S>\",\"actions\":"
    ++ "\x7b\"a\":\"a:+1:1 a:0:01\"\x7d\x7d,"
    ++ "\x7b\"name\":\"a:01:+1 a:0:1\",\"actions\":"
    ++ "\x7b\"#\":\"R007\"\x7d\x7d]\x7d"

theorem ofJson?_stable_unusual :
    ∃ t, ofJson? unusualFile = .ok t ∧ t.stateName 1 = "a:1:1 a:0:1"
      ∧ t.action? 0 "a" = some (.shift 1)
      ∧ t.action? 1 "#" = some (.reduce 7 none)
      ∧ (t.key? 1 = some .start ↔ 1 = initial) ∧ ofJson? t.toJson = .ok t := by
  have hcheck : (match ofJson? unusualFile with
      | .error _ => false
      | .ok t => decide (t.stateName 1 = "a:1:1 a:0:1")
        && decide (t.action? 0 "a" = some (.shift 1))
        && decide (t.action? 1 "#" = some (.reduce 7 none))
        && isNonterminal t.startSymbol) = true := by
    decide +kernel
  split at hcheck
  · cases hcheck
  · next t hread =>
      simp only [Bool.and_eq_true, decide_eq_true_eq] at hcheck
      obtain ⟨⟨⟨hname, hshift⟩, hreduce⟩, hstart⟩ := hcheck
      obtain ⟨hinitial, -, -, hstable⟩ := ofJson?_stable hread
      exact ⟨t, hread, hname, hshift, hreduce, hinitial 1, hstable hstart⟩

end Table

end ShiftReduce
