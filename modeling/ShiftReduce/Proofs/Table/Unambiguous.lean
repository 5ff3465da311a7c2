/-
Names tell states apart.

A name can be taken apart without knowing the symbols in it. The last two
colons of an item are those before its numbers, since there is none in a
number, so an item can be told from its name whatever its symbol looks like.
The spaces of a name are those between its items as long as there are none in
the symbols, and the start symbol does not end with a digit. So no two states
have the same name. How large the numbers are matters only for reading: a
state is read back from its name exactly if it can be read at all.

In a grammar that is read from lines no symbol has a space in it, and the start
symbol is in brackets. So the states of its table have different names.
-/
import ShiftReduce.Proofs.Table.Reread
import ShiftReduce.Proofs.Table.Stable

namespace ShiftReduce

open Text

theorem Numeral.toDigits_injective : Function.Injective (Nat.toDigits 10) :=
  Function.LeftInverse.injective (g := fun cs => Nat.ofDigitChars 10 cs 0)
    fun _ => Nat.ofDigitChars_ten_toDigits

/-- No two items have the same name, whatever their symbols look like. -/
theorem Item.toText_injective : Function.Injective toText := by
  rintro ⟨symbol, rule, position⟩ ⟨symbol', rule', position'⟩ h
  have houter := splitLast?_toText ⟨symbol, rule, position⟩
  rw [h, splitLast?_toText] at houter
  obtain ⟨hfront, hposition⟩ := Prod.mk.inj (Option.some.inj houter)
  have hinner := splitLast?_number symbol.toList rule
  rw [← hfront, splitLast?_number] at hinner
  obtain ⟨hsymbol, hrule⟩ := Prod.mk.inj (Option.some.inj hinner)
  obtain rfl : symbol' = symbol := String.toList_injective hsymbol
  obtain rfl : rule' = rule := Numeral.toDigits_injective hrule
  obtain rfl : position' = position := Numeral.toDigits_injective hposition
  rfl

namespace StateKey

variable {startSymbol : Symbol} {key key' : StateKey}

/-- States with the same name are the same. -/
theorem Solid.eq_of_toText (hstart : isNonterminal startSymbol = true)
    (h : key.Solid) (h' : key'.Solid)
    (hname : key.toText startSymbol = key'.toText startSymbol) :
    key = key' := by
  by_cases hkey : key = start
  case pos =>
    subst hkey
    by_contra hkey'
    exact h'.toText_ne hstart (Ne.symm hkey') hname.symm
  by_cases hkey' : key' = start
  case pos =>
    subst hkey'
    exact absurd hname (h.toText_ne hstart hkey)
  have hpieces := h.splitOn_toText hkey startSymbol
  rw [hname, h'.splitOn_toText hkey'] at hpieces
  have hinj : Function.Injective fun i : Item => i.toText.toList :=
    fun _ _ heq => Item.toText_injective (String.toList_injective heq)
  have hitems : key'.items = key.items :=
    List.map_injective_iff.mpr hinj hpieces
  rw [← (h.name_eq hkey startSymbol).2.2, ← hitems,
    (h'.name_eq hkey' startSymbol).2.2]

/-- A state is read back from its name exactly if its name can be read. -/
theorem ofText?_toText_iff (hstart : isNonterminal startSymbol = true) :
    ofText? startSymbol (key.toText startSymbol) = some key ↔ key.Legible :=
  ⟨fun h => (legible_of_ofText? h).1, ofText?_toText hstart⟩

end StateKey

/-- No two states of a stored table have the same name. -/
theorem Grammar.nodup_names {g : Grammar} {lines : List String}
    (hread : ofLines? lines = .ok g) {follow : FollowSets} {limit : Nat}
    {t : Table} (hbuilt : (g.buildWith follow limit).result = .ok t) :
    ((StoredTable.ofTable t).states.map StoredState.name).Nodup := by
  have hstart : isNonterminal t.startSymbol = true := by
    rw [startSymbol_of_buildWith hbuilt]
    exact isNonterminal_startSymbol (isNonterminal_left hread)
  have hsolid : ∀ rule ∈ g.rules, ∀ symbol ∈ rule.right, ' ' ∉ symbol.toList :=
    fun rule hrule symbol hsymbol =>
      ((solid_of_lines hread rule hrule).1 symbol hsymbol).2
  have hnames : (StoredTable.ofTable t).states.map StoredState.name
      = t.states.keys.map (StateKey.toText t.startSymbol) := by
    unfold StoredTable.ofTable OrderedMap.keys
    rw [List.map_map, List.map_map]
    rfl
  rw [hnames]
  refine List.Nodup.map_on (fun key hkey key' hkey' heq => ?_) t.states.nodup
  exact (solid_of_mem_states hbuilt hsolid hkey).eq_of_toText hstart
    (solid_of_mem_states hbuilt hsolid hkey') heq

-- ============================================================ the theorem

/-- State names are unambiguous. Below a start symbol in brackets a state is
read back from its name exactly if it is the start state, an item or at least
two of them, with numbers within the limits and symbols that are not empty and
have no spaces in them. Without regard to the numbers, no two such states have
the same name. So it is with the states of a table of a grammar that is read
from lines. -/
theorem names_unambiguous :
    (∀ startSymbol, isNonterminal startSymbol = true → ∀ key,
      StateKey.ofText? startSymbol (key.toText startSymbol) = some key
        ↔ key.Legible)
    ∧ (∀ startSymbol, isNonterminal startSymbol = true → ∀ key key' : StateKey,
      key.Solid → key'.Solid →
      (key.toText startSymbol = key'.toText startSymbol ↔ key = key'))
    ∧ ∀ lines g follow limit t, Grammar.ofLines? lines = .ok g →
      (g.buildWith follow limit).result = .ok t →
      ((StoredTable.ofTable t).states.map StoredState.name).Nodup := by
  refine ⟨fun startSymbol hstart key => StateKey.ofText?_toText_iff hstart, ?_,
    ?_⟩
  · intro startSymbol hstart key key' h h'
    exact ⟨h.eq_of_toText hstart h', congrArg (StateKey.toText startSymbol)⟩
  · intro lines g follow limit t hread hbuilt
    exact Grammar.nodup_names hread hbuilt

/-- Two items whose symbols are a colon with a number on either side of it. -/
theorem names_unambiguous_colons :
    StateKey.ofText? "<S>" "1::0:1 :2:10:2"
      = some (.merged [⟨"1:", 0, 1⟩, ⟨":2", 10, 2⟩]) := by
  have hbefore : Item.Legible ⟨"1:", 0, 1⟩ :=
    ⟨by decide, by decide, by decide, by decide⟩
  have hbehind : Item.Legible ⟨":2", 10, 2⟩ :=
    ⟨by decide, by decide, by decide, by decide⟩
  have hitems :=
    List.forall_mem_cons.mpr ⟨hbefore, List.forall_mem_singleton.mpr hbehind⟩
  exact (names_unambiguous.1 "<S>" (by decide) (.merged _)).mpr
    ⟨by decide, hitems⟩

end ShiftReduce
