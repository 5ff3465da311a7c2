/-
State keys as names of sets of items.

A key is a list of items, but what it stands for is a set. An item stands
for itself alone, and a union for the items that it lists, of which there
are at least two, in ascending order. Written like this every nonempty set
has one name at most, and the union of some states has the union of their
sets for its set. Both facts rest on the order of items being strict: two
items that compare as equal are the same.

So the key of a union depends on nothing but that set. States may be united
in any order, again and again and in any grouping, also with unions that do
not list their items in order, and the union of the same items is always the
same state.
-/
import Mathlib.Data.List.Destutter
import Mathlib.Data.List.Sort
import Mathlib.Data.Set.Basic
import ShiftReduce.Table.StateKey

namespace ShiftReduce

-- =================================================== the order of items

namespace Item

/-- Items that compare as equal are the same item. -/
instance : Std.LawfulEqOrd Item where
  eq_of_compare := by
    intro i j h
    have hlex : ((compare i.symbol j.symbol).then
        ((compare i.rule j.rule).then (compare i.position j.position)))
          = .eq := h
    rw [Ordering.then_eq_eq, Ordering.then_eq_eq] at hlex
    obtain ⟨hsymbol, hrule, hposition⟩ := hlex
    cases i
    cases j
    cases Std.LawfulEqOrd.eq_of_compare hsymbol
    cases Std.LawfulEqOrd.eq_of_compare hrule
    cases Std.LawfulEqOrd.eq_of_compare hposition
    rfl

/-- Items in ascending order, each once. -/
def Ascending (items : List Item) : Prop :=
  items.Pairwise fun i j => compare i j = .lt

/-- A set of items can be listed in ascending order in one way only. -/
theorem Ascending.eq_of_mem_iff {is js : List Item} (hi : Ascending is)
    (hj : Ascending js) (h : ∀ i, i ∈ is ↔ i ∈ js) : is = js := by
  have antisymm : Std.Antisymm fun i j : Item => compare i j = .lt :=
    ⟨fun i j hij hji => absurd hji (Std.OrientedCmp.not_lt_of_lt hij)⟩
  have irrefl : Std.Irrefl fun i j : Item => compare i j = .lt :=
    ⟨fun i hii => absurd hii (Std.OrientedCmp.not_lt_of_lt hii)⟩
  exact List.Pairwise.eq_of_mem_iff hi hj h

-- ============================================================== sorting

theorem mem_insertSorted {item other : Item} {items : List Item} :
    other ∈ insertSorted item items ↔ other = item ∨ other ∈ items := by
  induction items with
  | nil => simp [insertSorted]
  | cons head rest ih =>
      unfold insertSorted
      split
      · exact List.mem_cons
      · next heq =>
          cases Std.LawfulEqOrd.eq_of_compare heq
          simp
      · rw [List.mem_cons, ih, List.mem_cons]
        exact or_left_comm

theorem mem_sorted {item : Item} {items : List Item} :
    item ∈ sorted items ↔ item ∈ items := by
  unfold sorted
  induction items with
  | nil => rfl
  | cons head rest ih =>
      rw [List.foldr_cons, mem_insertSorted, ih, List.mem_cons]

theorem Ascending.insertSorted {item : Item} {items : List Item}
    (h : Ascending items) : Ascending (insertSorted item items) := by
  induction items with
  | nil => exact List.pairwise_singleton _ _
  | cons head rest ih =>
      obtain ⟨hhead, hrest⟩ := List.pairwise_cons.mp h
      unfold Item.insertSorted
      split
      · next hlt =>
          refine List.pairwise_cons.mpr ⟨?_, h⟩
          intro other hother
          rcases List.mem_cons.mp hother with rfl | hother
          · exact hlt
          · exact Std.TransCmp.lt_trans hlt (hhead other hother)
      · exact h
      · next hgt =>
          refine List.pairwise_cons.mpr ⟨?_, ih hrest⟩
          intro other hother
          rcases mem_insertSorted.mp hother with rfl | hother
          · exact Std.OrientedCmp.lt_of_gt hgt
          · exact hhead other hother

theorem ascending_sorted (items : List Item) : Ascending (sorted items) := by
  unfold sorted
  induction items with
  | nil => exact List.Pairwise.nil
  | cons head rest ih => exact ih.insertSorted

/-- Sorting changes nothing exactly if the items are in ascending order. -/
theorem sorted_eq_self_iff {items : List Item} :
    sorted items = items ↔ Ascending items := by
  constructor
  · intro h
    rw [← h]
    exact ascending_sorted items
  · intro h
    exact (ascending_sorted items).eq_of_mem_iff h fun _ => mem_sorted

/-- It comes to the same if items are sorted, and then those are left out that
repeat the one before them. -/
theorem sorted_eq_destutter (items : List Item) :
    sorted items
      = (items.mergeSort fun i j => (compare i j).isLE).destutter (· ≠ ·) := by
  have antisymm : Std.Antisymm fun i j : Item => (compare i j).isLE = true :=
    ⟨fun i j hij hji =>
      Std.LawfulEqOrd.eq_of_compare (Std.OrientedCmp.isLE_antisymm hij hji)⟩
  have total : ∀ i j : Item,
      ((compare i j).isLE || (compare j i).isLE) = true := by
    intro i j
    cases h : compare i j with
    | lt => rfl
    | eq => rfl
    | gt =>
        rw [Std.OrientedCmp.lt_of_gt h]
        rfl
  have hsorted : (items.mergeSort fun i j => (compare i j).isLE).Pairwise
      fun i j => (compare i j).isLE = true :=
    List.pairwise_mergeSort (fun _ _ _ => Std.TransCmp.isLE_trans) total items
  rw [hsorted.destutter_eq_dedup]
  refine (ascending_sorted items).eq_of_mem_iff ?_ fun i => ?_
  · refine ((hsorted.sublist (List.dedup_sublist _)).and
      (List.nodup_dedup _)).imp ?_
    intro i j hij
    obtain ⟨hle, hne⟩ := hij
    rcases Ordering.isLE_iff_eq_lt_or_eq_eq.mp hle with hlt | heq
    · exact hlt
    · exact absurd (Std.LawfulEqOrd.eq_of_compare heq) hne
  · rw [mem_sorted, List.mem_dedup, List.mem_mergeSort]

end Item

-- ======================================================== keys and sets

namespace StateKey

/-- The key is that of the set: a single item is the key of the set with
that item, and a union that of the set of its items. The start state is
not a set of items. -/
def Names : StateKey → Set Item → Prop
  | start, _ => False
  | item i, s => s = {i}
  | merged is, s => 2 ≤ is.length ∧ Item.Ascending is ∧ s = {i | i ∈ is}

/-- What a key names are its items. -/
theorem Names.mem_iff {key : StateKey} {s : Set Item} (h : key.Names s)
    {i : Item} : i ∈ s ↔ i ∈ key.items := by
  cases key with
  | start => exact h.elim
  | item j =>
      cases h
      exact List.mem_singleton.symm
  | merged is =>
      obtain ⟨-, -, rfl⟩ := h
      exact Iff.rfl

theorem Names.nonempty {key : StateKey} {s : Set Item} (h : key.Names s) :
    s.Nonempty := by
  cases key with
  | start => exact h.elim
  | item j =>
      cases h
      exact Set.singleton_nonempty j
  | merged is =>
      obtain ⟨hlen, -, rfl⟩ := h
      exact List.exists_mem_of_length_pos (by omega)

theorem Names.ne_start {key : StateKey} {s : Set Item} (h : key.Names s) :
    key ≠ start := by
  rintro rfl
  exact h

/-- A set has one key only. -/
theorem Names.unique {key other : StateKey} {s : Set Item} (h : key.Names s)
    (h' : other.Names s) : key = other := by
  have hsingle : ∀ {i : Item} {is : List Item}, (item i).Names s →
      ¬ (merged is).Names s := by
    rintro i is hi ⟨hlen, hasc, hs⟩
    have hsame : is = [i] := by
      refine hasc.eq_of_mem_iff (List.pairwise_singleton _ _) fun j => ?_
      rw [← show j ∈ s ↔ j ∈ is from Set.ext_iff.mp hs j, show s = {i} from hi]
      exact List.mem_singleton.symm
    rw [hsame, List.length_singleton] at hlen
    omega
  cases key with
  | start => exact h.elim
  | item i =>
      cases other with
      | start => exact h'.elim
      | item j =>
          rw [Set.singleton_injective ((show s = {i} from h).symm.trans h')]
      | merged js => exact absurd h' (hsingle h)
  | merged is =>
      cases other with
      | start => exact h'.elim
      | item j => exact absurd h (hsingle h')
      | merged js =>
          refine congrArg merged (h.2.1.eq_of_mem_iff h'.2.1 fun i => ?_)
          exact h.mem_iff.symm.trans h'.mem_iff

theorem items_ofItems (items : List Item) : (ofItems items).items = items := by
  match items with
  | [] => rfl
  | [_] => rfl
  | _ :: _ :: _ => rfl

theorem ofItems_ne_start (items : List Item) : ofItems items ≠ start := by
  match items with
  | [] => exact nofun
  | [_] => exact nofun
  | _ :: _ :: _ => exact nofun

/-- The key of a nonempty list of items in ascending order names the set of
its items. -/
theorem names_ofItems {is : List Item} (hne : is ≠ [])
    (hasc : Item.Ascending is) : (ofItems is).Names {i | i ∈ is} := by
  match is, hne, hasc with
  | [i], _, _ => exact Set.ext fun j => List.mem_singleton
  | i :: j :: is, _, hasc => exact ⟨by simp, hasc, rfl⟩

-- =============================================================== unions

variable {keys others : List StateKey} {i : Item}

/-- The items of some states taken together. -/
def united (keys : List StateKey) : Set Item :=
  {i | ∃ key ∈ keys, i ∈ key.items}

theorem united_cons (key : StateKey) (keys : List StateKey) :
    united (key :: keys) = {i | i ∈ key.items} ∪ united keys := by
  ext i
  show (∃ k ∈ key :: keys, i ∈ k.items)
      ↔ i ∈ key.items ∨ ∃ k ∈ keys, i ∈ k.items
  simp only [List.mem_cons, exists_eq_or_imp]

theorem united_append (keys others : List StateKey) :
    united (keys ++ others) = united keys ∪ united others := by
  ext i
  show (∃ k ∈ keys ++ others, i ∈ k.items)
    ↔ (∃ k ∈ keys, i ∈ k.items) ∨ ∃ k ∈ others, i ∈ k.items
  simp only [List.mem_append, or_and_right, exists_or]

theorem items_union (keys : List StateKey) :
    (union keys).items = Item.sorted (keys.flatMap items) :=
  items_ofItems _

theorem mem_items_union : i ∈ (union keys).items ↔ i ∈ united keys := by
  rw [items_union, Item.mem_sorted]
  exact List.mem_flatMap

theorem ascending_items_union (keys : List StateKey) :
    Item.Ascending (union keys).items := by
  rw [items_union]
  exact Item.ascending_sorted _

/-- The union of some states names the union of their sets, if that is not
empty. -/
theorem names_union (h : i ∈ keys.flatMap items) :
    (union keys).Names (united keys) := by
  have hset : {i | i ∈ Item.sorted (keys.flatMap items)} = united keys := by
    rw [← items_union]
    exact Set.ext fun _ => mem_items_union
  rw [← hset]
  exact names_ofItems (List.ne_nil_of_mem (Item.mem_sorted.mpr h))
    (Item.ascending_sorted _)

/-- Unions are the same state exactly if they have the same items. -/
theorem union_eq_iff :
    union keys = union others ↔ united keys = united others := by
  constructor
  · intro h
    ext i
    rw [← mem_items_union, h, mem_items_union]
  · intro h
    have hitems : (union keys).items = (union others).items :=
      (ascending_items_union keys).eq_of_mem_iff
        (ascending_items_union others) fun i => by
        rw [mem_items_union, mem_items_union, h]
    rw [items_union, items_union] at hitems
    exact congrArg ofItems hitems

/-- The union of a single item is that item. -/
theorem union_item (i : Item) : union [item i] = item i := rfl

/-- A union is the key of an item exactly if it has that item and no other. -/
theorem union_eq_item_iff : union keys = item i ↔ united keys = {i} := by
  have hsingle : united [item i] = {i} := by
    rw [united_cons]
    ext j
    simp [united, items]
  rw [← hsingle, ← union_eq_iff, union_item]

/-- It makes no difference whether some of the states are united before. -/
theorem united_union_cons (keys others : List StateKey) :
    united (union keys :: others) = united (keys ++ others) := by
  rw [united_cons, united_append]
  congr 1
  ext i
  exact mem_items_union

/-- The key of a union is determined by the items of the states and determines
them. It lists them in ascending order and each once, as one gets by sorting
all of them and leaving out repetitions. It is the key of an item exactly if
that item is the only one, and never that of the start state. To unite some
states with others that are united already is to unite all of them. -/
theorem union_canonical (keys : List StateKey) :
    (∀ others, union keys = union others ↔ united keys = united others)
    ∧ {i | i ∈ (union keys).items} = united keys
    ∧ Item.Ascending (union keys).items
    ∧ (union keys).items
      = ((keys.flatMap items).mergeSort fun i j =>
        (compare i j).isLE).destutter (· ≠ ·)
    ∧ (∀ i, union keys = item i ↔ united keys = {i})
    ∧ union keys ≠ start
    ∧ ∀ others, union (union keys :: others) = union (keys ++ others) := by
  refine ⟨fun _ => union_eq_iff, Set.ext fun _ => mem_items_union,
    ascending_items_union keys, ?_, fun _ => union_eq_item_iff,
    ofItems_ne_start _, fun others => ?_⟩
  · rw [items_union]
    exact Item.sorted_eq_destutter _
  · rw [union_eq_iff]
    exact united_union_cons keys others

example :
    union [item ⟨"+", 2, 2⟩, merged [⟨"<S>", 1, 1⟩, ⟨"<S>", 0, 1⟩],
      item ⟨"<S>", 1, 1⟩]
    = merged [⟨"+", 2, 2⟩, ⟨"<S>", 0, 1⟩, ⟨"<S>", 1, 1⟩] := by decide

end StateKey

end ShiftReduce
