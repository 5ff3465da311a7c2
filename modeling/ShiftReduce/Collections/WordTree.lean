/-
The words of a list, each at its first occurrence.

A grammar may have many terminals, and every word of every rule is one that
has occurred before or a new one. The words so far are therefore kept in a
tree that branches by their characters: whether a word is among them is
found in as many steps as the word has characters, however many words there
are. The tree only answers that question. The words that come out are those
of an ordered set to which all words are added one after the other.
-/
import ShiftReduce.Collections.OrderedMap

namespace ShiftReduce

/-- A set of words, arranged by their characters. -/
inductive WordTree where
  /-- Whether a word ends here, and the trees of the words that go on, by
  their next character. -/
  | node (ends : Bool) (branches : List (Char × WordTree))

namespace WordTree

-- =========================================================== the tree

/-- The tree without words. -/
def empty : WordTree := node false []

/-- Whether a word is in the tree. -/
def contains : List Char → WordTree → Bool
  | [], node ends _ => ends
  | c :: rest, node _ branches =>
    match branches.lookup c with
    | none => false
    | some branch => contains rest branch

/-- Add a word. -/
def insert : List Char → WordTree → WordTree
  | [], node _ branches => node true branches
  | c :: rest, node ends branches =>
    node ends (OrderedMap.updateEntries c
      (fun branch => insert rest (branch.getD empty)) branches)

@[simp] theorem contains_empty (word : List Char) :
    contains word empty = false := by
  cases word <;> rfl

/-- The word that is added is in the tree, and for all others nothing
changes. -/
theorem contains_insert (word other : List Char) (tree : WordTree) :
    contains other (insert word tree)
      = (decide (other = word) || contains other tree) := by
  induction word generalizing other tree with
  | nil =>
    obtain ⟨ends, branches⟩ := tree
    cases other with
    | nil => simp [insert, contains]
    | cons d other => simp [insert, contains]
  | cons c word ih =>
    obtain ⟨ends, branches⟩ := tree
    cases other with
    | nil => simp [insert, contains]
    | cons d other =>
      simp only [insert, contains, OrderedMap.lookup_updateEntries]
      by_cases hd : d = c
      · subst hd
        simp only [if_true, ih, List.cons.injEq, true_and]
        cases branches.lookup d <;> simp
      · simp [hd]

-- ========================================================== the words

/-- Take up the next word of a list, given the words before it and, the last
of them in front, the new ones among them. -/
def take (seen : WordTree × List String) (word : String) :
    WordTree × List String :=
  if contains word.toList seen.1 then seen
  else (insert word.toList seen.1, word :: seen.2)

/-- The words of a list, each at its first occurrence. -/
def distinct (words : List String) : List String :=
  (words.foldl take (empty, [])).2.reverse

/-- The tree answers for the words of the set, and these are listed in
reverse. -/
structure Holds (seen : WordTree × List String) (set : OrderedSet String) :
    Prop where
  listed : seen.2.reverse = set.elements
  contains : ∀ word : String, contains word.toList seen.1 = true ↔ word ∈ set

theorem holds_empty : Holds (empty, []) OrderedSet.empty where
  listed := rfl
  contains := fun word => by
    rw [contains_empty]
    exact ⟨nofun, nofun⟩

/-- A word is taken up as it is added to a set. -/
theorem Holds.take {seen : WordTree × List String} {set : OrderedSet String}
    (h : Holds seen set) (word : String) :
    Holds (take seen word) (set.insert word) := by
  have hword := h.contains word
  unfold WordTree.take
  by_cases hseen : WordTree.contains word.toList seen.1 = true
  · have hset : set.insert word = set := by
      apply OrderedSet.ext_elements
      rw [OrderedSet.elements_insert, if_pos (hword.mp hseen)]
    rw [if_pos hseen, hset]
    exact h
  · have hnew : word ∉ set := fun hmem => hseen (hword.mpr hmem)
    rw [if_neg hseen]
    refine ⟨?_, fun other => ?_⟩
    · rw [OrderedSet.elements_insert, if_neg hnew, List.reverse_cons, h.listed]
    · rw [OrderedSet.mem_insert, ← h.contains other, contains_insert]
      simp [String.toList_inj, or_comm]

theorem Holds.foldl_take {seen : WordTree × List String}
    {set : OrderedSet String} (h : Holds seen set) (words : List String) :
    Holds (words.foldl WordTree.take seen) (set.insertAll words) := by
  unfold OrderedSet.insertAll
  induction words generalizing seen set with
  | nil => exact h
  | cons word words ih => exact ih (h.take word)

theorem distinct_eq (words : List String) :
    distinct words = (OrderedSet.ofList words).elements :=
  (holds_empty.foldl_take words).listed

end WordTree

namespace OrderedSet

/-- The set of the words of a list. -/
def ofWords (words : List String) : OrderedSet String :=
  ⟨WordTree.distinct words, by
    rw [WordTree.distinct_eq]
    exact (ofList words).nodup⟩

/-- It is the set that arises when the words are added one by one. -/
theorem ofWords_eq (words : List String) : ofWords words = ofList words :=
  ext_elements (WordTree.distinct_eq words)

end OrderedSet

end ShiftReduce
