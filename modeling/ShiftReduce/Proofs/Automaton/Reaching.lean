/-
Reaching states.

The set of states is its own queue, and a place in it says how far it has
been served. What has been served is closed under targets, and since only
states that have been entered are ever added, the number of rows is enough
for the place to pass the end of the set. So the search ends with exactly
the states that can be reached from the start state: it holds nothing else,
and it is closed. The start state comes first in it.
-/
import Mathlib.Data.List.Perm.Subperm
import ShiftReduce.Automaton.Reach
import ShiftReduce.Proofs.Automaton.Cells

namespace ShiftReduce

namespace Rows

variable {rows : Rows}

theorem isPrefix_explore (rows : Rows) (limit place : Nat)
    (states : OrderedSet StateKey) :
    states.elements <+: (rows.explore limit place states).elements := by
  induction limit generalizing place states with
  | zero => exact List.prefix_refl _
  | succ limit ih =>
      unfold explore
      split
      · exact List.prefix_refl _
      · exact (OrderedSet.elements_isPrefix_insertAll states _).trans (ih _ _)

/-- What holds of all states so far and goes from a state to its targets
holds of all states that are found. -/
theorem forall_mem_explore {P : StateKey → Prop}
    (hstep : ∀ key, P key → ∀ target ∈ rows.targets key, P target)
    (limit place : Nat) (states : OrderedSet StateKey)
    (h : ∀ key ∈ states, P key) :
    ∀ key ∈ rows.explore limit place states, P key := by
  induction limit generalizing place states with
  | zero => exact h
  | succ limit ih =>
      unfold explore
      split
      · exact h
      · next key hkey =>
          refine ih _ _ fun other hother => ?_
          rcases OrderedSet.mem_insertAll.mp hother with hother | hother
          · exact h other hother
          · exact hstep key
              (h key (OrderedSet.mem_of_position hkey)) other hother

/-- Once the place has passed the end, every state has been served. -/
theorem targets_subset_of_served {place : Nat} {states : OrderedSet StateKey}
    (hserved : ∀ n < place, ∀ key, states.elements[n]? = some key →
      ∀ target ∈ rows.targets key, target ∈ states)
    (hplace : states.elements.length ≤ place) :
    ∀ key ∈ states, ∀ target ∈ rows.targets key, target ∈ states := by
  intro key hkey
  obtain ⟨n, hn⟩ := OrderedSet.exists_position hkey
  obtain ⟨hlt, -⟩ := List.getElem?_eq_some_iff.mp hn
  exact hserved n (by omega) key hn

/-- There are no more states that have been entered than rows. -/
theorem length_le_size {states : OrderedSet StateKey}
    (h : ∀ key ∈ states, key ∈ rows.keys) :
    states.elements.length ≤ rows.size := by
  have hcount : states.elements.length ≤ rows.keys.length :=
    (List.subperm_of_subset states.nodup h).length_le
  have hsize : rows.keys.length = rows.size := List.length_map _
  omega

/-- If the states before a place have their targets among the states, and
the limit lets the place pass as many states as there are rows, then in the
end all states have their targets among the states. -/
theorem targets_subset_explore
    (hrows : ∀ key, ∀ target ∈ rows.targets key, target ∈ rows.keys)
    (limit place : Nat) (states : OrderedSet StateKey)
    (hstates : ∀ key ∈ states, key ∈ rows.keys)
    (hserved : ∀ n < place, ∀ key, states.elements[n]? = some key →
      ∀ target ∈ rows.targets key, target ∈ states)
    (henough : rows.size ≤ limit + place) :
    ∀ key ∈ rows.explore limit place states, ∀ target ∈ rows.targets key,
      target ∈ rows.explore limit place states := by
  induction limit generalizing place states with
  | zero =>
      have hcount := length_le_size hstates
      have hplace : states.elements.length ≤ place := by omega
      exact targets_subset_of_served hserved hplace
  | succ limit ih =>
      unfold explore
      split
      · next hnone =>
          exact targets_subset_of_served hserved
            (List.getElem?_eq_none_iff.mp hnone)
      · next key hkey =>
          obtain ⟨hplace, -⟩ := List.getElem?_eq_some_iff.mp hkey
          refine ih (place + 1) _ ?_ ?_ (by omega)
          · intro other hother
            rcases OrderedSet.mem_insertAll.mp hother with hother | hother
            · exact hstates other hother
            · exact hrows key other hother
          · intro n hn other hother target htarget
            have hsame : states.elements[n]? = some other := by
              obtain ⟨rest, hrest⟩ :=
                states.elements_isPrefix_insertAll (rows.targets key)
              rw [← hother, ← hrest, List.getElem?_append_left (by omega)]
            rw [OrderedSet.mem_insertAll]
            rcases Nat.lt_succ_iff_lt_or_eq.mp hn with hn | rfl
            · exact Or.inl (hserved n hn other hsame target htarget)
            · cases hkey.symm.trans hsame
              exact Or.inr htarget

-- =========================================================== the states

theorem reachable_start (rows : Rows) :
    rows.reachable.elements[0]? = some .start := by
  have hprefix :=
    rows.isPrefix_explore rows.size 0 (OrderedSet.ofList [.start])
  obtain ⟨rest, hrest⟩ := hprefix
  unfold reachable
  rw [← hrest]
  rfl

/-- What holds of the start state and goes from a state to its targets
holds of all states that can be reached. -/
theorem forall_mem_reachable {P : StateKey → Prop} (hstart : P .start)
    (hstep : ∀ key, P key → ∀ target ∈ rows.targets key, P target) :
    ∀ key ∈ rows.reachable, P key := by
  refine forall_mem_explore hstep _ _ _ fun key hkey => ?_
  rw [List.mem_singleton.mp (OrderedSet.mem_ofList.mp hkey)]
  exact hstart

/-- The targets of a state that can be reached can be reached. -/
theorem targets_subset_reachable (hstart : .start ∈ rows.keys)
    (hrows : ∀ key, ∀ target ∈ rows.targets key, target ∈ rows.keys) :
    ∀ key ∈ rows.reachable, ∀ target ∈ rows.targets key,
      target ∈ rows.reachable := by
  refine rows.targets_subset_explore hrows _ 0 _ ?_
    (fun n hn => nomatch hn) (Nat.le_refl _)
  intro key hkey
  rw [List.mem_singleton.mp (OrderedSet.mem_ofList.mp hkey)]
  exact hstart

end Rows

end ShiftReduce
