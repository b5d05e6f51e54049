import Mathlib.Data.List.Sort

/-! # Order statistics

    The element at a place of a list once it is sorted.

    * **`le_getElem_iff`** — it is at least `m` if no more elements than its place are below
      `m`;
    * **`getElem_le_of_window`** — it does not decrease when elements leave the list and
      others come that are not below it. -/

namespace OrderStatistic

variable {α : Type} [LinearOrder α]

/-- The list in order. -/
def sorted (l : List α) : List α := l.insertionSort (· ≤ ·)

@[simp] theorem sorted_length (l : List α) : (sorted l).length = l.length :=
  List.length_insertionSort _ l

/-- The number of elements below `m`. -/
def below (m : α) (l : List α) : Nat := l.countP (fun x => decide (x < m))

theorem below_sorted (m : α) (l : List α) : below m (sorted l) = below m l :=
  (List.perm_insertionSort _ l).countP_eq _

theorem below_append (m : α) (l l' : List α) : below m (l ++ l') = below m l + below m l' :=
  List.countP_append

theorem sorted_getElem_le {l : List α} {i j : Nat} (hij : i ≤ j) (hj : j < (sorted l).length) :
    (sorted l)[i] ≤ (sorted l)[j] := by
  rcases Nat.lt_or_eq_of_le hij with hlt | rfl
  · exact List.pairwise_iff_getElem.mp (List.pairwise_insertionSort (· ≤ ·) l) i j _ hj hlt
  · exact le_refl _

/-- **An element of the sorted list against a bound.** -/
theorem le_getElem_iff {l : List α} {k : Nat} (hk : k < (sorted l).length) (m : α) :
    m ≤ (sorted l)[k] ↔ below m l ≤ k := by
  rw [← below_sorted]
  constructor
  · -- from place `k` on no element is below the bound
    intro h
    have hdrop : below m ((sorted l).drop k) = 0 := by
      rw [below, List.countP_eq_zero]
      intro x hx
      obtain ⟨i, hi, rfl⟩ := List.getElem_of_mem hx
      rw [List.getElem_drop, decide_eq_true_eq, not_lt]
      exact le_trans h (sorted_getElem_le (Nat.le_add_right k i) _)
    have htake : below m ((sorted l).take k) ≤ ((sorted l).take k).length := List.countP_le_length
    rw [← List.take_append_drop k (sorted l), below_append, hdrop, Nat.add_zero]
    exact le_trans htake (List.length_take_le k _)
  · intro h
    by_contra hlt
    have hlt : (sorted l)[k] < m := not_le.mp hlt
    have htake : below m ((sorted l).take (k + 1)) = ((sorted l).take (k + 1)).length := by
      rw [below, List.countP_eq_length]
      intro x hx
      obtain ⟨i, hi, rfl⟩ := List.getElem_of_mem hx
      rw [List.getElem_take, decide_eq_true_eq]
      rw [List.length_take] at hi
      exact lt_of_le_of_lt (sorted_getElem_le (by omega) hk) hlt
    have hsplit := below_append m ((sorted l).take (k + 1)) ((sorted l).drop (k + 1))
    rw [List.take_append_drop, htake, List.length_take] at hsplit
    omega

/-- **Elements leave and others come that are not below the one at place `k`.** -/
theorem getElem_le_of_window {l l' new : List α} {k k' : Nat} (hk : k < (sorted l).length)
    (hk' : k' < (sorted (new ++ l')).length) (hl : l'.Sublist l) (hkk : k ≤ k')
    (hnew : ∀ x ∈ new, (sorted l)[k] ≤ x) : (sorted l)[k] ≤ (sorted (new ++ l'))[k'] := by
  rw [le_getElem_iff hk']
  have hzero : below (sorted l)[k] new = 0 := by
    rw [below, List.countP_eq_zero]
    intro x hx
    rw [decide_eq_true_eq, not_lt]
    exact hnew x hx
  have hself : below (sorted l)[k] l ≤ k := (le_getElem_iff hk _).mp (le_refl _)
  rw [below_append, hzero, Nat.zero_add]
  exact le_trans (hl.countP_le) (le_trans hself hkk)

end OrderStatistic
