import Mathlib.Data.List.Basic

/-! # Lists in groups

    A list read two by two (`pairs`), and a list with every group of four in the
    opposite order (`reverseGroups`); what does not fill a group stays as it is. -/

namespace ListGroups

variable {α β : Type}

/-- The elements two by two; a last single one is dropped. -/
def pairs : List α → List (α × α)
  | a :: b :: l => (a, b) :: pairs l
  | _ => []

/-- Every group of four in the opposite order. -/
def reverseGroups : List α → List α
  | a :: b :: c :: d :: l => d :: c :: b :: a :: reverseGroups l
  | l => l

/-- A list of even length is made of pairs. -/
theorem pairs_induction {P : (l : List α) → 2 ∣ l.length → Prop}
    (nil : P [] (Nat.dvd_zero 2))
    (pair : ∀ a b l h, P l h → P (a :: b :: l) ((Nat.dvd_add_left (Nat.dvd_refl 2)).mpr h)) :
    ∀ l h, P l h
  | [], _ => nil
  | [_], h => absurd h (by simp)
  | a :: b :: l, h =>
      pair a b l _ (pairs_induction nil pair l ((Nat.dvd_add_left (Nat.dvd_refl 2)).mp h))

/-- The pairs behind whole pairs. -/
theorem pairs_append {u : List α} (h : 2 ∣ u.length) (v : List α) :
    pairs (u ++ v) = pairs u ++ pairs v := by
  induction u, h using pairs_induction with
  | nil => rfl
  | pair a b u h ih => exact congrArg ((a, b) :: ·) ih

/-- Where a pair stands. -/
theorem mem_pairs {p : α × α} {l : List α} (h : p ∈ pairs l) :
    ∃ u v, l = u ++ p.1 :: p.2 :: v ∧ 2 ∣ u.length := by
  induction l using pairs.induct with
  | case1 a b l ih =>
      rcases List.mem_cons.mp h with rfl | h
      · exact ⟨[], l, rfl, Nat.dvd_zero 2⟩
      · obtain ⟨u, v, rfl, hu⟩ := ih h
        exact ⟨a :: b :: u, v, rfl, (Nat.dvd_add_left (Nat.dvd_refl 2)).mpr hu⟩
  | case2 l hl =>
      rw [pairs.eq_2 l hl] at h
      exact absurd h List.not_mem_nil

/-- A list is groups of four and a rest that does not fill one. -/
theorem groups_induction {P : List α → Prop} (short : ∀ l, l.length < 4 → P l)
    (group : ∀ a b c d l, P l → P (a :: b :: c :: d :: l)) : ∀ l, P l
  | [] | [_] | [_, _] | [_, _, _] => short _ (by simp)
  | a :: b :: c :: d :: l => group a b c d l (groups_induction short group l)

theorem reverseGroups_short {l : List α} (h : l.length < 4) : reverseGroups l = l := by
  match l, h with
  | [], _ | [_], _ | [_, _], _ | [_, _, _], _ => rfl

/-- Groups are reversed wherever their elements go. -/
theorem map_reverseGroups (f : α → β) (l : List α) :
    (reverseGroups l).map f = reverseGroups (l.map f) := by
  induction l using groups_induction with
  | short l h => rw [reverseGroups_short h, reverseGroups_short (by rwa [List.length_map])]
  | group a b c d l ih =>
      show f d :: f c :: f b :: f a :: (reverseGroups l).map f = _
      rw [ih]
      rfl

end ListGroups
