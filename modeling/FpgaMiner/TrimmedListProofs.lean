import Mathlib.Data.List.DropRight

/-! # Lists with blanks

    A list whose places may be blank, as if it went on with blanks for ever: the blanks at
    its end are dropped, so there is one list for each such row of places.

    * **`ext`** — trimmed lists with the same places are equal;
    * **`trim_getD`** and **`put_getD`** — the places of a list that is trimmed, or that a
      place is put in, however far it lies. -/

namespace TrimmedList

variable {α : Type} {blank : α → Bool} {d : α}

/-- Every blank is the same one, and the last place is none. -/
structure Trimmed (blank : α → Bool) (d : α) (l : List α) : Prop where
  blank_eq : ∀ x ∈ l, blank x = true → x = d
  last : ∀ h : l ≠ [], ¬ blank (l.getLast h) = true

/-- The empty list is trimmed. -/
theorem trimmed_nil : Trimmed blank d [] := ⟨fun _ h => (List.not_mem_nil h).elim, fun h => absurd rfl h⟩

/-- Behind the end there is the default. -/
theorem getD_of_le {l : List α} {n : Nat} (h : l.length ≤ n) : l.getD n d = d := by
  rw [List.getD_eq_getElem?_getD, List.getElem?_eq_none h, Option.getD_none]

/-- Before it there is the element. -/
theorem getD_of_lt {l : List α} {n : Nat} (h : n < l.length) : l.getD n d = l[n] := by
  rw [List.getD_eq_getElem?_getD, List.getElem?_eq_getElem h, Option.getD_some]

/-- The last place of a trimmed list is none of the blanks that another list goes on with. -/
theorem Trimmed.length_le (hd : blank d = true) {l l' : List α} (h' : Trimmed blank d l')
    (heq : ∀ n, l.getD n d = l'.getD n d) : l'.length ≤ l.length := by
  by_contra hlt
  have hne : l' ≠ [] := by
    rintro rfl
    exact hlt (Nat.zero_le _)
  have hpos := List.length_pos_of_ne_nil hne
  have hlast := heq (l'.length - 1)
  rw [getD_of_le (by omega), getD_of_lt (by omega), ← List.getLast_eq_getElem hne] at hlast
  exact h'.last hne (by rw [← hlast]; exact hd)

/-- **One trimmed list for the same places.** -/
theorem Trimmed.ext (hd : blank d = true) {l l' : List α} (h : Trimmed blank d l)
    (h' : Trimmed blank d l') (heq : ∀ n, l.getD n d = l'.getD n d) : l = l' := by
  have hlen : l.length = l'.length := Nat.le_antisymm
    (h.length_le hd (fun n => (heq n).symm)) (h'.length_le hd heq)
  apply List.ext_getElem hlen
  intro n hn hn'
  rw [← getD_of_lt hn (d := d), heq n, getD_of_lt hn']

/-! ## Trimming -/

/-- Dropping the blanks at the end trims a list. -/
theorem trim_trimmed {l : List α} (h : ∀ x ∈ l, blank x = true → x = d) :
    Trimmed blank d (l.rdropWhile blank) :=
  ⟨fun x hx => h x ((List.rdropWhile_prefix blank l).subset hx), fun hne => List.rdropWhile_last_not blank l hne⟩

/-- **Trimming changes no place.** -/
theorem trim_getD {l : List α} (h : ∀ x ∈ l, blank x = true → x = d) (n : Nat) :
    (l.rdropWhile blank).getD n d = l.getD n d := by
  induction l using List.reverseRecOn with
  | nil => rw [List.rdropWhile_nil]
  | append_singleton l x ih =>
      by_cases hx : blank x = true
      · rw [List.rdropWhile_concat_pos _ _ _ hx, ih (fun y hy => h y (List.mem_append_left _ hy)),
          h x (List.mem_append_right _ List.mem_cons_self) hx]
        rcases Nat.lt_trichotomy n l.length with hlt | rfl | hgt
        · rw [getD_of_lt hlt, getD_of_lt (by rw [List.length_append]; omega), List.getElem_append_left hlt]
        · rw [getD_of_le (Nat.le_refl _), List.getD_eq_getElem?_getD, List.getElem?_concat_length,
            Option.getD_some]
        · rw [getD_of_le (by omega), getD_of_le (by rw [List.length_append, List.length_singleton]; omega)]
      · rw [List.rdropWhile_concat_neg _ _ _ hx]

/-! ## Putting in a place -/

/-- The list is made long enough first. -/
def put (d : α) (l : List α) (n : Nat) (x : α) : List α :=
  (l ++ List.replicate (n + 1 - l.length) d).set n x

/-- Padding with the default changes no element. -/
theorem pad_getD (l : List α) (k m : Nat) : (l ++ List.replicate k d).getD m d = l.getD m d := by
  rcases Nat.lt_or_ge m l.length with hlt | hge
  · rw [getD_of_lt hlt, getD_of_lt (by rw [List.length_append]; omega), List.getElem_append_left hlt]
  · rw [getD_of_le hge, List.getD_eq_getElem?_getD, List.getElem?_append_right hge,
      List.getElem?_replicate]
    split
    · rfl
    · rfl

/-- One element is replaced, the others stay. -/
theorem set_getD {l : List α} {n : Nat} (hn : n < l.length) (x : α) (m : Nat) :
    (l.set n x).getD m d = if m = n then x else l.getD m d := by
  rw [List.getD_eq_getElem?_getD, List.getElem?_set]
  by_cases hmn : n = m
  · rw [if_pos hmn, if_pos hn, if_pos hmn.symm, Option.getD_some]
  · rw [if_neg hmn, if_neg (Ne.symm hmn), List.getD_eq_getElem?_getD]

/-- **The places after one was put in.** -/
theorem put_getD (l : List α) (n : Nat) (x : α) (m : Nat) :
    (put d l n x).getD m d = if m = n then x else l.getD m d := by
  have hlen : n < (l ++ List.replicate (n + 1 - l.length) d).length := by
    rw [List.length_append, List.length_replicate]
    omega
  rw [put, set_getD hlen, pad_getD]

/-- A place that is not blank leaves a trimmed list trimmed. -/
theorem put_trimmed {l : List α} (h : Trimmed blank d l) (n : Nat) {x : α} (hx : ¬ blank x = true) :
    Trimmed blank d (put d l n x) := by
  constructor
  · intro y hy hblank
    rcases List.mem_or_eq_of_mem_set hy with hy | rfl
    · rcases List.mem_append.mp hy with hy | hy
      · exact h.blank_eq y hy hblank
      · exact List.eq_of_mem_replicate hy
    · exact absurd hblank hx
  · intro hne
    rw [List.getLast_eq_getElem]
    simp only [put, List.length_set, List.getElem_set, List.length_append, List.length_replicate]
    split
    · exact hx
    · next hlast =>
        have hlen : n + 1 ≤ l.length := by omega
        have hzero : n + 1 - l.length = 0 := by omega
        have hne' : l ≠ [] := List.ne_nil_of_length_pos (by omega)
        simp only [hzero, List.replicate_zero, List.append_nil, Nat.add_zero]
        rw [← List.getLast_eq_getElem hne']
        exact h.last hne'

end TrimmedList
