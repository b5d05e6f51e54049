import Mathlib.Data.List.Basic

/-! # A line editor

    A text with a cursor in it.  The operations are given on the text; what they do to
    the parts before and after the cursor is what an implementation follows. -/

namespace LineEditor

variable {α : Type}

/-- A text and a cursor inside it. -/
structure Line (α : Type) where
  text : List α
  cursor : Nat
  inside : cursor ≤ text.length

namespace Line

/-- The text before the cursor. -/
def before (L : Line α) : List α := L.text.take L.cursor

/-- The text from the cursor on. -/
def after (L : Line α) : List α := L.text.drop L.cursor

/-- The empty text. -/
def clear : Line α := ⟨[], 0, Nat.le_refl 0⟩

/-- The cursor is the length of the text before it. -/
theorem length_before (L : Line α) : L.before.length = L.cursor :=
  List.length_take_of_le L.inside

/-- The cursor splits the text. -/
theorem text_eq (L : Line α) : L.text = L.before ++ L.after :=
  (List.take_append_drop L.cursor L.text).symm

/-- The line with given parts. -/
def ofParts (l r : List α) : Line α :=
  ⟨l ++ r, l.length, List.length_append ▸ Nat.le_add_right _ _⟩

/-- Insert before the cursor. -/
def insert (L : Line α) (a : α) : Line α := ofParts (L.before ++ [a]) L.after

/-- Delete the character before the cursor. -/
def delete (L : Line α) : Line α := ofParts L.before.dropLast L.after

/-- Move left, inside the text. -/
def left (L : Line α) : Line α := ⟨L.text, L.cursor - 1, Nat.le_trans (Nat.sub_le _ _) L.inside⟩

/-- Move right, inside the text. -/
def right (L : Line α) : Line α :=
  ⟨L.text, min (L.cursor + 1) L.text.length, Nat.min_le_right _ _⟩

@[simp] theorem cursor_left (L : Line α) : L.left.cursor = L.cursor - 1 := rfl

/-- The text after an insertion. -/
theorem text_insert (L : Line α) (a : α) : (L.insert a).text = L.before ++ a :: L.after :=
  List.append_cons L.before a L.after ▸ rfl

@[simp] theorem cursor_insert (L : Line α) (a : α) : (L.insert a).cursor = L.cursor + 1 := by
  show (L.before ++ [a]).length = L.cursor + 1
  rw [List.length_append, L.length_before]
  rfl

/-- It is one longer. -/
theorem length_insert (L : Line α) (a : α) :
    (L.insert a).text.length = L.text.length + 1 := by
  rw [text_insert, L.text_eq, List.length_append, List.length_append]
  rfl

/-- Nothing else is inserted. -/
theorem mem_insert {L : Line α} {a b : α} (h : b ∈ (L.insert a).text) : b = a ∨ b ∈ L.text := by
  rw [text_insert] at h
  rw [L.text_eq]
  rcases List.mem_append.mp h with hbefore | hafter
  · exact .inr (List.mem_append_left _ hbefore)
  · rcases List.mem_cons.mp hafter with heq | hafter
    · exact .inl heq
    · exact .inr (List.mem_append_right _ hafter)

/-- At the end of the text a character is appended. -/
theorem text_insert_end {L : Line α} (h : L.cursor = L.text.length) (a : α) :
    (L.insert a).text = L.text ++ [a] := by
  rw [text_insert, before, after, h, List.take_length, List.drop_length]

/-- The text after a deletion. -/
theorem text_delete (L : Line α) : L.delete.text = L.before.dropLast ++ L.after := rfl

@[simp] theorem cursor_delete (L : Line α) : L.delete.cursor = L.cursor - 1 := by
  show L.before.dropLast.length = L.cursor - 1
  rw [List.length_dropLast, L.length_before]

/-- It is one shorter, unless the cursor is at the start. -/
theorem length_delete {L : Line α} (h : 0 < L.cursor) :
    L.delete.text.length + 1 = L.text.length := by
  have hbefore := L.length_before
  rw [text_delete, L.text_eq, List.length_append, List.length_append, List.length_dropLast]
  omega

/-- Nothing is added. -/
theorem mem_delete {L : Line α} {b : α} (h : b ∈ L.delete.text) : b ∈ L.text := by
  rw [text_delete] at h
  rw [L.text_eq]
  rcases List.mem_append.mp h with hbefore | hafter
  · exact List.mem_append_left _ (List.dropLast_subset L.before hbefore)
  · exact List.mem_append_right _ hafter

/-- With the cursor at the start there is nothing to delete. -/
theorem text_delete_start {L : Line α} (h : L.cursor = 0) : L.delete.text = L.text := by
  rw [text_delete, before, after, h]
  rfl

/-- At the end of the text the last character is deleted. -/
theorem text_delete_end {L : Line α} (h : L.cursor = L.text.length) :
    L.delete.text = L.text.dropLast := by
  rw [text_delete, before, after, h, List.take_length, List.drop_length, List.append_nil]

/-- Inside the text, the character before the cursor goes. -/
theorem before_eq {L : Line α} (h : 0 < L.cursor) :
    ∃ l a, L.before = l ++ [a] ∧ L.before.dropLast = l ∧ l.length = L.cursor - 1 := by
  have hne : L.before ≠ [] := by
    intro hnil
    have hlen := L.length_before
    rw [hnil] at hlen
    exact absurd hlen (Nat.ne_of_lt h)
  refine ⟨L.before.dropLast, L.before.getLast hne, ?_, rfl, L.cursor_delete⟩
  exact (List.dropLast_append_getLast hne).symm

/-- Before the end, some text follows the cursor. -/
theorem after_eq {L : Line α} (h : L.cursor < L.text.length) : ∃ a r, L.after = a :: r :=
  ⟨_, _, List.drop_eq_getElem_cons h⟩

/-- Inside the text the cursor moves to the right. -/
theorem cursor_right_of_lt {L : Line α} (h : L.cursor < L.text.length) :
    L.right.cursor = L.cursor + 1 :=
  Nat.min_eq_left h

/-- At the end it stays. -/
theorem right_of_end {L : Line α} (h : L.cursor = L.text.length) : L.right.cursor = L.cursor := by
  show min (L.cursor + 1) L.text.length = L.cursor
  rw [h]
  exact Nat.min_eq_right (Nat.le_succ _)

end Line

end LineEditor
