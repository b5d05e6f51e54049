import Mathlib.Data.List.Basic

/-! # C buffers

    An array of fixed length, read and written through an index that may be out of
    its bounds, and the strings in it, which end at the first zero.

    The lemmas speak of an array as a concatenation: an access at the length of the
    first part meets the head of the second (`read_at`, `store_at`), and a string is
    the part without zeros before a zero (`strlen_at`). -/

namespace CBuffer

variable {α : Type} {n : Nat}

/-- An array of length `n`. -/
structure Buffer (α : Type) (n : Nat) where
  bytes : List α
  size : bytes.length = n
  deriving DecidableEq

/-- An array that holds `a` everywhere. -/
def Buffer.const (n : Nat) (a : α) : Buffer α n := ⟨List.replicate n a, List.length_replicate⟩

/-- `b[i]` -/
def Buffer.read (b : Buffer α n) (i : Int) : Option α :=
  if 0 ≤ i then b.bytes[i.toNat]? else none

/-- `b[i] = a` -/
def Buffer.store (b : Buffer α n) (i : Int) (a : α) : Option (Buffer α n) :=
  if 0 ≤ i ∧ i < n then some ⟨b.bytes.set i.toNat a, by rw [List.length_set, b.size]⟩ else none

/-- `memset(b + i, a, count)` up to the end of the array. -/
def Buffer.memset (b : Buffer α n) (i : Int) (a : α) : Option (Buffer α n) :=
  if h : 0 ≤ i ∧ i ≤ n then
    some ⟨b.bytes.take i.toNat ++ List.replicate (n - i.toNat) a, by
      have hsize := b.size
      rw [List.length_append, List.length_take, List.length_replicate]
      omega⟩
  else none

/-- `memcpy(b + i, source, length of source)` -/
def Buffer.memcpy (b : Buffer α n) (i : Int) (source : List α) : Option (Buffer α n) :=
  if h : 0 ≤ i ∧ i + source.length ≤ n then
    some ⟨b.bytes.take i.toNat ++ (source ++ b.bytes.drop (i.toNat + source.length)), by
      have hsize := b.size
      rw [List.length_append, List.length_append, List.length_take, List.length_drop]
      omega⟩
  else none

/-- `b[i..i+count-1]` -/
def Buffer.slice (b : Buffer α n) (i count : Int) : Option (List α) :=
  if 0 ≤ i ∧ 0 ≤ count ∧ i + count ≤ n then some ((b.bytes.drop i.toNat).take count.toNat)
  else none

section Strings

variable [OfNat α (nat_lit 0)] [DecidableEq α]

/-- The part of a list before its first zero. -/
def string (l : List α) : List α := l.takeWhile (fun a => decide (a ≠ 0))

/-- `strlen(b + i)`; a string that is not terminated inside the array is read past its
    end. -/
def Buffer.strlen (b : Buffer α n) (i : Int) : Option Nat :=
  if 0 ≤ i ∧ 0 ∈ b.bytes.drop i.toNat then some (string (b.bytes.drop i.toNat)).length
  else none

/-- The bytes `strncpy(_, b + i, count)` reads before it pads. -/
def Buffer.strncpy (b : Buffer α n) (i : Int) (count : Nat) : Option (List α) :=
  if 0 ≤ i ∧ (0 ∈ b.bytes.drop i.toNat ∨ i + count ≤ n) then
    some ((string (b.bytes.drop i.toNat)).take count)
  else none

end Strings

/-! ## Accesses at a given part -/

/-- The array as a list is as long as the parts it is made of. -/
theorem Buffer.size_of {b : Buffer α n} {l : List α} (h : b.bytes = l) : l.length = n :=
  h ▸ b.size

/-- A read meets the head of the part it points at. -/
theorem read_at {b : Buffer α n} {l r : List α} {a : α} (h : b.bytes = l ++ a :: r) {i : Int}
    (hi : i = l.length) : b.read i = some a := by
  subst hi
  rw [Buffer.read, if_pos (Int.natCast_nonneg _), Int.toNat_natCast, h,
    List.getElem?_append_right (Nat.le_refl _), Nat.sub_self]
  rfl

/-- A read inside the array succeeds. -/
theorem read_total {b : Buffer α n} {i : Int} (h0 : 0 ≤ i) (hi : i < n) :
    ∃ a, b.read i = some a := by
  have hsize := b.size
  rw [Buffer.read, if_pos h0]
  exact ⟨_, List.getElem?_eq_getElem (by omega)⟩

/-- A read past the end fails. -/
theorem read_none {b : Buffer α n} {i : Int} (hi : n ≤ i) : b.read i = none := by
  have hsize := b.size
  rw [Buffer.read, if_pos (by omega), List.getElem?_eq_none (by omega)]

/-- A store changes the element it is at. -/
theorem store_at {b : Buffer α n} {l r : List α} {a : α} (h : b.bytes = l ++ a :: r) {i : Int}
    (hi : i = l.length) (v : α) : ∃ b', b.store i v = some b' ∧ b'.bytes = l ++ v :: r := by
  have hsize : (l ++ a :: r).length = n := b.size_of h
  rw [List.length_append, List.length_cons] at hsize
  subst hi
  refine ⟨⟨b.bytes.set l.length v, by rw [List.length_set, b.size]⟩, ?_, ?_⟩
  · rw [Buffer.store, if_pos ⟨Int.natCast_nonneg _, by omega⟩]
    rfl
  · show b.bytes.set l.length v = l ++ v :: r
    rw [h, List.set_append_right _ _ (Nat.le_refl _), Nat.sub_self]
    rfl

/-- `memset` from a position on. -/
theorem memset_at {b : Buffer α n} {l r : List α} (h : b.bytes = l ++ r) {i : Int}
    (hi : i = l.length) (a : α) :
    ∃ b', b.memset i a = some b' ∧ b'.bytes = l ++ List.replicate (n - l.length) a := by
  have hsize : (l ++ r).length = n := b.size_of h
  rw [List.length_append] at hsize
  subst hi
  rw [Buffer.memset, dif_pos ⟨Int.natCast_nonneg _, by omega⟩]
  refine ⟨_, rfl, ?_⟩
  show b.bytes.take l.length ++ _ = _
  rw [h, List.take_left, Int.toNat_natCast]

/-- `memcpy` at a position. -/
theorem memcpy_at {b : Buffer α n} {l m r source : List α} (h : b.bytes = l ++ (m ++ r)) {i : Int}
    (hi : i = l.length) (hm : m.length = source.length) :
    ∃ b', b.memcpy i source = some b' ∧ b'.bytes = l ++ (source ++ r) := by
  have hsize : (l ++ (m ++ r)).length = n := b.size_of h
  rw [List.length_append, List.length_append] at hsize
  subst hi
  rw [Buffer.memcpy, dif_pos ⟨Int.natCast_nonneg _, by omega⟩]
  refine ⟨_, rfl, ?_⟩
  show b.bytes.take l.length ++ (source ++ b.bytes.drop (l.length + source.length)) = _
  rw [h, List.take_left, ← List.drop_drop, List.drop_left, ← hm, List.drop_left]

/-- The elements at a position. -/
theorem slice_at {b : Buffer α n} {l s r : List α} (h : b.bytes = l ++ (s ++ r)) {i count : Int}
    (hi : i = l.length) (hcount : count = s.length) : b.slice i count = some s := by
  have hsize : (l ++ (s ++ r)).length = n := b.size_of h
  rw [List.length_append, List.length_append] at hsize
  subst hi hcount
  rw [Buffer.slice, if_pos ⟨Int.natCast_nonneg _, Int.natCast_nonneg _, by omega⟩,
    Int.toNat_natCast, Int.toNat_natCast, h, List.drop_left, List.take_left]

/-! ## Strings -/

section Strings

variable [OfNat α (nat_lit 0)]

/-- The last byte of the array is a zero. -/
def Buffer.Terminated (b : Buffer α n) : Prop := b.bytes.getLast? = some 0

/-- Then every index starts a string. -/
theorem Buffer.Terminated.split {b : Buffer α n} (h : b.Terminated) {i : Int} (h0 : 0 ≤ i)
    (hi : i < n) : ∃ l s r, b.bytes = l ++ (s ++ 0 :: r) ∧ (0 : α) ∉ s ∧ i = l.length := by
  have hsize := b.size
  have hmem : (0 : α) ∈ b.bytes.drop i.toNat := by
    refine List.mem_of_getLast? ?_
    rw [List.getLast?_drop, if_neg (by omega)]
    exact h
  obtain ⟨s, r, hsplit, hs⟩ := List.eq_append_cons_of_mem hmem
  refine ⟨b.bytes.take i.toNat, s, r, ?_, hs, ?_⟩
  · rw [← hsplit, List.take_append_drop]
  · rw [List.length_take]
    omega

/-- Arrays with the same last part end alike. -/
theorem terminated_of_suffix {b b' : Buffer α n} {l m r : List α} (h : b.bytes = l ++ r)
    (h' : b'.bytes = m ++ r) (hr : r ≠ []) (hb : b.Terminated) : b'.Terminated := by
  obtain ⟨a, r, rfl⟩ := List.exists_cons_of_ne_nil hr
  rw [Buffer.Terminated, h, List.getLast?_append_cons] at hb
  rw [Buffer.Terminated, h', List.getLast?_append_cons, hb]

/-- The zero that ends a string is the first one from its start on. -/
theorem first_zero {b : Buffer α n} {l s r : List α} (h : b.bytes = l ++ (s ++ 0 :: r))
    (hs : 0 ∉ s) {j : Int} (hj : l.length ≤ j) (h0 : b.read j = some 0) :
    l.length + s.length ≤ j := by
  by_contra hlt
  rw [Buffer.read, if_pos (by omega), h, List.getElem?_append_right (by omega),
    List.getElem?_append_left (by omega)] at h0
  exact hs (List.mem_of_getElem? h0)

/-- An array that ends in zeros. -/
theorem terminated_of_zeros {b : Buffer α n} {l : List α} {k : Nat}
    (h : b.bytes = l ++ List.replicate k 0) (hk : k ≠ 0) : b.Terminated := by
  rw [Buffer.Terminated, h, List.getLast?_append, List.getLast?_replicate, if_neg hk]
  rfl

variable [DecidableEq α]

/-- A string ends at the zero after its last character. -/
theorem string_append {s r : List α} (hs : 0 ∉ s) : string (s ++ 0 :: r) = s := by
  induction s with
  | nil =>
      show List.takeWhile _ (0 :: r) = []
      rw [List.takeWhile_cons_of_neg (by simp)]
  | cons a s ih =>
      have ha : (0 : α) ≠ a := List.ne_of_not_mem_cons hs
      have hs' : (0 : α) ∉ s := List.not_mem_of_not_mem_cons hs
      show List.takeWhile _ (a :: (s ++ 0 :: r)) = a :: s
      rw [List.takeWhile_cons_of_pos (by simp [ha.symm])]
      exact congrArg (a :: ·) (ih hs')

/-- The length of a string at a position. -/
theorem strlen_at {b : Buffer α n} {l s r : List α} (h : b.bytes = l ++ (s ++ 0 :: r))
    (hs : 0 ∉ s) {i : Int} (hi : i = l.length) : b.strlen i = some s.length := by
  subst hi
  rw [Buffer.strlen, Int.toNat_natCast, h, List.drop_left, string_append hs, if_pos]
  exact ⟨Int.natCast_nonneg _, List.mem_append_right _ List.mem_cons_self⟩

/-- And a copy of it. -/
theorem strncpy_at {b : Buffer α n} {l s r : List α} (h : b.bytes = l ++ (s ++ 0 :: r))
    (hs : 0 ∉ s) {i : Int} (hi : i = l.length) (count : Nat) :
    b.strncpy i count = some (s.take count) := by
  subst hi
  rw [Buffer.strncpy, Int.toNat_natCast, h, List.drop_left, string_append hs, if_pos]
  exact ⟨Int.natCast_nonneg _, .inl (List.mem_append_right _ List.mem_cons_self)⟩

/-- In a terminated buffer there is always a length. -/
theorem strlen_total {b : Buffer α n} (h : b.Terminated) {i : Int} (h0 : 0 ≤ i) (hi : i < n) :
    ∃ k, b.strlen i = some k := by
  obtain ⟨l, s, r, hsplit, hs, hl⟩ := h.split h0 hi
  exact ⟨_, strlen_at hsplit hs hl⟩

/-- And always a copy. -/
theorem strncpy_total {b : Buffer α n} (h : b.Terminated) {i : Int} (h0 : 0 ≤ i) (hi : i < n)
    (count : Nat) : ∃ s, b.strncpy i count = some s := by
  obtain ⟨l, s, r, hsplit, hs, hl⟩ := h.split h0 hi
  exact ⟨_, strncpy_at hsplit hs hl count⟩

end Strings

end CBuffer
