import Mathlib.Algebra.Ring.Nat
import Mathlib.Data.BitVec
import Mathlib.Logic.Equiv.Defs

/-! # Codecs

    A format for values in a stream: a writer, a reader that takes one value from the front
    of the stream, and the two laws between them.  What was written is read back, whatever
    follows it; and what is read was written so, in no other way.

    * **`Codec.read_iff`** — the two laws as one;
    * **`Codec.write_inj`** — a stream has at most one value at its front;
    * **`Codec.seq`** and **`Codec.counted`** — formats one after the other, and lists of
      a format after their length. -/

/-- A format for the values that fit. -/
structure Codec (β α : Type) where
  fits : α → Prop
  write : α → List β
  read : List β → Option (α × List β)
  read_write : ∀ (a : α) (rest : List β), fits a → read (write a ++ rest) = some (a, rest)
  write_read : ∀ (s : List β) (a : α) (rest : List β),
    read s = some (a, rest) → fits a ∧ s = write a ++ rest

namespace Codec

variable {β α γ : Type}

/-- **The values that are read.** -/
theorem read_iff (c : Codec β α) {s rest : List β} {a : α} :
    c.read s = some (a, rest) ↔ c.fits a ∧ s = c.write a ++ rest := by
  constructor
  · exact c.write_read s a rest
  · rintro ⟨ha, rfl⟩
    exact c.read_write a rest ha

/-- **A stream has one value at its front.** -/
theorem write_inj (c : Codec β α) {a b : α} {s t : List β} (ha : c.fits a) (hb : c.fits b)
    (h : c.write a ++ s = c.write b ++ t) : a = b ∧ s = t := by
  have hr := c.read_write a s ha
  rw [h, c.read_write b t hb] at hr
  have hp := Option.some.inj hr
  exact ⟨(congrArg Prod.fst hp).symm, (congrArg Prod.snd hp).symm⟩

/-- **Values that are written alike are equal.** -/
theorem eq_of_write_eq (c : Codec β α) {a b : α} (ha : c.fits a) (hb : c.fits b)
    (h : c.write a = c.write b) : a = b :=
  (c.write_inj (s := []) (t := []) ha hb (by rw [h])).1

/-! ## Formats from formats -/

/-- A value and then a second one, in a format that the first may choose. -/
def seq (c : Codec β α) (d : α → Codec β γ) : Codec β (α × γ) where
  fits p := c.fits p.1 ∧ (d p.1).fits p.2
  write p := c.write p.1 ++ (d p.1).write p.2
  read s := do
    let (a, s) ← c.read s
    let (b, s) ← (d a).read s
    some ((a, b), s)
  read_write := by
    rintro ⟨a, b⟩ rest ⟨ha, hb⟩
    simp only [List.append_assoc, c.read_write a _ ha, (d a).read_write b _ hb,
      Option.bind_eq_bind, Option.bind_some]
  write_read := by
    rintro s ⟨a, b⟩ rest h
    simp only [Option.bind_eq_bind, Option.bind_eq_some_iff, Option.some.injEq,
      Prod.mk.injEq] at h
    obtain ⟨⟨x, s₁⟩, hx, ⟨y, s₂⟩, hy, ⟨rfl, rfl⟩, rfl⟩ := h
    obtain ⟨ha, rfl⟩ := c.write_read _ _ _ hx
    obtain ⟨hb, rfl⟩ := (d x).write_read _ _ _ hy
    exact ⟨⟨ha, hb⟩, (List.append_assoc ..).symm⟩

/-- Two values. -/
def pair (c : Codec β α) (d : Codec β γ) : Codec β (α × γ) := c.seq (fun _ => d)

/-- The same format for values of another type. -/
def iso (c : Codec β α) (e : α ≃ γ) : Codec β γ where
  fits b := c.fits (e.symm b)
  write b := c.write (e.symm b)
  read s := (c.read s).map (fun p => (e p.1, p.2))
  read_write := by
    intro b rest hb
    rw [c.read_write _ _ hb, Option.map_some, Equiv.apply_symm_apply]
  write_read := by
    intro s b rest h
    obtain ⟨⟨a, t⟩, ha, hp⟩ := Option.map_eq_some_iff.mp h
    obtain ⟨rfl, rfl⟩ := Prod.mk.inj hp
    show c.fits (e.symm (e a)) ∧ s = c.write (e.symm (e a)) ++ t
    rw [Equiv.symm_apply_apply]
    exact c.write_read s a t ha

/-- The reader of a number of values. -/
def readList (c : Codec β α) : Nat → List β → Option (List α × List β)
  | 0, s => some ([], s)
  | k + 1, s => do
      let (a, s) ← c.read s
      let (l, s) ← c.readList k s
      some (a :: l, s)

/-- A number of values that the reader knows. -/
def list (c : Codec β α) (k : Nat) : Codec β (List α) where
  fits l := l.length = k ∧ ∀ a ∈ l, c.fits a
  write l := l.flatMap c.write
  read := c.readList k
  read_write := by
    rintro l rest ⟨rfl, hl⟩
    induction l with
    | nil => rfl
    | cons a l ih =>
        have ha := hl a List.mem_cons_self
        have ih := ih (fun x hx => hl x (List.mem_cons_of_mem a hx))
        simp only [List.length_cons, readList, List.flatMap_cons, List.append_assoc,
          c.read_write a _ ha, Option.bind_eq_bind, Option.bind_some, ih]
  write_read := by
    intro s l rest h
    induction k generalizing s l with
    | zero =>
        obtain ⟨rfl, rfl⟩ := Prod.mk.inj (Option.some.inj h)
        exact ⟨⟨rfl, fun a ha => (List.not_mem_nil ha).elim⟩, rfl⟩
    | succ k ih =>
        simp only [readList, Option.bind_eq_bind, Option.bind_eq_some_iff, Option.some.injEq,
          Prod.mk.injEq] at h
        obtain ⟨⟨a, s₁⟩, hr, ⟨l', s₂⟩, hl, rfl, rfl⟩ := h
        obtain ⟨ha, rfl⟩ := c.write_read _ _ _ hr
        obtain ⟨⟨hlen, hfits⟩, rfl⟩ := ih _ _ hl
        refine ⟨⟨congrArg (· + 1) hlen, List.forall_mem_cons.mpr ⟨ha, hfits⟩⟩, ?_⟩
        rw [List.flatMap_cons, List.append_assoc]

/-- A list after its length. -/
def counted (size : Codec β Nat) (c : Codec β α) : Codec β (List α) where
  fits l := size.fits l.length ∧ ∀ a ∈ l, c.fits a
  write l := size.write l.length ++ l.flatMap c.write
  read s := do
    let (k, s) ← size.read s
    c.readList k s
  read_write := by
    rintro l rest ⟨hsize, hl⟩
    simp only [List.append_assoc, size.read_write _ _ hsize, Option.bind_eq_bind, Option.bind_some]
    exact (c.list l.length).read_write l rest ⟨rfl, hl⟩
  write_read := by
    intro s l rest h
    simp only [Option.bind_eq_bind, Option.bind_eq_some_iff] at h
    obtain ⟨⟨k, t⟩, hk, hl⟩ := h
    obtain ⟨⟨rfl, hfits⟩, rfl⟩ := (c.list k).write_read t l rest hl
    obtain ⟨hsize, rfl⟩ := size.write_read _ _ _ hk
    exact ⟨⟨hsize, hfits⟩, (List.append_assoc ..).symm⟩

/-- One symbol. -/
def symbol : Codec β β where
  fits _ := True
  write b := [b]
  read
    | [] => none
    | b :: s => some (b, s)
  read_write := fun _ _ _ => rfl
  write_read := by
    intro s b rest h
    cases s with
    | nil => cases h
    | cons x s =>
        obtain ⟨rfl, rfl⟩ := Prod.mk.inj (Option.some.inj h)
        exact ⟨trivial, rfl⟩

/-! ## Words, lowest byte first -/

/-- The `k` lowest bytes of a number. -/
def bytesLE : Nat → Nat → List (BitVec 8)
  | 0, _ => []
  | k + 1, x => BitVec.ofNat 8 x :: bytesLE k (x / 256)

/-- The number of some bytes. -/
def natLE : List (BitVec 8) → Nat
  | [] => 0
  | b :: s => b.toNat + 256 * natLE s

@[simp] theorem bytesLE_length (k x : Nat) : (bytesLE k x).length = k := by
  induction k generalizing x with
  | zero => rfl
  | succ k ih => rw [bytesLE, List.length_cons, ih]

theorem natLE_bytesLE (k x : Nat) (h : x < 2 ^ (8 * k)) : natLE (bytesLE k x) = x := by
  induction k generalizing x with
  | zero =>
      rw [Nat.mul_zero, Nat.pow_zero] at h
      exact (Nat.lt_one_iff.mp h).symm
  | succ k ih =>
      have hpow : 2 ^ (8 * (k + 1)) = 256 * 2 ^ (8 * k) := by
        rw [Nat.mul_succ, Nat.pow_add, Nat.mul_comm]
      have hrest : x / 256 < 2 ^ (8 * k) := by
        rw [Nat.div_lt_iff_lt_mul (by decide), Nat.mul_comm, ← hpow]
        exact h
      rw [bytesLE, natLE, ih _ hrest, BitVec.toNat_ofNat]
      exact Nat.mod_add_div x 256

theorem natLE_lt (s : List (BitVec 8)) : natLE s < 2 ^ (8 * s.length) := by
  induction s with
  | nil => exact Nat.one_pos
  | cons b s ih =>
      have hb : b.toNat < 256 := b.isLt
      rw [natLE, List.length_cons, Nat.mul_succ, Nat.pow_add]
      omega

theorem bytesLE_natLE (s : List (BitVec 8)) : bytesLE s.length (natLE s) = s := by
  induction s with
  | nil => rfl
  | cons b s ih =>
      have hb : b.toNat < 256 := b.isLt
      have hlow : BitVec.ofNat 8 (natLE (b :: s)) = b := by
        rw [← BitVec.toNat_inj, BitVec.toNat_ofNat, natLE]
        omega
      have hhigh : natLE (b :: s) / 256 = natLE s := by
        rw [natLE]
        omega
      rw [List.length_cons, bytesLE, hlow, hhigh, ih]

/-- Words of `k` bytes. -/
def word (w k : Nat) (h : w = 8 * k) : Codec (BitVec 8) (BitVec w) where
  fits _ := True
  write x := bytesLE k x.toNat
  read s := if s.length < k then none else some (BitVec.ofNat w (natLE (s.take k)), s.drop k)
  read_write := by
    intro x rest _
    have hlen := bytesLE_length k x.toNat
    rw [if_neg (by rw [List.length_append, hlen]; omega), List.take_left' hlen,
      List.drop_left' hlen, natLE_bytesLE k _ (by rw [← h]; exact x.isLt), BitVec.ofNat_toNat,
      BitVec.setWidth_eq]
  write_read := by
    intro s x rest hr
    by_cases hs : s.length < k
    · rw [if_pos hs] at hr
      cases hr
    · rw [if_neg hs] at hr
      obtain ⟨rfl, rfl⟩ := Prod.mk.inj (Option.some.inj hr)
      have hlen : (s.take k).length = k := by
        rw [List.length_take]
        omega
      have hlt : natLE (s.take k) < 2 ^ w := by
        have := natLE_lt (s.take k)
        rwa [hlen, ← h] at this
      have hbytes := bytesLE_natLE (s.take k)
      rw [hlen] at hbytes
      refine ⟨trivial, ?_⟩
      rw [BitVec.toNat_ofNat, Nat.mod_eq_of_lt hlt, hbytes, List.take_append_drop]

end Codec
