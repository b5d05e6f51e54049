import Mathlib.Data.BitVec

/-! # Digit strings

    Numbers written as digits, highest first, in a fixed width: **`digits`** as
    characters and **`natBits`** as bits, with the value of a bit string.  The
    standard library prints a number without leading zeros; **`padded_toDigits`** is
    what becomes of that behind zeros. -/

namespace DigitString

/-- The `w` lowest digits of `n` in base `b`, highest first. -/
def digits (b : Nat) : Nat → Nat → List Char
  | 0, _ => []
  | w + 1, n => digits b w (n / b) ++ [Nat.digitChar (n % b)]

/-- The `w` lowest bits of `n`, highest first. -/
def natBits : Nat → Nat → List Bool
  | 0, _ => []
  | w + 1, n => natBits w (n / 2) ++ [n.testBit 0]

/-- The number a bit string stands for. -/
def value (bs : List Bool) : Nat := bs.foldl (fun n b => 2 * n + b.toNat) 0

/-- The digit of a bit. -/
def bitChar (b : Bool) : Char := if b then '1' else '0'

@[simp] theorem digits_length (b w n : Nat) : (digits b w n).length = w := by
  induction w generalizing n with
  | zero => rfl
  | succ w ih => rw [digits, List.length_append, ih, List.length_singleton]

@[simp] theorem natBits_length (w n : Nat) : (natBits w n).length = w := by
  induction w generalizing n with
  | zero => rfl
  | succ w ih => rw [natBits, List.length_append, ih, List.length_singleton]

theorem digits_zero (b w : Nat) : digits b w 0 = List.replicate w '0' := by
  induction w with
  | zero => rfl
  | succ w ih => rw [digits, Nat.zero_div, ih, Nat.zero_mod, List.replicate_succ']; rfl

/-- **A printed number behind zeros is its digits in a fixed width.** -/
theorem padded_toDigits {b : Nat} (hb : 1 < b) :
    ∀ {w n : Nat}, 0 < w → n < b ^ w →
      List.replicate (w - (Nat.toDigits b n).length) '0' ++ Nat.toDigits b n = digits b w n := by
  intro w
  induction w with
  | zero =>
      intro n h
      exact absurd h (Nat.lt_irrefl 0)
  | succ w ih =>
      intro n _ hn
      rcases Nat.lt_or_ge n b with hlt | hge
      · rw [Nat.toDigits_of_lt_base hlt, digits, Nat.div_eq_of_lt hlt, Nat.mod_eq_of_lt hlt,
          digits_zero]
        rfl
      · have hdiv : n / b < b ^ w := by
          rw [Nat.div_lt_iff_lt_mul (by omega), ← Nat.pow_succ]
          exact hn
        have hw : 0 < w := by
          rcases Nat.eq_zero_or_pos w with rfl | hw
          · rw [Nat.pow_one] at hn
            exact absurd hge (Nat.not_le.mpr hn)
          · exact hw
        rw [Nat.toDigits_of_base_le hb hge, List.length_append, List.length_singleton,
          Nat.add_sub_add_right, ← List.append_assoc, ih hw hdiv, digits]

/-- Bits printed as characters are binary digits. -/
theorem natBits_map_bitChar (w n : Nat) : (natBits w n).map bitChar = digits 2 w n := by
  induction w generalizing n with
  | zero => rfl
  | succ w ih =>
      have hlast : bitChar (n.testBit 0) = Nat.digitChar (n % 2) := by
        rw [Nat.testBit_zero]
        rcases Nat.mod_two_eq_zero_or_one n with h | h <;> rw [h] <;> rfl
      rw [natBits, digits, List.map_append, ih, List.map_singleton, hlast]

theorem value_concat (bs : List Bool) (b : Bool) : value (bs ++ [b]) = 2 * value bs + b.toNat := by
  rw [value, List.foldl_append]
  rfl

/-- The value of the `w` lowest bits. -/
theorem value_natBits (w n : Nat) : value (natBits w n) = n % 2 ^ w := by
  induction w generalizing n with
  | zero => rw [Nat.pow_zero, Nat.mod_one]; rfl
  | succ w ih =>
      have hlast : (n.testBit 0).toNat = n % 2 := by
        rw [Nat.testBit_zero]
        rcases Nat.mod_two_eq_zero_or_one n with h | h <;> rw [h] <;> rfl
      rw [natBits, value_concat, ih, hlast, Nat.pow_succ, Nat.mul_comm (2 ^ w) 2,
        Nat.mod_mul, Nat.add_comm]

theorem value_lt (bs : List Bool) : value bs < 2 ^ bs.length := by
  induction bs using List.reverseRecOn with
  | nil => exact Nat.one_pos
  | append_singleton bs b ih =>
      have hb : b.toNat ≤ 1 := Bool.toNat_le b
      rw [value_concat, List.length_append, List.length_singleton, Nat.pow_succ]
      omega

/-- A printed bit string reads back as its value. -/
theorem ofDigitChars_map_bitChar (bs : List Bool) :
    Nat.ofDigitChars 2 (bs.map bitChar) 0 = value bs := by
  induction bs using List.reverseRecOn with
  | nil => rfl
  | append_singleton bs b ih =>
      rw [List.map_append, Nat.ofDigitChars_append, ih, value_concat]
      cases b <;> rfl

/-- High bits and low bits. -/
theorem natBits_add (a b n : Nat) : natBits (a + b) n = natBits a (n / 2 ^ b) ++ natBits b n := by
  induction b generalizing n with
  | zero => rw [Nat.pow_zero, Nat.div_one]; exact (List.append_nil _).symm
  | succ b ih =>
      rw [← Nat.add_assoc, natBits, natBits, ih, List.append_assoc, Nat.div_div_eq_div_mul,
        Nat.pow_succ, Nat.mul_comm 2]

/-- Only the low bits count. -/
theorem natBits_mod (b n : Nat) : natBits b (n % 2 ^ b) = natBits b n := by
  induction b generalizing n with
  | zero => rfl
  | succ b ih =>
      rw [natBits, natBits, Nat.testBit_mod_two_pow, decide_eq_true (Nat.succ_pos b),
        Bool.true_and, Nat.pow_succ, Nat.mul_comm (2 ^ b) 2, Nat.mod_mul_right_div_self, ih]

/-- The digits of a width tell numbers apart up to higher digits. -/
theorem digits_two_inj {w m n : Nat} (h : digits 2 w m = digits 2 w n) :
    m % 2 ^ w = n % 2 ^ w := by
  have hvalue : ∀ k, Nat.ofDigitChars 2 (digits 2 w k) 0 = k % 2 ^ w := by
    intro k
    rw [← natBits_map_bitChar, ofDigitChars_map_bitChar, value_natBits]
  rw [← hvalue m, ← hvalue n, h]

/-- High digits and low digits. -/
theorem digits_two_add (a b n : Nat) :
    digits 2 (a + b) n = digits 2 a (n / 2 ^ b) ++ digits 2 b (n % 2 ^ b) := by
  rw [← natBits_map_bitChar, ← natBits_map_bitChar, ← natBits_map_bitChar, natBits_add,
    List.map_append, natBits_mod]

/-- A shifted number ends in zeros. -/
theorem digits_mul_pow {b : Nat} (hb : 0 < b) (w n : Nat) :
    ∀ k, digits b (w + k) (n * b ^ k) = digits b w n ++ List.replicate k '0' := by
  intro k
  induction k with
  | zero => rw [Nat.pow_zero, Nat.mul_one]; exact (List.append_nil _).symm
  | succ k ih =>
      rw [← Nat.add_assoc, digits, Nat.pow_succ, ← Nat.mul_assoc, Nat.mul_div_cancel _ hb,
        Nat.mul_mod_left, ih, List.append_assoc, List.replicate_succ']
      rfl

/-- A printed number is its digits in its own width. -/
theorem toDigits_eq_digits {b : Nat} (hb : 1 < b) (n : Nat) :
    Nat.toDigits b n = digits b (Nat.toDigits b n).length n := by
  have hpos : 0 < (Nat.toDigits b n).length := Nat.length_toDigits_pos
  have hlt := (Nat.length_toDigits_le_iff hb hpos).mp (Nat.le_refl _)
  rw [← padded_toDigits hb hpos hlt, Nat.sub_self]
  rfl

/-- Bit `i` from the top. -/
theorem natBits_getElem? (w n : Nat) {i : Nat} (hi : i < w) :
    (natBits w n)[i]? = some (n.testBit (w - 1 - i)) := by
  induction w generalizing n with
  | zero => exact absurd hi (Nat.not_lt_zero i)
  | succ w ih =>
      rw [natBits]
      rcases Nat.lt_succ_iff_lt_or_eq.mp hi with hlt | rfl
      · rw [List.getElem?_append_left (by rw [natBits_length]; exact hlt), ih _ hlt,
          Nat.testBit_div_two, show w + 1 - 1 - i = w - 1 - i + 1 by omega]
      · rw [List.getElem?_append_right (by rw [natBits_length]), natBits_length, Nat.sub_self,
          Nat.add_sub_cancel, Nat.sub_self]
        rfl

/-- A window of a bit string. -/
theorem natBits_window (w n : Nat) {a k : Nat} (h : a + k ≤ w) :
    ((natBits w n).drop a).take k = natBits k (n >>> (w - a - k)) := by
  apply List.ext_getElem?
  intro i
  rcases Nat.lt_or_ge i k with hi | hi
  · rw [List.getElem?_take_of_lt hi, List.getElem?_drop, natBits_getElem? _ _ (by omega),
      natBits_getElem? _ _ hi, Nat.testBit_shiftRight,
      show w - a - k + (k - 1 - i) = w - 1 - (a + i) by omega]
  · rw [List.getElem?_eq_none (by rw [List.length_take]; omega),
      List.getElem?_eq_none (by rw [natBits_length]; exact hi)]

/-- A concatenation of words. -/
theorem natBits_append {a b : Nat} (x : BitVec a) (y : BitVec b) :
    natBits (a + b) (x ++ y).toNat = natBits a x.toNat ++ natBits b y.toNat := by
  have hdiv : (x ++ y).toNat / 2 ^ b = x.toNat := by
    rw [BitVec.toNat_append, ← Nat.shiftRight_eq_div_pow, Nat.shiftRight_or_distrib,
      Nat.shiftLeft_shiftRight, Nat.shiftRight_eq_div_pow, Nat.div_eq_of_lt y.isLt, Nat.or_zero]
  have hmod : (x ++ y).toNat % 2 ^ b = y.toNat := by
    rw [BitVec.toNat_append, Nat.or_mod_two_pow, Nat.shiftLeft_eq, Nat.mul_mod_left,
      Nat.zero_or, Nat.mod_eq_of_lt y.isLt]
  rw [natBits_add, hdiv, ← natBits_mod b (x ++ y).toNat, hmod]

end DigitString
