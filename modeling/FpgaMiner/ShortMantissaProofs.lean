import Mathlib.Algebra.Ring.Nat
import Mathlib.Data.Nat.Size

/-! # Numbers with a short mantissa

    A natural number as an exponent, which counts digits of `w` bits, and a mantissa of
    `d` such digits whose highest bit stays free: the number is the mantissa moved by
    whole digits, and what lies below the mantissa is lost.

    * **`value_encode`** — a number read back is the number with its low digits cleared;
    * **`encode_value`** — a normal pair is the pair of its value;
    * **`encode_mono`** and **`trunc_mono`** — the pairs are ordered as the numbers. -/

namespace ShortMantissa

variable (w d : Nat)

/-- One more than the number of whole digits. -/
def exponent (N : Nat) : Nat := if N = 0 then 0 else N.size / w + 1

/-- The highest digits; the first of them is below half its range. -/
def mantissa (N : Nat) : Nat := N * 2 ^ (w * d) / 2 ^ (w * exponent w N)

/-- The number of a pair. -/
def value (e m : Nat) : Nat := m * 2 ^ (w * e) / 2 ^ (w * d)

/-- A number with the digits below its mantissa cleared. -/
def trunc (N : Nat) : Nat :=
  N / 2 ^ (w * (exponent w N - d)) * 2 ^ (w * (exponent w N - d))

/-- The pairs numbers have. -/
structure Normal (e m : Nat) : Prop where
  exponent_pos : 0 < e
  low : 2 ^ (w * (d - 1) - 1) ≤ m
  high : m < 2 ^ (w * d - 1)
  integral : 2 ^ (w * (d - e)) ∣ m

variable {w d}

/-! ## The exponent -/

/-- Zero has no digits. -/
theorem exponent_zero : exponent w 0 = 0 := if_pos rfl

/-- One more than the whole digits in the size. -/
theorem exponent_of_pos {N : Nat} (h : 0 < N) : exponent w N = N.size / w + 1 :=
  if_neg (Nat.pos_iff_ne_zero.mp h)

/-- Any other number has some. -/
theorem exponent_pos {N : Nat} (h : 0 < N) : 0 < exponent w N := by
  rw [exponent_of_pos h]
  exact Nat.succ_pos _

/-- One digit taken off. -/
theorem mul_pred {k : Nat} (h : 0 < k) : w * k = w * (k - 1) + w := by
  rw [← Nat.mul_succ, Nat.succ_eq_add_one, Nat.sub_add_cancel h]

/-- The exponent from bounds on the number. -/
theorem exponent_eq (hw : 0 < w) {N e : Nat} (he : 0 < e) (hN : 0 < N)
    (hlow : 2 ^ (w * (e - 1) - 1) ≤ N) (hhigh : N < 2 ^ (w * e - 1)) : exponent w N = e := by
  have hlt : N.size ≤ w * e - 1 := Nat.size_le.mpr hhigh
  have hle : w * (e - 1) ≤ N.size := by
    have hsize := Nat.lt_size.mpr hlow
    omega
  have hwe := mul_pred (w := w) he
  have hdiv : N.size / w = e - 1 := by
    refine Nat.div_eq_of_lt_le ?_ ?_
    · rw [Nat.mul_comm]
      exact hle
    · rw [Nat.sub_add_cancel he, Nat.mul_comm]
      omega
  rw [exponent_of_pos hN, hdiv, Nat.sub_add_cancel he]

/-- The bounds a number has from its exponent. -/
theorem exponent_bounds (hw : 0 < w) {N : Nat} (hN : 0 < N) :
    2 ^ (w * (exponent w N - 1) - 1) ≤ N ∧ N < 2 ^ (w * exponent w N - 1) := by
  have hdiv := Nat.div_add_mod N.size w
  have hmod := Nat.mod_lt N.size hw
  rw [exponent_of_pos hN, Nat.add_sub_cancel, Nat.mul_succ]
  constructor
  · rcases Nat.eq_zero_or_pos (w * (N.size / w)) with h0 | h0
    · rw [h0]
      exact hN
    · exact Nat.lt_size.mp (by omega)
  · exact Nat.size_le.mp (by omega)

/-- A larger number has no smaller exponent. -/
theorem exponent_mono (w : Nat) {M N : Nat} (h : M ≤ N) : exponent w M ≤ exponent w N := by
  rcases Nat.eq_zero_or_pos M with rfl | hM
  · rw [exponent_zero]
    exact Nat.zero_le _
  · rw [exponent_of_pos hM, exponent_of_pos (Nat.lt_of_lt_of_le hM h)]
    exact Nat.succ_le_succ (Nat.div_le_div_right (Nat.size_le_size h))

/-! ## The mantissa -/

/-- Moving by whole digits, to the left or to the right. -/
theorem scale_left {a b : Nat} (h : b ≤ a) (x : Nat) :
    x * 2 ^ (w * a) / 2 ^ (w * b) = x * 2 ^ (w * (a - b)) := by
  rw [show w * a = w * (a - b) + w * b by rw [← Nat.mul_add, Nat.sub_add_cancel h], Nat.pow_add,
    ← Nat.mul_assoc]
  exact Nat.mul_div_cancel _ (Nat.two_pow_pos _)

theorem scale_right {a b : Nat} (h : a ≤ b) (x : Nat) :
    x * 2 ^ (w * a) / 2 ^ (w * b) = x / 2 ^ (w * (b - a)) := by
  rw [show w * b = w * (b - a) + w * a by rw [← Nat.mul_add, Nat.sub_add_cancel h], Nat.pow_add]
  exact Nat.mul_div_mul_right _ _ (Nat.two_pow_pos _)

/-- The mantissa leaves the top bit to the sign. -/
theorem mantissa_lt (hw : 0 < w) (hd : 0 < d) (N : Nat) : mantissa w d N < 2 ^ (w * d - 1) := by
  rcases Nat.eq_zero_or_pos N with rfl | hN
  · rw [mantissa, Nat.zero_mul, Nat.zero_div]
    exact Nat.two_pow_pos _
  · have hhigh := (exponent_bounds hw hN).2
    have hwe : 0 < w * exponent w N := Nat.mul_pos hw (exponent_pos hN)
    have hwd : 0 < w * d := Nat.mul_pos hw hd
    refine Nat.div_lt_of_lt_mul ?_
    calc N * 2 ^ (w * d) < 2 ^ (w * exponent w N - 1) * 2 ^ (w * d) :=
          Nat.mul_lt_mul_of_pos_right hhigh (Nat.two_pow_pos _)
      _ = 2 ^ (w * exponent w N) * 2 ^ (w * d - 1) := by
          rw [← Nat.pow_add, ← Nat.pow_add]
          congr 1
          omega

/-- Its first digit is not lost. -/
theorem le_mantissa (hw : 0 < w) (hd : 2 ≤ d) {N : Nat} (hN : 0 < N) :
    2 ^ (w * (d - 1) - 1) ≤ mantissa w d N := by
  have hlow := (exponent_bounds hw hN).1
  have he := mul_pred (w := w) (exponent_pos (w := w) hN)
  have hd1 := mul_pred (w := w) (k := d) (by omega)
  have hd2 := mul_pred (w := w) (k := d - 1) (by omega)
  rw [mantissa, Nat.le_div_iff_mul_le (Nat.two_pow_pos _)]
  calc 2 ^ (w * (d - 1) - 1) * 2 ^ (w * exponent w N)
      ≤ 2 ^ (w * (exponent w N - 1) - 1) * 2 ^ (w * d) := by
        rw [← Nat.pow_add, ← Nat.pow_add]
        exact Nat.pow_le_pow_right (by decide) (by omega)
    _ ≤ N * 2 ^ (w * d) := Nat.mul_le_mul_right _ hlow

/-- **A number read back from its pair.** -/
theorem value_encode (N : Nat) : value w d (exponent w N) (mantissa w d N) = trunc w d N := by
  rw [value, mantissa, trunc]
  rcases Nat.le_total (exponent w N) d with h | h
  · rw [scale_left h, scale_right h, Nat.sub_eq_zero_of_le h, Nat.mul_zero, Nat.pow_zero,
      Nat.div_one, Nat.mul_one]
    exact Nat.mul_div_cancel _ (Nat.two_pow_pos _)
  · rw [scale_right h, scale_left h]

/-- Truncating makes a number no larger. -/
theorem trunc_le (N : Nat) : trunc w d N ≤ N := Nat.div_mul_le_self _ _

/-- **The loss relative to the number.** -/
theorem sub_trunc (hw : 0 < w) (hd : 2 ≤ d) (N : Nat) :
    (N - trunc w d N) * 2 ^ (w * (d - 1) - 1) ≤ N := by
  rcases Nat.eq_zero_or_pos N with rfl | hN
  · exact Nat.le_of_eq (by rw [Nat.zero_sub, Nat.zero_mul])
  · rcases Nat.le_total (exponent w N) d with h | h
    · rw [trunc, Nat.sub_eq_zero_of_le h, Nat.mul_zero, Nat.pow_zero, Nat.div_one, Nat.mul_one,
        Nat.sub_self, Nat.zero_mul]
      exact Nat.zero_le _
    · have hrest : N - trunc w d N ≤ 2 ^ (w * (exponent w N - d)) := by
        have hdiv := Nat.div_add_mod N (2 ^ (w * (exponent w N - d)))
        have hmod := Nat.mod_lt N (Nat.two_pow_pos (w * (exponent w N - d)))
        rw [Nat.mul_comm] at hdiv
        rw [trunc]
        omega
      have hmul : w * (exponent w N - d) + w * (d - 1) = w * (exponent w N - 1) := by
        rw [← Nat.mul_add]
        congr 1
        omega
      have hpos : 0 < w * (d - 1) := Nat.mul_pos hw (by omega)
      calc (N - trunc w d N) * 2 ^ (w * (d - 1) - 1)
          ≤ 2 ^ (w * (exponent w N - d)) * 2 ^ (w * (d - 1) - 1) := Nat.mul_le_mul_right _ hrest
        _ = 2 ^ (w * (exponent w N - 1) - 1) := by
            rw [← Nat.pow_add]
            congr 1
            omega
        _ ≤ N := (exponent_bounds hw hN).1

/-! ## Normal pairs -/

/-- What is encoded is normal. -/
theorem normal_encode (hw : 0 < w) (hd : 2 ≤ d) {N : Nat} (hN : 0 < N) :
    Normal w d (exponent w N) (mantissa w d N) where
  exponent_pos := exponent_pos hN
  low := le_mantissa hw hd hN
  high := mantissa_lt hw (by omega) N
  integral := by
    rcases Nat.le_total (exponent w N) d with h | h
    · rw [mantissa, scale_left h]
      exact Nat.dvd_mul_left _ _
    · rw [Nat.sub_eq_zero_of_le h, Nat.mul_zero, Nat.pow_zero]
      exact Nat.one_dvd _

/-- The value of a normal pair, moved back. -/
theorem value_scaled {e m : Nat} (h : Normal w d e m) :
    value w d e m * 2 ^ (w * d) = m * 2 ^ (w * e) := by
  rw [value]
  refine Nat.div_mul_cancel ?_
  rcases Nat.le_total e d with he | he
  · rw [show w * d = w * (d - e) + w * e by rw [← Nat.mul_add, Nat.sub_add_cancel he], Nat.pow_add]
    exact Nat.mul_dvd_mul_right h.integral _
  · exact Nat.dvd_trans (Nat.pow_dvd_pow 2 (Nat.mul_le_mul_left w he)) (Nat.dvd_mul_left _ _)

/-- A pair's exponent is enough for its value. -/
theorem exponent_value_le (hw : 0 < w) (hd : 0 < d) {e m : Nat} (h : m < 2 ^ (w * d - 1)) :
    exponent w (value w d e m) ≤ e := by
  have hwd : 0 < w * d := Nat.mul_pos hw hd
  rcases Nat.eq_zero_or_pos (value w d e m) with h0 | hpos
  · rw [h0, exponent_zero]
    exact Nat.zero_le e
  · have hlt : value w d e m < 2 ^ (w * e - 1) := by
      rcases Nat.eq_zero_or_pos e with rfl | he
      · rw [value, Nat.mul_zero, Nat.pow_zero, Nat.mul_one]
        have hle : 2 ^ (w * d - 1) ≤ 2 ^ (w * d) := Nat.pow_le_pow_right (by decide) (Nat.sub_le _ _)
        rw [Nat.div_eq_of_lt (Nat.lt_of_lt_of_le h hle)]
        exact Nat.one_pos
      · have hwe : 0 < w * e := Nat.mul_pos hw he
        refine Nat.div_lt_of_lt_mul ?_
        calc m * 2 ^ (w * e) < 2 ^ (w * d - 1) * 2 ^ (w * e) :=
              Nat.mul_lt_mul_of_pos_right h (Nat.two_pow_pos _)
          _ = 2 ^ (w * d) * 2 ^ (w * e - 1) := by
              rw [← Nat.pow_add, ← Nat.pow_add]
              congr 1
              omega
    have hsize : (value w d e m).size ≤ w * e - 1 := Nat.size_le.mpr hlt
    have hsize0 : 0 < (value w d e m).size := Nat.size_pos.mpr hpos
    rw [exponent_of_pos hpos]
    refine (Nat.div_lt_iff_lt_mul hw).mpr ?_
    rw [Nat.mul_comm]
    omega

/-- The exponent of a normal pair comes back. -/
theorem exponent_value (hw : 0 < w) (hd : 2 ≤ d) {e m : Nat} (h : Normal w d e m) :
    exponent w (value w d e m) = e := by
  have hscaled := value_scaled h
  have he := mul_pred (w := w) h.exponent_pos
  have hd1 := mul_pred (w := w) (k := d) (by omega)
  have hd2 := mul_pred (w := w) (k := d - 1) (by omega)
  have hm : 0 < m := Nat.lt_of_lt_of_le (Nat.two_pow_pos _) h.low
  have hpos : 0 < value w d e m := by
    refine Nat.pos_of_ne_zero (fun h0 => ?_)
    rw [h0, Nat.zero_mul] at hscaled
    exact Nat.ne_of_gt (Nat.mul_pos hm (Nat.two_pow_pos _)) hscaled.symm
  refine exponent_eq hw h.exponent_pos hpos ?_ ?_
  · rcases Nat.eq_zero_or_pos (w * (e - 1)) with h0 | h0
    · rw [h0]
      exact hpos
    · refine Nat.le_of_mul_le_mul_right (c := 2 ^ (w * d)) ?_ (Nat.two_pow_pos _)
      calc 2 ^ (w * (e - 1) - 1) * 2 ^ (w * d) = 2 ^ (w * (d - 1) - 1) * 2 ^ (w * e) := by
            rw [← Nat.pow_add, ← Nat.pow_add]
            congr 1
            omega
        _ ≤ m * 2 ^ (w * e) := Nat.mul_le_mul_right _ h.low
        _ = _ := hscaled.symm
  · refine Nat.lt_of_mul_lt_mul_right (a := 2 ^ (w * d)) ?_
    calc value w d e m * 2 ^ (w * d) = m * 2 ^ (w * e) := hscaled
      _ < 2 ^ (w * d - 1) * 2 ^ (w * e) := Nat.mul_lt_mul_of_pos_right h.high (Nat.two_pow_pos _)
      _ = 2 ^ (w * e - 1) * 2 ^ (w * d) := by
          rw [← Nat.pow_add, ← Nat.pow_add]
          congr 1
          omega

/-- And so does its mantissa. -/
theorem mantissa_value (hw : 0 < w) (hd : 2 ≤ d) {e m : Nat} (h : Normal w d e m) :
    mantissa w d (value w d e m) = m := by
  rw [mantissa, exponent_value hw hd h, value_scaled h]
  exact Nat.mul_div_cancel _ (Nat.two_pow_pos _)

/-! ## The order -/

/-- **The pairs are ordered as the numbers.** -/
theorem encode_mono {M N : Nat} (h : M ≤ N) :
    exponent w M < exponent w N
      ∨ exponent w M = exponent w N ∧ mantissa w d M ≤ mantissa w d N := by
  rcases Nat.lt_or_eq_of_le (exponent_mono w h) with hlt | heq
  · exact Or.inl hlt
  · refine Or.inr ⟨heq, ?_⟩
    rw [mantissa, mantissa, heq]
    exact Nat.div_le_div_right (Nat.mul_le_mul_right _ h)

/-- Clearing low digits keeps the exponent. -/
theorem exponent_trunc (hw : 0 < w) (hd : 2 ≤ d) (N : Nat) :
    exponent w (trunc w d N) = exponent w N := by
  rcases Nat.eq_zero_or_pos N with rfl | hN
  · rw [trunc, Nat.zero_div, Nat.zero_mul]
  · rw [← value_encode, exponent_value hw hd (normal_encode hw hd hN)]

/-- Truncating keeps the order. -/
theorem trunc_mono (hw : 0 < w) (hd : 2 ≤ d) {M N : Nat} (h : M ≤ N) :
    trunc w d M ≤ trunc w d N := by
  rcases Nat.lt_or_ge (trunc w d N) (trunc w d M) with hlt | hge
  · -- a number in between has the exponent of both
    have hle : exponent w M ≤ exponent w N := exponent_mono w h
    have hge : exponent w N ≤ exponent w M := by
      rw [← exponent_trunc hw hd N, ← exponent_trunc hw hd M]
      exact exponent_mono w (Nat.le_of_lt hlt)
    have heq : exponent w M = exponent w N := Nat.le_antisymm hle hge
    rw [trunc, trunc, heq]
    exact Nat.mul_le_mul_right _ (Nat.div_le_div_right h)
  · exact hge

end ShortMantissa
