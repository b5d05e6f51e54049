import Mathlib.Data.BitVec

/-! # Bit slices — part-selects of wide registers

    A wide register is read and written by part-select `x[lo + w - 1 : lo]`.
    Reading is `BitVec.extractLsb'`; this file adds the write, **`putSlice`**,
    with its two rules (the slice written reads back, a disjoint slice is
    unchanged), and **`eq_of_slices`**: a register is the sequence of its
    aligned slices. -/

namespace BitSlice

variable {n w w' : Nat}

/-- `x` with the bits `lo + w - 1 : lo` replaced by `v`. -/
def putSlice (x : BitVec n) (lo : Nat) (v : BitVec w) : BitVec n :=
  (x &&& ~~~((BitVec.allOnes w).setWidth n <<< lo)) ||| (v.setWidth n <<< lo)

/-- `putSlice` bit by bit. -/
theorem getLsbD_putSlice (x : BitVec n) (lo : Nat) (v : BitVec w) (i : Nat) :
    (putSlice x lo v).getLsbD i
      = if lo ≤ i ∧ i < lo + w then decide (i < n) && v.getLsbD (i - lo)
        else x.getLsbD i := by
  unfold putSlice
  rw [BitVec.getLsbD_or, BitVec.getLsbD_and, BitVec.getLsbD_not,
    BitVec.getLsbD_shiftLeft, BitVec.getLsbD_shiftLeft, BitVec.getLsbD_setWidth,
    BitVec.getLsbD_setWidth, BitVec.getLsbD_allOnes]
  by_cases hn : i < n
  · by_cases hlo : lo ≤ i
    · by_cases hhi : i < lo + w
      · rw [if_pos ⟨hlo, hhi⟩]
        simp [hn, show ¬ i < lo by omega, show i - lo < w by omega,
          show i - lo < n by omega]
      · rw [if_neg (fun h => hhi h.2)]
        simp [hn, show ¬ i < lo by omega, show ¬ i - lo < w by omega,
          BitVec.getLsbD_of_ge v (i - lo) (by omega)]
    · rw [if_neg (fun h => hlo h.1)]
      simp [hn, show i < lo by omega]
  · have hx : x.getLsbD i = false := BitVec.getLsbD_of_ge x i (by omega)
    simp [hn, hx]

/-- **The slice that was written reads back.** -/
theorem extract_putSlice_same (x : BitVec n) {lo : Nat} (v : BitVec w)
    (h : lo + w ≤ n) : (putSlice x lo v).extractLsb' lo w = v := by
  apply BitVec.eq_of_getLsbD_eq
  intro i hi
  rw [BitVec.getLsbD_extractLsb', getLsbD_putSlice, if_pos (by omega)]
  simp [hi, show lo + i < n by omega]

/-- **A disjoint slice is unchanged.** -/
theorem extract_putSlice_disjoint (x : BitVec n) {lo lo' : Nat} (v : BitVec w)
    (h : lo' + w' ≤ lo ∨ lo + w ≤ lo') :
    (putSlice x lo v).extractLsb' lo' w' = x.extractLsb' lo' w' := by
  apply BitVec.eq_of_getLsbD_eq
  intro i hi
  rw [BitVec.getLsbD_extractLsb', BitVec.getLsbD_extractLsb', getLsbD_putSlice,
    if_neg (by omega)]

/-- **A register is the sequence of its aligned slices.** -/
theorem eq_of_slices (hw : 0 < w) {x y : BitVec n}
    (h : ∀ k, w * k < n → x.extractLsb' (w * k) w = y.extractLsb' (w * k) w) :
    x = y := by
  apply BitVec.eq_of_getLsbD_eq
  intro i hi
  have hsplit : w * (i / w) + i % w = i := Nat.div_add_mod i w
  have hk := congrArg (fun z => z.getLsbD (i % w))
    (h (i / w) (Nat.lt_of_le_of_lt (by omega) hi))
  simp only [BitVec.getLsbD_extractLsb', Nat.mod_lt i hw, decide_true, Bool.true_and,
    hsplit] at hk
  exact hk

/-- A slice of a slice. -/
theorem extract_extract (x : BitVec n) {s l s' l' : Nat} (h : s' + l' ≤ l) :
    (x.extractLsb' s l).extractLsb' s' l' = x.extractLsb' (s + s') l' := by
  apply BitVec.eq_of_getLsbD_eq
  intro i hi
  simp only [BitVec.getLsbD_extractLsb', hi, decide_true, Bool.true_and,
    show s' + i < l by omega, Nat.add_assoc]

/-- A rotation written as a concatenation of two part-selects. -/
theorem rotateRight_eq_append {m : Nat} (x : BitVec w) (h : n + m = w) (hm : 0 < m) :
    x.rotateRight n = (x.extractLsb' 0 n ++ x.extractLsb' n m).cast h := by
  apply BitVec.eq_of_getLsbD_eq
  intro i hi
  rw [BitVec.getLsbD_rotateRight, BitVec.getLsbD_cast, BitVec.getLsbD_append,
    BitVec.getLsbD_extractLsb', BitVec.getLsbD_extractLsb',
    Nat.mod_eq_of_lt (by omega : n < w)]
  by_cases him : i < m
  · rw [if_pos him]
    simp [him, show i < w - n by omega]
  · rw [if_neg him]
    simp [hi, him, show i - m < n by omega, show w - n = m by omega]

end BitSlice
