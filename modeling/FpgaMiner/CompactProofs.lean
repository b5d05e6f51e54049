import FpgaMiner.BlockHeaderProofs
import FpgaMiner.ShortMantissaProofs

/-! # Compact targets

    `CBigNum::SetCompact` and `GetCompact`: a target in 32 bits, as an exponent of base
    256 in the highest byte, a sign, and a mantissa of 23 bits.

    * **`SetCompact_GetCompact`** — reading back a number clears the digits below its
      mantissa, which costs at most one part in 2^15;
    * **`GetCompact_SetCompact_iff`** — the compact words that are read back exactly;
    * **`GetCompact_mono`** — targets and their compact words are in the same order. -/

namespace Compact

open BlockHeader ShortMantissa

/-! ## The code -/

/-- `BN_num_bytes` -/
def BN_num_bytes (n : Nat) : Nat := (n.size + 7) / 8

/-- `BN_set_negative`; zero has no sign. -/
def BN_set_negative (n : Nat) (fNegative : Bool) : Int := if fNegative then -n else n

/-- `CBigNum::SetCompact`: a size of eight bits, a sign and 23 bits that are shifted to it. -/
def SetCompact (nCompact : BitVec 32) : Int :=
  let nSize := (nCompact >>> 24).toNat
  let fNegative := decide (nCompact &&& 0x00800000#32 ≠ 0)
  let nWord := nCompact &&& 0x007fffff#32
  if nSize ≤ 3 then BN_set_negative (nWord >>> (8 * (3 - nSize))).toNat fNegative
  else BN_set_negative (nWord.toNat <<< (8 * (nSize - 3))) fNegative

/-- `CBigNum::GetCompact`: the highest three bytes behind the number of bytes, one more when
    the top bit is taken by the sign. -/
def GetCompact (bn : Int) : BitVec 32 :=
  let nSize := BN_num_bytes bn.natAbs
  let nCompact := BitVec.ofNat 32
    (if nSize ≤ 3 then bn.natAbs <<< (8 * (3 - nSize)) else bn.natAbs >>> (8 * (nSize - 3)))
  -- the mantissa must not reach the bit of the sign
  let carry := decide (nCompact &&& 0x00800000#32 ≠ 0)
  let nCompact := if carry then nCompact >>> 8 else nCompact
  let nSize := if carry then nSize + 1 else nSize
  nCompact ||| (BitVec.ofNat 32 nSize <<< 24) ||| (if bn < 0 then 0x00800000#32 else 0)

/-- `getuint256`: the sign and what is above 256 bits are dropped. -/
def getuint256 (bn : Int) : Uint256 := BitVec.ofNat 256 bn.natAbs

/-! ## The fields of a compact word -/

/-- The exponent. -/
def nSize (c : BitVec 32) : Nat := c.toNat / 2 ^ 24

/-- The mantissa. -/
def nWord (c : BitVec 32) : Nat := c.toNat % 2 ^ 23

/-- The sign. -/
def fNegative (c : BitVec 32) : Bool := decide (c.toNat / 2 ^ 23 % 2 = 1)

theorem toNat_eq (c : BitVec 32) :
    c.toNat = 2 ^ 24 * nSize c + (2 ^ 23 * (fNegative c).toNat + nWord c) := by
  rw [nSize, nWord, fNegative]
  rcases Nat.mod_two_eq_zero_or_one (c.toNat / 2 ^ 23) with h | h
  · rw [h]
    show _ = _ + (2 ^ 23 * 0 + _)
    omega
  · rw [h]
    show _ = _ + (2 ^ 23 * 1 + _)
    omega

theorem nWord_lt (c : BitVec 32) : nWord c < 2 ^ 23 := Nat.mod_lt _ (Nat.two_pow_pos 23)

theorem nSize_lt (c : BitVec 32) : nSize c < 256 := by
  have := c.isLt
  rw [nSize]
  omega

/-- The mask of the sign. -/
theorem sign_mask (c : BitVec 32) : decide (c &&& 0x00800000#32 ≠ 0) = fNegative c := by
  have hand : c &&& 0x00800000#32 = if c.getLsbD 23 then 0x00800000#32 else 0 :=
    BitVec.and_twoPow c 23
  rw [hand, BitVec.getLsbD, Nat.testBit_eq_decide_div_mod_eq, fNegative]
  by_cases h : c.toNat / 2 ^ 23 % 2 = 1
  · rw [decide_eq_true h]
    rfl
  · rw [decide_eq_false h]
    rfl

/-- **The number of a compact word.** -/
theorem SetCompact_eq (c : BitVec 32) :
    SetCompact c = BN_set_negative (value 8 3 (nSize c) (nWord c)) (fNegative c) := by
  have hword : (c &&& 0x007fffff#32).toNat = nWord c := by
    rw [BitVec.toNat_and]
    exact Nat.and_two_pow_sub_one_eq_mod c.toNat 23
  have hsize : (c >>> 24).toNat = nSize c := by
    rw [BitVec.toNat_ushiftRight, Nat.shiftRight_eq_div_pow]
    rfl
  simp only [SetCompact, hsize, sign_mask, value]
  split
  next h =>
    rw [BitVec.toNat_ushiftRight, hword, Nat.shiftRight_eq_div_pow, scale_right h]
  next h =>
    rw [hword, Nat.shiftLeft_eq, scale_left (by omega)]

/-! ## The compact word of a number -/

/-- The mantissa before the sign's bit is freed. -/
theorem scaled_eq (n s : Nat) :
    (if s ≤ 3 then n <<< (8 * (3 - s)) else n >>> (8 * (s - 3))) = n * 2 ^ (8 * 3) / 2 ^ (8 * s) := by
  split
  next h => rw [Nat.shiftLeft_eq, scale_left h]
  next h => rw [Nat.shiftRight_eq_div_pow, scale_right (by omega)]

/-- The three fields side by side. -/
theorem fields_toNat {m e : Nat} (hm : m < 2 ^ 23) (he : e < 256) (bn : Int) :
    (BitVec.ofNat 32 m ||| (BitVec.ofNat 32 e <<< 24) ||| (if bn < 0 then 0x00800000#32 else 0)).toNat
      = 2 ^ 24 * e + (2 ^ 23 * (decide (bn < 0)).toNat + m) := by
  have hsign : (if bn < 0 then 0x00800000#32 else 0).toNat = (decide (bn < 0)).toNat <<< 23 := by
    by_cases h : bn < 0
    · rw [if_pos h, decide_eq_true h]
      rfl
    · rw [if_neg h, decide_eq_false h]
      rfl
  have hlow : (decide (bn < 0)).toNat <<< 23 + m < 2 ^ 24 := by
    have hbool := Bool.toNat_le (decide (bn < 0))
    rw [Nat.shiftLeft_eq]
    omega
  have hexp : (BitVec.ofNat 32 e <<< 24).toNat = e <<< 24 := by
    rw [BitVec.toNat_shiftLeft, BitVec.toNat_ofNat, Nat.shiftLeft_eq, Nat.shiftLeft_eq]
    omega
  rw [BitVec.toNat_or, BitVec.toNat_or, hsign, hexp, BitVec.toNat_ofNat,
    Nat.mod_eq_of_lt (Nat.lt_trans hm (by decide)), Nat.or_comm m, Nat.or_assoc, Nat.or_comm m,
    ← Nat.shiftLeft_add_eq_or_of_lt hm, ← Nat.shiftLeft_add_eq_or_of_lt hlow, Nat.shiftLeft_eq,
    Nat.shiftLeft_eq, Nat.mul_comm e, Nat.mul_comm _ (2 ^ 23)]

/-- The numbers whose exponent fits in its byte. -/
def Representable (bn : Int) : Prop := exponent 8 bn.natAbs < 256

/-- Freeing the bit of the sign gives exponent and mantissa. -/
theorem carry_eq (n : Nat) :
    (if n * 2 ^ (8 * 3) / 2 ^ (8 * BN_num_bytes n) < 2 ^ 23
      then (n * 2 ^ (8 * 3) / 2 ^ (8 * BN_num_bytes n), BN_num_bytes n)
      else (n * 2 ^ (8 * 3) / 2 ^ (8 * BN_num_bytes n) / 2 ^ 8, BN_num_bytes n + 1))
        = (mantissa 8 3 n, exponent 8 n) := by
  rcases Nat.eq_zero_or_pos n with rfl | hn
  · rfl
  · have hexp := exponent_of_pos (w := 8) hn
    have hsize : 0 < n.size := Nat.size_pos.mpr hn
    rcases Nat.eq_zero_or_pos (n.size % 8) with h | h
    · -- the highest byte has its first bit set
      have hbytes : BN_num_bytes n = n.size / 8 := by
        rw [BN_num_bytes]
        omega
      have hlow : 2 ^ 23 ≤ n * 2 ^ (8 * 3) / 2 ^ (8 * BN_num_bytes n) := by
        have hle : 2 ^ (n.size - 1) ≤ n := Nat.lt_size.mp (by omega)
        rw [Nat.le_div_iff_mul_le (Nat.two_pow_pos _), hbytes]
        calc 2 ^ 23 * 2 ^ (8 * (n.size / 8)) = 2 ^ (n.size - 1) * 2 ^ (8 * 3) := by
              rw [← Nat.pow_add, ← Nat.pow_add]
              congr 1
              omega
          _ ≤ n * 2 ^ (8 * 3) := Nat.mul_le_mul_right _ hle
      rw [if_neg (Nat.not_lt.mpr hlow), mantissa, hexp, hbytes, Nat.div_div_eq_div_mul, ← Nat.pow_add]
      rfl
    · have hbytes : BN_num_bytes n = exponent 8 n := by
        rw [BN_num_bytes, hexp]
        omega
      have hlt := mantissa_lt (w := 8) (d := 3) (by decide) (by decide) n
      rw [hbytes]
      exact if_pos hlt

/-- **The compact word of a number.** -/
theorem GetCompact_eq {bn : Int} (h : Representable bn) :
    (GetCompact bn).toNat = 2 ^ 24 * exponent 8 bn.natAbs
      + (2 ^ 23 * (decide (bn < 0)).toNat + mantissa 8 3 bn.natAbs) := by
  have hcarry := carry_eq bn.natAbs
  have hmant := mantissa_lt (w := 8) (d := 3) (by decide) (by decide) bn.natAbs
  have hwide : bn.natAbs * 2 ^ (8 * 3) / 2 ^ (8 * BN_num_bytes bn.natAbs) < 2 ^ 24 := by
    refine Nat.div_lt_of_lt_mul (Nat.mul_lt_mul_of_pos_right ?_ (Nat.two_pow_pos 24))
    refine Nat.lt_of_lt_of_le (Nat.lt_size_self _) (Nat.pow_le_pow_right (by decide) ?_)
    rw [BN_num_bytes]
    omega
  have hword : (BitVec.ofNat 32 (bn.natAbs * 2 ^ (8 * 3) / 2 ^ (8 * BN_num_bytes bn.natAbs))).toNat
      = bn.natAbs * 2 ^ (8 * 3) / 2 ^ (8 * BN_num_bytes bn.natAbs) := by
    rw [BitVec.toNat_ofNat]
    exact Nat.mod_eq_of_lt (Nat.lt_trans hwide (by decide))
  simp only [GetCompact, scaled_eq, sign_mask]
  generalize bn.natAbs * 2 ^ (8 * 3) / 2 ^ (8 * BN_num_bytes bn.natAbs) = M at hcarry hwide hword ⊢
  have hsign : fNegative (BitVec.ofNat 32 M) = decide (¬ M < 2 ^ 23) := by
    rw [fNegative, hword]
    refine decide_eq_decide.mpr ?_
    omega
  by_cases hM : M < 2 ^ 23
  · rw [if_pos hM] at hcarry
    obtain ⟨hm, he⟩ := Prod.mk.inj hcarry
    rw [hsign, decide_eq_false (not_not_intro hM), if_neg Bool.false_ne_true,
      if_neg Bool.false_ne_true, hm, he]
    exact fields_toNat hmant h bn
  · rw [if_neg hM] at hcarry
    obtain ⟨hm, he⟩ := Prod.mk.inj hcarry
    have hshift : BitVec.ofNat 32 M >>> 8 = BitVec.ofNat 32 (M / 2 ^ 8) := by
      apply BitVec.eq_of_toNat_eq
      rw [BitVec.toNat_ushiftRight, hword, Nat.shiftRight_eq_div_pow, BitVec.toNat_ofNat]
      omega
    rw [hsign, decide_eq_true hM, if_pos rfl, if_pos rfl, hshift, hm, he]
    exact fields_toNat hmant h bn

/-! ## Round trips -/

theorem fields_GetCompact {bn : Int} (h : Representable bn) :
    nSize (GetCompact bn) = exponent 8 bn.natAbs ∧ nWord (GetCompact bn) = mantissa 8 3 bn.natAbs
      ∧ fNegative (GetCompact bn) = decide (bn < 0) := by
  have hmant := mantissa_lt (w := 8) (d := 3) (by decide) (by decide) bn.natAbs
  have hword := GetCompact_eq h
  have hbool := Bool.toNat_le (decide (bn < 0))
  refine ⟨?_, ?_, ?_⟩
  · rw [nSize, hword]
    omega
  · rw [nWord, hword]
    omega
  · rw [fNegative, hword]
    by_cases hneg : bn < 0
    · rw [decide_eq_true hneg]
      refine decide_eq_true ?_
      show (_ + (2 ^ 23 * 1 + _)) / _ % 2 = 1
      omega
    · rw [decide_eq_false hneg]
      refine decide_eq_false ?_
      show ¬ (_ + (2 ^ 23 * 0 + _)) / _ % 2 = 1
      omega

theorem natAbs_set_negative (n : Nat) (s : Bool) : (BN_set_negative n s).natAbs = n := by
  cases s with
  | false => rfl
  | true => exact Int.natAbs_neg n

/-- What a compact word stands for fits in a compact word. -/
theorem representable_SetCompact (c : BitVec 32) : Representable (SetCompact c) := by
  rw [Representable, SetCompact_eq, natAbs_set_negative]
  exact Nat.lt_of_le_of_lt (exponent_value_le (by decide) (by decide) (nWord_lt c)) (nSize_lt c)

/-- The number of the compact word of a number. -/
theorem read_GetCompact {bn : Int} (h : Representable bn) :
    SetCompact (GetCompact bn) = BN_set_negative (trunc 8 3 bn.natAbs) (decide (bn < 0)) := by
  obtain ⟨he, hm, hs⟩ := fields_GetCompact h
  rw [SetCompact_eq, he, hm, hs, value_encode]

/-- **A number read back from its compact word.** -/
theorem SetCompact_GetCompact {bn : Int} (h : Representable bn) :
    SetCompact (GetCompact bn) = BN_set_negative (trunc 8 3 bn.natAbs) (decide (bn < 0))
      ∧ (bn - SetCompact (GetCompact bn)).natAbs * 2 ^ 15 ≤ bn.natAbs := by
  have hread := read_GetCompact h
  refine ⟨hread, ?_⟩
  have hloss := sub_trunc (w := 8) (d := 3) (by decide) (by decide) bn.natAbs
  have hle := trunc_le (w := 8) (d := 3) bn.natAbs
  have hsub : (bn - BN_set_negative (trunc 8 3 bn.natAbs) (decide (bn < 0))).natAbs
      = bn.natAbs - trunc 8 3 bn.natAbs := by
    by_cases hneg : bn < 0
    · rw [decide_eq_true hneg]
      show (bn - -((trunc 8 3 bn.natAbs : Nat) : Int)).natAbs = _
      omega
    · rw [decide_eq_false hneg]
      show (bn - ((trunc 8 3 bn.natAbs : Nat) : Int)).natAbs = _
      omega
  rw [hread, hsub]
  exact hloss

theorem SetCompact_GetCompact_limit :
    SetCompact (GetCompact (SetCompact 0x1d00ffff))
        = BN_set_negative (trunc 8 3 (SetCompact 0x1d00ffff).natAbs) (decide (SetCompact 0x1d00ffff < 0))
      ∧ (SetCompact 0x1d00ffff - SetCompact (GetCompact (SetCompact 0x1d00ffff))).natAbs * 2 ^ 15
        ≤ (SetCompact 0x1d00ffff).natAbs :=
  SetCompact_GetCompact (representable_SetCompact 0x1d00ffff)

/-- The compact words `GetCompact` gives. -/
def Canonical (c : BitVec 32) : Prop := c = 0 ∨ Normal 8 3 (nSize c) (nWord c)

theorem word_eq_of_fields {c c' : BitVec 32} (he : nSize c = nSize c') (hm : nWord c = nWord c')
    (hs : fNegative c = fNegative c') : c = c' := by
  apply BitVec.eq_of_toNat_eq
  rw [toNat_eq c, toNat_eq c', he, hm, hs]

/-- The compact word of a natural number. -/
theorem canonical_GetCompact {n : Nat} (h : Representable n) : Canonical (GetCompact n) := by
  rcases Nat.eq_zero_or_pos n with rfl | hpos
  · exact Or.inl rfl
  · right
    obtain ⟨he, hm, -⟩ := fields_GetCompact h
    rw [he, hm]
    exact normal_encode (by decide) (by decide) hpos

/-- **The compact words that are read back exactly.** -/
theorem GetCompact_SetCompact_iff (c : BitVec 32) : GetCompact (SetCompact c) = c ↔ Canonical c := by
  have hrep := representable_SetCompact c
  obtain ⟨he, hm, hs⟩ := fields_GetCompact hrep
  rw [SetCompact_eq, natAbs_set_negative] at he hm
  constructor
  · intro h
    rw [← SetCompact_eq, h] at he hm
    rcases Nat.eq_zero_or_pos (value 8 3 (nSize c) (nWord c)) with h0 | hpos
    · left
      rw [← h, SetCompact_eq, h0]
      cases fNegative c with
      | false => rfl
      | true => rfl
    · right
      have hnormal := normal_encode (w := 8) (d := 3) (by decide) (by decide) hpos
      rw [← he, ← hm] at hnormal
      exact hnormal
  · rintro (rfl | h)
    · rfl
    · rw [exponent_value (by decide) (by decide) h] at he
      rw [mantissa_value (by decide) (by decide) h] at hm
      refine word_eq_of_fields ?_ ?_ ?_
      · rw [SetCompact_eq, he]
      · rw [SetCompact_eq, hm]
      · have hpos : 0 < value 8 3 (nSize c) (nWord c) := by
          refine Nat.pos_of_ne_zero (fun h0 => ?_)
          have hexp := exponent_value (w := 8) (d := 3) (by decide) (by decide) h
          rw [h0, exponent_zero] at hexp
          exact Nat.ne_of_lt h.exponent_pos hexp
        rw [hs, SetCompact_eq]
        cases hc : fNegative c with
        | false =>
            refine decide_eq_false ?_
            show ¬ ((value 8 3 (nSize c) (nWord c) : Nat) : Int) < 0
            omega
        | true =>
            refine decide_eq_true ?_
            show -((value 8 3 (nSize c) (nWord c) : Nat) : Int) < 0
            omega

/-! ## The order of targets -/

/-- **Targets and their compact words are in the same order.** -/
theorem GetCompact_mono {M N : Int} (hM : 0 ≤ M) (h : M ≤ N) (hN : Representable N) :
    (GetCompact M).toNat ≤ (GetCompact N).toNat
      ∧ SetCompact (GetCompact M) ≤ SetCompact (GetCompact N) := by
  have habs : M.natAbs ≤ N.natAbs := by omega
  have hrep : Representable M := Nat.lt_of_le_of_lt (exponent_mono 8 habs) hN
  have hMneg : decide (M < 0) = false := decide_eq_false (by omega)
  have hNneg : decide (N < 0) = false := decide_eq_false (by omega)
  constructor
  · have hMm := mantissa_lt (w := 8) (d := 3) (by decide) (by decide) M.natAbs
    rw [GetCompact_eq hrep, GetCompact_eq hN, hMneg, hNneg]
    rcases encode_mono (w := 8) (d := 3) habs with hlt | ⟨heq, hle⟩ <;> omega
  · rw [read_GetCompact hrep, read_GetCompact hN, hMneg, hNneg]
    exact Int.ofNat_le.mpr (trunc_mono (by decide) (by decide) habs)

theorem GetCompact_mono_target :
    (GetCompact 0x1234567).toNat ≤ (GetCompact (SetCompact 0x1d00ffff)).toNat
      ∧ SetCompact (GetCompact 0x1234567) ≤ SetCompact (GetCompact (SetCompact 0x1d00ffff)) :=
  GetCompact_mono (by decide) (by decide) (representable_SetCompact 0x1d00ffff)

end Compact
