import FpgaMiner.CodecProofs
import FpgaMiner.MinerDriverProofs

/-! # The integers of bitcoind's serialization

    `serialize.h` has two formats for a number of unknown length: a size with a marker byte
    before it, for the lengths of vectors, and digits of base 128 for the database of coins,
    whose amounts are compressed first.

    * **`compactSize`** — the sizes up to `MAX_SIZE`, each in its shortest form only;
    * **`ReadVarInt_iff`** — the digits read are those of one number, taken modulo the width
      of the integer;
    * **`DecompressAmount_CompressAmount`** — every amount of money survives, in 64 bits. -/

namespace Serialize

open MinerDriver Codec

/-- The test of a bit with a mask. -/
theorem mask_ne_zero (x : Byte) {p : Nat} (hp : p < 8) :
    decide (x &&& (1#8 <<< p) ≠ 0) = x.getLsbD p := by
  have hpow : BitVec.twoPow 8 p ≠ 0#8 := by
    intro h
    have hb := congrArg (fun y => y.getLsbD p) h
    simp only [BitVec.getLsbD_twoPow, hp, decide_true, Bool.and_self, BitVec.getLsbD_zero,
      Bool.true_eq_false] at hb
  rw [← BitVec.twoPow_eq, BitVec.and_twoPow]
  cases x.getLsbD p with
  | false => rfl
  | true =>
      rw [if_pos rfl]
      exact decide_eq_true hpow

/-! ## Sizes -/

/-- No size that is read may exceed this. -/
def MAX_SIZE : Nat := 0x02000000

/-- A size in one, three, five or nine bytes. -/
def WriteCompactSize (nSize : Nat) : List Byte :=
  if nSize < 253 then bytesLE 1 nSize
  else if nSize ≤ 0xffff then 253 :: bytesLE 2 nSize
  else if nSize ≤ 0xffffffff then 254 :: bytesLE 4 nSize
  else 255 :: bytesLE 8 nSize

/-- A size of `k` bytes, which a shorter form must not be able to hold. -/
def readSize (w k : Nat) (h : w = 8 * k) (low : Nat) (is : List Byte) : Option (Nat × List Byte) := do
  let (xSize, is) ← (word w k h).read is
  if xSize.toNat < low then none else some (xSize.toNat, is)

/-- What follows the first byte. -/
def sizeAfter (chSize : Byte) (is : List Byte) : Option (Nat × List Byte) :=
  if chSize.toNat < 253 then some (chSize.toNat, is)
  else if chSize = 253 then readSize 16 2 rfl 253 is
  else if chSize = 254 then readSize 32 4 rfl 0x10000 is
  else readSize 64 8 rfl 0x100000000 is

/-- A size that is written no longer than it has to be, and not above `MAX_SIZE`. -/
def ReadCompactSize (is : List Byte) : Option (Nat × List Byte) := do
  let (chSize, is) ← symbol.read is
  let (nSizeRet, is) ← sizeAfter chSize is
  if nSizeRet > MAX_SIZE then none else some (nSizeRet, is)

/-- A size behind its mark is read when it needs that many bytes. -/
theorem readSize_iff {w k low n : Nat} (h : w = 8 * k) {is rest : List Byte} :
    readSize w k h low is = some (n, rest)
      ↔ low ≤ n ∧ n < 2 ^ w ∧ is = bytesLE k n ++ rest := by
  constructor
  · intro hr
    simp only [readSize, Option.bind_eq_bind, Option.bind_eq_some_iff] at hr
    obtain ⟨⟨x, t⟩, hx, hr⟩ := hr
    obtain ⟨-, rfl⟩ := (word w k h).write_read _ _ _ hx
    split at hr
    · cases hr
    · next hlow =>
        obtain ⟨rfl, rfl⟩ := Prod.mk.inj (Option.some.inj hr)
        exact ⟨Nat.not_lt.mp hlow, x.isLt, rfl⟩
  · rintro ⟨hlow, hn, rfl⟩
    have hx := (word w k h).read_write (BitVec.ofNat w n) rest trivial
    have hto : (BitVec.ofNat w n).toNat = n := by
      rw [BitVec.toNat_ofNat, Nat.mod_eq_of_lt hn]
    rw [show (word w k h).write (BitVec.ofNat w n) = bytesLE k n from congrArg (bytesLE k) hto] at hx
    simp only [readSize, hx, Option.bind_eq_bind, Option.bind_some, hto]
    rw [if_neg (Nat.not_lt.mpr hlow)]

/-- A size that was written is read. -/
theorem sizeAfter_write {n : Nat} (rest : List Byte) (hn : n ≤ 0xffffffff) :
    ∃ chSize is, WriteCompactSize n = chSize :: is ∧ sizeAfter chSize (is ++ rest) = some (n, rest) := by
  rw [WriteCompactSize]
  by_cases h1 : n < 253
  · have hto : (BitVec.ofNat 8 n).toNat = n := by
      rw [BitVec.toNat_ofNat]
      omega
    rw [if_pos h1]
    refine ⟨BitVec.ofNat 8 n, [], rfl, ?_⟩
    rw [sizeAfter, hto, if_pos h1]
    rfl
  · rw [if_neg h1]
    by_cases h2 : n ≤ 0xffff
    · rw [if_pos h2]
      refine ⟨_, _, rfl, ?_⟩
      rw [sizeAfter, if_neg (by decide), if_pos rfl]
      exact (readSize_iff rfl).mpr ⟨by omega, by omega, rfl⟩
    · rw [if_neg h2, if_pos hn]
      refine ⟨_, _, rfl, ?_⟩
      rw [sizeAfter, if_neg (by decide), if_neg (by decide), if_pos rfl]
      exact (readSize_iff rfl).mpr ⟨by omega, by omega, rfl⟩

/-- What was read is how it is written. -/
theorem of_sizeAfter {chSize : Byte} {is rest : List Byte} {n : Nat}
    (h : sizeAfter chSize is = some (n, rest)) (hn : n ≤ 0xffffffff) :
    chSize :: is = WriteCompactSize n ++ rest := by
  rw [sizeAfter] at h
  rw [WriteCompactSize]
  split at h
  · next h1 =>
      obtain ⟨rfl, rfl⟩ := Prod.mk.inj (Option.some.inj h)
      rw [if_pos h1, bytesLE, bytesLE, BitVec.ofNat_toNat, BitVec.setWidth_eq]
      rfl
  · split at h
    · next h2 =>
        obtain ⟨hlow, hhigh, rfl⟩ := (readSize_iff rfl).mp h
        rw [if_neg (by omega), if_pos (by omega), h2]
        rfl
    · split at h
      · next h2 =>
          obtain ⟨hlow, hhigh, rfl⟩ := (readSize_iff rfl).mp h
          rw [if_neg (by omega), if_neg (by omega), if_pos hn, h2]
          rfl
      · obtain ⟨hlow, -⟩ := (readSize_iff rfl).mp h
        omega

/-- A size in range is read back. -/
theorem ReadCompactSize_WriteCompactSize {n : Nat} (rest : List Byte) (hn : n ≤ MAX_SIZE) :
    ReadCompactSize (WriteCompactSize n ++ rest) = some (n, rest) := by
  obtain ⟨chSize, is, hw, hr⟩ := sizeAfter_write rest (Nat.le_trans hn (by decide))
  rw [hw]
  simp only [ReadCompactSize, symbol, List.cons_append, Option.bind_eq_bind, Option.bind_some, hr]
  exact if_neg (Nat.not_lt.mpr hn)

/-- A size that was read is in range and was written so. -/
theorem of_ReadCompactSize {is rest : List Byte} {n : Nat}
    (h : ReadCompactSize is = some (n, rest)) :
    n ≤ MAX_SIZE ∧ is = WriteCompactSize n ++ rest := by
  simp only [ReadCompactSize, Option.bind_eq_bind, Option.bind_eq_some_iff] at h
  obtain ⟨⟨chSize, t⟩, hch, ⟨m, t'⟩, hm, h⟩ := h
  obtain ⟨-, rfl⟩ := symbol.write_read _ _ _ hch
  split at h
  · cases h
  · next hmax =>
      obtain ⟨rfl, rfl⟩ := Prod.mk.inj (Option.some.inj h)
      have hmax := Nat.not_lt.mp hmax
      exact ⟨hmax, of_sizeAfter hm (Nat.le_trans hmax (by decide))⟩

/-- **The sizes of vectors.** -/
def compactSize : Codec Byte Nat where
  fits n := n ≤ MAX_SIZE
  write := WriteCompactSize
  read := ReadCompactSize
  read_write := fun _ rest hn => ReadCompactSize_WriteCompactSize rest hn
  write_read := fun _ _ _ => of_ReadCompactSize

/-- A vector of bytes, such as a script. -/
def byteVector : Codec Byte (List Byte) := counted compactSize symbol

/-! ## Digits of base 128 -/

/-- The digits in `tmp`, lowest first; `len` have been written before. -/
def tmp (n : Nat) (len : Nat) : List Byte :=
  BitVec.ofNat 8 (n % 128 + if len = 0 then 0 else 128)
    :: if n ≤ 127 then [] else tmp (n / 128 - 1) (len + 1)
termination_by n

/-- A number in digits to the base 128, the highest one first; all but the last carry the top
    bit and are one less. -/
def WriteVarInt (n : Nat) : List Byte := (tmp n 0).reverse

/-- An integer of `w` bits; `n` has been read before. -/
def ReadVarInt (w : Nat) : Nat → List Byte → Option (Nat × List Byte)
  | _, [] => none
  | n, chData :: is =>
      let n := (n * 128 + chData.toNat % 128) % 2 ^ w
      if 128 ≤ chData.toNat then ReadVarInt w ((n + 1) % 2 ^ w) is else some (n, is)

/-- The reader with integers of any size. -/
def readDigits : Nat → List Byte → Option (Nat × List Byte)
  | _, [] => none
  | n, chData :: is =>
      let n := n * 128 + chData.toNat % 128
      if 128 ≤ chData.toNat then readDigits (n + 1) is else some (n, is)

/-- Reading in a fixed width is reading and then cutting off. -/
theorem ReadVarInt_eq (w n : Nat) (is : List Byte) :
    ReadVarInt w (n % 2 ^ w) is = (readDigits n is).map (fun p => (p.1 % 2 ^ w, p.2)) := by
  induction is generalizing n with
  | nil => rfl
  | cons chData is ih =>
      have hmod : (n % 2 ^ w * 128 + chData.toNat % 128) % 2 ^ w
          = (n * 128 + chData.toNat % 128) % 2 ^ w := by
        rw [Nat.add_mod, Nat.mod_mul_mod, ← Nat.add_mod]
      rw [ReadVarInt, readDigits, hmod]
      by_cases hmore : 128 ≤ chData.toNat
      · rw [if_pos hmore, if_pos hmore, Nat.mod_add_mod, ih]
      · rw [if_neg hmore, if_neg hmore]
        rfl

/-- Only the first digit tells whether others came before. -/
theorem tmp_succ (n len : Nat) : tmp n (len + 1) = tmp n 1 := by
  induction n using Nat.strong_induction_on generalizing len with
  | _ n ih =>
      conv_lhs => rw [tmp, if_neg (Nat.succ_ne_zero len)]
      conv_rhs => rw [tmp, if_neg Nat.one_ne_zero]
      by_cases hn : n ≤ 127
      · rw [if_pos hn, if_pos hn]
      · rw [if_neg hn, if_neg hn, ih _ (by omega) (len + 1), ih _ (by omega) 1]

/-- What has been read when the reader holds a number. -/
def before : Nat → List Byte
  | 0 => []
  | n + 1 => (tmp n 1).reverse

/-- The digits of a number are those of its higher part and one more. -/
theorem tmp_reverse (a len : Nat) {d : Nat} (hd : d < 128) :
    (tmp (a * 128 + d) len).reverse
      = before a ++ [BitVec.ofNat 8 (d + if len = 0 then 0 else 128)] := by
  have hmod : (a * 128 + d) % 128 = d := by omega
  rw [tmp, hmod, List.reverse_cons]
  cases a with
  | zero =>
      rw [if_pos (by omega)]
      rfl
  | succ m =>
      have hdiv : ((m + 1) * 128 + d) / 128 - 1 = m := by omega
      rw [if_neg (by omega), hdiv, tmp_succ]
      rfl

/-- The last digit. -/
theorem last_toNat {d : Nat} (hd : d < 128) : (BitVec.ofNat 8 (d + 0)).toNat = d := by
  rw [BitVec.toNat_ofNat]
  omega

/-- A digit with more behind it. -/
theorem more_toNat {d : Nat} (hd : d < 128) : (BitVec.ofNat 8 (d + 128)).toNat = d + 128 := by
  rw [BitVec.toNat_ofNat]
  omega

/-- Reading what comes before the last digit. -/
theorem readDigits_before (a : Nat) (is : List Byte) :
    readDigits 0 (before a ++ is) = readDigits a is := by
  induction a using Nat.strong_induction_on generalizing is with
  | _ a ih =>
      cases a with
      | zero => rfl
      | succ m =>
          have hd : m % 128 < 128 := Nat.mod_lt m (by decide)
          have hm : m / 128 * 128 + m % 128 = m := Nat.div_add_mod' m 128
          have hsplit := tmp_reverse (m / 128) 1 hd
          rw [hm, if_neg Nat.one_ne_zero] at hsplit
          rw [before, hsplit, List.append_assoc, List.singleton_append, ih _ (by omega), readDigits,
            more_toNat hd, if_pos (Nat.le_add_left 128 _), Nat.add_mod_right, Nat.mod_mod, hm]

/-- The last digit is written behind the others. -/
theorem WriteVarInt_eq (n : Nat) :
    WriteVarInt n = before (n / 128) ++ [BitVec.ofNat 8 (n % 128 + 0)] := by
  have hsplit := tmp_reverse (n / 128) 0 (Nat.mod_lt n (show 0 < 128 by decide))
  rw [Nat.div_add_mod', if_pos rfl] at hsplit
  exact hsplit

/-- **The digits are read back.** -/
theorem readDigits_WriteVarInt (n : Nat) (rest : List Byte) :
    readDigits 0 (WriteVarInt n ++ rest) = some (n, rest) := by
  have hd : n % 128 < 128 := Nat.mod_lt n (by decide)
  rw [WriteVarInt_eq, List.append_assoc, List.singleton_append, readDigits_before, readDigits,
    last_toNat hd, if_neg (by omega), Nat.mod_mod, Nat.div_add_mod']

/-- **What was read is how it is written**, by induction on the digits. -/
theorem of_readDigits {a n : Nat} {is rest : List Byte} (h : readDigits a is = some (n, rest)) :
    before a ++ is = WriteVarInt n ++ rest := by
  induction is generalizing a with
  | nil => cases h
  | cons chData is ih =>
      have hd : chData.toNat % 128 < 128 := Nat.mod_lt _ (by decide)
      have hlt : chData.toNat < 256 := chData.isLt
      rw [readDigits] at h
      split at h
      · next hmore =>
          have hch : BitVec.ofNat 8 (chData.toNat % 128 + 128) = chData := by
            rw [← BitVec.toNat_inj, more_toNat hd]
            omega
          have hsplit := tmp_reverse a 1 hd
          rw [if_neg Nat.one_ne_zero, hch] at hsplit
          have h := ih h
          rwa [before, hsplit, List.append_assoc] at h
      · next hlast =>
          have hch : BitVec.ofNat 8 (chData.toNat % 128 + 0) = chData := by
            rw [← BitVec.toNat_inj, last_toNat hd]
            omega
          have hsplit := tmp_reverse a 0 hd
          rw [if_pos rfl, hch] at hsplit
          obtain ⟨rfl, rfl⟩ := Prod.mk.inj (Option.some.inj h)
          rw [WriteVarInt, hsplit, List.append_assoc]
          rfl

/-- The digits of base 128, for numbers of any size. -/
def digits : Codec Byte Nat where
  fits _ := True
  write := WriteVarInt
  read := readDigits 0
  read_write := fun n rest _ => readDigits_WriteVarInt n rest
  write_read := fun _ _ _ h => ⟨trivial, of_readDigits h⟩

/-- A number is read back modulo the width of the integer. -/
theorem ReadVarInt_append (w m : Nat) (rest : List Byte) :
    ReadVarInt w 0 (WriteVarInt m ++ rest) = some (m % 2 ^ w, rest) := by
  have heq := ReadVarInt_eq w 0 (WriteVarInt m ++ rest)
  rw [Nat.zero_mod, readDigits_WriteVarInt] at heq
  exact heq

/-- A number is read back in a width that holds it. -/
theorem ReadVarInt_WriteVarInt {w n : Nat} (hn : n < 2 ^ w) (rest : List Byte) :
    ReadVarInt w 0 (WriteVarInt n ++ rest) = some (n, rest) := by
  rw [ReadVarInt_append, Nat.mod_eq_of_lt hn]

/-- **A variable-length integer is read from the digits of a number that it is modulo its
    width, and from no other bytes.** -/
theorem ReadVarInt_iff (w n : Nat) (is rest : List Byte) :
    ReadVarInt w 0 is = some (n, rest) ↔ ∃ m, m % 2 ^ w = n ∧ is = WriteVarInt m ++ rest := by
  constructor
  · intro h
    have heq := ReadVarInt_eq w 0 is
    rw [Nat.zero_mod, h] at heq
    obtain ⟨⟨m, t⟩, hm, hp⟩ := Option.map_eq_some_iff.mp heq.symm
    obtain ⟨rfl, rfl⟩ := Prod.mk.inj hp
    exact ⟨m, rfl, (digits.write_read _ _ _ hm).2⟩
  · rintro ⟨m, rfl, rfl⟩
    exact ReadVarInt_append w m rest

/-! ## Amounts -/

/-- One coin in its smallest unit. -/
def COIN : Nat := 100000000

/-- The amount that no value may exceed. -/
def MAX_MONEY : Nat := 21000000 * COIN

/-- The zeros at the end of an amount; `e` have been counted before. -/
def trailingZeros (n e : Nat) : Nat × Nat :=
  if n % 10 = 0 ∧ e < 9 then trailingZeros (n / 10) (e + 1) else (n, e)
termination_by 9 - e

/-- An amount with up to nine zeros at its end taken off. -/
def CompressAmount (n : Nat) : Nat :=
  if n = 0 then 0
  else
    let (n, e) := trailingZeros n 0
    if e < 9 then
      let d := n % 10
      (1 + (n / 10 * 9 + d - 1) * 10 + e) % 2 ^ 64
    else (1 + (n - 1) * 10 + 9) % 2 ^ 64

/-- The amount of a compressed number. -/
def DecompressAmount (x : Nat) : Nat :=
  if x = 0 then 0
  else
    let e := (x - 1) % 10
    let x := (x - 1) / 10
    let n := if e < 9 then x / 9 * 10 + (x % 9 + 1) else x + 1
    n * 10 ^ e % 2 ^ 64

/-- The loop takes off zeros, up to nine of them. -/
theorem trailingZeros_spec (n e : Nat) (hn : n ≠ 0) (he : e ≤ 9) :
    (trailingZeros n e).1 ≠ 0 ∧ (trailingZeros n e).2 ≤ 9
      ∧ (trailingZeros n e).1 * 10 ^ (trailingZeros n e).2 = n * 10 ^ e
      ∧ ((trailingZeros n e).2 < 9 → (trailingZeros n e).1 % 10 ≠ 0) := by
  induction n, e using trailingZeros.induct with
  | case1 n e h ih =>
      obtain ⟨hn', he', hval, hd⟩ := ih (by omega) (by omega)
      rw [trailingZeros, if_pos h]
      refine ⟨hn', he', ?_, hd⟩
      have hten : n / 10 * 10 = n := by omega
      rw [hval, Nat.pow_succ, Nat.mul_comm (10 ^ e), ← Nat.mul_assoc, hten]
  | case2 n e h =>
      rw [trailingZeros, if_neg h]
      exact ⟨hn, he, rfl, fun hlt hzero => h ⟨hzero, hlt⟩⟩

/-- **An amount of money survives its compression.** -/
theorem DecompressAmount_CompressAmount {n : Nat} (hn : n ≤ MAX_MONEY) :
    DecompressAmount (CompressAmount n) = n := by
  by_cases hzero : n = 0
  · rw [hzero]
    rfl
  · obtain ⟨hm, he, hval, hd⟩ := trailingZeros_spec n 0 hzero (by decide)
    have hmax : n ≤ 2100000000000000 := hn
    rw [CompressAmount, if_neg hzero]
    generalize trailingZeros n 0 = p at hm he hval hd
    obtain ⟨m, e⟩ := p
    rw [Nat.pow_zero, Nat.mul_one] at hval
    have hle : m ≤ n := by
      rw [← hval]
      exact Nat.le_mul_of_pos_right m (Nat.pow_pos (by decide))
    have hn64 : n % 2 ^ 64 = n := Nat.mod_eq_of_lt (by omega)
    by_cases he9 : e < 9
    · have hd := hd he9
      have hlt : 1 + (m / 10 * 9 + m % 10 - 1) * 10 + e < 2 ^ 64 := by omega
      show DecompressAmount (if e < 9 then _ else _) = n
      rw [if_pos he9, Nat.mod_eq_of_lt hlt, DecompressAmount, if_neg (by omega)]
      have hexp : (1 + (m / 10 * 9 + m % 10 - 1) * 10 + e - 1) % 10 = e := by omega
      have hcode : (1 + (m / 10 * 9 + m % 10 - 1) * 10 + e - 1) / 10 = m / 10 * 9 + (m % 10 - 1) := by
        omega
      have hdig : (m / 10 * 9 + (m % 10 - 1)) / 9 * 10 + ((m / 10 * 9 + (m % 10 - 1)) % 9 + 1) = m := by
        omega
      simp only [hexp, hcode, if_pos he9, hdig, hval, hn64]
    · obtain rfl : e = 9 := by omega
      have hlt : 1 + (m - 1) * 10 + 9 < 2 ^ 64 := by omega
      show DecompressAmount (if 9 < 9 then _ else _) = n
      rw [if_neg he9, Nat.mod_eq_of_lt hlt, DecompressAmount, if_neg (by omega)]
      have hexp : (1 + (m - 1) * 10 + 9 - 1) % 10 = 9 := by omega
      have hcode : (1 + (m - 1) * 10 + 9 - 1) / 10 + 1 = m := by omega
      simp only [hexp, if_neg he9, hcode, hval, hn64]

/-- **The amounts in the database**: what `CTxOutCompressor` writes for an amount of money is
    read back as that amount, and the reader stops behind it. -/
theorem amount_roundtrip {n : Nat} (hn : n ≤ MAX_MONEY) (rest : List Byte) :
    (ReadVarInt 64 0 (WriteVarInt (CompressAmount n) ++ rest)).map
      (fun p => (DecompressAmount p.1, p.2)) = some (n, rest) := by
  have hlt : CompressAmount n < 2 ^ 64 := by
    rw [CompressAmount]
    split
    · decide
    · dsimp only
      split
      · exact Nat.mod_lt _ (by decide)
      · exact Nat.mod_lt _ (by decide)
  rw [ReadVarInt_WriteVarInt hlt, Option.map_some, DecompressAmount_CompressAmount hn]

end Serialize
