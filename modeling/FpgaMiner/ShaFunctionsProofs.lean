import FpgaMiner.BitSliceProofs
import FpgaMiner.Sha256Proofs

/-! # The combinational modules of `sha-256-functions.v`

    `e0`, `e1`, `s0`, `s1` write their rotations as concatenations of
    part-selects, `s0` and `s1` with the top bits (which the shift leaves out)
    in an assignment of their own; `ch` and `maj` are multiplexer forms.  Each is
    the FIPS 180-4 function of the same name. -/

namespace ShaFunctions

open BitSlice Sha256

/-- `e0` of `sha-256-functions.v`. -/
def e0 (x : Word) : Word :=
  (x.extractLsb' 0 2 ++ x.extractLsb' 2 30) ^^^ (x.extractLsb' 0 13 ++ x.extractLsb' 13 19)
    ^^^ (x.extractLsb' 0 22 ++ x.extractLsb' 22 10)

/-- `e1`, likewise. -/
def e1 (x : Word) : Word :=
  (x.extractLsb' 0 6 ++ x.extractLsb' 6 26) ^^^ (x.extractLsb' 0 11 ++ x.extractLsb' 11 21)
    ^^^ (x.extractLsb' 0 25 ++ x.extractLsb' 25 7)

/-- `ch`, with one operation less than the standard's. -/
def ch (x y z : Word) : Word := z ^^^ (x &&& (y ^^^ z))

/-- `maj`, likewise. -/
def maj (x y z : Word) : Word := (x &&& y) ||| (z &&& (x ||| y))

/-- `y[31:29]` and `y[28:0]` are assigned separately. -/
def s0 (x : Word) : Word :=
  (x.extractLsb' 4 3 ^^^ x.extractLsb' 15 3)
    ++ ((x.extractLsb' 0 4 ++ x.extractLsb' 7 25) ^^^ (x.extractLsb' 0 15 ++ x.extractLsb' 18 14)
      ^^^ x.extractLsb' 3 29)

/-- `y[31:22]` and `y[21:0]` are assigned separately. -/
def s1 (x : Word) : Word :=
  (x.extractLsb' 7 10 ^^^ x.extractLsb' 9 10)
    ++ ((x.extractLsb' 0 7 ++ x.extractLsb' 17 15) ^^^ (x.extractLsb' 0 9 ++ x.extractLsb' 19 13)
      ^^^ x.extractLsb' 10 22)

@[simp] theorem e0_eq (x : Word) : e0 x = bigSigma0 x := by
  rw [bigSigma0, ROTR, ROTR, ROTR, rotateRight_eq_append x (show 2 + 30 = 32 from rfl) (by decide),
    rotateRight_eq_append x (show 13 + 19 = 32 from rfl) (by decide),
    rotateRight_eq_append x (show 22 + 10 = 32 from rfl) (by decide)]
  rfl

@[simp] theorem e1_eq (x : Word) : e1 x = bigSigma1 x := by
  rw [bigSigma1, ROTR, ROTR, ROTR, rotateRight_eq_append x (show 6 + 26 = 32 from rfl) (by decide),
    rotateRight_eq_append x (show 11 + 21 = 32 from rfl) (by decide),
    rotateRight_eq_append x (show 25 + 7 = 32 from rfl) (by decide)]
  rfl

@[simp] theorem ch_eq (x y z : Word) : ch x y z = Ch x y z := by
  apply BitVec.eq_of_getLsbD_eq
  intro i hi
  simp only [ch, Ch, BitVec.getLsbD_xor, BitVec.getLsbD_and, BitVec.getLsbD_not, hi,
    decide_true, Bool.true_and]
  cases x.getLsbD i <;> cases y.getLsbD i <;> cases z.getLsbD i <;> rfl

@[simp] theorem maj_eq (x y z : Word) : maj x y z = Maj x y z := by
  apply BitVec.eq_of_getLsbD_eq
  intro i hi
  simp only [maj, Maj, BitVec.getLsbD_xor, BitVec.getLsbD_and, BitVec.getLsbD_or]
  cases x.getLsbD i <;> cases y.getLsbD i <;> cases z.getLsbD i <;> rfl

/-- Bit `i` of a rotation, for the two functions whose top bits stand apart. -/
private theorem getLsbD_ROTR (x : Word) {n i : Nat} (hn : n < 32) (hi : i < 32) :
    (ROTR n x).getLsbD i = if i < 32 - n then x.getLsbD (n + i) else x.getLsbD (i - (32 - n)) := by
  rw [ROTR, BitVec.getLsbD_rotateRight, Nat.mod_eq_of_lt hn]
  simp [hi]

@[simp] theorem s0_eq (x : Word) : s0 x = smallSigma0 x := by
  apply BitVec.eq_of_getLsbD_eq
  intro i hi
  simp only [s0, smallSigma0, SHR, BitVec.getLsbD_append, BitVec.getLsbD_xor,
    BitVec.getLsbD_extractLsb', BitVec.getLsbD_ushiftRight,
    getLsbD_ROTR x (by decide : 7 < 32) hi, getLsbD_ROTR x (by decide : 18 < 32) hi]
  by_cases h29 : i < 29
  · -- below the shifted-out bits the source concatenates the three operands
    simp only [h29, if_true, decide_true, Bool.true_and]
    by_cases h14 : i < 14
    · simp [h14, show i < 25 by omega]
    · by_cases h25 : i < 25
      · simp [h14, h25, show i - 14 < 15 by omega]
      · simp [h14, h25, show i - 14 < 15 by omega, show i - 25 < 4 by omega]
  · have hx : x.getLsbD (3 + i) = false := BitVec.getLsbD_of_ge x _ (by omega)
    simp [h29, show i - 29 < 3 by omega, show ¬ i < 25 by omega, show ¬ i < 14 by omega, hx,
      show 4 + (i - 29) = i - 25 by omega, show 15 + (i - 29) = i - 14 by omega]

@[simp] theorem s1_eq (x : Word) : s1 x = smallSigma1 x := by
  apply BitVec.eq_of_getLsbD_eq
  intro i hi
  simp only [s1, smallSigma1, SHR, BitVec.getLsbD_append, BitVec.getLsbD_xor,
    BitVec.getLsbD_extractLsb', BitVec.getLsbD_ushiftRight,
    getLsbD_ROTR x (by decide : 17 < 32) hi, getLsbD_ROTR x (by decide : 19 < 32) hi]
  by_cases h22 : i < 22
  · simp only [h22, if_true, decide_true, Bool.true_and]
    by_cases h13 : i < 13
    · simp [h13, show i < 15 by omega]
    · by_cases h15 : i < 15
      · simp [h13, h15, show i - 13 < 9 by omega]
      · simp [h13, h15, show i - 13 < 9 by omega, show i - 15 < 7 by omega]
  · have hx : x.getLsbD (10 + i) = false := BitVec.getLsbD_of_ge x _ (by omega)
    simp [h22, show i - 22 < 10 by omega, show ¬ i < 15 by omega, show ¬ i < 13 by omega, hx,
      show 7 + (i - 22) = i - 15 by omega, show 9 + (i - 22) = i - 13 by omega]

end ShaFunctions
