import FpgaMiner.BlockHeaderProofs

/-! # Hashes that can be computed

    The schedule of SHA-256 is defined by recursion on four earlier words; a run over the
    sixteen words of a block that are still needed computes the same.  The words of the blocks
    are taken from the bytes of a message, without its bits.

    * **`hashWindow_eq`** — a hash, a block at a time in a sliding window;
    * **`Hash_eq_window`** — and the hash of a hash. -/

namespace Sha256

/-- The window a word further. -/
def slide (ws : List Word) : List Word :=
  ws.tail ++ [smallSigma1 (ws.getD 14 0) + ws.getD 9 0 + smallSigma0 (ws.getD 1 0) + ws.getD 0 0]

/-- A round for each of the constants. -/
def windowRounds : List Word → List Word → Vars → Vars
  | [], _, v => v
  | k :: ks, ws, v => windowRounds ks (slide ws) (round k (ws.getD 0 0) v)

/-- The same rounds with the words of the window as arguments, so that none is searched for. -/
def unrolledRounds : List Word → Word → Word → Word → Word → Word → Word → Word → Word → Word →
    Word → Word → Word → Word → Word → Word → Word → Vars → Vars
  | [], _, _, _, _, _, _, _, _, _, _, _, _, _, _, _, _, v => v
  | k :: ks, w0, w1, w2, w3, w4, w5, w6, w7, w8, w9, w10, w11, w12, w13, w14, w15, v =>
      unrolledRounds ks w1 w2 w3 w4 w5 w6 w7 w8 w9 w10 w11 w12 w13 w14 w15
        (smallSigma1 w14 + w9 + smallSigma0 w1 + w0) (round k w0 v)

/-- The compression of a block of sixteen words. -/
def compressWindow (H : Vars) (M : Nat → Word) : Vars :=
  H.add (unrolledRounds constants (M 0) (M 1) (M 2) (M 3) (M 4) (M 5) (M 6) (M 7) (M 8) (M 9) (M 10)
    (M 11) (M 12) (M 13) (M 14) (M 15) H)

/-- The chaining value after some blocks of the words of a padded message. -/
def chainingWindow (ws : List Word) : Nat → Vars
  | 0 => initial
  | i + 1 => compressWindow (chainingWindow ws i) (fun t => ws.getD (16 * i + t) 0)

/-- Bytes in words, the highest byte first. -/
def byteWords : List (BitVec 8) → List Word
  | a :: b :: c :: d :: bytes => (a ++ b ++ c ++ d) :: byteWords bytes
  | _ => []

/-- The hash of bytes, by windows. -/
def hashWindow (m : List (BitVec 8)) : Vars :=
  chainingWindow (byteWords (padBytes m)) ((byteWords (padBytes m)).length / 16)

/-- The hash of a hash, in one block. -/
def hashVars (v : Vars) : Vars := compressWindow initial (fun t => (padWords v.words).getD t 0)

/-- The words `W_n, …, W_{n+15}`. -/
def window (M : Nat → Word) (n : Nat) : List Word := (List.range 16).map (fun i => schedule M (n + i))

/-- A word of the window is one of the schedule. -/
theorem window_getD (M : Nat → Word) (n : Nat) {i : Nat} (hi : i < 16) :
    (window M n).getD i 0 = schedule M (n + i) := by
  rw [window, List.getD_eq_getElem?_getD, List.getElem?_map, List.getElem?_range hi]
  rfl

/-- The window slides along the schedule. -/
theorem slide_window (M : Nat → Word) (n : Nat) : slide (window M n) = window M (n + 1) := by
  have hlast : schedule M (n + 16) = smallSigma1 ((window M n).getD 14 0) + (window M n).getD 9 0
      + smallSigma0 ((window M n).getD 1 0) + (window M n).getD 0 0 := by
    iterate 4 rw [window_getD _ _ (by decide)]
    exact schedule_succ16 M n
  have htail : (window M n).tail = (List.range 15).map (fun i => schedule M (n + 1 + i)) := by
    rw [window, List.range_succ_eq_map, List.map_cons, List.tail_cons, List.map_map]
    refine List.map_congr_left fun i _ => ?_
    rw [Function.comp_apply, Nat.add_assoc, Nat.add_comm 1 i]
  rw [slide, ← hlast, htail, window, List.range_succ, List.map_append]
  rfl

/-- The rounds over a window are those over the schedule. -/
theorem windowRounds_eq (H : Vars) (M : Nat → Word) (j n : Nat) :
    windowRounds ((List.range' n j).map K) (window M n) (working H M n) = working H M (n + j) := by
  induction j generalizing n with
  | zero => rfl
  | succ j ih =>
      rw [List.range'_succ, List.map_cons, windowRounds, slide_window, window_getD _ _ (by decide),
        Nat.add_zero n, ← working_succ, ih (n + 1), Nat.add_right_comm, Nat.add_assoc]

/-- The arguments are the window. -/
theorem unrolledRounds_eq (ks : List Word)
    (w0 w1 w2 w3 w4 w5 w6 w7 w8 w9 w10 w11 w12 w13 w14 w15 : Word) (v : Vars) :
    unrolledRounds ks w0 w1 w2 w3 w4 w5 w6 w7 w8 w9 w10 w11 w12 w13 w14 w15 v
      = windowRounds ks [w0, w1, w2, w3, w4, w5, w6, w7, w8, w9, w10, w11, w12, w13, w14, w15] v := by
  induction ks generalizing w0 w1 w2 w3 w4 w5 w6 w7 w8 w9 w10 w11 w12 w13 w14 w15 v with
  | nil => rfl
  | cons k ks ih =>
      rw [unrolledRounds, windowRounds, ih]
      rfl

/-- The compression is the one of the standard. -/
theorem compressWindow_eq (H : Vars) (M : Nat → Word) : compressWindow H M = compress H M := by
  have hwindow : (List.range 16).map M = window M 0 := by
    refine List.map_congr_left fun i hi => ?_
    rw [Nat.zero_add, schedule_lt M (List.mem_range.mp hi)]
  have hconstants : constants = (List.range' 0 64).map K := by decide
  have hrounds : windowRounds constants ((List.range 16).map M) H = working H M 64 := by
    rw [hwindow, hconstants]
    exact windowRounds_eq H M 64 0
  rw [compressWindow, unrolledRounds_eq, compress, ← hrounds]
  rfl

/-- The bytes of four bytes in a word. -/
theorem wordBytes_append (a b c d : BitVec 8) : wordBytes (a ++ b ++ c ++ d) = [a, b, c, d] := by
  have ha : (a ++ b ++ c ++ d).extractLsb' 24 8 = a := by
    ext i hi
    grind
  have hb : (a ++ b ++ c ++ d).extractLsb' 16 8 = b := by
    ext i hi
    grind
  have hc : (a ++ b ++ c ++ d).extractLsb' 8 8 = c := by
    ext i hi
    grind
  have hd : (a ++ b ++ c ++ d).extractLsb' 0 8 = d := by
    ext i hi
    grind
  rw [wordBytes, ha, hb, hc, hd]

/-- The words have the bytes that they were made of. -/
theorem flatMap_byteWords (m : List (BitVec 8)) (h : m.length % 4 = 0) :
    (byteWords m).flatMap wordBytes = m := by
  induction m using byteWords.induct with
  | case1 a b c d bytes ih =>
      rw [List.length_cons, List.length_cons, List.length_cons, List.length_cons] at h
      rw [byteWords, List.flatMap_cons, wordBytes_append, ih (by omega)]
      rfl
  | case2 m hm =>
      match m, h, hm with
      | [], _, _ => rfl
      | [_], h, _ => exact absurd h (show ¬1 % 4 = 0 by decide)
      | [_, _], h, _ => exact absurd h (show ¬2 % 4 = 0 by decide)
      | [_, _, _], h, _ => exact absurd h (show ¬3 % 4 = 0 by decide)
      | a :: b :: c :: d :: bytes, _, hm => exact absurd rfl (hm a b c d bytes)

/-- Blocks of sixteen words. -/
theorem chainingWindow_eq (ws : List Word) (i : Nat) (h : 16 * i ≤ ws.length) :
    chainingWindow ws i = chaining (wordsBits ws) i := by
  induction i with
  | zero => rfl
  | succ i ih =>
      rw [chainingWindow, chaining, compressWindow_eq, ih (by omega), compress_words _ h]

/-- **A hash, in a sliding window.** -/
theorem hashWindow_eq (m : List (BitVec 8)) : hash (bytesBits m) = hashWindow m := by
  have hlen : (padBytes m).length % 4 = 0 := by
    rw [padBytes_length]
    omega
  have hwords : bytesBits (padBytes m) = wordsBits (byteWords (padBytes m)) := by
    rw [← bytesBits_words, flatMap_byteWords _ hlen]
  have hblocks : 32 * (byteWords (padBytes m)).length / 512 = (byteWords (padBytes m)).length / 16 := by
    omega
  rw [hash, padMessage_bytes, hwords, wordsBits_length, hblocks, hashWindow,
    chainingWindow_eq _ _ (by omega)]

/-- A hash of eight words fills one block. -/
theorem hashVars_eq (v : Vars) : hash v.bits = hashVars v := by
  have hlen : v.words.length ≤ 13 := show 8 ≤ 13 by decide
  rw [bits_words, hash_one_block hlen, hashVars, compressWindow_eq]

end Sha256

namespace BlockHeader

open Sha256

/-- **The hash of bytes.** -/
theorem Hash_eq_window (bytes : List (BitVec 8)) : Hash bytes = ofDigest (hashVars (hashWindow bytes)) := by
  rw [Hash, hashWindow_eq, hashVars_eq]

end BlockHeader
