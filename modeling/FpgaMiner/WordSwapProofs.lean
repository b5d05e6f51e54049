import FpgaMiner.GetworkProofs
import FpgaMiner.ListGroupsProofs

/-! # The word swap

    A string of hex digits is read as pairs of characters, one for each byte, and
    the swap reverses every group of four pairs.

    * **`word_swap_exact`** — of a string of whole words the swap keeps the length,
      reverses the bytes of every word of what is decoded, and is its own inverse;
    * **`staysInside_iff`** — of any other string the last turn swaps characters that
      the string does not have. -/

namespace Getwork

open ListGroups MinerDriver

/-- And none becomes a terminator. -/
theorem flipChunks_ne_zero {s : List Byte} (h : ∀ c ∈ s, c ≠ 0#8) :
    ∀ c ∈ flipChunks s, c ≠ 0#8 := by
  induction s using flipChunks.induct with
  | case1 c0 c1 c2 c3 c4 c5 c6 c7 s ih =>
      simp only [List.forall_mem_cons] at h
      obtain ⟨h0, h1, h2, h3, h4, h5, h6, h7, hs⟩ := h
      simp only [flipChunks, List.forall_mem_cons]
      exact ⟨h6, h7, h4, h5, h2, h3, h0, h1, ih hs⟩
  | case2 s hs =>
      rw [flipChunks.eq_2 s hs]
      exact h

/-- No digit is lost. -/
theorem length_flipChunks (s : List Byte) : (flipChunks s).length = s.length := by
  induction s using flipChunks.induct with
  | case1 c0 c1 c2 c3 c4 c5 c6 c7 s ih => simp only [flipChunks, List.length_cons, ih]
  | case2 s hs => rw [flipChunks.eq_2 s hs]

/-- Flipping twice changes nothing. -/
theorem flipChunks_flipChunks (s : List Byte) : flipChunks (flipChunks s) = s := by
  induction s using flipChunks.induct with
  | case1 c0 c1 c2 c3 c4 c5 c6 c7 s ih =>
      show c0 :: c1 :: c2 :: c3 :: c4 :: c5 :: c6 :: c7 :: flipChunks (flipChunks s) = _
      rw [ih]
  | case2 s hs => rw [flipChunks.eq_2 s hs, flipChunks.eq_2 s hs]

/-- Of whole words, the swap reverses groups of four pairs. -/
theorem pairs_flipChunks {s : List Byte} (hdvd : 8 ∣ s.length) :
    pairs (flipChunks s) = reverseGroups (pairs s) := by
  induction s using flipChunks.induct with
  | case1 c0 c1 c2 c3 c4 c5 c6 c7 s ih =>
      have hs := ih ((Nat.dvd_add_left (Nat.dvd_refl 8)).mp hdvd)
      show (c6, c7) :: (c4, c5) :: (c2, c3) :: (c0, c1) :: pairs (flipChunks s) = _
      rw [hs]
      rfl
  | case2 s hs =>
      obtain rfl : s = [] := List.eq_nil_of_length_eq_zero
        (Nat.eq_zero_of_dvd_of_lt hdvd (rest_of_words hs))
      rfl

/-- The byte of a pair of digits. -/
def decodePair (p : Byte × Byte) : Byte := (nibbleFromChar p.1 <<< 4) ||| nibbleFromChar p.2

/-- The loop decodes pair after pair. -/
theorem decodeLoop_pairs {s : List Byte} (h : 2 ∣ s.length) (rest : List Byte) :
    decodeLoop (s.length / 2) (s ++ rest) = (pairs s).map decodePair := by
  induction s, h using pairs_induction with
  | nil => rfl
  | pair a b s _ ih =>
      have hlen : (a :: b :: s).length / 2 = s.length / 2 + 1 :=
        Nat.add_div_right s.length Nat.zero_lt_two
      rw [hlen]
      show decodePair (a, b) :: decodeLoop (s.length / 2) (s ++ rest) = _
      rw [ih]
      rfl

/-- The bytes of a string of even length, with the zero behind them. -/
theorem hexStringToBytes_pairs {s : List Byte} (hnul : ∀ c ∈ s, c ≠ 0#8) (h : 2 ∣ s.length) :
    hexStringToBytes (s ++ [0#8]) = (pairs s).map decodePair ++ [0#8] := by
  rw [hexStringToBytes, strlen_terminated hnul, decodeLoop_pairs h]

/-- **The word swap is exact**: of a string `s` of whole words it makes a string `t` of
    the same length in which the four pairs of every word stand in the opposite order,
    so do the four bytes of every decoded word, and of `t` it makes `s`. -/
theorem word_swap_exact (s : List Byte) (hnul : ∀ c ∈ s, c ≠ 0#8) (hdvd : 8 ∣ s.length) :
    ∃ t bytes, endian_flip_32_bit_chunks (s ++ [0#8]) = some (t ++ [0#8]) ∧
      t.length = s.length ∧ pairs t = reverseGroups (pairs s) ∧
      hexStringToBytes (s ++ [0#8]) = bytes ++ [0#8] ∧
      hexStringToBytes (t ++ [0#8]) = reverseGroups bytes ++ [0#8] ∧
      endian_flip_32_bit_chunks (t ++ [0#8]) = some (s ++ [0#8]) := by
  have hlen := length_flipChunks s
  have hnul' := flipChunks_ne_zero hnul
  have heven : 2 ∣ s.length := Nat.dvd_trans (by decide) hdvd
  refine ⟨flipChunks s, (pairs s).map decodePair, endian_flip_spec hnul hdvd, hlen,
    pairs_flipChunks hdvd, hexStringToBytes_pairs hnul heven, ?_, ?_⟩
  · rw [hexStringToBytes_pairs hnul' (hlen.symm ▸ heven), pairs_flipChunks hdvd, map_reverseGroups]
  · rw [endian_flip_spec hnul' (hlen.symm ▸ hdvd), flipChunks_flipChunks]

/-- The string of the test in the source. -/
def testThing : List Byte := "0123456701234567".toList.map chr

theorem word_swap_exact_test :
    ∃ t bytes, endian_flip_32_bit_chunks (testThing ++ [0#8]) = some (t ++ [0#8]) ∧
      hexStringToBytes (testThing ++ [0#8]) = bytes ++ [0#8] ∧
      hexStringToBytes (t ++ [0#8]) = reverseGroups bytes ++ [0#8] := by
  obtain ⟨t, bytes, hflip, -, -, hs, ht, -⟩ := word_swap_exact testThing (by decide) (by decide)
  exact ⟨t, bytes, hflip, hs, ht⟩

/-! ## The last turn -/

/-- The swap of the string `s` in a buffer of its size ends, swaps only characters of
    `s` and leaves a string of the same length. -/
def StaysInside (s : List Byte) : Prop :=
  ∃ touched t, Flips (s ++ [0#8]) 0 touched (t ++ [0#8]) ∧
    endian_flip_32_bit_chunks (s ++ [0#8]) = some (t ++ [0#8]) ∧
    (∀ a ∈ touched, a < s.length) ∧ t.length = s.length ∧ ∀ c ∈ t, c ≠ 0#8

/-- A loop that swaps characters of the string only meets whole words only. -/
theorem dvd_of_flips (s : List Byte) :
    ∀ (pre : List Byte) (touched : List Nat) (output : List Byte), (∀ c ∈ pre ++ s, c ≠ 0#8) →
      Flips (pre ++ (s ++ [0#8])) pre.length touched output →
      (∀ a ∈ touched, a < pre.length + s.length) → 8 ∣ s.length := by
  induction s using flipChunks.induct with
  | case1 c0 c1 c2 c3 c4 c5 c6 c7 s ih =>
      intro pre touched output hnul hflips hinside
      cases hflips with
      | exit hle =>
          rw [← List.append_assoc, strlen_terminated hnul, List.length_append,
            List.length_cons] at hle
          omega
      | turn hlt hgroup hflips =>
          obtain rfl := Option.some.inj ((flipGroup_at pre (s ++ [0#8]) c0 c1 c2 c3 c4 c5 c6
            c7).symm.trans hgroup)
          have hs := ih (pre ++ [c6, c7, c4, c5, c2, c3, c0, c1]) _ output (ne_zero_turn hnul)
            (by rwa [List.append_assoc, List.length_append])
            (by
              intro a ha
              have := hinside a (List.mem_append_right _ ha)
              simp only [List.length_append, List.length_cons, List.length_nil] at this ⊢
              omega)
          exact (Nat.dvd_add_left (Nat.dvd_refl 8)).mpr hs
  | case2 s hs =>
      intro pre touched output hnul hflips hinside
      have hshort := rest_of_words hs
      cases hflips with
      | exit hle =>
          rw [← List.append_assoc, strlen_terminated hnul, List.length_append] at hle
          exact (show s.length = 0 by omega) ▸ Nat.dvd_zero 8
      | turn hlt hgroup hflips =>
          -- the turn swaps an eighth character
          have h7 := hinside (pre.length + 7) (List.mem_append_left _ (by simp [turnIndices]))
          omega

/-- A string that stays inside is in whole words. -/
theorem dvd_of_staysInside {s : List Byte} (hnul : ∀ c ∈ s, c ≠ 0#8) (h : StaysInside s) :
    8 ∣ s.length := by
  obtain ⟨touched, t, hflips, -, hinside, -⟩ := h
  exact dvd_of_flips s [] touched _ hnul hflips (by simpa using hinside)

/-- And one in whole words stays inside. -/
theorem staysInside_of_dvd {s : List Byte} (hnul : ∀ c ∈ s, c ≠ 0#8) (h : 8 ∣ s.length) :
    StaysInside s := by
  obtain ⟨touched, hflips, hinside⟩ := flips_words [] s [] hnul h
  refine ⟨touched, flipChunks s, hflips, hflips.endian_flip, ?_, length_flipChunks s,
    flipChunks_ne_zero hnul⟩
  simpa using hinside

/-- **The swap stays inside the string exactly when** it consists of whole words. -/
theorem staysInside_iff (s : List Byte) (hnul : ∀ c ∈ s, c ≠ 0#8) :
    StaysInside s ↔ 8 ∣ s.length :=
  ⟨dvd_of_staysInside hnul, staysInside_of_dvd hnul⟩

theorem staysInside_test : StaysInside testThing :=
  (staysInside_iff testThing (by decide)).mpr (by decide)

/-- A string of seven characters. -/
def sevenDigits : List Byte := "0123456".toList.map chr

/-- **Of seven characters the last turn swaps the terminator** to index 1. -/
theorem sevenDigits_cut :
    endian_flip_32_bit_chunks (sevenDigits ++ [0#8])
      = some ("6".toList.map chr ++ 0#8 :: "452301".toList.map chr) ∧
    ¬ StaysInside sevenDigits :=
  ⟨by decide, fun h => absurd (dvd_of_staysInside (by decide) h) (by decide)⟩

end Getwork
