import FpgaMiner.Sha256HashProofs

/-! # SHA-256 of bytes and words

    A message is mostly a string of bytes or of big-endian words.  Both are bit strings
    whose length is a multiple of 8, and the standard's padding of one is again a string
    of bytes: a byte 0x80, zeros, and eight bytes for the length.

    * **`padMessage_bytes`** and **`padMessage_words`** — the padding of either;
    * **`blockWord_words`** — the words of the blocks of a message that is given as words. -/

namespace Sha256

open DigitString

/-- The bits of a byte string. -/
def bytesBits (m : List (BitVec 8)) : List Bool := m.flatMap (fun b => natBits 8 b.toNat)

/-- The bits of a string of words. -/
def wordsBits (ws : List Word) : List Bool := ws.flatMap (fun w => natBits 32 w.toNat)

/-- The bytes of a word, highest first. -/
def wordBytes (w : Word) : List (BitVec 8) :=
  [w.extractLsb' 24 8, w.extractLsb' 16 8, w.extractLsb' 8 8, w.extractLsb' 0 8]

/-- The number of zero bytes of the padding. -/
def zeroBytes (l : Nat) : Nat := (55 + 64 - l % 64) % 64

/-- The length in bits of a message of `l` bytes, as eight bytes. -/
def lengthBytes (l : Nat) : List (BitVec 8) :=
  wordBytes (BitVec.ofNat 32 (8 * l / 2 ^ 32)) ++ wordBytes (BitVec.ofNat 32 (8 * l))

/-- The padded message. -/
def padBytes (m : List (BitVec 8)) : List (BitVec 8) :=
  m ++ 0x80#8 :: List.replicate (zeroBytes m.length) 0#8 ++ lengthBytes m.length

/-- The bits of two strings in turn. -/
theorem bytesBits_append (m n : List (BitVec 8)) :
    bytesBits (m ++ n) = bytesBits m ++ bytesBits n := List.flatMap_append

/-- Eight bits for each byte. -/
theorem bytesBits_length (m : List (BitVec 8)) : (bytesBits m).length = 8 * m.length := by
  induction m with
  | nil => rfl
  | cons b m ih =>
      show (natBits 8 b.toNat ++ bytesBits m).length = 8 * (m.length + 1)
      rw [List.length_append, natBits_length, ih]
      omega

/-- A word in four bytes. -/
theorem natBits_word (n : Nat) :
    natBits 32 n = natBits 8 (n / 2 ^ 24) ++ (natBits 8 (n / 2 ^ 16)
      ++ (natBits 8 (n / 2 ^ 8) ++ natBits 8 n)) :=
  calc natBits (8 + 24) n
      = natBits 8 (n / 2 ^ 24) ++ natBits (8 + 16) n := natBits_add 8 24 n
    _ = natBits 8 (n / 2 ^ 24) ++ (natBits 8 (n / 2 ^ 16) ++ natBits (8 + 8) n) := by
        rw [natBits_add 8 16]
    _ = _ := by rw [natBits_add 8 8]

/-- The bits of a word are those of its bytes. -/
theorem bytesBits_wordBytes (w : Word) : bytesBits (wordBytes w) = natBits 32 w.toNat := by
  have hbyte : ∀ k, natBits 8 (w.extractLsb' k 8).toNat = natBits 8 (w.toNat / 2 ^ k) := by
    intro k
    rw [BitVec.extractLsb'_toNat, Nat.shiftRight_eq_div_pow, natBits_mod]
  rw [bytesBits, wordBytes, List.flatMap_cons, List.flatMap_cons, List.flatMap_cons,
    List.flatMap_singleton, hbyte, hbyte, hbyte, hbyte, natBits_word, Nat.pow_zero, Nat.div_one]

/-- And so for a string of words. -/
theorem bytesBits_words (ws : List Word) : bytesBits (ws.flatMap wordBytes) = wordsBits ws := by
  rw [bytesBits, List.flatMap_assoc, wordsBits]
  exact congrArg (fun f => ws.flatMap f) (funext bytesBits_wordBytes)

/-- Zero bytes are zero bits. -/
theorem bytesBits_zeros (k : Nat) :
    bytesBits (List.replicate k 0#8) = List.replicate (8 * k) false := by
  induction k with
  | zero => rfl
  | succ k ih =>
      rw [List.replicate_succ, Nat.mul_succ, Nat.add_comm, ← List.replicate_append_replicate, ← ih]
      rfl

/-- The eight bytes of the length are its 64 bits. -/
theorem bytesBits_lengthBytes {l : Nat} : bytesBits (lengthBytes l) = natBits 64 (8 * l) := by
  have hhalves : natBits (32 + 32) (8 * l)
      = natBits 32 (8 * l / 2 ^ 32) ++ natBits 32 (8 * l) := natBits_add 32 32 _
  rw [lengthBytes, bytesBits_append, bytesBits_wordBytes, bytesBits_wordBytes, BitVec.toNat_ofNat,
    BitVec.toNat_ofNat, natBits_mod, natBits_mod, hhalves]

/-- **The padding of a byte string.** -/
theorem padMessage_bytes (m : List (BitVec 8)) :
    padMessage (bytesBits m) = bytesBits (padBytes m) := by
  have hzeros : zeroBits (8 * m.length) = 7 + 8 * zeroBytes m.length := by
    rw [zeroBits, zeroBytes]
    omega
  have hmark : true :: List.replicate (7 + 8 * zeroBytes m.length) false
      = natBits 8 (0x80#8).toNat ++ bytesBits (List.replicate (zeroBytes m.length) 0#8) := by
    rw [bytesBits_zeros, ← List.replicate_append_replicate]
    rfl
  rw [padMessage, bytesBits_length, hzeros, hmark, padBytes, bytesBits_append, bytesBits_append,
    bytesBits_lengthBytes]
  rfl

/-- The padded message fills its blocks. -/
theorem padBytes_length (m : List (BitVec 8)) :
    (padBytes m).length = 64 * (1 + (m.length + 8) / 64) := by
  rw [padBytes, List.length_append, List.length_append, List.length_cons, List.length_replicate,
    zeroBytes]
  show _ + 8 = _
  omega

/-! ## Words -/

/-- The bits of two strings of words in turn. -/
theorem wordsBits_append (us vs : List Word) :
    wordsBits (us ++ vs) = wordsBits us ++ wordsBits vs := List.flatMap_append

/-- Thirty-two bits for each word. -/
theorem wordsBits_length (ws : List Word) : (wordsBits ws).length = 32 * ws.length := by
  rw [← bytesBits_words, bytesBits_length]
  induction ws with
  | nil => rfl
  | cons w ws ih =>
      rw [List.flatMap_cons, List.length_append, Nat.mul_add, ih, List.length_cons]
      show 8 * 4 + _ = _
      omega

/-- **The words of a message that is given as words.** -/
theorem blockWord_words (ws : List Word) {i t : Nat} {w : Word} (h : ws[16 * i + t]? = some w) :
    blockWord (wordsBits ws) i t = w := by
  obtain ⟨u, v, rfl, hu⟩ : ∃ u v, ws = u ++ w :: v ∧ u.length = 16 * i + t := by
    obtain ⟨hlt, rfl⟩ := List.getElem?_eq_some_iff.mp h
    refine ⟨ws.take (16 * i + t), ws.drop (16 * i + t + 1), ?_, ?_⟩
    · rw [← List.drop_eq_getElem_cons hlt, List.take_append_drop]
    · rw [List.length_take]
      omega
  have hdrop : (wordsBits (u ++ w :: v)).drop (512 * i + 32 * t) = natBits 32 w.toNat ++ wordsBits v := by
    rw [wordsBits_append, show 512 * i + 32 * t = (wordsBits u).length by
      rw [wordsBits_length]; omega, List.drop_left]
    rfl
  rw [blockWord, hdrop, List.take_left' (natBits_length 32 _), bitWord_natBits, BitVec.ofNat_toNat,
    BitVec.setWidth_eq]

/-- The number of zero words of the padding. -/
def zeroWords (n : Nat) : Nat := (13 + 16 - n % 16) % 16

/-- The padding of a message of whole words. -/
def padWords (ws : List Word) : List Word :=
  ws ++ 0x80000000#32 :: List.replicate (zeroWords ws.length) 0#32
    ++ [BitVec.ofNat 32 (32 * ws.length / 2 ^ 32), BitVec.ofNat 32 (32 * ws.length)]

/-- Zero words are zero bits. -/
theorem wordsBits_zeros (k : Nat) :
    wordsBits (List.replicate k 0#32) = List.replicate (32 * k) false := by
  induction k with
  | zero => rfl
  | succ k ih =>
      rw [List.replicate_succ, Nat.mul_succ, Nat.add_comm, ← List.replicate_append_replicate, ← ih]
      rfl

/-- **The padding of a string of words.** -/
theorem padMessage_words (ws : List Word) : padMessage (wordsBits ws) = wordsBits (padWords ws) := by
  have hzeros : zeroBits (32 * ws.length) = 31 + 32 * zeroWords ws.length := by
    rw [zeroBits, zeroWords]
    omega
  have hmark : true :: List.replicate (31 + 32 * zeroWords ws.length) false
      = natBits 32 (0x80000000#32).toNat ++ wordsBits (List.replicate (zeroWords ws.length) 0#32) := by
    rw [wordsBits_zeros, ← List.replicate_append_replicate]
    rfl
  have hlength : natBits (32 + 32) (32 * ws.length)
      = wordsBits [BitVec.ofNat 32 (32 * ws.length / 2 ^ 32), BitVec.ofNat 32 (32 * ws.length)] := by
    rw [natBits_add, wordsBits, List.flatMap_cons, List.flatMap_singleton, BitVec.toNat_ofNat,
      BitVec.toNat_ofNat, natBits_mod, natBits_mod]
  rw [padMessage, wordsBits_length, hzeros, hmark, padWords, wordsBits_append, wordsBits_append,
    ← hlength]
  rfl

/-- Four bytes for each word. -/
theorem wordBytes_length (ws : List Word) : (ws.flatMap wordBytes).length = 4 * ws.length := by
  induction ws with
  | nil => rfl
  | cons w ws ih =>
      rw [List.flatMap_cons, List.length_append, ih, List.length_cons]
      show 4 + _ = _
      omega

/-- Zero words are zero bytes. -/
theorem wordBytes_zeros (k : Nat) :
    (List.replicate k 0#32).flatMap wordBytes = List.replicate (4 * k) 0#8 := by
  induction k with
  | zero => rfl
  | succ k ih =>
      rw [List.replicate_succ, Nat.mul_succ, Nat.add_comm, ← List.replicate_append_replicate, ← ih]
      rfl

/-- The padding of the bytes of a string of words. -/
theorem padBytes_words (ws : List Word) :
    padBytes (ws.flatMap wordBytes) = (padWords ws).flatMap wordBytes := by
  have hzeros : zeroBytes (4 * ws.length) = 3 + 4 * zeroWords ws.length := by
    rw [zeroBytes, zeroWords]
    omega
  have hlength : 8 * (4 * ws.length) = 32 * ws.length := by omega
  rw [padBytes, wordBytes_length, hzeros, lengthBytes, hlength, padWords, List.flatMap_append,
    List.flatMap_append, List.flatMap_cons, wordBytes_zeros, ← List.replicate_append_replicate]
  rfl

/-- The padded string of words fills its blocks. -/
theorem padWords_length (ws : List Word) :
    (padWords ws).length = 16 * (1 + (ws.length + 2) / 16) := by
  rw [padWords, List.length_append, List.length_append, List.length_cons, List.length_replicate,
    zeroWords]
  show _ + 2 = _
  omega

/-- The padding depends on the number of words only. -/
theorem padWords_set (ws : List Word) {i : Nat} (hi : i < ws.length) (w : Word) :
    padWords (ws.set i w) = (padWords ws).set i w := by
  rw [padWords, padWords, List.length_set, List.append_assoc, List.append_assoc,
    List.set_append_left _ _ hi]

/-- A block of a message that is given as words. -/
theorem compress_words (H : Vars) {ws : List Word} {i : Nat} (h : 16 * (i + 1) ≤ ws.length) :
    compress H (blockWord (wordsBits ws) i) = compress H (fun t => ws.getD (16 * i + t) 0) := by
  refine compress_congr H (fun t ht => ?_)
  have hlt : 16 * i + t < ws.length := by omega
  rw [blockWord_words ws (List.getElem?_eq_getElem hlt), List.getD_eq_getElem?_getD,
    List.getElem?_eq_getElem hlt, Option.getD_some]

/-- **The hash of a message whose padding fills one block.** -/
theorem hash_one_block {ws : List Word} (h : ws.length ≤ 13) :
    Sha256.hash (wordsBits ws) = compress initial (fun t => (padWords ws).getD t 0) := by
  have hlen : (padWords ws).length = 16 := by
    rw [padWords_length]
    omega
  rw [Sha256.hash, padMessage_words, wordsBits_length, hlen]
  show compress initial (blockWord _ 0) = _
  rw [compress_words initial (by omega)]
  simp only [Nat.mul_zero, Nat.zero_add]

/-- **The hash of a message whose padding fills two blocks.** -/
theorem hash_two_blocks {ws : List Word} (h : 13 < ws.length) (h' : ws.length ≤ 29) :
    Sha256.hash (wordsBits ws)
      = compress (compress initial (fun t => (padWords ws).getD t 0))
          (fun t => (padWords ws).getD (16 + t) 0) := by
  have hlen : (padWords ws).length = 32 := by
    rw [padWords_length]
    omega
  rw [Sha256.hash, padMessage_words, wordsBits_length, hlen]
  show compress (compress initial (blockWord _ 0)) (blockWord _ 1) = _
  rw [compress_words initial (by omega), compress_words _ (by omega)]
  simp only [Nat.mul_zero, Nat.zero_add, Nat.mul_one]

/-- The bits of a digest are those of its words. -/
theorem bits_words (v : Vars) : v.bits = wordsBits v.words := rfl

end Sha256
