import FpgaMiner.Sha256BytesProofs
import FpgaMiner.GetworkProofs

/-! # bitcoind's block header

    `CBlockHeader` is hashed as it lies in memory, eighty bytes of little-endian words,
    while SHA-256 reads big-endian ones; `ByteReverse` goes from one to the other.

    * **`ByteReverse_bytes`** — the little-endian bytes of a word are the big-endian ones
      of its reverse;
    * **`GetHash_eq`** — the hash of a header, from the two blocks of the padded header;
    * **`ofDigest_lt_240`** and **`ofDigest_lt_224`** — what the last word of a digest says
      of the number. -/

namespace BlockHeader

open Sha256 Getwork MinerDriver

/-- A `uint256`; its lowest byte is the first in memory. -/
abbrev Uint256 := BitVec 256

/-- The words of a `uint256` in memory. -/
def uint256Words (x : Uint256) : List Word := (List.range 8).map (fun k => x.extractLsb' (32 * k) 32)

/-- The bytes of a word in the opposite order, as `util.h` swaps them: within the halves, then
    the halves. -/
def ByteReverse (value : Word) : Word :=
  let value := ((value &&& 0xFF00FF00) >>> 8) ||| ((value &&& 0x00FF00FF) <<< 8)
  (value <<< 16) ||| (value >>> 16)

/-- The fields of a header, in the order of the memory. -/
structure CBlockHeader where
  nVersion : Word
  hashPrevBlock : Uint256
  hashMerkleRoot : Uint256
  nTime : Word
  nBits : Word
  nNonce : Word
  deriving DecidableEq

/-- The words of the memory from `BEGIN(nVersion)` to `END(nNonce)`. -/
def CBlockHeader.words (b : CBlockHeader) : List Word :=
  b.nVersion :: (uint256Words b.hashPrevBlock ++ uint256Words b.hashMerkleRoot)
    ++ [b.nTime, b.nBits, b.nNonce]

/-- Its bytes. -/
def CBlockHeader.bytes (b : CBlockHeader) : List Byte := b.words.flatMap littleEndian

/-- A digest in the memory of a `uint256`. -/
def ofDigest (v : Vars) : Uint256 :=
  ByteReverse v.h ++ ByteReverse v.g ++ ByteReverse v.f ++ ByteReverse v.e
    ++ ByteReverse v.d ++ ByteReverse v.c ++ ByteReverse v.b ++ ByteReverse v.a

/-- `Hash` of `hash.h`: SHA-256 twice.  The library function `SHA256` that it calls is not in
    the repository; it is taken to be the hash that FIPS 180-4 defines. -/
def Hash (bytes : List Byte) : Uint256 :=
  ofDigest (Sha256.hash (Sha256.hash (bytesBits bytes)).bits)

/-- The hash of the 80 bytes of a header. -/
def CBlockHeader.GetHash (b : CBlockHeader) : Uint256 := Hash b.bytes

/-! ## The order of bytes -/

/-- The four bytes in the other order. -/
theorem ByteReverse_eq (w : Word) :
    ByteReverse w
      = w.extractLsb' 0 8 ++ w.extractLsb' 8 8 ++ w.extractLsb' 16 8 ++ w.extractLsb' 24 8 := by
  apply BitVec.eq_of_getLsbD_eq
  intro i hi
  simp only [ByteReverse, BitVec.getLsbD_or, BitVec.getLsbD_shiftLeft, BitVec.getLsbD_ushiftRight,
    BitVec.getLsbD_and, BitVec.getLsbD_append, BitVec.getLsbD_extractLsb']
  interval_cases i <;> simp

/-- Byte `k` of a reversed word. -/
theorem ByteReverse_byte (w : Word) {k : Nat} (hk : k < 4) :
    (ByteReverse w).extractLsb' (8 * k) 8 = w.extractLsb' (24 - 8 * k) 8 := by
  rw [ByteReverse_eq]
  match k, hk with
  | 0, _ => exact BitVec.extractLsb'_append_eq_right
  | 1, _ =>
      rw [BitVec.extractLsb'_append_eq_of_le (by decide)]
      exact BitVec.extractLsb'_append_eq_right
  | 2, _ =>
      iterate 2 rw [BitVec.extractLsb'_append_eq_of_le (by decide)]
      exact BitVec.extractLsb'_append_eq_right
  | 3, _ =>
      iterate 2 rw [BitVec.extractLsb'_append_eq_of_le (by decide)]
      exact BitVec.extractLsb'_append_eq_left

/-- **The big-endian bytes of a reversed word are its little-endian bytes.** -/
theorem wordBytes_ByteReverse (w : Word) : wordBytes (ByteReverse w) = littleEndian w := by
  have h := @ByteReverse_byte w
  rw [wordBytes, littleEndian, h (k := 3) (by decide), h (k := 2) (by decide),
    h (k := 1) (by decide), h (k := 0) (by decide)]

/-- Twice reversed is not reversed. -/
theorem ByteReverse_ByteReverse (w : Word) : ByteReverse (ByteReverse w) = w := by
  refine BitSlice.eq_of_slices (w := 8) (by decide) (fun k hk => ?_)
  rw [ByteReverse_byte _ (by omega), show 24 - 8 * k = 8 * (3 - k) by omega,
    ByteReverse_byte _ (by omega), show 24 - 8 * (3 - k) = 8 * k by omega]

/-- Memory as a message: the words are read big-endian. -/
theorem bytesBits_littleEndian (ws : List Word) :
    bytesBits (ws.flatMap littleEndian) = wordsBits (ws.map ByteReverse) := by
  rw [← bytesBits_words, List.flatMap_map]
  exact congrArg (fun f => bytesBits (ws.flatMap f)) (funext fun w => (wordBytes_ByteReverse w).symm)

/-! ## The hash of a header -/

/-- The words of a header as SHA-256 reads them. -/
def CBlockHeader.message (b : CBlockHeader) : List Word := b.words.map ByteReverse

/-- Eight words in a hash. -/
theorem uint256Words_length (x : Uint256) : (uint256Words x).length = 8 := by
  rw [uint256Words, List.length_map, List.length_range]

/-- Twenty words in a header. -/
theorem words_length (b : CBlockHeader) : b.words.length = 20 := by
  rw [CBlockHeader.words, List.length_append, List.length_cons, List.length_append,
    uint256Words_length, uint256Words_length]
  rfl

/-- And in its message. -/
theorem message_length (b : CBlockHeader) : b.message.length = 20 := by
  rw [CBlockHeader.message, List.length_map, words_length]

/-- The chaining value after the first block of the header. -/
def CBlockHeader.midstate (b : CBlockHeader) : Vars :=
  compress initial (fun t => (padWords b.message).getD t 0)

/-- **The hash of a header, from the two blocks of the padded header.** -/
theorem GetHash_eq (b : CBlockHeader) :
    b.GetHash = ofDigest (compress initial (fun t => (padWords
      (compress b.midstate (fun t => (padWords b.message).getD (16 + t) 0)).words).getD t 0)) := by
  have hfirst : Sha256.hash (bytesBits b.bytes)
      = compress b.midstate (fun t => (padWords b.message).getD (16 + t) 0) := by
    rw [CBlockHeader.bytes, bytesBits_littleEndian]
    exact hash_two_blocks (by rw [List.length_map, words_length]; decide)
      (by rw [List.length_map, words_length]; decide)
  rw [CBlockHeader.GetHash, Hash, hfirst, bits_words, hash_one_block]
  exact Nat.le_of_ble_eq_true rfl

/-! ## The highest bits of a hash -/

/-- A number is small when its top bits are zero. -/
theorem lt_iff_top {x : Uint256} {k : Nat} (hk : k ≤ 256) :
    x.toNat < 2 ^ k ↔ x.extractLsb' k (256 - k) = 0 := by
  rw [← BitVec.toNat_inj, BitVec.extractLsb'_toNat, Nat.shiftRight_eq_div_pow]
  have hlt : x.toNat / 2 ^ k < 2 ^ (256 - k) := by
    rw [Nat.div_lt_iff_lt_mul (Nat.two_pow_pos k), ← Nat.pow_add, Nat.sub_add_cancel hk]
    exact x.isLt
  rw [Nat.mod_eq_of_lt hlt]
  exact (Nat.div_eq_zero_iff_lt (Nat.two_pow_pos k)).symm

/-- The last word of a digest is the highest one of the number, reversed. -/
theorem ofDigest_top (v : Vars) : (ofDigest v).extractLsb' 224 32 = ByteReverse v.h := by
  rw [ofDigest]
  iterate 6 rw [BitVec.extractLsb'_append_eq_of_le (by decide)]
  exact BitVec.extractLsb'_append_eq_left

/-- **A hash with 32 zero bits at the top.** -/
theorem ofDigest_lt_224 (v : Vars) : (ofDigest v).toNat < 2 ^ 224 ↔ v.h = 0 := by
  rw [lt_iff_top (by decide)]
  show (ofDigest v).extractLsb' 224 32 = 0 ↔ _
  rw [ofDigest_top]
  constructor
  · intro h
    rw [← ByteReverse_ByteReverse v.h, h]
    rfl
  · intro h
    rw [h]
    rfl

/-- A half of a word is zero if the other half of the reversed word is. -/
theorem half_eq_zero {w : Word} {s : Nat} (hs : s = 0 ∨ s = 16)
    (h : (ByteReverse w).extractLsb' (16 - s) 16 = 0) : w.extractLsb' s 16 = 0 := by
  refine BitSlice.eq_of_slices (w := 8) (by decide) (fun k hk => ?_)
  have hbyte : w.extractLsb' (s + 8 * k) 8 = (ByteReverse w).extractLsb' (8 * (3 - (s / 8 + k))) 8 := by
    rw [ByteReverse_byte _ (by omega)]
    congr 1
    omega
  have hslice : 8 * (3 - (s / 8 + k)) = 16 - s + 8 * (1 - k) := by omega
  rw [BitSlice.extract_extract _ (by omega), hbyte, hslice,
    ← BitSlice.extract_extract (l := 16) _ (by omega), h]
  exact BitVec.extractLsb'_zero.trans BitVec.extractLsb'_zero.symm

/-- **A hash with 16 zero bits at the top.** -/
theorem ofDigest_lt_240 (v : Vars) : (ofDigest v).toNat < 2 ^ 240 ↔ v.h.extractLsb' 0 16 = 0 := by
  have htop : (ofDigest v).extractLsb' 240 16 = (ByteReverse v.h).extractLsb' 16 16 := by
    rw [← ofDigest_top, BitSlice.extract_extract _ (by decide)]
  rw [lt_iff_top (by decide)]
  show (ofDigest v).extractLsb' 240 16 = 0 ↔ _
  rw [htop]
  constructor
  · intro h
    exact half_eq_zero (s := 0) (Or.inl rfl) h
  · intro h
    refine half_eq_zero (s := 16) (Or.inr rfl) ?_
    rw [ByteReverse_ByteReverse]
    exact h

end BlockHeader
