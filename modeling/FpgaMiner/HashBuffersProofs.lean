import FpgaMiner.BlockHeaderProofs
import FpgaMiner.CBufferProofs

/-! # The hash buffers of bitcoind

    `FormatHashBlocks` pads a message in place, `FormatHashBuffers` lays out a header for
    a miner, and `SHA256Transform` is the compression function on little-endian words.

    * **`FormatHashBlocks_iff`** — the padding is the standard's exactly for messages
      whose length in bits is below 2^32;
    * **`FormatHashBuffers_hash`** — the buffers hash to the header they were made from,
      also after a miner has written another time, difficulty or nonce into them. -/

namespace HashBuffers

open Sha256 Getwork MinerDriver BlockHeader CBuffer

variable {n : Nat}

/-! ## The padding in place -/

/-- `pend[-1] = bits & 0xff` to `pend[-4] = (bits >> 24) & 0xff` -/
def storeBits (b : Buffer Byte n) (pend : Int) (bits : BitVec 32) : Option (Buffer Byte n) := do
  let b ← b.store (pend - 1) (bits.extractLsb' 0 8)
  let b ← b.store (pend - 2) (bits.extractLsb' 8 8)
  let b ← b.store (pend - 3) (bits.extractLsb' 16 8)
  b.store (pend - 4) (bits.extractLsb' 24 8)

/-- `FormatHashBlocks`, on a pointer into a larger buffer: zeros, the byte 0x80 and the length
    in bits as 32 bits hold it.  The result is the number of blocks. -/
def FormatHashBlocks (b : Buffer Byte n) (pbuffer : Int) (len : BitVec 32) :
    Option (BitVec 32 × Buffer Byte n) := do
  let blocks : BitVec 32 := 1 + ((len + 8) / 64)
  let pend : Int := pbuffer + (64 * blocks).toNat
  let b ← b.memcpy (pbuffer + len.toNat) (List.replicate (64 * blocks - len).toNat 0#8)
  let b ← b.store (pbuffer + len.toNat) 0x80#8
  let bits : BitVec 32 := len * 8
  let b ← storeBits b pend bits
  return (blocks, b)

/-- The four stores write the bytes of a word. -/
theorem storeBits_at {b : Buffer Byte n} {l r : List Byte} {x y z w : Byte}
    (h : b.bytes = l ++ (x :: y :: z :: w :: r)) {pend : Int} (hp : pend = l.length + 4)
    (bits : BitVec 32) :
    ∃ b', storeBits b pend bits = some b' ∧ b'.bytes = l ++ (wordBytes bits ++ r) := by
  have hlen : ∀ (x y z : Byte), ((l ++ [x, y, z]).length : Int) = l.length + 3
      ∧ ((l ++ [x, y]).length : Int) = l.length + 2 ∧ ((l ++ [x]).length : Int) = l.length + 1 := by
    intro x y z
    refine ⟨?_, ?_, ?_⟩ <;> rw [List.length_append] <;> rfl
  obtain ⟨b₁, h₁, e₁⟩ := store_at (l := l ++ [x, y, z]) (a := w) (r := r)
    (by rw [h, List.append_assoc]; rfl) (i := pend - 1) (by rw [hp, (hlen x y z).1]; omega)
    (bits.extractLsb' 0 8)
  obtain ⟨b₂, h₂, e₂⟩ := store_at (b := b₁) (l := l ++ [x, y]) (a := z)
    (by rw [e₁, List.append_assoc, List.append_assoc]; rfl) (i := pend - 2)
    (by rw [hp, (hlen x y z).2.1]; omega) (bits.extractLsb' 8 8)
  obtain ⟨b₃, h₃, e₃⟩ := store_at (b := b₂) (l := l ++ [x]) (a := y)
    (by rw [e₂, List.append_assoc, List.append_assoc]; rfl) (i := pend - 3)
    (by rw [hp, (hlen x y z).2.2]; omega) (bits.extractLsb' 16 8)
  obtain ⟨b₄, h₄, e₄⟩ := store_at (b := b₃) (l := l) (a := x)
    (by rw [e₃, List.append_assoc]; rfl) (i := pend - 4) (by rw [hp]; omega)
    (bits.extractLsb' 24 8)
  refine ⟨b₄, ?_, e₄⟩
  rw [storeBits, h₁]
  show (b₁.store (pend - 2) _).bind _ = _
  rw [h₂]
  show (b₂.store (pend - 3) _).bind _ = _
  rw [h₃]
  exact h₄

section Length

variable {k : Nat}

/-- The number of blocks, when `len + 8` does not overflow. -/
theorem blocks_eq (h : k < 2 ^ 32 - 8) :
    1 + ((BitVec.ofNat 32 k + 8) / 64) = BitVec.ofNat 32 (1 + (k + 8) / 64) := by
  apply BitVec.eq_of_toNat_eq
  rw [BitVec.toNat_add, BitVec.toNat_udiv, BitVec.toNat_add, BitVec.toNat_ofNat, BitVec.toNat_ofNat]
  show (1 + (k % 2 ^ 32 + 8) % 2 ^ 32 / 64) % 2 ^ 32 = _
  rw [Nat.mod_eq_of_lt (a := k) (by omega), Nat.mod_eq_of_lt (a := k + 8) (by omega)]

/-- The number of blocks otherwise. -/
theorem blocks_wrapped (h : 2 ^ 32 - 8 ≤ k) (hk : k < 2 ^ 32) :
    1 + ((BitVec.ofNat 32 k + 8) / 64) = 1 := by
  apply BitVec.eq_of_toNat_eq
  rw [BitVec.toNat_add, BitVec.toNat_udiv, BitVec.toNat_add, BitVec.toNat_ofNat]
  show (1 + (k % 2 ^ 32 + 8) % 2 ^ 32 / 64) % 2 ^ 32 = 1
  omega

/-- The number of bytes that are cleared, also when `64 * blocks` overflows. -/
theorem cleared_eq (_hk : k < 2 ^ 32) :
    (64 * BitVec.ofNat 32 (1 + (k + 8) / 64) - BitVec.ofNat 32 k).toNat
      = 64 * (1 + (k + 8) / 64) - k := by
  rw [BitVec.toNat_sub, BitVec.toNat_mul, BitVec.toNat_ofNat, BitVec.toNat_ofNat]
  show (2 ^ 32 - k % 2 ^ 32 + 64 * ((1 + (k + 8) / 64) % 2 ^ 32) % 2 ^ 32) % 2 ^ 32 = _
  omega

/-- The end of the padding, as the code computes it. -/
theorem end_eq (k : Nat) :
    (64 * BitVec.ofNat 32 (1 + (k + 8) / 64)).toNat = 64 * (1 + (k + 8) / 64) % 2 ^ 32 := by
  rw [BitVec.toNat_mul, BitVec.toNat_ofNat]
  show 64 * ((1 + (k + 8) / 64) % 2 ^ 32) % 2 ^ 32 = _
  rw [Nat.mul_mod_mod]

theorem bits_eq (k : Nat) : BitVec.ofNat 32 k * 8 = BitVec.ofNat 32 (8 * k) := by
  apply BitVec.eq_of_toNat_eq
  rw [BitVec.toNat_mul, BitVec.toNat_ofNat, BitVec.toNat_ofNat]
  show k % 2 ^ 32 * 8 % 2 ^ 32 = _
  rw [Nat.mod_mul_mod, Nat.mul_comm]

end Length

/-- `FormatHashBlocks` with its 32-bit values as numbers. -/
theorem FormatHashBlocks_eq (b : Buffer Byte n) (i : Int) {k : Nat} (h : k < 2 ^ 32 - 8) :
    FormatHashBlocks b i (BitVec.ofNat 32 k)
      = (b.memcpy (i + k) (List.replicate (64 * (1 + (k + 8) / 64) - k) 0#8)).bind fun b =>
          (b.store (i + k) 0x80#8).bind fun b =>
            (storeBits b (i + (64 * (1 + (k + 8) / 64) % 2 ^ 32 : Nat)) (BitVec.ofNat 32 (8 * k))).bind
              fun b => some (BitVec.ofNat 32 (1 + (k + 8) / 64), b) := by
  have hlen : (BitVec.ofNat 32 k).toNat = k := by
    rw [BitVec.toNat_ofNat]
    omega
  simp only [FormatHashBlocks, blocks_eq h, cleared_eq (Nat.lt_of_lt_of_le h (by decide)), hlen,
    end_eq, bits_eq]
  rfl

/-- The padding as the code writes it: the mark, zeros and the length in four bytes. -/
theorem padBytes_short {m : List Byte} (h : m.length < 2 ^ 29) {k : Nat}
    (hk : 64 * (1 + (m.length + 8) / 64) - m.length = k + 5) :
    padBytes m = m ++ (0x80#8 :: (List.replicate k 0#8
      ++ wordBytes (BitVec.ofNat 32 (8 * m.length)))) := by
  have hhigh : 8 * m.length / 2 ^ 32 = 0 := Nat.div_eq_of_lt (by omega)
  have hzeros : k = zeroBytes m.length + 4 := by
    rw [zeroBytes]
    omega
  rw [padBytes, lengthBytes, hhigh, hzeros, ← List.replicate_append_replicate, List.append_assoc,
    List.cons_append, List.append_assoc]
  rfl

/-- A message below 2^29 bytes is padded as the standard pads it. -/
theorem FormatHashBlocks_pads {b : Buffer Byte n} {l m r s : List Byte}
    (hb : b.bytes = l ++ (m ++ (r ++ s))) (hlen : m.length < 2 ^ 29)
    (hroom : m.length + r.length = 64 * (1 + (m.length + 8) / 64)) {i : Int}
    (hi : i = l.length) :
    ∃ b', FormatHashBlocks b i (BitVec.ofNat 32 m.length)
        = some (BitVec.ofNat 32 (1 + (m.length + 8) / 64), b')
      ∧ b'.bytes = l ++ (padBytes m ++ s) := by
  obtain ⟨k, hk⟩ : ∃ k, 64 * (1 + (m.length + 8) / 64) - m.length = k + 5 :=
    ⟨64 * (1 + (m.length + 8) / 64) - m.length - 5, by omega⟩
  have hstart : i + m.length = ((l ++ m).length : Int) := by
    rw [hi, List.length_append]
    rfl
  have hzeros : List.replicate (k + 5) 0#8
      = 0#8 :: (List.replicate k 0#8 ++ [0#8, 0#8, 0#8, 0#8]) := by
    rw [List.replicate_succ, ← List.replicate_append_replicate]
    rfl
  obtain ⟨b₁, h₁, e₁⟩ := memcpy_at (by rw [hb, List.append_assoc]) hstart
    (show r.length = (List.replicate (k + 5) 0#8).length by rw [List.length_replicate]; omega)
  rw [hzeros] at e₁
  obtain ⟨b₂, h₂, e₂⟩ := store_at e₁ hstart 0x80#8
  have hend : i + (64 * (1 + (m.length + 8) / 64) % 2 ^ 32 : Nat)
      = ((l ++ (m ++ 0x80#8 :: List.replicate k 0#8)).length : Int) + 4 := by
    rw [hi, List.length_append, List.length_append, List.length_cons, List.length_replicate]
    omega
  obtain ⟨b₃, h₃, e₃⟩ := storeBits_at (b := b₂) (r := s)
    (by simp only [e₂, List.append_assoc, List.cons_append, List.nil_append, List.append_eq]; rfl) hend
    (BitVec.ofNat 32 (8 * m.length))
  refine ⟨b₃, ?_, ?_⟩
  · rw [FormatHashBlocks_eq _ _ (by omega), hk, h₁, Option.bind_some, h₂, Option.bind_some, h₃]
    rfl
  · simp only [e₃, padBytes_short hlen hk, List.append_assoc, List.cons_append]

/-- A store leaves the other positions as they are. -/
theorem store_other {b b' : Buffer Byte n} {i : Int} {a : Byte} (h : b.store i a = some b') {j : Nat}
    (hj : (j : Int) ≠ i) : b'.bytes[j]? = b.bytes[j]? := by
  rw [Buffer.store] at h
  split at h
  next hi =>
    obtain rfl := Option.some.inj h
    exact List.getElem?_set_ne (by omega)
  next => cases h

/-- The bytes of the length leave the other positions as they are. -/
theorem storeBits_other {b b' : Buffer Byte n} {pend : Int} {bits : BitVec 32}
    (h : storeBits b pend bits = some b') {j : Nat} (hj : (j : Int) < pend - 4 ∨ pend ≤ j) :
    b'.bytes[j]? = b.bytes[j]? := by
  simp only [storeBits, Option.bind_eq_bind, Option.bind_eq_some_iff] at h
  obtain ⟨b₁, h₁, b₂, h₂, b₃, h₃, h₄⟩ := h
  rw [store_other h₄ (by omega), store_other h₃ (by omega), store_other h₂ (by omega),
    store_other h₁ (by omega)]

/-- Position 5 before the end of the padding is cleared and not written again, whatever
    the length. -/
theorem fifth_byte {b b' : Buffer Byte n} {i : Nat} {k : Nat} (hk : k < 2 ^ 32 - 8)
    {blocks : BitVec 32} (h : FormatHashBlocks b i (BitVec.ofNat 32 k) = some (blocks, b')) :
    b'.bytes[i + 64 * (1 + (k + 8) / 64) - 5]? = some 0#8 := by
  rw [FormatHashBlocks_eq _ _ hk] at h
  simp only [Option.bind_eq_some_iff] at h
  obtain ⟨b₁, h₁, b₂, h₂, b₃, h₃, h₄⟩ := h
  obtain ⟨-, rfl⟩ := Prod.mk.inj (Option.some.inj h₄)
  rw [storeBits_other h₃ (by omega), store_other h₂ (by omega)]
  rw [Buffer.memcpy] at h₁
  split at h₁
  next hi =>
    have hsize := b.size
    obtain rfl := Option.some.inj h₁
    rw [List.length_replicate] at hi
    show (_ ++ (_ ++ _))[_]? = _
    have htake : (b.bytes.take ((i : Int) + k).toNat).length = i + k := by
      rw [List.length_take]
      omega
    rw [List.getElem?_append_right (by omega), htake,
      List.getElem?_append_left (by rw [List.length_replicate]; omega), List.getElem?_replicate,
      if_pos (by omega)]
  next => cases h₁

/-- The byte the standard has there. -/
theorem padBytes_fifth (m : List Byte) :
    (padBytes m)[(padBytes m).length - 5]?
      = some ((BitVec.ofNat 32 (8 * m.length / 2 ^ 32)).extractLsb' 0 8) := by
  have hlen : (padBytes m).length = (m ++ 0x80#8 :: List.replicate (zeroBytes m.length) 0#8).length + 8 := by
    rw [padBytes, List.length_append]
    rfl
  rw [hlen, padBytes, List.getElem?_append_right (by omega), Nat.add_sub_assoc (by decide),
    Nat.add_sub_cancel_left]
  rfl

/-- **The padding is the standard's exactly for messages below 2^29 bytes**; in bytes the
    standard's padding is `padBytes`. -/
theorem FormatHashBlocks_iff {b : Buffer Byte n} {l m r s : List Byte}
    (hb : b.bytes = l ++ (m ++ (r ++ s))) (hlen : m.length < 2 ^ 32)
    (hroom : m.length + r.length = 64 * (1 + (m.length + 8) / 64)) :
    padMessage (bytesBits m) = bytesBits (padBytes m)
    ∧ ((∃ b', FormatHashBlocks b l.length (BitVec.ofNat 32 m.length)
        = some (BitVec.ofNat 32 (1 + (m.length + 8) / 64), b')
      ∧ b'.bytes = l ++ (padBytes m ++ s)) ↔ m.length < 2 ^ 29) := by
  refine ⟨padMessage_bytes m, ?_⟩
  constructor
  · rintro ⟨b', h, e⟩
    refine Nat.lt_of_not_le (fun hlong => ?_)
    rcases Nat.lt_or_ge m.length (2 ^ 32 - 8) with hk | hk
    · have hzero := fifth_byte hk h
      have hpad := padBytes_length m
      rw [e, List.getElem?_append_right (by omega), List.getElem?_append_left (by omega),
        show l.length + 64 * (1 + (m.length + 8) / 64) - 5 - l.length = (padBytes m).length - 5
          by omega, padBytes_fifth] at hzero
      have hbyte := congrArg BitVec.toNat (Option.some.inj hzero)
      rw [BitVec.extractLsb'_toNat, BitVec.toNat_ofNat, Nat.shiftRight_zero] at hbyte
      change 8 * m.length / 2 ^ 32 % 2 ^ 32 % 2 ^ 8 = 0 at hbyte
      omega
    · simp only [FormatHashBlocks, blocks_wrapped hk hlen, Option.bind_eq_bind,
        Option.bind_eq_some_iff] at h
      obtain ⟨_, _, _, _, _, _, h⟩ := h
      have hblocks := congrArg BitVec.toNat (Prod.mk.inj (Option.some.inj h)).1
      rw [BitVec.toNat_ofNat] at hblocks
      change 1 = _ at hblocks
      omega
  · intro hshort
    exact FormatHashBlocks_pads hb hshort hroom rfl

/-- A message of three bytes between other bytes. -/
def threeBytes : Buffer Byte 66 :=
  ⟨[0xee] ++ ([0x61, 0x62, 0x63] ++ (List.replicate 61 0x55 ++ [0xff])), rfl⟩

theorem FormatHashBlocks_iff_threeBytes :
    padMessage (bytesBits [0x61, 0x62, 0x63]) = bytesBits (padBytes [0x61, 0x62, 0x63])
    ∧ ((∃ b', FormatHashBlocks threeBytes 1 3 = some (1, b')
      ∧ b'.bytes = [0xee] ++ (padBytes [0x61, 0x62, 0x63] ++ [0xff])) ↔ 3 < 2 ^ 29) :=
  FormatHashBlocks_iff (b := threeBytes) (l := [0xee]) (m := [0x61, 0x62, 0x63])
    (r := List.replicate 61 0x55) (s := [0xff]) rfl (by decide) rfl

/-! ## The layout of a header -/

/-- The words of a little-endian memory. -/
def memoryWords : List Byte → List Word
  | a :: b :: c :: d :: rest => (d ++ c ++ b ++ a) :: memoryWords rest
  | _ => []

/-- `((unsigned int*)&tmp)[i] = ByteReverse(((unsigned int*)&tmp)[i])` -/
def swapWord (b : Buffer Byte n) (i : Nat) : Option (Buffer Byte n) := do
  let word ← b.slice (4 * i) 4
  let value ← (memoryWords word)[0]?
  b.memcpy (4 * i) (littleEndian (ByteReverse value))

/-- A `struct` of 240 bytes: `block`, `pchPadding0`, `hash1` and `pchPadding1`. -/
abbrev Tmp := Buffer Byte 240

/-- The offset of `hash1`. -/
def hash1 : Nat := 144

/-- The assignments to the fields of `tmp.block`. -/
def setBlock (tmp : Tmp) (pblock : CBlockHeader) : Option Tmp := do
  let tmp ← tmp.memcpy 0 (littleEndian pblock.nVersion)
  let tmp ← tmp.memcpy 4 ((uint256Words pblock.hashPrevBlock).flatMap littleEndian)
  let tmp ← tmp.memcpy 36 ((uint256Words pblock.hashMerkleRoot).flatMap littleEndian)
  let tmp ← tmp.memcpy 68 (littleEndian pblock.nTime)
  let tmp ← tmp.memcpy 72 (littleEndian pblock.nBits)
  tmp.memcpy 76 (littleEndian pblock.nNonce)

/-- `SHA256_Update` of a fresh context with a whole block: the bytes are read as
    big-endian words.  It belongs to the same library as `SHA256`, and is taken to be the
    compression of FIPS 180-4. -/
def SHA256_Update (h : Vars) (data : List Byte) : Vars :=
  compress h (blockWord (bytesBits data) 0)

/-- The words `SHA256Transform` stores in `pstate`. -/
def SHA256Transform (pinput : List Word) (pinit : Vars) : Vars :=
  SHA256_Update pinit ((pinput.take 16).flatMap (fun w => littleEndian (ByteReverse w)))

/-- The words of `pmidstate`, `pdata` and `phash1`. -/
def FormatHashBuffers (pblock : CBlockHeader) : Option (Vars × List Word × List Word) := do
  let tmp : Tmp := Buffer.const 240 0#8
  let tmp ← setBlock tmp pblock
  let (_, tmp) ← FormatHashBlocks tmp 0 80
  let (_, tmp) ← FormatHashBlocks tmp hash1 32
  let tmp ← (List.range 60).foldlM swapWord tmp
  let words := memoryWords tmp.bytes
  return (SHA256Transform words initial, words.take 32, (words.drop 36).take 16)

/-! ### What the code lays out -/

theorem memoryWords_littleEndian (ws : List Word) : memoryWords (ws.flatMap littleEndian) = ws := by
  induction ws with
  | nil => rfl
  | cons w ws ih =>
      have hbytes : w.extractLsb' 24 8 ++ w.extractLsb' 16 8 ++ w.extractLsb' 8 8 ++ w.extractLsb' 0 8
          = ByteReverse (ByteReverse w) := by
        have h := @ByteReverse_byte w
        rw [ByteReverse_eq (ByteReverse w), h (k := 0) (by decide), h (k := 1) (by decide),
          h (k := 2) (by decide), h (k := 3) (by decide)]
      show (w.extractLsb' 24 8 ++ w.extractLsb' 16 8 ++ w.extractLsb' 8 8 ++ w.extractLsb' 0 8)
        :: memoryWords (ws.flatMap littleEndian) = w :: ws
      rw [ih, hbytes, ByteReverse_ByteReverse]

/-- The bytes of a word are the memory of its reverse. -/
theorem memory_reverse (ws : List Word) :
    ws.flatMap (fun w => littleEndian (ByteReverse w)) = ws.flatMap wordBytes := by
  refine congrArg (fun f => ws.flatMap f) (funext fun w => ?_)
  rw [← wordBytes_ByteReverse, ByteReverse_ByteReverse]

theorem swapWord_at {b : Buffer Byte n} {pre post : List Byte} {w : Word}
    (h : b.bytes = pre ++ (littleEndian w ++ post)) {i : Nat} (hi : pre.length = 4 * i) :
    ∃ b', swapWord b i = some b' ∧ b'.bytes = pre ++ (littleEndian (ByteReverse w) ++ post) := by
  have hindex : ((4 * i : Nat) : Int) = pre.length := by rw [hi]
  obtain ⟨b', h', e⟩ := memcpy_at h hindex
    (show (littleEndian w).length = (littleEndian (ByteReverse w)).length from rfl)
  refine ⟨b', ?_, e⟩
  have hslice : b.slice ((4 * i : Nat) : Int) 4 = some (littleEndian w) := slice_at h hindex rfl
  have hword : (memoryWords (littleEndian w))[0]? = some w := by
    have h := memoryWords_littleEndian [w]
    rw [List.flatMap_singleton] at h
    rw [h]
    rfl
  rw [swapWord, show (4 * (i : Int)) = ((4 * i : Nat) : Int) by omega, hslice, Option.bind_eq_bind,
    Option.bind_some, hword, Option.bind_eq_bind, Option.bind_some]
  exact h'

/-- The loop over the words: those before the index are reversed. -/
theorem swapWords_run (post : List Byte) (todo : List Word) :
    ∀ (done : List Byte) (i : Nat) {b : Buffer Byte n},
      b.bytes = done ++ (todo.flatMap littleEndian ++ post) → done.length = 4 * i →
      ∃ b', (List.range' i todo.length).foldlM swapWord b = some b'
        ∧ b'.bytes = done ++ ((todo.map ByteReverse).flatMap littleEndian ++ post) := by
  induction todo with
  | nil =>
      intro done i b hb _
      exact ⟨b, rfl, hb⟩
  | cons w todo ih =>
      intro done i b hb hi
      rw [List.flatMap_cons, List.append_assoc] at hb
      obtain ⟨b₁, h₁, e₁⟩ := swapWord_at hb hi
      rw [← List.append_assoc] at e₁
      obtain ⟨b₂, h₂, e₂⟩ := ih (done ++ littleEndian (ByteReverse w)) (i + 1) e₁
        (by rw [List.length_append, hi]; rfl)
      refine ⟨b₂, ?_, ?_⟩
      · rw [List.length_cons, List.range'_succ, List.foldlM_cons, h₁]
        exact h₂
      · rw [e₂, List.map_cons, List.flatMap_cons, List.append_assoc, List.append_assoc]

/-- A field is written behind those before it. -/
theorem setField {b : Tmp} {l s : List Byte} {z : Nat}
    (h : b.bytes = l ++ List.replicate (s.length + z) 0#8) {i : Int} (hi : i = l.length) :
    ∃ b', b.memcpy i s = some b' ∧ b'.bytes = (l ++ s) ++ List.replicate z 0#8 := by
  rw [← List.replicate_append_replicate] at h
  obtain ⟨b', h', e⟩ := memcpy_at h hi (List.length_replicate (n := s.length))
  exact ⟨b', h', by rw [e, List.append_assoc]⟩

/-- The words of `tmp` before they are swapped, as SHA-256 reads them. -/
def tmpWords (pblock : CBlockHeader) : List Word :=
  padWords pblock.message ++ (List.replicate 4 0#32 ++ (padWords (List.replicate 8 0#32)
    ++ List.replicate 8 0#32))

theorem uint256Bytes_length (x : Uint256) : ((uint256Words x).flatMap littleEndian).length = 32 := by
  rw [littleEndian_length, uint256Words_length]

theorem setBlock_bytes {b : Tmp} (h : b.bytes = List.replicate 240 0#8) (pblock : CBlockHeader) :
    ∃ b', setBlock b pblock = some b'
      ∧ b'.bytes = pblock.bytes ++ List.replicate 160 0#8 := by
  have hprev := uint256Bytes_length pblock.hashPrevBlock
  have hroot := uint256Bytes_length pblock.hashMerkleRoot
  obtain ⟨b₁, h₁, e₁⟩ := setField (l := []) (s := littleEndian pblock.nVersion) (z := 236) h
    (i := 0) rfl
  obtain ⟨b₂, h₂, e₂⟩ := setField (s := (uint256Words pblock.hashPrevBlock).flatMap littleEndian)
    (z := 204) (by rw [e₁, hprev]) (i := 4) rfl
  obtain ⟨b₃, h₃, e₃⟩ := setField (s := (uint256Words pblock.hashMerkleRoot).flatMap littleEndian)
    (z := 172) (by rw [e₂, hroot]) (i := 36) (by rw [List.length_append, hprev]; rfl)
  obtain ⟨b₄, h₄, e₄⟩ := setField (s := littleEndian pblock.nTime) (z := 168)
    (by rw [e₃]; rfl) (i := 68) (by rw [List.length_append, List.length_append, hprev, hroot]; rfl)
  obtain ⟨b₅, h₅, e₅⟩ := setField (s := littleEndian pblock.nBits) (z := 164) (by rw [e₄]; rfl)
    (i := 72) (by rw [List.length_append, List.length_append, List.length_append, hprev, hroot]; rfl)
  obtain ⟨b₆, h₆, e₆⟩ := setField (s := littleEndian pblock.nNonce) (z := 160) (by rw [e₅]; rfl)
    (i := 76) (by
      rw [List.length_append, List.length_append, List.length_append, List.length_append, hprev, hroot]
      rfl)
  refine ⟨b₆, ?_, ?_⟩
  · simp only [setBlock, Option.bind_eq_bind, h₁, Option.bind_some, h₂, h₃, h₄, h₅, h₆]
  · rw [e₆, CBlockHeader.bytes, CBlockHeader.words]
    simp only [List.flatMap_append, List.flatMap_cons, List.flatMap_nil, List.append_assoc,
      List.nil_append, List.append_nil, List.cons_append]

theorem message_bytes (b : CBlockHeader) : b.bytes = b.message.flatMap wordBytes := by
  rw [CBlockHeader.message, List.flatMap_map, CBlockHeader.bytes]
  exact congrArg (fun f => b.words.flatMap f) (funext fun w => (wordBytes_ByteReverse w).symm)

/-- The two paddings of `tmp`. -/
theorem pads_tmp (pblock : CBlockHeader) {tmp : Tmp}
    (h : tmp.bytes = pblock.bytes ++ List.replicate 160 0#8) :
    ∃ k tmp₁ k' tmp₂, FormatHashBlocks tmp 0 80 = some (k, tmp₁)
      ∧ FormatHashBlocks tmp₁ hash1 32 = some (k', tmp₂)
      ∧ tmp₂.bytes = (tmpWords pblock).flatMap wordBytes := by
  have hlen : pblock.bytes.length = 80 := by
    rw [message_bytes, wordBytes_length, message_length]
  have hpad : padBytes pblock.bytes = (padWords pblock.message).flatMap wordBytes := by
    rw [message_bytes, padBytes_words]
  obtain ⟨tmp₁, h₁, e₁⟩ := FormatHashBlocks_pads (b := tmp) (l := []) (m := pblock.bytes)
    (r := List.replicate 48 0#8) (s := List.replicate 112 0#8)
    (by rw [h, List.replicate_append_replicate]; rfl) (by rw [hlen]; decide)
    (by rw [hlen, List.length_replicate]) (i := 0) rfl
  obtain ⟨tmp₂, h₂, e₂⟩ := FormatHashBlocks_pads (b := tmp₁)
    (l := padBytes pblock.bytes ++ List.replicate 16 0#8) (m := List.replicate 32 0#8)
    (r := List.replicate 32 0#8) (s := List.replicate 32 0#8)
    (by
      rw [e₁, List.nil_append, List.append_assoc, List.replicate_append_replicate,
        List.replicate_append_replicate, List.replicate_append_replicate,
        (by decide : 16 + (32 + (32 + 32)) = 112)])
    (by decide) (by decide) (i := hash1)
    (by rw [List.length_append, padBytes_length, hlen]; rfl)
  rw [hlen] at h₁
  refine ⟨_, tmp₁, _, tmp₂, h₁, h₂, ?_⟩
  have hdigest : padBytes (List.replicate 32 0#8) = (padWords (List.replicate 8 0#32)).flatMap wordBytes :=
    padBytes_words (List.replicate 8 0#32)
  rw [e₂, hpad, hdigest, tmpWords, List.flatMap_append, List.flatMap_append, List.flatMap_append,
    wordBytes_zeros, wordBytes_zeros, List.append_assoc]

theorem swaps_tmp {b : Tmp} {ws : List Word} (h : b.bytes = ws.flatMap wordBytes) :
    ∃ b', (List.range 60).foldlM swapWord b = some b' ∧ memoryWords b'.bytes = ws := by
  have hmemory : b.bytes = (ws.map ByteReverse).flatMap littleEndian := by
    rw [h, List.flatMap_map, memory_reverse]
  have hlen : (ws.map ByteReverse).length = 60 := by
    have hsize := b.size
    rw [hmemory, littleEndian_length] at hsize
    omega
  obtain ⟨b', h', e⟩ := swapWords_run [] (ws.map ByteReverse) [] 0
    (by rw [List.append_nil]; exact hmemory) rfl
  rw [hlen, ← List.range_eq_range'] at h'
  refine ⟨b', h', ?_⟩
  rw [e, List.nil_append, List.append_nil, memoryWords_littleEndian, List.map_map]
  exact (List.map_congr_left fun w _ => ByteReverse_ByteReverse w).trans (List.map_id ws)

/-- The transform is the compression function. -/
theorem SHA256Transform_eq {pinput : List Word} (h : 16 ≤ pinput.length) (pinit : Vars) :
    SHA256Transform pinput pinit = compress pinit (fun t => pinput.getD t 0) := by
  rw [SHA256Transform, SHA256_Update, memory_reverse, bytesBits_words,
    compress_words pinit (by rw [List.length_take]; omega)]
  refine compress_congr pinit (fun t ht => ?_)
  rw [List.getD_eq_getElem?_getD, List.getD_eq_getElem?_getD, List.getElem?_take, if_pos (by omega),
    Nat.mul_zero, Nat.zero_add]

/-- **What the buffers hold.** -/
theorem FormatHashBuffers_eq (pblock : CBlockHeader) :
    FormatHashBuffers pblock
      = some (pblock.midstate, padWords pblock.message, padWords (List.replicate 8 0#32)) := by
  obtain ⟨tmp₁, h₁, e₁⟩ := setBlock_bytes (b := Buffer.const 240 0#8) rfl pblock
  obtain ⟨k, tmp₂, k', tmp₃, h₂, h₃, e₃⟩ := pads_tmp pblock e₁
  obtain ⟨tmp₄, h₄, e₄⟩ := swaps_tmp e₃
  have hpadded : (padWords pblock.message).length = 32 := by
    rw [padWords_length, message_length]
  simp only [FormatHashBuffers, Option.bind_eq_bind, h₁, Option.bind_some, h₂, h₃, h₄, e₄]
  refine congrArg some (Prod.ext ?_ (Prod.ext ?_ ?_))
  · show SHA256Transform (tmpWords pblock) initial = pblock.midstate
    rw [SHA256Transform_eq (by rw [tmpWords, List.length_append, hpadded]; omega), CBlockHeader.midstate]
    refine compress_congr initial (fun t ht => ?_)
    rw [tmpWords, List.getD_eq_getElem?_getD, List.getD_eq_getElem?_getD,
      List.getElem?_append_left (by omega)]
  · exact List.take_left' hpadded
  · show (List.drop 36 (tmpWords pblock)).take 16 = _
    rw [tmpWords, ← List.append_assoc, List.drop_left' (by rw [List.length_append, hpadded]; rfl)]
    exact List.take_left' rfl

/-! ## The hash of the buffers -/

/-- The hash a miner computes from the buffers. -/
def bufferHash (pmidstate : Vars) (pdata phash1 : List Word) : Vars :=
  SHA256Transform ((SHA256Transform (pdata.drop 16) pmidstate).words ++ phash1.drop 8) initial

/-- A header with the fields a miner changes. -/
def withWork (b : CBlockHeader) (time bits nonce : Word) : CBlockHeader :=
  { b with nTime := time, nBits := bits, nNonce := nonce }

/-- `pdata` with the fields a miner changes, as they lie there. -/
def setWork (pdata : List Word) (time bits nonce : Word) : List Word :=
  ((pdata.set 17 time).set 18 bits).set 19 nonce

theorem message_withWork (b : CBlockHeader) (time bits nonce : Word) :
    (withWork b time bits nonce).message
      = setWork b.message (ByteReverse time) (ByteReverse bits) (ByteReverse nonce) := by
  rfl

theorem padWords_withWork (b : CBlockHeader) (time bits nonce : Word) :
    padWords (withWork b time bits nonce).message
      = setWork (padWords b.message) (ByteReverse time) (ByteReverse bits) (ByteReverse nonce) := by
  have hlen := message_length b
  rw [message_withWork, setWork, setWork, padWords_set _ (by rw [List.length_set, List.length_set]; omega),
    padWords_set _ (by rw [List.length_set]; omega), padWords_set _ (by omega)]

/-- The fields a miner changes are not in the first block. -/
theorem midstate_withWork (b : CBlockHeader) (time bits nonce : Word) :
    (withWork b time bits nonce).midstate = b.midstate := by
  refine compress_congr initial (fun t ht => ?_)
  rw [padWords_withWork, setWork, List.getD_eq_getElem?_getD, List.getD_eq_getElem?_getD,
    List.getElem?_set_ne (by omega), List.getElem?_set_ne (by omega), List.getElem?_set_ne (by omega)]

/-- The buffers of a header hash to the header. -/
theorem bufferHash_eq (b : CBlockHeader) :
    ofDigest (bufferHash b.midstate (padWords b.message) (padWords (List.replicate 8 0#32)))
      = b.GetHash := by
  have hlen : (padWords b.message).length = 32 := by
    rw [padWords_length, message_length]
  have hdigest : ∀ v : Vars, v.words ++ (padWords (List.replicate 8 0#32)).drop 8 = padWords v.words :=
    fun _ => rfl
  have hfirst : SHA256Transform ((padWords b.message).drop 16) b.midstate
      = compress b.midstate (fun t => (padWords b.message).getD (16 + t) 0) := by
    rw [SHA256Transform_eq (by rw [List.length_drop]; omega)]
    refine compress_congr b.midstate (fun t _ => ?_)
    rw [List.getD_eq_getElem?_getD, List.getD_eq_getElem?_getD, List.getElem?_drop]
  rw [bufferHash, hdigest, SHA256Transform_eq (by rw [padWords_length]; omega),
    hfirst, GetHash_eq]

/-- **The buffers hash to the header, with any time, difficulty and nonce written in.** -/
theorem FormatHashBuffers_hash (pblock : CBlockHeader) :
    ∃ pmidstate pdata phash1, FormatHashBuffers pblock = some (pmidstate, pdata, phash1)
      ∧ pdata.length = 32 ∧ phash1.length = 16
      ∧ ∀ time bits nonce,
        ofDigest (bufferHash pmidstate (setWork pdata time bits nonce) phash1)
          = (withWork pblock (ByteReverse time) (ByteReverse bits) (ByteReverse nonce)).GetHash := by
  refine ⟨_, _, _, FormatHashBuffers_eq pblock, ?_, rfl, ?_⟩
  · rw [padWords_length, message_length]
  · intro time bits nonce
    rw [← bufferHash_eq, midstate_withWork, padWords_withWork, ByteReverse_ByteReverse,
      ByteReverse_ByteReverse, ByteReverse_ByteReverse]

end HashBuffers
