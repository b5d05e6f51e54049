import FpgaMiner.JavaSha256Proofs
import FpgaMiner.FpgaminerTopProofs

/-! # The two SHA-256 of the repository on block headers

    The core hashes a header from its midstate and its last sixteen bytes, with the
    paddings wired in; `Main.sha256` pads a bit string itself and is applied twice.

    * **`header_block`** and **`digest_block`** — the blocks the core feeds to its two
      instances are the last block of the padded header and the one block of the
      padded digest, word by word;
    * **`fpga_hash_eq_java`** — so the two agree on every header. -/

namespace HeaderHash

open ClockedCircuit BitSlice DigitString Sha256 Transform FpgaminerTop JavaSha256

/-! ## Blocks of a padded message -/

/-- A block of a message that is given as one number. -/
theorem blockWord_natBits {w : Nat} (x : BitVec w) {i t : Nat} (h : 512 * i + 32 * t + 32 ≤ w) :
    blockWord (natBits w x.toNat) i t = x.extractLsb' (w - (512 * i + 32 * t) - 32) 32 := by
  rw [blockWord, natBits_window w x.toNat h, bitWord_natBits]
  rfl

/-- What is appended to the bits of a header. -/
def headerTail : BitVec 384 := 1#1 ++ 0#319 ++ 640#64

theorem padMessage_header (B : BitVec 640) :
    padMessage (natBits 640 B.toNat) = natBits 1024 (B ++ headerTail).toNat := by
  have htail : true :: List.replicate (zeroBits 640) false ++ natBits 64 640
      = natBits 384 headerTail.toNat := by
    decide +kernel
  have happend : natBits 1024 (B ++ headerTail).toNat
      = natBits 640 B.toNat ++ natBits 384 headerTail.toNat := natBits_append B headerTail
  rw [padMessage, natBits_length, List.append_assoc, htail, happend]

/-- The last three words before the nonce, as `data_buf` holds them. -/
def headerData (B : BitVec 640) : BitVec 96 :=
  B.extractLsb' 32 32 ++ B.extractLsb' 64 32 ++ B.extractLsb' 96 32

/-- The nonce of a header, its last word. -/
def headerNonce (B : BitVec 640) : BitVec 32 := B.extractLsb' 0 32

/-- The wired padding is the tail of the padded header, in the other word order. -/
theorem headerPadding_word {t : Nat} (h4 : 4 ≤ t) (ht : t < 16) :
    headerPadding.extractLsb' (32 * t - 96 - 32) 32 = headerTail.extractLsb' (480 - 32 * t) 32 := by
  have hall : ∀ t : Fin 16, 4 ≤ t.val →
      headerPadding.extractLsb' (32 * t.val - 96 - 32) 32
        = headerTail.extractLsb' (480 - 32 * t.val) 32 := by
    decide +kernel
  exact hall ⟨t, ht⟩ h4

/-- The words before the nonce. -/
theorem headerData_word (B : BitVec 640) {t : Nat} (ht : t < 3) :
    (headerData B).extractLsb' (32 * t) 32 = B.extractLsb' (96 - 32 * t) 32 := by
  rw [headerData]
  match t, ht with
  | 0, _ => exact BitVec.extractLsb'_append_eq_right
  | 1, _ =>
      rw [BitVec.extractLsb'_append_eq_of_le (by decide)]
      exact BitVec.extractLsb'_append_eq_right
  | 2, _ =>
      rw [BitVec.extractLsb'_append_eq_of_le (by decide)]
      exact BitVec.extractLsb'_append_eq_left

/-- **The block of the first instance** is the second block of the padded header. -/
theorem header_block (B : BitVec 640) {t : Nat} (ht : t < 16) :
    blockWord (padMessage (natBits 640 B.toNat)) 1 t
      = IDX (headerPadding ++ headerNonce B ++ headerData B) t := by
  rw [padMessage_header, blockWord_natBits (B ++ headerTail) (by omega),
    show 1024 - (512 * 1 + 32 * t) - 32 = 480 - 32 * t by omega, IDX]
  rcases Nat.lt_or_ge t 4 with hlt | hge
  · -- bytes of the header
    rw [BitVec.extractLsb'_append_eq_of_le (by omega),
      show 480 - 32 * t - 384 = 96 - 32 * t by omega]
    rcases Nat.lt_succ_iff_lt_or_eq.mp hlt with h3 | rfl
    · rw [BitVec.extractLsb'_append_eq_of_add_le (by omega), headerData_word B h3]
    · exact (nonce_of_block _ _).symm
  · -- the padding
    rw [BitVec.extractLsb'_append_eq_of_add_le (by omega),
      BitVec.extractLsb'_append_eq_of_le (by omega), BitVec.extractLsb'_append_eq_of_le (by omega),
      headerPadding_word hge ht]

/-! ## The digest as a message -/

/-- The words of a digest as one number, `H_0` on top. -/
def digestBits (v : Vars) : BitVec 256 :=
  v.a ++ (v.b ++ (v.c ++ (v.d ++ (v.e ++ (v.f ++ (v.g ++ v.h))))))

theorem bits_eq (v : Vars) : v.bits = natBits 256 (digestBits v).toNat := by
  have hbits : natBits 256 (digestBits v).toNat
      = natBits 32 v.a.toNat ++ (natBits 32 v.b.toNat ++ (natBits 32 v.c.toNat
        ++ (natBits 32 v.d.toNat ++ (natBits 32 v.e.toNat ++ (natBits 32 v.f.toNat
        ++ (natBits 32 v.g.toNat ++ natBits 32 v.h.toNat)))))) := by
    rw [← natBits_append, ← natBits_append, ← natBits_append, ← natBits_append,
      ← natBits_append, ← natBits_append, ← natBits_append]
    rfl
  rw [hbits, Vars.bits]
  simp only [Vars.words, List.flatMap_cons, List.flatMap_nil, List.append_nil]

/-- What is appended to the bits of a digest. -/
def digestTail : BitVec 256 := 1#1 ++ 0#191 ++ 256#64

theorem padMessage_digest (v : Vars) :
    padMessage v.bits = natBits 512 (digestBits v ++ digestTail).toNat := by
  have htail : true :: List.replicate (zeroBits 256) false ++ natBits 64 256
      = natBits 256 digestTail.toNat := by
    decide +kernel
  have happend : natBits 512 (digestBits v ++ digestTail).toNat
      = natBits 256 (digestBits v).toNat ++ natBits 256 digestTail.toNat :=
    natBits_append (digestBits v) digestTail
  rw [bits_eq, padMessage, natBits_length, List.append_assoc, htail, happend]

theorem hashPadding_word {t : Nat} (h8 : 8 ≤ t) (ht : t < 16) :
    hashPadding.extractLsb' (32 * t - 256) 32 = digestTail.extractLsb' (480 - 32 * t) 32 := by
  have hall : ∀ t : Fin 16, 8 ≤ t.val →
      hashPadding.extractLsb' (32 * t.val - 256) 32
        = digestTail.extractLsb' (480 - 32 * t.val) 32 := by
    decide +kernel
  exact hall ⟨t, ht⟩ h8

/-- The two word orders of a digest. -/
theorem digestBits_word (v : Vars) {t : Nat} (ht : t < 8) :
    (digestBits v).extractLsb' (224 - 32 * t) 32 = (pack v).extractLsb' (32 * t) 32 := by
  have hwords := unpack_pack v
  rw [digestBits]
  match t, ht with
  | 0, _ =>
      rw [BitVec.extractLsb'_append_eq_left]
      exact (congrArg Vars.a hwords).symm
  | 1, _ =>
      rw [BitVec.extractLsb'_append_eq_of_add_le (by decide), BitVec.extractLsb'_append_eq_left]
      exact (congrArg Vars.b hwords).symm
  | 2, _ =>
      iterate 2 rw [BitVec.extractLsb'_append_eq_of_add_le (by decide)]
      rw [BitVec.extractLsb'_append_eq_left]
      exact (congrArg Vars.c hwords).symm
  | 3, _ =>
      iterate 3 rw [BitVec.extractLsb'_append_eq_of_add_le (by decide)]
      rw [BitVec.extractLsb'_append_eq_left]
      exact (congrArg Vars.d hwords).symm
  | 4, _ =>
      iterate 4 rw [BitVec.extractLsb'_append_eq_of_add_le (by decide)]
      rw [BitVec.extractLsb'_append_eq_left]
      exact (congrArg Vars.e hwords).symm
  | 5, _ =>
      iterate 5 rw [BitVec.extractLsb'_append_eq_of_add_le (by decide)]
      rw [BitVec.extractLsb'_append_eq_left]
      exact (congrArg Vars.f hwords).symm
  | 6, _ =>
      iterate 6 rw [BitVec.extractLsb'_append_eq_of_add_le (by decide)]
      rw [BitVec.extractLsb'_append_eq_left]
      exact (congrArg Vars.g hwords).symm
  | 7, _ =>
      iterate 7 rw [BitVec.extractLsb'_append_eq_of_add_le (by decide)]
      rw [BitVec.extractLsb'_eq_self]
      exact (congrArg Vars.h hwords).symm

/-- **The block of the second instance** is the one block of the padded digest. -/
theorem digest_block (v : Vars) {t : Nat} (ht : t < 16) :
    blockWord (padMessage v.bits) 0 t = IDX (hashPadding ++ pack v) t := by
  rw [padMessage_digest, blockWord_natBits (digestBits v ++ digestTail) (by omega),
    show 512 - (512 * 0 + 32 * t) - 32 = 480 - 32 * t by omega, IDX]
  rcases Nat.lt_or_ge t 8 with hlt | hge
  · rw [BitVec.extractLsb'_append_eq_of_le (by omega),
      BitVec.extractLsb'_append_eq_of_add_le (by omega),
      show 480 - 32 * t - 256 = 224 - 32 * t by omega, digestBits_word v hlt]
  · rw [BitVec.extractLsb'_append_eq_of_add_le (by omega),
      BitVec.extractLsb'_append_eq_of_le (by omega), hashPadding_word hge ht]

/-! ## Both hashes -/

/-- The bits of a header as `Main.sha256` takes them, byte 0 first. -/
def headerBits (B : BitVec 640) : List Bool := natBits 640 B.toNat

/-- The midstate: the chaining value after the first block of the header. -/
def midstate (B : BitVec 640) : Vars := chaining (padMessage (headerBits B)) 1

theorem headerBits_length (B : BitVec 640) : (headerBits B).length = 640 := natBits_length 640 _

theorem padMessage_headerBits_length (B : BitVec 640) :
    (padMessage (headerBits B)).length = 1024 := by
  rw [headerBits, padMessage_header, natBits_length]

/-- The first turn of the main loop of `Main.sha256` computes the midstate. -/
theorem mainBlock_midstate (B : BitVec 640) :
    mainBlock JavaSha256.H (((headerBits B).take 512).map bitChar) = .ok (midstate B) := by
  have hlen : ((headerBits B).take 512).length = 512 := by
    rw [List.length_take, headerBits_length]
    rfl
  have hfirst : (padMessage (headerBits B)).take 512 = (headerBits B).take 512 := by
    rw [padMessage, List.append_assoc,
      List.take_append_of_le_length (by rw [headerBits_length]; decide)]
  rw [mainBlock_ok hlen, midstate, chaining]
  refine congrArg Except.ok (compress_congr initial (fun t ht => ?_))
  rw [← hfirst]
  exact wordsOf_block _ 0 ht

/-- The hash of a header, from its midstate. -/
theorem hash_header (B : BitVec 640) :
    Sha256.hash (headerBits B)
      = compress (midstate B) (IDX (headerPadding ++ headerNonce B ++ headerData B)) := by
  rw [Sha256.hash, padMessage_headerBits_length]
  exact compress_congr (midstate B) (fun t ht => header_block B ht)

/-- The hash of a digest is one compression. -/
theorem hash_digest (v : Vars) :
    Sha256.hash v.bits = compress initial (IDX (hashPadding ++ pack v)) := by
  rw [Sha256.hash, padMessage_digest, natBits_length, ← padMessage_digest]
  exact compress_congr initial (fun t ht => digest_block v ht)

/-- **The core and `Main.sha256` compute the same double hash of every header**: the
    two instances as they are wired, and in every run of a core that presents the
    header's last block for long enough. -/
theorem fpga_hash_eq_java (B : BitVec 640) :
    ∃ (M : Vars) (digest : List Char),
      mainBlock JavaSha256.H (((headerBits B).take 512).map bitChar) = .ok M ∧
      sha256 ((headerBits B).map bitChar) = .ok digest ∧
      sha256 ((hexBits digest).map bitChar)
        = .ok (unpack (transformHash initialState (hashPadding
            ++ transformHash (pack M) (headerPadding ++ headerNonce B ++ headerData B)))).hex ∧
      ∀ (l : Fin 6) (c : Core l) (inp : Nat → CoreIn) (t0 : Nat), Phase c →
        (run (fpgaminer_top l) c inp t0).cnt = 0 →
        (run (fpgaminer_top l) c inp t0).state = pack M →
        (run (fpgaminer_top l) c inp (t0 + 64)).state = pack M →
        (run (fpgaminer_top l) c inp t0).data = headerPadding ++ headerNonce B ++ headerData B →
        sha256 ((hexBits digest).map bitChar)
          = .ok (unpack (run (fpgaminer_top l) c inp (t0 + 129 + LOOP l)).uut2.tx_hash).hex := by
  have hlen : ((headerBits B).length) < 2 ^ 64 := by
    rw [headerBits_length]
    decide
  have hlen' : (Sha256.hash (headerBits B)).bits.length < 2 ^ 64 := by
    rw [bits_eq, natBits_length]
    decide
  -- what the two applications of `Main.sha256` return
  have hsecond : sha256 ((hexBits (Sha256.hash (headerBits B)).hex).map bitChar)
      = .ok (compress initial (IDX (hashPadding ++ pack (compress (midstate B)
          (IDX (headerPadding ++ headerNonce B ++ headerData B)))))).hex := by
    rw [hexBits_hex, sha256_hash hlen', hash_digest, hash_header]
  refine ⟨midstate B, (Sha256.hash (headerBits B)).hex, mainBlock_midstate B, sha256_hash hlen,
    ?_, ?_⟩
  · rw [hsecond, transformHash_eq, transformHash_eq, unpack_initialState, unpack_pack, unpack_pack]
  · intro l c inp t0 hc hz hstate hstate64 hdata
    obtain ⟨hhash, -⟩ :=
      ticket_of_block (isRun_run (fpgaminer_top l) c inp) hc hz (hstate.trans hstate64.symm)
    rw [hsecond, hhash, hstate, hdata, unpack_pack, unpack_pack]

end HeaderHash
