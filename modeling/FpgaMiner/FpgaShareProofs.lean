import FpgaMiner.CpuMinerProofs
import FpgaMiner.ResultProofs
import FpgaMiner.HeaderHashProofs

/-! # The work of bitcoind in the FPGA

    A core hashes the midstate and the second block of `FormatHashBuffers` and looks for
    32 zero bits at the top of the result; bitcoind compares the hash of the header with
    a 256-bit target.

    * **`headerSolved_iff`** — with the buffers of a header in its register, the core
      looks for the nonces that give the header a hash below 2^224;
    * **`reported_headers`** — what the FPGA reports, as headers of bitcoind, in every
      run that copies no result at a wrong moment. -/

namespace FpgaShare

open ClockedCircuit BitSlice Sha256 Transform FpgaminerTop MinerTop Load Result Getwork
  BlockHeader HashBuffers Compact CpuMiner

/-- The header register holds the buffers of a block. -/
def HoldsWork (h : BitVec 768) (b : CBlockHeader) : Prop :=
  HasLayout h (fun j => b.midstate.words.getD j 0) (fun j => (padWords b.message).getD j 0)

instance (h : BitVec 768) (b : CBlockHeader) : Decidable (HoldsWork h b) :=
  inferInstanceAs (Decidable (HasLayout h _ _))

/-! ## The blocks of the core -/

/-- The midstate of the core is that of the header. -/
theorem HoldsWork.midstate {h : BitVec 768} {b : CBlockHeader} (hw : HoldsWork h b) :
    unpack (h.extractLsb' 0 256) = b.midstate := by
  have hword : ∀ j, j < 8 → IDX (h.extractLsb' 0 256) j = b.midstate.words.getD j 0 := by
    intro j hj
    have hlayout := hw j (by omega)
    rw [layoutWord, if_pos hj] at hlayout
    rw [IDX, extract_extract _ (by omega), Nat.zero_add, hlayout]
  rw [unpack, hword 0 (by decide), hword 1 (by decide), hword 2 (by decide), hword 3 (by decide),
    hword 4 (by decide), hword 5 (by decide), hword 6 (by decide), hword 7 (by decide)]
  rfl

/-- The words of a padded header behind the header. -/
theorem padding_word (b : CBlockHeader) {t : Nat} (h4 : 4 ≤ t) (ht : t < 16) :
    (padWords b.message).getD (16 + t) 0 = headerPadding.extractLsb' (32 * t - 128) 32 := by
  have hall : ∀ t : Fin 16, 4 ≤ t.val →
      (0x80000000#32 :: List.replicate 9 0#32 ++ [0, 640#32]).getD (t.val - 4) 0
        = headerPadding.extractLsb' (32 * t.val - 128) 32 := by
    decide +kernel
  have htail : padWords b.message
      = b.message ++ (0x80000000#32 :: List.replicate 9 0#32 ++ [0, 640#32]) := by
    rw [padWords, message_length, List.append_assoc]
    rfl
  rw [← hall ⟨t, ht⟩ h4, htail, List.getD_eq_getElem?_getD, List.getD_eq_getElem?_getD,
    List.getElem?_append_right (by rw [message_length]; omega), message_length,
    show 16 + t - 20 = t - 4 by omega]

/-- A nonce written into the buffers. -/
theorem padWords_withNonce (b : CBlockHeader) (n : Word) :
    padWords (withNonce b n).message = (padWords b.message).set 19 n := by
  have hmessage : (withNonce b n).message = b.message.set 19 (ByteReverse (ByteReverse n)) := rfl
  rw [hmessage, padWords_set _ (by rw [message_length]; decide), ByteReverse_ByteReverse]

/-- The block of the core is the second block of the header with the nonce. -/
theorem HoldsWork.block {h : BitVec 768} {b : CBlockHeader} (hw : HoldsWork h b) (n : Word) {t : Nat}
    (ht : t < 16) :
    IDX (headerPadding ++ n ++ h.extractLsb' 256 96) t
      = (padWords (withNonce b n).message).getD (16 + t) 0 := by
  have hlen := padWords_message_length b
  rw [padWords_withNonce, List.getD_eq_getElem?_getD, IDX]
  rcases Nat.lt_trichotomy t 3 with h3 | rfl | h3
  · -- the words before the nonce
    have hlayout := hw (8 + t) (by omega)
    rw [layoutWord, if_neg (by omega), show 8 + t + 8 = 16 + t by omega] at hlayout
    rw [BitVec.extractLsb'_append_eq_of_add_le (by omega), extract_extract _ (by omega),
      List.getElem?_set_ne (by omega), ← List.getD_eq_getElem?_getD, ← hlayout]
    congr 1
    omega
  · rw [List.getElem?_set_self (by omega)]
    exact nonce_of_block _ _
  · -- the padding
    rw [BitVec.extractLsb'_append_eq_of_le (by omega), BitVec.extractLsb'_append_eq_of_le (by omega),
      List.getElem?_set_ne (by omega), ← List.getD_eq_getElem?_getD, padding_word b h3 ht]
    congr 1

/-- The padding of a digest. -/
theorem digest_word (v : Vars) {t : Nat} (ht : t < 16) :
    IDX (hashPadding ++ pack v) t = (padWords v.words).getD t 0 := by
  have hlen : t < (padWords v.words).length := by
    rw [padWords_length]
    omega
  rw [← HeaderHash.digest_block v ht, bits_words, padMessage_words, List.getD_eq_getElem?_getD,
    List.getElem?_eq_getElem hlen]
  refine blockWord_words _ ?_
  rw [Nat.mul_zero, Nat.zero_add, List.getElem?_eq_getElem hlen]
  rfl

/-- **The core looks for the nonces that give the header a hash below 2^224.** -/
theorem headerSolved_iff {h : BitVec 768} {b : CBlockHeader} (hw : HoldsWork h b) (n : Word) :
    HeaderSolved h n ↔ (withNonce b n).GetHash.toNat < 2 ^ 224 := by
  have hmid : (withNonce b n).midstate = b.midstate := midstate_withWork b b.nTime b.nBits _
  have hfirst : compress (unpack (h.extractLsb' 0 256)) (IDX (headerPadding ++ n ++ h.extractLsb' 256 96))
      = compress b.midstate (fun t => (padWords (withNonce b n).message).getD (16 + t) 0) := by
    rw [hw.midstate]
    exact compress_congr b.midstate (fun t ht => hw.block n ht)
  rw [GetHash_eq, ofDigest_lt_224, hmid, HeaderSolved, FpgaminerTop.Solves, doubleCompress]
  simp only [hfirst]
  rw [compress_congr initial (fun t ht => digest_word _ ht)]
  exact Iff.of_eq (congrArg (fun w => w = 0) (congrArg Vars.h (unpack_pack _)))

/-! ## What is reported -/

/-- The nonces in the result registers of a stopped miner, as headers of `b`. -/
structure ReportsHeaders {l : Fin 6} (s : Miner l) (b : CBlockHeader) : Prop where
  reported : ∃ i, ticketBit (s.result_ram i) = true
  solved : ∀ i, ticketBit (s.result_ram i) = true →
    (withNonce b ((s.result_ram i).extractLsb' 0 32)).GetHash.toNat < 2 ^ 224
  scanned : ∀ i, ticketBit (s.result_ram i) = true →
    zeroBits16 (bufferHash b.midstate
      ((padWords b.message).set 19 ((s.result_ram i).extractLsb' 0 32))
      (padWords (List.replicate 8 0#32))) = true

/-- **A stopped miner that holds the work of a header reports nonces that give it a hash
    below 2^224**, at which bitcoind's own scan stops too. -/
theorem reported_headers (l : Fin 6) (s : Miner l) (hp : MinerTop.PowerUp s) (inp : Nat → Bus)
    (hclean : CleanReports inp (run (miner_top l) s inp)) (b : CBlockHeader) :
    ∀ t, (run (miner_top l) s inp t).stop = true → HoldsWork (run (miner_top l) s inp t).header_buffer b →
      ReportsHeaders (run (miner_top l) s inp t) b := by
  intro t hstop hw
  have hstate := stopState_run (isRun_run (miner_top l) s inp) hp hclean t hstop
  have hsolved : ∀ i, ticketBit ((run (miner_top l) s inp t).result_ram i) = true →
      (withNonce b (((run (miner_top l) s inp t).result_ram i).extractLsb' 0 32)).GetHash.toNat
        < 2 ^ 224 :=
    fun i hi => (headerSolved_iff hw _).mp (hstate.solved i hi)
  obtain ⟨i, -, hi⟩ := hstate.reported
  refine ⟨⟨i, hi⟩, hsolved, ?_⟩
  intro i hi
  have hbuffer : ofDigest (bufferHash b.midstate
      ((padWords b.message).set 19 (((run (miner_top l) s inp t).result_ram i).extractLsb' 0 32))
      (padWords (List.replicate 8 0#32)))
      = (withNonce b (((run (miner_top l) s inp t).result_ram i).extractLsb' 0 32)).GetHash := by
    rw [← padWords_withNonce, ← bufferHash_eq (withNonce b _)]
    rw [show (withNonce b _).midstate = b.midstate from midstate_withWork b b.nTime b.nBits _]
  rw [zeroBits16_iff, hbuffer]
  exact Nat.lt_trans (hsolved i hi) (by decide)

/-! ## The genesis block -/

/-- The genesis block, with the nonce before its own as the core counts. -/
def genesisWork : CBlockHeader where
  nVersion := 1
  hashPrevBlock := 0
  hashMerkleRoot := 0x4a5e1e4baab89f3a32518a88c31bc87f618f76673e2cc77ab2127b7afdeda33b
  nTime := 1231006505
  nBits := 0x1d00ffff
  nNonce := ByteReverse 0x1dac2b7b

/-- Its buffers in the header register. -/
def genesisHeader : BitVec 768 :=
  headerPadding ++ 0x1dac2b7b#32 ++ 0xffff001d29ab5f494b1e5e4a#96
    ++ 0x4719f91b96b187364f0103c8c3c8d8e91e59caa890ccac7d6358bff0bc909a33#256

/-- Sixteen words as the block of an instance. -/
def blockOf (w : Nat → Word) : BitVec 512 :=
  w 15 ++ w 14 ++ w 13 ++ w 12 ++ w 11 ++ w 10 ++ w 9 ++ w 8 ++ w 7 ++ w 6 ++ w 5 ++ w 4 ++ w 3
    ++ w 2 ++ w 1 ++ w 0

theorem IDX_blockOf (w : Nat → Word) {t : Nat} (ht : t < 16) : IDX (blockOf w) t = w t := by
  rw [blockOf]
  interval_cases t <;> repeat first | rw [IDX_append_zero] | rw [IDX_append_succ] | rw [IDX_self]

theorem midstate_eq (b : CBlockHeader) :
    b.midstate = unpack (transformHash initialState
      (blockOf (fun t => (padWords b.message).getD t 0))) := by
  rw [transformHash_eq, unpack_pack, unpack_initialState, CBlockHeader.midstate]
  exact compress_congr initial
    (fun t ht => (IDX_blockOf (fun t => (padWords b.message).getD t 0) ht).symm)

theorem holdsWork_genesis : HoldsWork genesisHeader genesisWork := by
  have hwords : ∀ j, j < 24 → genesisHeader.extractLsb' (32 * j) 32
      = layoutWord (fun j => (unpack (transformHash initialState (blockOf (fun t =>
          (padWords genesisWork.message).getD t 0)))).words.getD j 0)
        (fun j => (padWords genesisWork.message).getD j 0) j := by
    decide +kernel
  intro j hj
  rw [midstate_eq]
  exact hwords j hj

theorem headerSolved_iff_genesis :
    HoldsWork genesisHeader genesisWork
      ∧ (HeaderSolved genesisHeader 0x1dac2b7c
        ↔ (withNonce genesisWork 0x1dac2b7c).GetHash.toNat < 2 ^ 224) :=
  ⟨holdsWork_genesis, headerSolved_iff holdsWork_genesis 0x1dac2b7c⟩

/-- The header is loaded, its solution found, and an idle cycle copies it; then come reads
    that change nothing. -/
def genesisInput (t : Nat) : Bus :=
  ([put 102 1, idle]
    ++ (List.range 96).map (fun k : Nat => put (BitVec.ofNat 8 k) (byte genesisHeader k))
    ++ [idle] ++ List.replicate 193 (get 200) ++ [idle]).getD t (get 200)

theorem genesisInput_facts :
    (∀ u, u < 290 →
      ((run (miner_top 5) (poweredMiner 5) genesisInput u).miner 0).is_golden_ticket = false) ∧
    ((run (miner_top 5) (poweredMiner 5) genesisInput 100).miner 0).start = false ∧
    (run (miner_top 5) (poweredMiner 5) genesisInput 100).load_done = false ∧
    (∀ u, u < 292 →
      copies (run (miner_top 5) (poweredMiner 5) genesisInput u) (genesisInput u) = false) ∧
    ticketBit (nonce_out_a (run (miner_top 5) (poweredMiner 5) genesisInput 291) 0) = true ∧
    (run (miner_top 5) (poweredMiner 5) genesisInput 293).stop = true ∧
    (run (miner_top 5) (poweredMiner 5) genesisInput 293).header_buffer = genesisHeader := by
  decide +kernel

/-- After the load there is no write, and after cycle 292 no idle cycle. -/
theorem genesisInput_busy (t : Nat) :
    (99 ≤ t → busWrite (genesisInput t) = false) ∧ (293 ≤ t → busRead (genesisInput t) = true) := by
  rcases Nat.lt_or_ge t 293 with hlt | hge
  · have hall : ∀ u, u < 293 → (99 ≤ u → busWrite (genesisInput u) = false) ∧
        (293 ≤ u → busRead (genesisInput u) = true) := by
      decide +kernel
    exact hall t hlt
  · have hlate : genesisInput t = get 200 := by
      rw [genesisInput, List.getD_eq_getElem?_getD, List.getElem?_eq_none]
      · rfl
      · rw [List.length_append, List.length_append, List.length_append, List.length_append,
          List.length_map, List.length_range, List.length_replicate]
        exact hge
    rw [hlate]
    exact ⟨fun _ => rfl, fun _ => rfl⟩

theorem cleanReports_genesis :
    CleanReports genesisInput (run (miner_top 5) (poweredMiner 5) genesisInput) := by
  obtain ⟨hgold, hstart, hdone, hcopy, hbit, -, -⟩ := genesisInput_facts
  have hx := isRun_run (miner_top 5) (poweredMiner 5) genesisInput
  have hequal := cores_equal hx (fun _ => rfl)
  have hafter : ∀ t, 100 ≤ t → (run (miner_top 5) (poweredMiner 5) genesisInput t).load_done = false ∧
      ((run (miner_top 5) (poweredMiner 5) genesisInput t).miner 0).start = false :=
    fun t ht => no_restart hx (powerUp_poweredMiner 5) 0 hdone hstart
      (fun u hu _ => by rw [completes, (genesisInput_busy u).1 (by omega)]; rfl) t ht (Nat.le_refl t)
  have honly : ∀ t,
      copies (run (miner_top 5) (poweredMiner 5) genesisInput t) (genesisInput t) = true → t = 292 := by
    intro t h
    rcases Nat.lt_trichotomy t 292 with hlt | heq | hgt
    · rw [hcopy t hlt] at h
      cases h
    · exact heq
    · rw [copies, (genesisInput_busy t).2 hgt, Bool.not_true, Bool.and_false] at h
      cases h
  refine ⟨?_, ?_, ?_⟩
  · intro i t hg
    change ((run (miner_top 5) (poweredMiner 5) genesisInput t).miner i).is_golden_ticket = true at hg
    rw [hequal] at hg
    have ht : 290 ≤ t := by
      refine Nat.le_of_not_lt (fun hlt => ?_)
      rw [hgold t hlt] at hg
      cases hg
    refine ⟨t - 163, by show t = t - 163 + 131 + 32; omega, fun v hv _ => ?_⟩
    show ((run (miner_top 5) (poweredMiner 5) genesisInput v).miner i).start = false
    rw [hequal]
    exact (hafter v (by omega)).2
  · intro t h
    obtain rfl := honly t h
    refine ⟨(hafter 292 (by decide)).1, fun i => ?_⟩
    rw [hequal]
    exact (hafter 292 (by decide)).2
  · intro t h i _
    obtain rfl : t = 291 := Nat.succ.inj (honly (t + 1) h)
    rw [nonce_out_a, hequal]
    exact hbit

theorem reported_headers_genesis :
    (run (miner_top 5) (poweredMiner 5) genesisInput 293).stop = true
      ∧ ReportsHeaders (run (miner_top 5) (poweredMiner 5) genesisInput 293) genesisWork := by
  obtain ⟨-, -, -, -, -, hstop, hheader⟩ := genesisInput_facts
  refine ⟨hstop, reported_headers 5 (poweredMiner 5) (powerUp_poweredMiner 5) genesisInput
    cleanReports_genesis genesisWork 293 hstop ?_⟩
  rw [hheader]
  exact holdsWork_genesis

end FpgaShare
