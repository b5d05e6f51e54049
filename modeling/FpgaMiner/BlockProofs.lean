import FpgaMiner.Sha256WindowProofs
import FpgaMiner.MerkleProofs
import FpgaMiner.RetargetProofs

/-! # Blocks

    A block is a header and the transactions that its Merkle root stands for.  `CheckBlock`
    is what a node asks of a block before it looks at the chain.

    * **`Unserialize_of_CheckBlock`** — a block that is accepted can be sent and stored;
    * **`CheckBlock_binding`** — two accepted blocks with one hash are the same block, unless
      `Hash` collides on what is hashed for them or one has a coinbase of 64 bytes. -/

namespace Block

open MinerDriver Codec Serialize Script BlockHeader Transaction Merkle Retarget Getwork

/-! ## The format -/

/-- `CBlockHeader::IMPLEMENT_SERIALIZE`: the six fields in their order. -/
def headerCodec : Codec Byte CBlockHeader :=
  (uint32.pair (uint256.pair (uint256.pair (uint32.pair (uint32.pair uint32))))).iso
    { toFun := fun p => ⟨p.1, p.2.1, p.2.2.1, p.2.2.2.1, p.2.2.2.2.1, p.2.2.2.2.2⟩
      invFun := fun b =>
        (b.nVersion, b.hashPrevBlock, b.hashMerkleRoot, b.nTime, b.nBits, b.nNonce)
      left_inv := fun _ => rfl
      right_inv := fun _ => rfl }

/-- A header and its transactions. -/
structure CBlock where
  header : CBlockHeader
  vtx : List CTransaction
  deriving DecidableEq

/-- `CBlock::IMPLEMENT_SERIALIZE`: the header, then the transactions behind their number. -/
def CBlock.codec : Codec Byte CBlock :=
  (headerCodec.pair (counted compactSize CTransaction.codec)).iso
    { toFun := fun p => ⟨p.1, p.2⟩
      invFun := fun b => (b.header, b.vtx)
      left_inv := fun _ => rfl
      right_inv := fun _ => rfl }

/-- The bytes of a block.  Their number is a `Nat`; the source has an `unsigned int`, so it is
    taken to be below 2^32, as it is for every block that is accepted. -/
def CBlock.Serialize (block : CBlock) : List Byte := CBlock.codec.write block

/-- A block is read from the front of a stream. -/
def CBlock.Unserialize (is : List Byte) : Option (CBlock × List Byte) := CBlock.codec.read is

/-- The hash of a block is the one of its header. -/
def CBlock.GetHash (block : CBlock) : Uint256 := block.header.GetHash

/-- The hashes of the transactions. -/
def CBlock.txids (block : CBlock) : List Uint256 := block.vtx.map CTransaction.GetHash

/-! ## The checks -/

/-- The signature operations that a block may have. -/
def MAX_BLOCK_SIGOPS : Nat := MAX_BLOCK_SIZE / 50

/-- The signature operations in the scripts of a transaction itself, counted without what the
    scripts it spends ask for. -/
def GetLegacySigOpCount (tx : CTransaction) : Nat :=
  (tx.vin.map (fun txin => GetSigOpCount txin.scriptSig false)).sum
    + (tx.vout.map (fun txout => GetSigOpCount txout.scriptPubKey false)).sum

/-- The loop over the transactions with `CheckTransaction`. -/
def checkTransactions : List CTransaction → Except Reject Unit
  | [] => .ok ()
  | tx :: vtx => do
      CheckTransaction tx
      checkTransactions vtx

/-- The checks behind those of the single transactions. -/
def checkTree (block : CBlock) (fCheckMerkleRoot : Bool) : Except Reject Unit :=
  if block.txids.dedup.length ≠ block.vtx.length then
    .error { DoS 100 "bad-txns-duplicate" with corruptionPossible := true }
  else if (block.vtx.map GetLegacySigOpCount).sum > MAX_BLOCK_SIGOPS then
    .error { DoS 100 "bad-blk-sigops" with corruptionPossible := true }
  else if fCheckMerkleRoot ∧ block.header.hashMerkleRoot ≠ BuildMerkleTree block.txids then
    .error { DoS 100 "bad-txnmrklroot" with corruptionPossible := true }
  else .ok ()

/-- `CheckBlock` when `GetAdjustedTime` is `now`. -/
def CheckBlock (p : CChainParams) (now : Int) (block : CBlock) (fCheckPOW fCheckMerkleRoot : Bool) :
    Except Reject Unit :=
  if block.vtx = [] ∨ block.vtx.length > MAX_BLOCK_SIZE ∨ block.Serialize.length > MAX_BLOCK_SIZE then
    .error (DoS 100 "bad-blk-length")
  else if fCheckPOW ∧ ¬ CheckProofOfWork p block.GetHash block.header.nBits then
    .error (DoS 50 "high-hash")
  else if (block.header.nTime.toNat : Int) > now + 2 * 60 * 60 then .error (DoS 0 "time-too-new")
  else if ¬ (block.vtx.head?.map CTransaction.IsCoinBase).getD false then
    .error (DoS 100 "bad-cb-missing")
  else if block.vtx.tail.any CTransaction.IsCoinBase then .error (DoS 100 "bad-cb-multiple")
  else do
    checkTransactions block.vtx
    checkTree block fCheckMerkleRoot

/-- The loop asks for every transaction. -/
theorem checkTransactions_iff (vtx : List CTransaction) :
    checkTransactions vtx = .ok () ↔ ∀ tx ∈ vtx, CheckTransaction tx = .ok () := by
  induction vtx with
  | nil => exact ⟨fun _ tx htx => (List.not_mem_nil htx).elim, fun _ => rfl⟩
  | cons tx vtx ih => rw [checkTransactions, Transaction.bind_eq_ok, ih, List.forall_mem_cons]

/-- What `CheckBlock` asks of a block. -/
structure Valid (block : CBlock) (fCheckMerkleRoot : Bool) : Prop where
  vtx : block.vtx ≠ []
  size : block.Serialize.length ≤ MAX_BLOCK_SIZE
  coinbase : (block.vtx.head?.map CTransaction.IsCoinBase).getD false = true
  rest : block.vtx.tail.any CTransaction.IsCoinBase = false
  transaction : ∀ tx ∈ block.vtx, CheckTransaction tx = .ok ()
  txids : block.txids.Nodup
  root : fCheckMerkleRoot = true → block.header.hashMerkleRoot = BuildMerkleTree block.txids

/-- An accepted block is what the checks ask for. -/
theorem valid_of_CheckBlock {p : CChainParams} {now : Int} {block : CBlock}
    {fCheckPOW fCheckMerkleRoot : Bool}
    (h : CheckBlock p now block fCheckPOW fCheckMerkleRoot = .ok ()) :
    Valid block fCheckMerkleRoot := by
  rw [CheckBlock] at h
  split at h
  · cases h
  · next hsize =>
      split at h
      · cases h
      · split at h
        · cases h
        · split at h
          · cases h
          · next hcoinbase =>
              split at h
              · cases h
              · next hrest =>
                  obtain ⟨htx, htree⟩ := Transaction.bind_eq_ok.mp h
                  rw [checkTree] at htree
                  split at htree
                  · cases htree
                  · next hdedup =>
                      split at htree
                      · cases htree
                      · split at htree
                        · cases htree
                        · next hroot =>
                            obtain ⟨hne, -, hlen⟩ := not_or.mp hsize |>.imp_right not_or.mp
                            refine ⟨hne, Nat.not_lt.mp hlen, not_not.mp hcoinbase,
                              Bool.not_eq_true _ |>.mp hrest, (checkTransactions_iff _).mp htx, ?_, ?_⟩
                            · have hlen := not_not.mp hdedup
                              rw [← List.dedup_eq_self]
                              refine (List.dedup_sublist _).eq_of_length ?_
                              rw [hlen, CBlock.txids, List.length_map]
                            · intro hcheck
                              by_contra hne
                              exact hroot ⟨hcheck, hne⟩

/-! ## What is accepted can be sent -/

/-- None of its sizes is beyond what the format can hold. -/
theorem Valid.fits {block : CBlock} {fCheckMerkleRoot : Bool} (h : Valid block fCheckMerkleRoot) :
    CBlock.codec.fits block := by
  have hsize := h.size
  have hmax : MAX_BLOCK_SIZE ≤ MAX_SIZE := by decide
  have htx : ∀ tx : CTransaction, 1 ≤ (CTransaction.codec.write tx).length := by
    intro tx
    have hversion := uint32_length tx.nVersion
    show 1 ≤ (uint32.write tx.nVersion ++ _ : List Byte).length
    rw [List.length_append]
    omega
  have hlen := length_le_flatMap htx block.vtx
  have hparts : (block.vtx.flatMap CTransaction.codec.write).length ≤ block.Serialize.length := by
    show _ ≤ (_ ++ (_ ++ block.vtx.flatMap CTransaction.codec.write) : List Byte).length
    rw [List.length_append, List.length_append]
    omega
  refine ⟨⟨trivial, trivial, trivial, trivial, trivial, trivial⟩, ?_, ?_⟩
  · show block.vtx.length ≤ MAX_SIZE
    omega
  · intro tx hmem
    exact (CTransaction.fits_iff tx).mpr (CheckTransaction_fits (h.transaction tx hmem))

/-- **An accepted block is read back** from what is written for it. -/
theorem Unserialize_of_CheckBlock {p : CChainParams} {now : Int} {block : CBlock}
    {fCheckPOW fCheckMerkleRoot : Bool} (rest : List Byte)
    (h : CheckBlock p now block fCheckPOW fCheckMerkleRoot = .ok ()) :
    CBlock.Unserialize (block.Serialize ++ rest) = some (block, rest) :=
  CBlock.codec.read_write block rest (valid_of_CheckBlock h).fits

/-- A block is accepted when it is what the checks ask for. -/
theorem CheckBlock_of_valid {p : CChainParams} {now : Int} {block : CBlock} {fCheckPOW : Bool}
    (hv : Valid block true) (hcount : block.vtx.length ≤ MAX_BLOCK_SIZE)
    (hpow : fCheckPOW = true → CheckProofOfWork p block.GetHash block.header.nBits = true)
    (htime : (block.header.nTime.toNat : Int) ≤ now + 2 * 60 * 60)
    (hsigops : (block.vtx.map GetLegacySigOpCount).sum ≤ MAX_BLOCK_SIGOPS) :
    CheckBlock p now block fCheckPOW true = .ok () := by
  have hlength : ¬ (block.vtx = [] ∨ block.vtx.length > MAX_BLOCK_SIZE
      ∨ block.Serialize.length > MAX_BLOCK_SIZE) := by
    rintro (h | h | h)
    · exact hv.vtx h
    · exact absurd hcount (Nat.not_le.mpr h)
    · exact absurd hv.size (Nat.not_le.mpr h)
  rw [CheckBlock, if_neg hlength, if_neg (fun h => h.2 (hpow h.1)), if_neg (Int.not_lt.mpr htime),
    if_neg (not_not.mpr hv.coinbase), if_neg (by rw [hv.rest]; exact Bool.false_ne_true)]
  refine Transaction.bind_eq_ok.mpr ⟨(checkTransactions_iff _).mpr hv.transaction, ?_⟩
  have hdedup : ¬ block.txids.dedup.length ≠ block.vtx.length := by
    rw [hv.txids.dedup, CBlock.txids, List.length_map]
    exact not_not.mpr rfl
  rw [checkTree, if_neg hdedup, if_neg (Nat.not_lt.mpr hsigops),
    if_neg (fun h => h.2 (hv.root rfl))]

/-- A block with nothing but its coinbase. -/
theorem CheckBlock_single {p : CChainParams} {now : Int} {block : CBlock} {tx : CTransaction}
    (hvtx : block.vtx = [tx]) (hsize : block.Serialize.length ≤ MAX_BLOCK_SIZE)
    (hpow : CheckProofOfWork p block.GetHash block.header.nBits = true)
    (htime : (block.header.nTime.toNat : Int) ≤ now + 2 * 60 * 60) (hcoinbase : tx.IsCoinBase = true)
    (htx : CheckTransaction tx = .ok ()) (hsigops : GetLegacySigOpCount tx ≤ MAX_BLOCK_SIGOPS)
    (hroot : block.header.hashMerkleRoot = tx.GetHash) : CheckBlock p now block true true = .ok () := by
  have hids : block.txids = [tx.GetHash] := congrArg (List.map CTransaction.GetHash) hvtx
  refine CheckBlock_of_valid ⟨?_, hsize, ?_, ?_, ?_, ?_, ?_⟩ ?_ (fun _ => hpow) htime ?_
  · rw [hvtx]
    exact List.cons_ne_nil tx []
  · rw [hvtx]
    exact hcoinbase
  · rw [hvtx]
    rfl
  · intro t ht
    rw [hvtx] at ht
    rw [List.mem_singleton.mp ht]
    exact htx
  · rw [hids]
    exact List.nodup_singleton _
  · intro _
    rw [hids, BuildMerkleTree_one, hroot]
  · rw [hvtx, List.length_singleton]
    decide
  · rw [hvtx, List.map_singleton, List.sum_singleton]
    exact hsigops

/-! ## The genesis block -/

/-- The line of a newspaper in the coinbase of the genesis block. -/
def pszTimestamp : List Byte :=
  "The Times 03/Jan/2009 Chancellor on brink of second bailout for banks".toList.map
    (fun c => BitVec.ofNat 8 c.toNat)

/-- Bytes from their hexadecimal digits. -/
def ofHex (len : Nat) (digits : Nat) : List Byte := (bytesLE len digits).reverse

/-- The only transaction of the genesis block. -/
def txNew : CTransaction where
  nVersion := 1
  vin := [⟨⟨0, -1⟩, push_uint64 486604799 ++ pushData [4] ++ pushData pszTimestamp, -1⟩]
  vout := [⟨50 * COIN,
    pushData (ofHex 65 0x04678afdb0fe5548271967f1a67130b7105cd6a828e03909a67962e0ea1f61deb649f6bc3f4cef38c4f35504e51ec112de5c384df7ba0b8d578a4c702b6bf11d5f)
      ++ ofHex 1 OP_CHECKSIG⟩]
  nLockTime := 0

/-- The genesis block of `CMainParams`, its root as the assertion there has it. -/
def genesis : CBlock where
  header := ⟨1, 0, 0x4a5e1e4baab89f3a32518a88c31bc87f618f76673e2cc77ab2127b7afdeda33b, 1231006505,
    0x1d00ffff, 2083236893⟩
  vtx := [txNew]

/-- The hash of its transaction. -/
theorem txNew_GetHash : txNew.GetHash
    = 0x4a5e1e4baab89f3a32518a88c31bc87f618f76673e2cc77ab2127b7afdeda33b := by
  rw [CTransaction.GetHash, Hash_eq_window]
  decide +kernel

/-- The hash of the genesis block, as the assertion in `CMainParams` has it. -/
theorem genesis_GetHash : genesis.GetHash
    = 0x000000000019d6689c085ae165831e934ff763ae46a2a6c172b3f1b60a8ce26f := by
  rw [CBlock.GetHash, CBlockHeader.GetHash, Hash_eq_window]
  decide +kernel

/-- It is accepted. -/
theorem CheckBlock_genesis : CheckBlock mainNet 1231006505 genesis true true = .ok () := by
  have hpow : CheckProofOfWork mainNet genesis.GetHash genesis.header.nBits = true := by
    rw [genesis_GetHash]
    decide +kernel
  exact CheckBlock_single rfl (by decide +kernel) hpow (by decide) (by decide) (by decide +kernel)
    (by decide +kernel) txNew_GetHash.symm

theorem Unserialize_of_CheckBlock_genesis :
    CBlock.Unserialize (genesis.Serialize ++ []) = some (genesis, []) :=
  Unserialize_of_CheckBlock [] CheckBlock_genesis

/-! ## What the hash of a block binds -/

/-- Little-endian bytes in two parts. -/
theorem bytesLE_append (j k x : Nat) : bytesLE (j + k) x = bytesLE j x ++ bytesLE k (x / 256 ^ j) := by
  induction j generalizing x with
  | zero => rw [Nat.zero_add, Nat.pow_zero, Nat.div_one]; rfl
  | succ j ih =>
      rw [Nat.add_right_comm, bytesLE, bytesLE, ih, List.cons_append, Nat.div_div_eq_div_mul,
        Nat.pow_succ, Nat.mul_comm 256]

/-- The low bytes depend on the low digits only. -/
theorem bytesLE_mod {k j x : Nat} (h : k ≤ j) : bytesLE k (x % 256 ^ j) = bytesLE k x := by
  induction k generalizing j x with
  | zero => rfl
  | succ k ih =>
      obtain ⟨j, rfl⟩ : ∃ i, j = i + 1 := ⟨j - 1, by omega⟩
      have hlow : BitVec.ofNat 8 (x % 256 ^ (j + 1)) = BitVec.ofNat 8 x := by
        apply BitVec.eq_of_toNat_eq
        rw [BitVec.toNat_ofNat, BitVec.toNat_ofNat]
        exact Nat.mod_mod_of_dvd x (Dvd.intro_left (256 ^ j) rfl)
      have hhigh : x % 256 ^ (j + 1) / 256 = x / 256 % 256 ^ j := by
        rw [Nat.pow_succ, Nat.mul_comm, Nat.mod_mul_right_div_self]
      rw [bytesLE, bytesLE, hlow, hhigh, ih (by omega)]

/-- The two ways to write the bytes of a word. -/
theorem littleEndian_eq (w : BitVec 32) : littleEndian w = bytesLE 4 w.toNat := by
  have hbyte : ∀ k, w.extractLsb' k 8 = BitVec.ofNat 8 (w.toNat / 2 ^ k) := by
    intro k
    apply BitVec.eq_of_toNat_eq
    rw [BitVec.extractLsb'_toNat, BitVec.toNat_ofNat, Nat.shiftRight_eq_div_pow]
  simp only [littleEndian, hbyte, bytesLE, Nat.div_div_eq_div_mul]
  norm_num

/-- The memory of some words of a number. -/
theorem words_eq (x : Uint256) (k : Nat) (hk : k ≤ 8) :
    ((List.range k).map (fun i => x.extractLsb' (32 * i) 32)).flatMap littleEndian
      = bytesLE (4 * k) x.toNat := by
  induction k with
  | zero => rfl
  | succ k ih =>
      have hword : littleEndian (x.extractLsb' (32 * k) 32) = bytesLE 4 (x.toNat / 256 ^ (4 * k)) := by
        rw [littleEndian_eq, BitVec.extractLsb'_toNat, Nat.shiftRight_eq_div_pow]
        have hpow : 2 ^ (32 * k) = 256 ^ (4 * k) := by
          rw [show 256 = 2 ^ 8 from rfl, ← Nat.pow_mul, ← Nat.mul_assoc]
        rw [hpow]
        exact bytesLE_mod (Nat.le_refl 4)
      rw [List.range_succ, List.map_append, List.flatMap_append, ih (by omega), List.map_singleton,
        List.flatMap_singleton, hword, Nat.mul_succ, bytesLE_append]

/-- **The memory of a header is what is written for it.** -/
theorem header_bytes (b : CBlockHeader) : b.bytes = headerCodec.write b := by
  have h256 : ∀ x : Uint256, (uint256Words x).flatMap littleEndian = uint256.write x :=
    fun x => words_eq x 8 (Nat.le_refl 8)
  have h32 : ∀ w : BitVec 32, littleEndian w = uint32.write w := littleEndian_eq
  rw [CBlockHeader.bytes, CBlockHeader.words, List.cons_append, List.flatMap_cons, List.flatMap_append,
    List.flatMap_append, h256, h256, List.flatMap_cons, List.flatMap_cons, List.flatMap_singleton]
  simp only [h32, List.append_assoc]
  rfl

/-- The strings that are hashed for a block and its Merkle root. -/
def CBlock.hashed (block : CBlock) : Set (List Byte) :=
  {s | s = block.header.bytes ∨ (∃ tx ∈ block.vtx, s = tx.Serialize)
    ∨ ∃ x ∈ nodePairs block.txids, s = pairBytes x}

/-- Headers with one hash are the same, or collide. -/
theorem header_binding {block block' : CBlock} (h : block.GetHash = block'.GetHash) :
    block.header = block'.header ∨ HashCollision block.hashed block'.hashed := by
  rcases Transaction.eq_or_collision (S := block.hashed) (T := block'.hashed) (Or.inl rfl)
    (Or.inl rfl) h with hb | hc
  · rw [header_bytes, header_bytes] at hb
    exact Or.inl (headerCodec.eq_of_write_eq ⟨trivial, trivial, trivial, trivial, trivial, trivial⟩
      ⟨trivial, trivial, trivial, trivial, trivial, trivial⟩ hb)
  · exact Or.inr hc

/-- The hashes of some transactions bind them. -/
theorem vtx_binding {S T : Set (List Byte)} {vtx vtx' : List CTransaction}
    (hfit : ∀ tx ∈ vtx, tx.Fits ∧ tx.Serialize ∈ S) (hfit' : ∀ tx ∈ vtx', tx.Fits ∧ tx.Serialize ∈ T)
    (h : vtx.map CTransaction.GetHash = vtx'.map CTransaction.GetHash) :
    vtx = vtx' ∨ HashCollision S T := by
  induction vtx generalizing vtx' with
  | nil =>
      left
      exact (List.map_eq_nil_iff.mp h.symm).symm
  | cons tx vtx ih =>
      cases vtx' with
      | nil => cases h
      | cons tx' vtx' =>
          obtain ⟨hhash, hrest⟩ := List.cons.inj h
          obtain ⟨⟨hf, hS⟩, hfits⟩ := List.forall_mem_cons.mp hfit
          obtain ⟨⟨hf', hT⟩, hfits'⟩ := List.forall_mem_cons.mp hfit'
          rcases CTransaction.GetHash_binding hf hf' hS hT hhash with htx | hc
          · rcases ih hfits hfits' hrest with hvtx | hc
            · exact Or.inl (congrArg₂ List.cons htx hvtx)
            · exact Or.inr hc
          · exact Or.inr hc

/-- A coinbase with the hash of a node over the other block. -/
theorem coinbase_size {block block' : CBlock} {x : Uint256 × Uint256} (hx : x ∈ nodePairs block'.txids)
    (h : block.txids.head? = some (HashPair x.1 x.2)) :
    (∃ tx, block.vtx.head? = some tx ∧ tx.Serialize.length = 64)
      ∨ HashCollision block.hashed block'.hashed := by
  rw [CBlock.txids, List.head?_map, Option.map_eq_some_iff] at h
  obtain ⟨tx, htx, hhash⟩ := h
  have hmem : tx ∈ block.vtx := List.mem_of_head? htx
  rcases Transaction.eq_or_collision (S := block.hashed) (T := block'.hashed)
    (Or.inr (Or.inl ⟨tx, hmem, rfl⟩)) (Or.inr (Or.inr ⟨x, hx, rfl⟩)) hhash with hs | hc
  · left
    refine ⟨tx, htx, ?_⟩
    rw [hs, pairBytes_length]
  · exact Or.inr hc

/-- **The hash of an accepted block binds the whole block.** -/
theorem CheckBlock_binding {p : CChainParams} {now now' : Int} {block block' : CBlock}
    {fCheckPOW fCheckPOW' : Bool} (h : CheckBlock p now block fCheckPOW true = .ok ())
    (h' : CheckBlock p now' block' fCheckPOW' true = .ok ()) (hhash : block.GetHash = block'.GetHash) :
    block = block'
      ∨ (∃ tx, (block.vtx.head? = some tx ∨ block'.vtx.head? = some tx) ∧ tx.Serialize.length = 64)
      ∨ HashCollision block.hashed block'.hashed := by
  have hv := valid_of_CheckBlock h
  have hv' := valid_of_CheckBlock h'
  have hfit : ∀ {b : CBlock}, Valid b true → ∀ tx ∈ b.vtx, tx.Fits ∧ tx.Serialize ∈ b.hashed :=
    fun hb tx ht => ⟨CheckTransaction_fits (hb.transaction tx ht), Or.inr (Or.inl ⟨tx, ht, rfl⟩)⟩
  rcases header_binding hhash with hheader | hc
  · have hroot : BuildMerkleTree block.txids = BuildMerkleTree block'.txids := by
      rw [← hv.root rfl, ← hv'.root rfl, hheader]
    have hne : block.txids ≠ [] := fun h => hv.vtx (List.map_eq_nil_iff.mp h)
    have hne' : block'.txids ≠ [] := fun h => hv'.vtx (List.map_eq_nil_iff.mp h)
    rcases BuildMerkleTree_binding hne hne' hv.txids hv'.txids hroot with
      hids | (⟨x, hx, h0⟩ | ⟨x, hx, h0⟩) | hc
    · rcases vtx_binding (hfit hv) (hfit hv') hids with hvtx | hc
      · left
        cases block
        cases block'
        exact congrArg₂ CBlock.mk hheader hvtx
      · exact Or.inr (Or.inr hc)
    · rcases coinbase_size hx h0 with ⟨tx, htx, hsize⟩ | hc
      · exact Or.inr (Or.inl ⟨tx, Or.inl htx, hsize⟩)
      · exact Or.inr (Or.inr hc)
    · rcases coinbase_size hx h0 with ⟨tx, htx, hsize⟩ | hc
      · exact Or.inr (Or.inl ⟨tx, Or.inr htx, hsize⟩)
      · exact Or.inr (Or.inr hc.symm)
    · right
      right
      obtain ⟨s, ⟨x, hx, rfl⟩, t, ⟨y, hy, rfl⟩, hne⟩ := hashCollision hc
      exact ⟨_, Or.inr (Or.inr ⟨x, hx, rfl⟩), _, Or.inr (Or.inr ⟨y, hy, rfl⟩), hne⟩
  · exact Or.inr (Or.inr hc)

/-- A transaction with one input and one output. -/
def payment (hash : Uint256) (nValue : BitVec 64) : CTransaction :=
  ⟨1, [⟨⟨hash, 0⟩, [], -1⟩], [⟨nValue, []⟩], 0⟩

/-- Three transactions, so that the last one is paired with itself; the second spends the
    first. -/
def payments : List CTransaction :=
  [txNew, payment 0x4a5e1e4baab89f3a32518a88c31bc87f618f76673e2cc77ab2127b7afdeda33b (20 * COIN),
    payment 1 (30 * COIN)]

/-- A block of them, whose hash was not looked for. -/
def paymentBlock : CBlock where
  header := ⟨1, 0, 0x120ac01acc423f2ffa2bb476f5bf153310bdb552484108f6c251d91637446665, 1231006505,
    0x1d00ffff, 0⟩
  vtx := payments

/-- The hashes of the transactions. -/
def paymentIds : List Uint256 :=
  [0x4a5e1e4baab89f3a32518a88c31bc87f618f76673e2cc77ab2127b7afdeda33b,
    0xc45ef63462f123d1e56484c17d9336d30ee25fa14c453405f0248cdcc4159666,
    0x29526e07a0d77caad12945f3fa99009f39d5c35efcec8c645756686f9b8e3343]

/-- The hashes are those of the transactions. -/
theorem txids_paymentBlock : paymentBlock.txids = paymentIds := by
  have hfirst : (payment 0x4a5e1e4baab89f3a32518a88c31bc87f618f76673e2cc77ab2127b7afdeda33b
      (20 * COIN)).GetHash
      = 0xc45ef63462f123d1e56484c17d9336d30ee25fa14c453405f0248cdcc4159666 := by
    rw [CTransaction.GetHash, Hash_eq_window]
    decide +kernel
  have hsecond : (payment 1 (30 * COIN)).GetHash
      = 0x29526e07a0d77caad12945f3fa99009f39d5c35efcec8c645756686f9b8e3343 := by
    rw [CTransaction.GetHash, Hash_eq_window]
    decide +kernel
  rw [CBlock.txids, paymentBlock, payments, List.map_cons, List.map_cons, List.map_singleton,
    txNew_GetHash, hfirst, hsecond, paymentIds]

/-- Their root. -/
theorem paymentIds_root : BuildMerkleTree paymentIds
    = 0x120ac01acc423f2ffa2bb476f5bf153310bdb552484108f6c251d91637446665 := by
  have hleft : HashPair (leaves paymentIds 0) (leaves paymentIds 1)
      = 0xb4fccf65282689e6ae3e607fc78156a44ae96852e720cd89219a5d5bdfd0b123 := by
    rw [HashPair, Hash_eq_window]
    decide +kernel
  have hright : HashPair (leaves paymentIds 2) (leaves paymentIds 2)
      = 0x629a408db6d5eab101aa2ee67c96423f3bfe80a2fdaf3ab6244ff0a7ca51ce14 := by
    rw [HashPair, Hash_eq_window]
    decide +kernel
  have hheight : HashTree.height paymentIds.length = 2 := by decide
  have hroot : BuildMerkleTree paymentIds
      = HashPair (HashPair (leaves paymentIds 0) (leaves paymentIds 1))
          (HashPair (leaves paymentIds 2) (leaves paymentIds 2)) := by
    rw [BuildMerkleTree_eq (by decide), HashTree.root, hheight]
    rfl
  rw [hroot, hleft, hright, HashPair, Hash_eq_window]
  decide +kernel

/-- The block passes the checks but for its work. -/
theorem valid_paymentBlock : Valid paymentBlock true where
  vtx := List.cons_ne_nil _ _
  size := by decide +kernel
  coinbase := by decide
  rest := by decide +kernel
  transaction := by decide +kernel
  txids := by
    rw [txids_paymentBlock]
    decide
  root _ := by
    rw [txids_paymentBlock, paymentIds_root]
    rfl

theorem CheckBlock_binding_payments :
    paymentBlock = paymentBlock
      ∨ (∃ tx, (paymentBlock.vtx.head? = some tx ∨ paymentBlock.vtx.head? = some tx)
          ∧ tx.Serialize.length = 64)
      ∨ HashCollision paymentBlock.hashed paymentBlock.hashed := by
  have hcheck : CheckBlock mainNet 1231006505 paymentBlock false true = .ok () :=
    CheckBlock_of_valid valid_paymentBlock (by decide) (fun h => absurd h Bool.false_ne_true)
      (by decide) (by decide +kernel)
  exact CheckBlock_binding hcheck hcheck rfl

end Block
