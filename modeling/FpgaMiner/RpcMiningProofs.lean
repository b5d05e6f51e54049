import FpgaMiner.CpuMinerProofs
import FpgaMiner.MerkleProofs
import FpgaMiner.BlockProofs
import Mathlib.Data.List.AList

/-! # The server behind `getwork`

    bitcoind hands out the header of a block it keeps and takes it back with another time and nonce;
    all it has to find the block again is the Merkle root.  The blocks are deleted when the chain has
    another tip, while the table of roots points to them.

    * **`ParseHex_HexStr`** and **`headerOf_words`** — what is handed out is read back;
    * **`Inv.getwork`** — the table points to blocks that are there and have that root;
    * **`getwork_defined`** — no call uses a deleted block, whatever calls were made before;
    * **`getwork_returns`** — on the main network, work that comes back while the tip is the same is
      checked as the very header the miner hashed. -/

namespace RpcMining

open Sha256 Codec Getwork MinerDriver BlockHeader HashBuffers Transaction Script Block Merkle Retarget
open CpuMiner

/-! ## The code -/

/-- What `CreateNewBlock` puts behind the extra nonce. -/
def COINBASE_FLAGS : CScript := pushData ("/P2SH/".toList.map chr)

/-- A block of the chain: its hash and what is read of it and the blocks before it. -/
structure Index where
  hash : Uint256
  chain : List CBlockIndex
  deriving DecidableEq

/-- `vtx[0].vin[0].scriptSig = scriptSig`; `none` when there is no such input. -/
def withScriptSig (vtx : List CTransaction) (scriptSig : CScript) : Option (List CTransaction) :=
  match vtx with
  | [] => none
  | tx :: rest =>
      match tx.vin with
      | [] => none
      | txin :: vin => some ({ tx with vin := { txin with scriptSig := scriptSig } :: vin } :: rest)

/-- What `CreateNewBlock` fills in. -/
structure Template (p : CChainParams) (pindexPrev : Index) (block : CBlock) : Prop where
  input : (withScriptSig block.vtx []).isSome
  nVersion : block.header.nVersion = 2
  hashPrevBlock : block.header.hashPrevBlock = pindexPrev.hash
  nBits : GetNextWorkRequired p block.header.nTime pindexPrev.chain = some block.header.nBits

/-- What comes of `CreateNewBlockWithKey`. -/
inductive Created
  | block (block : CBlock)
  | null
  | thrown

/-- What a call sees of the node. -/
structure Node (p : CChainParams) where
  vNodesEmpty : Bool
  IsInitialBlockDownload : Bool
  Tip : Option Index
  GetTransactionsUpdated : Word
  GetTime : Int
  GetAdjustedTime : Int
  CreateNewBlockWithKey : Created
  -- without a tip the height is below that of any checkpoint
  tip_isSome : IsInitialBlockDownload = false → Tip.isSome
  created : ∀ block t, CreateNewBlockWithKey = .block block → Tip = some t → Template p t block

/-- The static variables of `getwork` and `IncrementExtraNonce`, and the blocks that are allocated. -/
structure Server where
  mapNewBlock : AList (fun _ : Uint256 => Nat × CScript) := ∅
  vNewBlockTemplate : List Nat := []
  nTransactionsUpdatedLast : Word := 0
  pindexPrev : Option Index := none
  nStart : Int := 0
  pblocktemplate : Option Nat := none
  nExtraNonce : Word := 0
  hashPrevBlock : Uint256 := 0
  heap : Nat → Option CBlock := fun _ => none
  allocated : Nat := 0

/-- What a call of `getwork` ends with; `unknown` is work that is not in the table. -/
inductive Outcome
  | error (code : Int) (message : String)
  | exception
  | work (midstate data hash1 target : List Byte)
  | unknown
  /-- `CheckWork` is called with the block. -/
  | checked (block : CBlock)
  /-- A failed assertion, or a pointer to no block. -/
  | undefined

section Code

variable {p : CChainParams}

/-- The time of a block that is worked on, and on the test network its difficulty; `none` is a
    failed assertion. -/
def UpdateTime (p : CChainParams) (now : Int) (pindexPrev : Index) (block : CBlockHeader) :
    Option CBlockHeader :=
  let nTime : Word := BitVec.ofInt 32 (max (GetMedianTimePast pindexPrev.chain + 1) now)
  if p.fTestNet then
    (GetNextWorkRequired p nTime pindexPrev.chain).map
      (fun nBits => { block with nTime := nTime, nBits := nBits })
  else some { block with nTime := nTime }

/-- The static variables after `++nExtraNonce`. -/
def nextExtraNonce (s : Server) (block : CBlockHeader) : Server :=
  let s :=
    if s.hashPrevBlock ≠ block.hashPrevBlock then
      { s with nExtraNonce := 0, hashPrevBlock := block.hashPrevBlock }
    else s
  { s with nExtraNonce := s.nExtraNonce + 1 }

/-- The script of the coinbase: height, extra nonce, flags. -/
def coinbaseScript (nHeight nExtraNonce : Word) : CScript :=
  push_uint64 nHeight.toNat ++ pushData (getvch nExtraNonce.toNat) ++ COINBASE_FLAGS

/-- `hashMerkleRoot = BuildMerkleTree()` with a script in the coinbase. -/
def setScript (block : CBlock) (scriptSig : CScript) : Option CBlock :=
  (withScriptSig block.vtx scriptSig).map (fun vtx =>
    ⟨{ block.header with hashMerkleRoot := BuildMerkleTree (vtx.map CTransaction.GetHash) }, vtx⟩)

/-- `IncrementExtraNonce`, the static variables apart. -/
def IncrementExtraNonce (block : CBlock) (pindexPrev : Index) (nExtraNonce : Word) : Option CBlock :=
  let scriptSig := coinbaseScript (BitVec.ofNat 32 pindexPrev.chain.length) nExtraNonce
  if scriptSig.length ≤ 100 then setScript block scriptSig else none

/-- The strings for a header. -/
def reply (header : CBlockHeader) : Outcome :=
  match FormatHashBuffers header with
  | none => .undefined
  | some (pmidstate, pdata, phash1) =>
      .work (HexStr (pmidstate.words.flatMap littleEndian)) (HexStr (pdata.flatMap littleEndian))
        (HexStr (phash1.flatMap littleEndian))
        (HexStr ((uint256Words (target header.nBits)).flatMap littleEndian))

/-- Old blocks are deleted with what points to them. -/
def deallocate (s : Server) : Server :=
  { s with
    mapNewBlock := ∅
    vNewBlockTemplate := []
    heap := fun ptr => if ptr ∈ s.vNewBlockTemplate then none else s.heap ptr }

/-- A new block, when one is needed. -/
def renew (n : Node p) (s : Server) : Option Outcome × Server :=
  if s.pindexPrev ≠ n.Tip ∨ (n.GetTransactionsUpdated ≠ s.nTransactionsUpdatedLast
      ∧ n.GetTime - s.nStart > 60) then
    let s := if s.pindexPrev ≠ n.Tip then deallocate s else s
    let s := { s with
      pindexPrev := none
      nTransactionsUpdatedLast := n.GetTransactionsUpdated
      nStart := n.GetTime }
    match n.CreateNewBlockWithKey with
    | .thrown => (some .exception, s)
    | .null => (some (.error (-7) "Out of memory"), { s with pblocktemplate := none })
    | .block block =>
        (none, { s with
          heap := Function.update s.heap s.allocated (some block)
          allocated := s.allocated + 1
          pblocktemplate := some s.allocated
          vNewBlockTemplate := s.vNewBlockTemplate ++ [s.allocated]
          pindexPrev := n.Tip })
  else (none, s)

/-- The block of `pblocktemplate` with the next extra nonce, saved under its root. -/
def handOut (n : Node p) (s : Server) : Outcome × Server :=
  match s.pblocktemplate, s.pindexPrev with
  | some ptr, some pindexPrev =>
      match s.heap ptr with
      | none => (.undefined, s)
      | some block =>
          match UpdateTime p n.GetAdjustedTime pindexPrev block.header with
          | none => (.undefined, s)
          | some header =>
              let s := nextExtraNonce s header
              match IncrementExtraNonce ⟨{ header with nNonce := 0 }, block.vtx⟩ pindexPrev
                  s.nExtraNonce with
              | none => (.undefined, s)
              | some block =>
                  let scriptSig := coinbaseScript (BitVec.ofNat 32 pindexPrev.chain.length) s.nExtraNonce
                  (reply block.header, { s with
                    heap := Function.update s.heap ptr (some block)
                    mapNewBlock := s.mapNewBlock.insert block.header.hashMerkleRoot (ptr, scriptSig) })
  | _, _ => (.undefined, s)

/-- A blank, as in the C locale. -/
def isspace (c : Byte) : Bool := c = chr ' ' ∨ (9 ≤ c ∧ c ≤ 13)

/-- The table of `HexDigit` has the digits of `nibbleFromChar`. -/
def HexDigit (c : Byte) : Option Byte := if nibbleFromChar c = 255 then none else some (nibbleFromChar c)

/-- The bytes of a hex string, up to the first character that is neither a digit nor
    a blank. -/
def ParseHex : List Byte → List Byte
  | [] => []
  | c :: psz =>
      if isspace c then ParseHex psz
      else
        match HexDigit c, psz with
        | some n, c' :: psz =>
            match HexDigit c' with
            | some c' => ((n <<< 4) ||| c') :: ParseHex psz
            | none => []
        | _, _ => []

/-- A `uint256` in the words of a memory. -/
def wordsUint256 (ws : List Word) : Uint256 :=
  ws.getD 7 0 ++ ws.getD 6 0 ++ ws.getD 5 0 ++ ws.getD 4 0
    ++ ws.getD 3 0 ++ ws.getD 2 0 ++ ws.getD 1 0 ++ ws.getD 0 0

/-- The memory behind a `CBlock*`. -/
def headerOf (ws : List Word) : CBlockHeader :=
  ⟨ws.getD 0 0, wordsUint256 (ws.drop 1), wordsUint256 (ws.drop 9), ws.getD 17 0, ws.getD 18 0,
    ws.getD 19 0⟩

/-- `getwork` with data. -/
def submit (data : List Byte) (s : Server) : Outcome × Server :=
  let vchData := ParseHex data
  if vchData.length ≠ 128 then (.error (-8) "Invalid parameter", s)
  else
    let pdata := headerOf ((memoryWords vchData).map ByteReverse)
    match s.mapNewBlock.lookup pdata.hashMerkleRoot with
    | none => (.unknown, s)
    | some (ptr, scriptSig) =>
        match s.heap ptr with
        | none => (.undefined, s)
        | some block =>
            match setScript ⟨{ block.header with nTime := pdata.nTime, nNonce := pdata.nNonce },
                block.vtx⟩ scriptSig with
            | none => (.undefined, s)
            | some block =>
                (.checked block, { s with heap := Function.update s.heap ptr (some block) })

/-- The server calls it only with a wallet. -/
def getwork (n : Node p) (data : Option (List Byte)) (s : Server) : Outcome × Server :=
  if n.vNodesEmpty then (.error (-9) "Bitcoin is not connected!", s)
  else if n.IsInitialBlockDownload then (.error (-10) "Bitcoin is downloading blocks...", s)
  else
    match data with
    | some data => submit data s
    | none =>
        match renew n s with
        | (some error, s) => (error, s)
        | (none, s) => handOut n s

end Code

/-- After any calls. -/
inductive Reachable (p : CChainParams) : Server → Prop
  | init : Reachable p {}
  | call {s : Server} (n : Node p) (data : Option (List Byte)) :
      Reachable p s → Reachable p (getwork n data s).2

/-- After calls that see one tip, none of which fails for want of a block: the next request after such
    a failure empties the table. -/
inductive Later (p : CChainParams) (t : Index) : Server → Server → Prop
  | refl {s : Server} : Later p t s s
  | call {s s' : Server} {n : Node p} {block : CBlock} (data : Option (List Byte)) :
      Later p t s s' → n.Tip = some t → n.CreateNewBlockWithKey = .block block →
      Later p t s (getwork n data s').2

/-! ## What comes back -/

/-- A digit that was written is read as one. -/
theorem HexDigit_hexmap {k : Nat} (hk : k < 16) :
    isspace (hexmap.getD k 0) = false
      ∧ HexDigit (hexmap.getD k 0) = some (nibbleFromChar (hexmap.getD k 0)) := by
  have hall : ∀ k : Fin 16, isspace (hexmap.getD k.val 0) = false
      ∧ HexDigit (hexmap.getD k.val 0) = some (nibbleFromChar (hexmap.getD k.val 0)) := by decide
  exact hall ⟨k, hk⟩

/-- Two digits are a byte. -/
theorem ParseHex_pair {c c' n n' : Byte} {psz : List Byte} (hspace : isspace c = false)
    (hdigit : HexDigit c = some n) (hdigit' : HexDigit c' = some n') :
    ParseHex (c :: c' :: psz) = ((n <<< 4) ||| n') :: ParseHex psz := by
  rw [ParseHex, hspace, if_neg Bool.false_ne_true]
  · rw [hdigit']
  · exact hdigit

/-- **A hex string is read as the bytes it was written from.** -/
theorem ParseHex_HexStr (bytes : List Byte) : ParseHex (HexStr bytes) = bytes := by
  induction bytes with
  | nil => rfl
  | cons val bytes ih =>
      have hhi : (val >>> 4).toNat < 16 := by
        rw [BitVec.toNat_ushiftRight, Nat.shiftRight_eq_div_pow]
        exact Nat.div_lt_of_lt_mul val.isLt
      have hlo : (val &&& 15).toNat < 16 := by
        rw [BitVec.toNat_and]
        exact Nat.lt_of_le_of_lt Nat.and_le_right (by decide)
      obtain ⟨hspace, hdigit⟩ := HexDigit_hexmap hhi
      obtain ⟨-, hdigit'⟩ := HexDigit_hexmap hlo
      rw [HexStr_cons, ParseHex_pair hspace hdigit hdigit', nibbles, ih]

/-- A number from its words. -/
theorem wordsUint256_words (x : Uint256) (rest : List Word) :
    wordsUint256 (uint256Words x ++ rest) = x := by
  show x.extractLsb' 224 32 ++ x.extractLsb' 192 32 ++ x.extractLsb' 160 32 ++ x.extractLsb' 128 32
    ++ x.extractLsb' 96 32 ++ x.extractLsb' 64 32 ++ x.extractLsb' 32 32 ++ x.extractLsb' 0 32 = x
  apply BitVec.eq_of_getLsbD_eq
  intro i hi
  simp only [BitVec.getLsbD_append, BitVec.getLsbD_extractLsb']
  grind

/-- A header from its words. -/
theorem headerOf_words (b : CBlockHeader) (rest : List Word) : headerOf (b.words ++ rest) = b := by
  have hprev := wordsUint256_words b.hashPrevBlock
    (uint256Words b.hashMerkleRoot ++ ([b.nTime, b.nBits, b.nNonce] ++ rest))
  have hroot := wordsUint256_words b.hashMerkleRoot ([b.nTime, b.nBits, b.nNonce] ++ rest)
  show (⟨b.nVersion, wordsUint256 _, wordsUint256 _, b.nTime, b.nBits, b.nNonce⟩ : CBlockHeader) = b
  exact congrArg₂ (fun prev root => (⟨b.nVersion, prev, root, b.nTime, b.nBits, b.nNonce⟩ : CBlockHeader))
    hprev hroot

/-- The data for a header. -/
def workData (b : CBlockHeader) : List Byte := HexStr ((padWords b.message).flatMap littleEndian)

/-- The data of work has the length that is asked for. -/
theorem ParseHex_workData_length (b : CBlockHeader) : (ParseHex (workData b)).length = 128 := by
  rw [workData, ParseHex_HexStr, littleEndian_length, padWords_length, message_length]

/-- The server reads the header that was hashed. -/
theorem headerOf_workData (b : CBlockHeader) :
    headerOf ((memoryWords (ParseHex (workData b))).map ByteReverse) = b := by
  have hwords : b.message.map ByteReverse = b.words := by
    rw [CBlockHeader.message, List.map_map]
    exact (List.map_congr_left fun w _ => ByteReverse_ByteReverse w).trans (List.map_id _)
  rw [workData, ParseHex_HexStr, memoryWords_littleEndian, padWords, List.append_assoc, List.map_append,
    hwords]
  exact headerOf_words b _

/-- The reply, from the buffers. -/
theorem reply_of {b : CBlockHeader} {pmidstate : Vars} {pdata phash1 : List Word}
    (h : FormatHashBuffers b = some (pmidstate, pdata, phash1)) :
    reply b = .work (HexStr (pmidstate.words.flatMap littleEndian)) (HexStr (pdata.flatMap littleEndian))
      (HexStr (phash1.flatMap littleEndian))
      (HexStr ((uint256Words (target b.nBits)).flatMap littleEndian)) := by
  unfold reply
  rw [h]

/-- The reply, from the header. -/
theorem reply_eq (b : CBlockHeader) :
    reply b = .work (HexStr (b.midstate.words.flatMap littleEndian)) (workData b)
      (HexStr ((padWords (List.replicate 8 0#32)).flatMap littleEndian))
      (HexStr ((uint256Words (target b.nBits)).flatMap littleEndian)) :=
  reply_of (FormatHashBuffers_eq b)

/-! ## The script of the coinbase -/

/-- A word is pushed in no more than six bytes. -/
theorem pushData_getvch_length (w : Word) : (pushData (getvch w.toNat)).length ≤ 6 := by
  have hsize : w.toNat.size ≤ 32 := Nat.size_le.mpr w.isLt
  have hvch : (getvch w.toNat).length ≤ 5 := by
    rw [getvch, bytesLE_length]
    split
    · exact Nat.zero_le 5
    · omega
  have hpush : pushSize (getvch w.toNat).length = bytesLE 1 (getvch w.toNat).length :=
    if_pos (Nat.lt_of_le_of_lt hvch (by decide))
  rw [pushData, List.length_append, hpush, bytesLE_length]
  omega

/-- The assertion of `IncrementExtraNonce` never fails. -/
theorem coinbaseScript_length (nHeight nExtraNonce : Word) :
    (coinbaseScript nHeight nExtraNonce).length ≤ 100 := by
  have hheight : (push_uint64 nHeight.toNat).length ≤ 6 := by
    rw [push_uint64]
    split
    · rw [bytesLE_length]
      decide
    · exact pushData_getvch_length nHeight
  have hnonce := pushData_getvch_length nExtraNonce
  have hflags : COINBASE_FLAGS.length = 7 := by decide
  rw [coinbaseScript, List.length_append, List.length_append]
  omega

/-- The script that was there does not matter. -/
theorem withScriptSig_again {vtx : List CTransaction} (h : (withScriptSig vtx []).isSome)
    (scriptSig : CScript) :
    ∃ vtx', withScriptSig vtx scriptSig = some vtx'
      ∧ ∀ sig, withScriptSig vtx' sig = withScriptSig vtx sig := by
  cases vtx with
  | nil => cases h
  | cons tx rest =>
      obtain ⟨nVersion, vin, vout, nLockTime⟩ := tx
      cases vin with
      | nil => cases h
      | cons txin vin => exact ⟨_, rfl, fun _ => rfl⟩

/-- The root with a script in the coinbase. -/
def rootWith (vtx : List CTransaction) (scriptSig : CScript) : Option Uint256 :=
  (withScriptSig vtx scriptSig).map (fun vtx => BuildMerkleTree (vtx.map CTransaction.GetHash))

/-- A script can be put into the first input, and the Merkle root follows it. -/
theorem setScript_spec (block : CBlock) (h : (withScriptSig block.vtx []).isSome) (scriptSig : CScript) :
    ∃ block', setScript block scriptSig = some block'
      ∧ block'.header = { block.header with hashMerkleRoot := BuildMerkleTree block'.txids }
      ∧ rootWith block.vtx scriptSig = some block'.header.hashMerkleRoot
      ∧ ∀ sig, withScriptSig block'.vtx sig = withScriptSig block.vtx sig := by
  obtain ⟨vtx', hvtx, hagain⟩ := withScriptSig_again h scriptSig
  refine ⟨_, by rw [setScript, hvtx, Option.map_some], rfl, ?_, hagain⟩
  rw [rootWith, hvtx, Option.map_some]

/-! ## The invariant -/

/-- What stays in the header of a block on top of `t`. -/
structure Kept (p : CChainParams) (t : Index) (b : CBlockHeader) : Prop where
  nVersion : b.nVersion = 2
  hashPrevBlock : b.hashPrevBlock = t.hash
  -- on the test network the difficulty goes with the time
  nBits : p.fTestNet = false → ∀ nTime, GetNextWorkRequired p nTime t.chain = some b.nBits

/-- The blocks are there, on top of `tip`, and those in the table have their roots. -/
structure Blocks (p : CChainParams) (tip : Option Index) (s : Server) : Prop where
  allocated : ∀ ptr ∈ s.vNewBlockTemplate, ptr < s.allocated
  there : ∀ ptr ∈ s.vNewBlockTemplate, ∃ block, s.heap ptr = some block
    ∧ (withScriptSig block.vtx []).isSome ∧ ∀ t, tip = some t → Kept p t block.header
  saved : ∀ root ptr scriptSig, s.mapNewBlock.lookup root = some (ptr, scriptSig) →
    ptr ∈ s.vNewBlockTemplate
      ∧ ∀ block, s.heap ptr = some block → rootWith block.vtx scriptSig = some root

/-- **The invariant of the server**: the pointers that are kept lead to blocks that are there,
    and while there is a previous tip the template is one of them. -/
structure Inv (p : CChainParams) (s : Server) : Prop where
  blocks : Blocks p s.pindexPrev s
  current : ∀ t, s.pindexPrev = some t → ∃ ptr ∈ s.vNewBlockTemplate, s.pblocktemplate = some ptr

variable {p : CChainParams}

/-- Except on the test network the difficulty does not depend on the time. -/
theorem GetNextWorkRequired_time (hmain : p.fTestNet = false) (nTime nTime' : Word)
    (chain : List CBlockIndex) :
    GetNextWorkRequired p nTime chain = GetNextWorkRequired p nTime' chain := by
  cases chain with
  | nil => rfl
  | cons pindexLast pprev =>
      rw [GetNextWorkRequired, GetNextWorkRequired]
      simp only [hmain, Bool.false_eq_true, if_false]

/-- A new template is kept. -/
theorem Template.kept {t : Index} {block : CBlock} (h : Template p t block) : Kept p t block.header where
  nVersion := h.nVersion
  hashPrevBlock := h.hashPrevBlock
  nBits := by
    intro hmain nTime
    rw [GetNextWorkRequired_time hmain nTime block.header.nTime]
    exact h.nBits

/-- There are no blocks at first. -/
theorem Blocks.init : Blocks p none {} where
  allocated := fun _ h => absurd h List.not_mem_nil
  there := fun _ h => absurd h List.not_mem_nil
  saved := by
    intro root ptr scriptSig h
    rw [AList.lookup_empty] at h
    cases h

/-- The previous tip may be forgotten. -/
theorem Blocks.forget {tip : Option Index} {s : Server} (h : Blocks p tip s) : Blocks p none s where
  allocated := h.allocated
  there := by
    intro ptr hptr
    obtain ⟨block, hheap, hinput, -⟩ := h.there ptr hptr
    exact ⟨block, hheap, hinput, fun t ht => nomatch ht⟩
  saved := h.saved

/-- A block that is there is changed. -/
theorem Blocks.write {tip : Option Index} {s : Server} (h : Blocks p tip s) {ptr : Nat}
    {block block' : CBlock} (hptr : s.heap ptr = some block)
    (hvtx : ∀ sig, withScriptSig block'.vtx sig = withScriptSig block.vtx sig)
    (hheader : ∀ t, Kept p t block.header → Kept p t block'.header) :
    Blocks p tip { s with heap := Function.update s.heap ptr (some block') } where
  allocated := h.allocated
  there := by
    intro q hq
    obtain ⟨old, hold, hinput, hkept⟩ := h.there q hq
    by_cases heq : q = ptr
    · rw [heq, hptr] at hold
      obtain rfl := Option.some.inj hold
      refine ⟨block', ?_, ?_, fun t ht => hheader t (hkept t ht)⟩
      · show Function.update s.heap ptr (some block') q = some block'
        rw [heq, Function.update_self]
      · rw [hvtx]
        exact hinput
    · refine ⟨old, ?_, hinput, hkept⟩
      show Function.update s.heap ptr (some block') q = some old
      rw [Function.update_of_ne heq, hold]
  saved := by
    intro root q scriptSig hlookup
    obtain ⟨hq, hroot⟩ := h.saved root q scriptSig hlookup
    refine ⟨hq, fun b hb => ?_⟩
    have hb' : Function.update s.heap ptr (some block') q = some b := hb
    by_cases heq : q = ptr
    · rw [heq, Function.update_self] at hb'
      obtain rfl := Option.some.inj hb'
      rw [rootWith, hvtx]
      exact hroot block (heq ▸ hptr)
    · -- another block is not changed
      rw [Function.update_of_ne heq] at hb'
      exact hroot b hb'

/-- A block that is there is saved under its root. -/
theorem Blocks.save {tip : Option Index} {s : Server} (h : Blocks p tip s) {ptr : Nat} {block : CBlock}
    {scriptSig : CScript} {root : Uint256} (hmem : ptr ∈ s.vNewBlockTemplate)
    (hptr : s.heap ptr = some block) (hroot : rootWith block.vtx scriptSig = some root) :
    Blocks p tip { s with mapNewBlock := s.mapNewBlock.insert root (ptr, scriptSig) } where
  allocated := h.allocated
  there := h.there
  saved := by
    intro r q sig hlookup
    have hlookup' : (s.mapNewBlock.insert root (ptr, scriptSig)).lookup r = some (q, sig) := hlookup
    by_cases heq : r = root
    · rw [heq, AList.lookup_insert] at hlookup'
      obtain ⟨rfl, rfl⟩ := Prod.mk.inj (Option.some.inj hlookup')
      refine ⟨hmem, fun b hb => ?_⟩
      obtain rfl := Option.some.inj (hptr.symm.trans hb)
      rw [heq]
      exact hroot
    · rw [AList.lookup_insert_ne heq] at hlookup'
      exact h.saved r q sig hlookup'

/-- Before a new block is made, all that are left are on top of the tip. -/
theorem Blocks.clear {s : Server} (h : Blocks p s.pindexPrev s) (tip : Option Index) :
    Blocks p tip (if s.pindexPrev ≠ tip then deallocate s else s) := by
  by_cases htip : s.pindexPrev = tip
  · rw [if_neg (not_not.mpr htip), ← htip]
    exact h
  · rw [if_pos htip]
    refine ⟨fun _ hptr => absurd hptr List.not_mem_nil, fun _ hptr => absurd hptr List.not_mem_nil, ?_⟩
    intro root ptr scriptSig hlookup
    have hnone : (∅ : AList (fun _ : Uint256 => Nat × CScript)).lookup root = some (ptr, scriptSig) :=
      hlookup
    rw [AList.lookup_empty] at hnone
    cases hnone

/-- A new block is allocated. -/
theorem Blocks.push {tip : Option Index} {s : Server} (h : Blocks p tip s) {block : CBlock}
    (hinput : (withScriptSig block.vtx []).isSome) (hkept : ∀ t, tip = some t → Kept p t block.header) :
    Blocks p tip { s with
      heap := Function.update s.heap s.allocated (some block)
      allocated := s.allocated + 1
      vNewBlockTemplate := s.vNewBlockTemplate ++ [s.allocated] } where
  allocated := by
    intro ptr hptr
    rcases List.mem_append.mp hptr with hold | hnew
    · exact Nat.lt_succ_of_lt (h.allocated ptr hold)
    · rw [List.mem_singleton.mp hnew]
      exact Nat.lt_succ_self _
  there := by
    intro ptr hptr
    rcases List.mem_append.mp hptr with hold | hnew
    · obtain ⟨old, hheap, hrest⟩ := h.there ptr hold
      refine ⟨old, ?_, hrest⟩
      show Function.update s.heap s.allocated (some block) ptr = some old
      rw [Function.update_of_ne (Nat.ne_of_lt (h.allocated ptr hold)), hheap]
    · refine ⟨block, ?_, hinput, hkept⟩
      show Function.update s.heap s.allocated (some block) ptr = some block
      rw [List.mem_singleton.mp hnew, Function.update_self]
  saved := by
    intro root ptr scriptSig hlookup
    obtain ⟨hptr, hroot⟩ := h.saved root ptr scriptSig hlookup
    refine ⟨List.mem_append_left _ hptr, fun b hb => hroot b ?_⟩
    have hb' : Function.update s.heap s.allocated (some block) ptr = some b := hb
    rwa [Function.update_of_ne (Nat.ne_of_lt (h.allocated ptr hptr))] at hb'

/-! ## One call -/

/-- The time can always be updated, and what is kept of a block stays. -/
theorem UpdateTime_spec (now : Int) (pindexPrev : Index) (b : CBlockHeader) :
    ∃ header, UpdateTime p now pindexPrev b = some header ∧ ∀ t, Kept p t b → Kept p t header := by
  rw [UpdateTime]
  cases hnet : p.fTestNet with
  | false =>
      rw [if_neg Bool.false_ne_true]
      exact ⟨_, rfl, fun t h => ⟨h.nVersion, h.hashPrevBlock, h.nBits⟩⟩
  | true =>
      rw [if_pos rfl]
      obtain ⟨nBits, hbits⟩ := Option.isSome_iff_exists.mp (GetNextWorkRequired_isSome p
        (BitVec.ofInt 32 (max (GetMedianTimePast pindexPrev.chain + 1) now)) pindexPrev.chain)
      rw [hbits]
      refine ⟨_, rfl, fun t h => ⟨h.nVersion, h.hashPrevBlock, fun hmain => ?_⟩⟩
      rw [hnet] at hmain
      cases hmain

/-- A call ends with an error of its own. -/
def Outcome.Fails (outcome : Outcome) : Prop :=
  outcome = .exception ∨ ∃ code message, outcome = .error code message

/-- A request fails for want of a new block, or there is one on top of the tip. -/
theorem renew_spec {s : Server} (h : Inv p s) {n : Node p} {t : Index} (ht : n.Tip = some t) :
    (∃ error s', renew n s = (some error, s') ∧ error.Fails ∧ Inv p s'
        ∧ ∀ block, n.CreateNewBlockWithKey ≠ .block block)
      ∨ ∃ s', renew n s = (none, s') ∧ Inv p s' ∧ s'.pindexPrev = some t
        ∧ (s.pindexPrev = some t → s'.mapNewBlock = s.mapNewBlock) := by
  by_cases hneed : s.pindexPrev ≠ n.Tip ∨ (n.GetTransactionsUpdated ≠ s.nTransactionsUpdatedLast
      ∧ n.GetTime - s.nStart > 60)
  · have hclear := h.blocks.clear n.Tip
    have hforget := hclear.forget
    rw [renew, if_pos hneed]
    cases hcreate : n.CreateNewBlockWithKey with
    | thrown =>
        exact .inl ⟨_, _, rfl, .inl rfl,
          ⟨⟨hforget.allocated, hforget.there, hforget.saved⟩, nofun⟩, nofun⟩
    | null =>
        exact .inl ⟨_, _, rfl, .inr ⟨_, _, rfl⟩,
          ⟨⟨hforget.allocated, hforget.there, hforget.saved⟩, nofun⟩, nofun⟩
    | block block =>
        have hnew := n.created block t hcreate ht
        have hkept : ∀ t', n.Tip = some t' → Kept p t' block.header := by
          intro t' ht'
          exact (n.created block t' hcreate ht').kept
        -- the blocks that were not deleted are on top of the same tip as the new one
        have hpush := hclear.push hnew.input hkept
        refine .inr ⟨_, rfl, ⟨⟨hpush.allocated, hpush.there, hpush.saved⟩, ?_⟩, ht, ?_⟩
        · intro _ _
          exact ⟨_, List.mem_append_right _ (List.mem_singleton_self _), rfl⟩
        · intro hsame
          show (if s.pindexPrev ≠ n.Tip then deallocate s else s).mapNewBlock = s.mapNewBlock
          rw [if_neg (not_not.mpr (hsame.trans ht.symm))]
  · rw [renew, if_neg hneed]
    have hsame : s.pindexPrev = n.Tip := not_not.mp (not_or.mp hneed).1
    exact .inr ⟨s, rfl, h, hsame.trans ht, fun _ => rfl⟩

/-- Counting the extra nonce touches no block. -/
theorem nextExtraNonce_eq (s : Server) (b : CBlockHeader) :
    ∃ nExtraNonce hashPrevBlock, nextExtraNonce s b
      = { s with nExtraNonce := nExtraNonce, hashPrevBlock := hashPrevBlock } := by
  rw [nextExtraNonce]
  split
  · exact ⟨_, _, rfl⟩
  · exact ⟨_, _, rfl⟩

/-- What is handed out is saved. -/
theorem handOut_spec {s : Server} (h : Inv p s) (n : Node p) {t : Index} (ht : s.pindexPrev = some t) :
    ∃ header saved s', handOut n s = (reply header, s') ∧ Inv p s' ∧ s'.pindexPrev = some t
      ∧ Kept p t header ∧ s'.mapNewBlock = s.mapNewBlock.insert header.hashMerkleRoot saved := by
  obtain ⟨ptr, hmem, hptr⟩ := h.current t ht
  obtain ⟨block, hheap, hinput, hkept⟩ := h.blocks.there ptr hmem
  obtain ⟨header, htime, hstays⟩ := UpdateTime_spec n.GetAdjustedTime t block.header
  obtain ⟨nExtraNonce, hashPrevBlock, hnext⟩ := nextExtraNonce_eq s header
  have hscript := coinbaseScript_length (BitVec.ofNat 32 t.chain.length) nExtraNonce
  obtain ⟨block', hset, hheader, hroot, hagain⟩ := setScript_spec
    ⟨{ header with nNonce := 0 }, block.vtx⟩ hinput
    (coinbaseScript (BitVec.ofNat 32 t.chain.length) nExtraNonce)
  have hincrement : IncrementExtraNonce ⟨{ header with nNonce := 0 }, block.vtx⟩ t nExtraNonce
      = some block' := (if_pos hscript).trans hset
  have hstays' : ∀ t', Kept p t' block.header → Kept p t' block'.header := by
    intro t' hold
    have hnew := hstays t' hold
    rw [hheader]
    exact ⟨hnew.nVersion, hnew.hashPrevBlock, hnew.nBits⟩
  -- the script that is saved is the one the block has now
  have hroot' : rootWith block'.vtx (coinbaseScript (BitVec.ofNat 32 t.chain.length) nExtraNonce)
      = some block'.header.hashMerkleRoot := by
    rw [← hroot, rootWith, rootWith, hagain]
  have hblocks := (h.blocks.write hheap hagain hstays').save hmem
    (Function.update_self ptr (some block') s.heap) hroot'
  have hout : handOut n s = (reply block'.header, { s with
      mapNewBlock := s.mapNewBlock.insert block'.header.hashMerkleRoot
        (ptr, coinbaseScript (BitVec.ofNat 32 t.chain.length) nExtraNonce)
      nExtraNonce := nExtraNonce
      hashPrevBlock := hashPrevBlock
      heap := Function.update s.heap ptr (some block') }) := by
    simp only [handOut, hptr, ht, hheap, htime, hnext, hincrement]
  exact ⟨block'.header, _, _, hout, ⟨⟨hblocks.allocated, hblocks.there, hblocks.saved⟩, h.current⟩,
    ht, hstays' t (hkept t ht), rfl⟩

/-- A header whose root is in the table comes back with the time and the nonce of the data. -/
theorem submit_found {s : Server} (h : Inv p s) {data : List Byte} {b : CBlockHeader}
    (hlen : (ParseHex data).length = 128)
    (hb : headerOf ((memoryWords (ParseHex data)).map ByteReverse) = b) {ptr : Nat} {scriptSig : CScript}
    (hlookup : s.mapNewBlock.lookup b.hashMerkleRoot = some (ptr, scriptSig)) :
    ∃ old block,
      submit data s = (.checked block, { s with heap := Function.update s.heap ptr (some block) })
      ∧ block.header
        = { old with nTime := b.nTime, nNonce := b.nNonce, hashMerkleRoot := b.hashMerkleRoot }
      ∧ block.header.hashMerkleRoot = BuildMerkleTree block.txids
      ∧ (∀ t, s.pindexPrev = some t → Kept p t old)
      ∧ Inv p { s with heap := Function.update s.heap ptr (some block) } := by
  obtain ⟨hmem, hsaved⟩ := h.blocks.saved _ _ _ hlookup
  obtain ⟨old, hheap, hinput, hkept⟩ := h.blocks.there ptr hmem
  obtain ⟨block, hset, hheader, hroot, hagain⟩ := setScript_spec
    ⟨{ old.header with nTime := b.nTime, nNonce := b.nNonce }, old.vtx⟩ hinput scriptSig
  -- whatever was written into the coinbase since, the saved script brings the root back
  have hsame : block.header.hashMerkleRoot = b.hashMerkleRoot :=
    Option.some.inj (hroot.symm.trans (hsaved old hheap))
  have htree : block.header.hashMerkleRoot = BuildMerkleTree block.txids := by
    rw [hheader]
  have hstays : ∀ t, Kept p t old.header → Kept p t block.header := by
    intro t hold
    rw [hheader]
    exact ⟨hold.nVersion, hold.hashPrevBlock, hold.nBits⟩
  have hblocks := h.blocks.write hheap hagain hstays
  refine ⟨old.header, block, ?_, ?_, htree, hkept, ⟨hblocks, h.current⟩⟩
  · subst hb
    simp only [submit, hlen, ne_eq, not_true_eq_false, if_false, hlookup, hheap, hset]
  · rw [← hsame, htree]
    exact hheader

/-- **A submission is defined**, keeps the invariant and forgets no work. -/
theorem submit_spec {s : Server} (h : Inv p s) (data : List Byte) :
    (submit data s).1 ≠ .undefined ∧ Inv p (submit data s).2
      ∧ (submit data s).2.pindexPrev = s.pindexPrev
      ∧ (submit data s).2.mapNewBlock = s.mapNewBlock := by
  by_cases hlen : (ParseHex data).length = 128
  · cases hlookup : s.mapNewBlock.lookup
        (headerOf ((memoryWords (ParseHex data)).map ByteReverse)).hashMerkleRoot with
    | none =>
        have hsubmit : submit data s = (.unknown, s) := by
          simp only [submit, hlen, ne_eq, not_true_eq_false, if_false, hlookup]
        rw [hsubmit]
        exact ⟨nofun, h, rfl, rfl⟩
    | some found =>
        obtain ⟨ptr, scriptSig⟩ := found
        obtain ⟨old, block, hsubmit, -, -, -, hinv⟩ := submit_found h hlen rfl hlookup
        rw [hsubmit]
        exact ⟨nofun, hinv, rfl, rfl⟩
  · have hsubmit : submit data s = (.error (-8) "Invalid parameter", s) := if_pos hlen
    rw [hsubmit]
    exact ⟨nofun, h, rfl, rfl⟩

/-- A request that is not refused. -/
theorem request_spec {s : Server} (h : Inv p s) {n : Node p} (hnodes : n.vNodesEmpty = false)
    (hsynced : n.IsInitialBlockDownload = false) {t : Index} (ht : n.Tip = some t) :
    (∃ error s', getwork n none s = (error, s') ∧ error.Fails ∧ Inv p s'
        ∧ ∀ block, n.CreateNewBlockWithKey ≠ .block block)
      ∨ ∃ header s', getwork n none s = (reply header, s') ∧ Inv p s' ∧ s'.pindexPrev = some t
        ∧ Kept p t header ∧ (s'.mapNewBlock.lookup header.hashMerkleRoot).isSome
        ∧ (s.pindexPrev = some t → ∀ root, (s.mapNewBlock.lookup root).isSome →
          (s'.mapNewBlock.lookup root).isSome) := by
  have hcall : getwork n none s = match renew n s with
      | (some error, s) => (error, s)
      | (none, s) => handOut n s := by
    rw [getwork, hnodes, hsynced]
    rfl
  rcases renew_spec h ht with ⟨error, s', hrenew, hfails, hinv, hnone⟩
    | ⟨s', hrenew, hinv, htip, hmap⟩
  · refine .inl ⟨error, s', ?_, hfails, hinv, hnone⟩
    rw [hcall, hrenew]
  · obtain ⟨header, saved, s'', hout, hinv', htip', hkept, hinsert⟩ := handOut_spec hinv n htip
    refine .inr ⟨header, s'', ?_, hinv', htip', hkept, ?_, ?_⟩
    · rw [hcall, hrenew]
      exact hout
    · rw [hinsert, AList.lookup_insert]
      rfl
    · intro hsame root hroot
      rw [hinsert]
      by_cases heq : root = header.hashMerkleRoot
      · rw [heq, AList.lookup_insert]
        rfl
      · rw [AList.lookup_insert_ne heq, hmap hsame]
        exact hroot

/-- Without peers, or before the chain is loaded, a call is refused. -/
theorem getwork_refused {n : Node p}
    (h : ¬ (n.vNodesEmpty = false ∧ n.IsInitialBlockDownload = false)) (data : Option (List Byte))
    (s : Server) : ∃ code message, getwork n data s = (.error code message, s) := by
  rw [getwork.eq_def]
  cases hnodes : n.vNodesEmpty with
  | true => exact ⟨_, _, rfl⟩
  | false =>
      cases hsynced : n.IsInitialBlockDownload with
      | true => exact ⟨_, _, rfl⟩
      | false => exact absurd ⟨hnodes, hsynced⟩ h

/-- A call with data is a submission. -/
theorem getwork_submit {n : Node p} (hnodes : n.vNodesEmpty = false)
    (hsynced : n.IsInitialBlockDownload = false) (data : List Byte) (s : Server) :
    getwork n (some data) s = submit data s := by
  rw [getwork, hnodes, hsynced, if_neg Bool.false_ne_true, if_neg Bool.false_ne_true]

/-- **Each call keeps the invariant** and is defined. -/
theorem Inv.getwork {s : Server} (h : Inv p s) (n : Node p) (data : Option (List Byte)) :
    (getwork n data s).1 ≠ .undefined ∧ Inv p (getwork n data s).2 := by
  by_cases hopen : n.vNodesEmpty = false ∧ n.IsInitialBlockDownload = false
  · obtain ⟨hnodes, hsynced⟩ := hopen
    cases data with
    | some data =>
        rw [getwork_submit hnodes hsynced]
        obtain ⟨hdefined, hinv, -⟩ := submit_spec h data
        exact ⟨hdefined, hinv⟩
    | none =>
        obtain ⟨t, ht⟩ := Option.isSome_iff_exists.mp (n.tip_isSome hsynced)
        rcases request_spec h hnodes hsynced ht with ⟨error, s', hcall, hfails, hinv, -⟩
          | ⟨header, s', hcall, hinv, -⟩
        · rw [hcall]
          refine ⟨?_, hinv⟩
          rcases hfails with rfl | ⟨code, message, rfl⟩
          · exact nofun
          · exact nofun
        · rw [hcall, reply_eq]
          exact ⟨nofun, hinv⟩
  · obtain ⟨code, message, hcall⟩ := getwork_refused hopen data s
    rw [hcall]
    exact ⟨nofun, h⟩

/-- **The invariant holds after all calls.** -/
theorem Reachable.inv {s : Server} (h : Reachable p s) : Inv p s := by
  induction h with
  | init => exact ⟨Blocks.init, nofun⟩
  | call n data _ ih => exact (ih.getwork n data).2

/-! ## All calls -/

/-- **No call fails an assertion or uses a block that was deleted.** -/
theorem getwork_defined {s : Server} (h : Reachable p s) (n : Node p) (data : Option (List Byte)) :
    (getwork n data s).1 ≠ .undefined := (h.inv.getwork n data).1

/-- What is in the table stays there while the tip is the same. -/
theorem Later.keeps {t : Index} {s s' : Server} (hlater : Later p t s s') (h : Inv p s)
    (htip : s.pindexPrev = some t) :
    Inv p s' ∧ s'.pindexPrev = some t
      ∧ ∀ root, (s.mapNewBlock.lookup root).isSome → (s'.mapNewBlock.lookup root).isSome := by
  induction hlater with
  | refl => exact ⟨h, htip, fun _ hroot => hroot⟩
  | @call s' n block data _ ht hcreate ih =>
      obtain ⟨hinv, htip', hkeeps⟩ := ih
      refine ⟨(hinv.getwork n data).2, ?_⟩
      by_cases hopen : n.vNodesEmpty = false ∧ n.IsInitialBlockDownload = false
      · obtain ⟨hnodes, hsynced⟩ := hopen
        cases data with
        | some data =>
            obtain ⟨-, -, hprev, hmap⟩ := submit_spec hinv data
            rw [getwork_submit hnodes hsynced, hprev, hmap]
            exact ⟨htip', hkeeps⟩
        | none =>
            rcases request_spec hinv hnodes hsynced ht with ⟨_, _, _, _, _, hnone⟩
              | ⟨header, s'', hcall, -, htip'', -, -, hmore⟩
            · exact absurd hcreate (hnone block)
            · rw [hcall]
              exact ⟨htip'', fun root hroot => hmore htip' root (hkeeps root hroot)⟩
      · obtain ⟨code, message, hcall⟩ := getwork_refused hopen data s'
        rw [hcall]
        exact ⟨htip', hkeeps⟩

/-- **Work comes back as it was hashed**: after other calls on the same tip, the block that is checked
    has the header that was handed out, with the time and the nonce the miner chose, and its root is
    that of its transactions. -/
theorem getwork_returns {s s₁ s₂ : Server} {n n' : Node p} {t : Index}
    {midstate data hash1 target : List Byte} (h : Reachable p s) (hmain : p.fTestNet = false)
    (ht : n.Tip = some t) (hwork : getwork n none s = (.work midstate data hash1 target, s₁))
    (hlater : Later p t s₁ s₂) (hnodes : n'.vNodesEmpty = false)
    (hsynced : n'.IsInitialBlockDownload = false) :
    ∃ b : CBlockHeader, data = workData b ∧ b.hashPrevBlock = t.hash ∧ ∀ nTime nNonce,
      ∃ block s₃, getwork n' (some (workData (withWork b nTime b.nBits nNonce))) s₂
          = (.checked block, s₃)
        ∧ block.header = withWork b nTime b.nBits nNonce
        ∧ block.header.hashMerkleRoot = BuildMerkleTree block.txids := by
  have hopen : n.vNodesEmpty = false ∧ n.IsInitialBlockDownload = false := by
    by_contra hrefused
    obtain ⟨code, message, hcall⟩ := getwork_refused hrefused none s
    rw [hcall] at hwork
    cases hwork
  rcases request_spec h.inv hopen.1 hopen.2 ht with ⟨error, _, hcall, hfails, -⟩
    | ⟨b, s', hcall, hinv, htip, hkept, hsaved, -⟩
  · rw [hcall] at hwork
    rcases hfails with rfl | ⟨code, message, rfl⟩
    · cases hwork
    · cases hwork
  · rw [hcall, reply_eq] at hwork
    obtain ⟨hreply, rfl⟩ := Prod.mk.inj hwork
    obtain ⟨-, rfl, -⟩ := Outcome.work.inj hreply
    refine ⟨b, rfl, hkept.hashPrevBlock, fun nTime nNonce => ?_⟩
    obtain ⟨hinv', htip', hkeeps⟩ := hlater.keeps hinv htip
    obtain ⟨⟨ptr, scriptSig⟩, hlookup⟩ := Option.isSome_iff_exists.mp (hkeeps _ hsaved)
    obtain ⟨old, block, hsubmit, hheader, htree, hold, -⟩ := submit_found hinv'
      (ParseHex_workData_length (withWork b nTime b.nBits nNonce))
      (headerOf_workData (withWork b nTime b.nBits nNonce)) hlookup
    -- the block may have been made for another request, but on top of the same tip
    have hsame := hold t htip'
    have hbits : old.nBits = b.nBits :=
      Option.some.inj ((hsame.nBits hmain 0).symm.trans (hkept.nBits hmain 0))
    refine ⟨block, _, (getwork_submit hnodes hsynced _ _).trans hsubmit, ?_, htree⟩
    rw [hheader, hbits, hsame.nVersion, ← hkept.nVersion, hsame.hashPrevBlock, ← hkept.hashPrevBlock]
    rfl

/-- A request that finds a block is answered with work. -/
theorem request_works {s : Server} (h : Reachable p s) {n : Node p} (hnodes : n.vNodesEmpty = false)
    (hsynced : n.IsInitialBlockDownload = false) {t : Index} (ht : n.Tip = some t) {block : CBlock}
    (hcreate : n.CreateNewBlockWithKey = .block block) :
    ∃ midstate data hash1 target s₁, getwork n none s = (.work midstate data hash1 target, s₁) := by
  rcases request_spec h.inv hnodes hsynced ht with ⟨_, _, _, _, _, hnone⟩ | ⟨b, s', hcall, -⟩
  · exact absurd hcreate (hnone block)
  · rw [hcall, reply_eq]
    exact ⟨_, _, _, _, _, rfl⟩

/-! ## A miner that sees a new tip -/

/-- The chain of the genesis block. -/
def oneIndex : Index := ⟨genesis.GetHash, [⟨1231006505, 0x1d00ffff⟩]⟩

/-- The chain with the block after it. -/
def nextIndex : Index :=
  ⟨0x00000000839a8e6886ab5951d76f411475428afc90947ee320161bbf18eb6048,
    [⟨1231469665, 0x1d00ffff⟩, ⟨1231006505, 0x1d00ffff⟩]⟩

/-- A template with nothing but a coinbase. -/
def emptyTemplate (t : Index) : CBlock where
  header := ⟨2, t.hash, 0, 1231469665, 0x1d00ffff, 0⟩
  vtx := [{ txNew with vin := [⟨⟨0, -1⟩, [0, 0], -1⟩] }]

/-- The templates over the two chains are ones. -/
theorem template_one : Template mainNet oneIndex (emptyTemplate oneIndex) := ⟨rfl, rfl, rfl, rfl⟩

/-- And the one over the next block. -/
theorem template_next : Template mainNet nextIndex (emptyTemplate nextIndex) := ⟨rfl, rfl, rfl, rfl⟩

/-- A node that makes them. -/
def nodeAt {t : Index} (h : Template mainNet t (emptyTemplate t)) (nTransactionsUpdated : Word)
    (now : Int) : Node mainNet where
  vNodesEmpty := false
  IsInitialBlockDownload := false
  Tip := some t
  GetTransactionsUpdated := nTransactionsUpdated
  GetTime := now
  GetAdjustedTime := now
  CreateNewBlockWithKey := .block (emptyTemplate t)
  tip_isSome := fun _ => rfl
  created := by
    rintro block t ⟨⟩ ⟨⟩
    exact h

/-- After a request on the genesis block. -/
theorem reachable_request :
    Reachable mainNet (getwork (nodeAt template_one 1 1231469665) none {}).2 :=
  .call (nodeAt template_one 1 1231469665) none .init

/-- A third request, after the second one has seen a new tip, and over a minute later. -/
theorem getwork_defined_third :
    (getwork (nodeAt template_next 3 1231469844) none
      (getwork (nodeAt template_next 2 1231469744) none
        (getwork (nodeAt template_one 1 1231469665) none {}).2).2).1 ≠ .undefined :=
  getwork_defined (.call (nodeAt template_next 2 1231469744) none reachable_request)
    (nodeAt template_next 3 1231469844) none

/-- The work of the second request comes back after a third one, for which a new block was made,
    and a submission that is refused. -/
theorem getwork_returns_second :
    ∃ (b : CBlockHeader) (s₁ : Server) (midstate hash1 target : List Byte),
      getwork (nodeAt template_next 2 1231469744) none
            (getwork (nodeAt template_one 1 1231469665) none {}).2
          = (.work midstate (workData b) hash1 target, s₁)
        ∧ b.hashPrevBlock = nextIndex.hash ∧ ∀ nTime nNonce,
        ∃ block s₃, getwork (nodeAt template_next 3 1231469850)
              (some (workData (withWork b nTime b.nBits nNonce)))
              (getwork (nodeAt template_next 3 1231469845) (some [])
                (getwork (nodeAt template_next 3 1231469844) none s₁).2).2
            = (.checked block, s₃)
          ∧ block.header = withWork b nTime b.nBits nNonce
          ∧ block.header.hashMerkleRoot = BuildMerkleTree block.txids := by
  obtain ⟨midstate, data, hash1, target, s₁, hcall⟩ := request_works reachable_request
    (n := nodeAt template_next 2 1231469744) rfl rfl rfl rfl
  obtain ⟨b, rfl, hprev, hback⟩ := getwork_returns reachable_request rfl rfl hcall
    (.call (n := nodeAt template_next 3 1231469845) (some [])
      (.call (n := nodeAt template_next 3 1231469844) none .refl rfl rfl) rfl rfl)
    (show (nodeAt template_next 3 1231469850).vNodesEmpty = false from rfl) rfl
  exact ⟨b, s₁, midstate, hash1, target, hcall, hprev, hback⟩

end RpcMining
