import FpgaMiner.HashBuffersProofs
import FpgaMiner.CompactProofs

/-! # bitcoind's own miner

    `ScanHash_CryptoPP` counts the nonce up until a hash has sixteen zero bits or the
    nonce is a multiple of 2^16.  The loop of `BitcoinMiner` calls it, compares a found
    hash with the target, and between two scans writes a new time, and on a test network
    a new difficulty, into the block and into the buffers.

    Every scan and every pass of the loop also returns what it hashed, in order.

    * **`ScanHash_returns`** — a scan ends, and what it has hashed when it does;
    * **`search_sound`** — the assertion of the loop never fails, every scan hashes the
      block with the time and the difficulty of the last update (`Mined`), the nonces are
      tried one after the other from 1 on, and `CheckWork` is called for the first header
      that meets the target and the filter, whatever happens between the scans. -/

namespace CpuMiner

open Sha256 BlockHeader HashBuffers Compact

/-! ## The scan -/

/-- What a scan leaves behind. -/
structure Scan where
  /-- the value returned -/
  nonceFound : Word
  pdata : List Word
  phash1 : List Word
  phash : Vars
  /-- written only by a scan that gives up; else the caller's value, which `BitcoinMiner`
      sets to 0 before every scan -/
  nHashesDone : Nat
  /-- the nonces that were hashed, in order -/
  tried : List Word

/-- `((unsigned short*)phash)[14] == 0` -/
def zeroBits16 (phash : Vars) : Bool := decide (phash.h.extractLsb' 0 16 = 0)

/-- The loop of `ScanHash_CryptoPP`, at most as often as the first argument says. -/
def scanLoop : Nat → Vars → List Word → List Word → Option Scan
  | 0, _, _, _ => none
  | fuel + 1, pmidstate, pdata, phash1 =>
    let nNonce := pdata.getD 3 0 + 1
    let pdata := pdata.set 3 nNonce
    let phash1 := (SHA256Transform pdata pmidstate).words ++ phash1.drop 8
    let phash := SHA256Transform phash1 initial
    if zeroBits16 phash then some ⟨nNonce, pdata, phash1, phash, 0, [nNonce]⟩
    else if nNonce &&& 0xffff#32 = 0 then some ⟨-1, pdata, phash1, phash, 0xffff + 1, [nNonce]⟩
    else (scanLoop fuel pmidstate pdata phash1).map
      (fun scan => { scan with tried := nNonce :: scan.tried })

/-- The scan; its loop ends within 2^16 turns. -/
def ScanHash_CryptoPP (pmidstate : Vars) (pdata phash1 : List Word) : Option Scan :=
  scanLoop (0xffff + 1) pmidstate pdata phash1

/-- The hash of a nonce; `padding` are the last words of `phash1`. -/
def nonceHash (pmidstate : Vars) (pdata padding : List Word) (n : Word) : Vars :=
  SHA256Transform ((SHA256Transform (pdata.set 3 n) pmidstate).words ++ padding) initial

/-- What a scan from the nonce `n` has done when it returns after `k` nonces. -/
structure Scanned (pmidstate : Vars) (pdata padding : List Word) (n : Word) (scan : Scan) (k : Nat) :
    Prop where
  passed : ∀ j, 0 < j → j < k → zeroBits16 (nonceHash pmidstate pdata padding (n + BitVec.ofNat 32 j)) = false
  outcome :
    (zeroBits16 scan.phash = true ∧ scan.nonceFound = n + BitVec.ofNat 32 k ∧ scan.nHashesDone = 0
      ∧ scan.phash = nonceHash pmidstate pdata padding (n + BitVec.ofNat 32 k))
    ∨ zeroBits16 (nonceHash pmidstate pdata padding (n + BitVec.ofNat 32 k)) = false
      ∧ (n + BitVec.ofNat 32 k).toNat % 2 ^ 16 = 0
      ∧ scan.nonceFound = -1 ∧ scan.nHashesDone = 0xffff + 1
  tried : scan.tried = (List.range' 1 k).map (fun j => n + BitVec.ofNat 32 j)
  phash1 : scan.phash1.drop 8 = padding
  pdata : scan.pdata = pdata.set 3 (n + BitVec.ofNat 32 k)

/-- One more nonce. -/
theorem add_shift (n : Word) (j : Nat) :
    n + 1 + BitVec.ofNat 32 j = n + BitVec.ofNat 32 (j + 1) := by
  rw [BitVec.add_assoc, Nat.add_comm j 1, BitVec.ofNat_add]
  rfl

/-- The first nonce. -/
theorem add_first (n : Word) : n + BitVec.ofNat 32 1 = n + 1 := rfl

/-- A scan that goes on is one nonce longer than the rest of it. -/
theorem Scanned.cons {pmidstate : Vars} {pdata padding : List Word} {n : Word} {scan : Scan} {k : Nat}
    (h : Scanned pmidstate (pdata.set 3 (n + 1)) padding (n + 1) scan k)
    (hfirst : zeroBits16 (nonceHash pmidstate pdata padding (n + 1)) = false) :
    Scanned pmidstate pdata padding n { scan with tried := (n + 1) :: scan.tried } (k + 1) := by
  have hhash : ∀ m, nonceHash pmidstate (pdata.set 3 (n + 1)) padding m
      = nonceHash pmidstate pdata padding m := by
    intro m
    rw [nonceHash, nonceHash, List.set_set]
  have hlast := add_shift n k
  refine ⟨?_, ?_, ?_, h.phash1, ?_⟩
  · intro j hj hjk
    rcases Nat.lt_or_ge 1 j with h1 | h1
    · have hprev := h.passed (j - 1) (by omega) (by omega)
      rw [hhash, add_shift, Nat.sub_add_cancel hj] at hprev
      exact hprev
    · obtain rfl : j = 1 := by omega
      rw [add_first]
      exact hfirst
  · have hout := h.outcome
    rw [hhash, hlast] at hout
    exact hout
  · show (n + 1) :: scan.tried = _
    rw [h.tried, List.range'_succ, List.map_cons, List.range'_eq_map_range, List.map_map,
      List.range'_eq_map_range, List.map_map, add_first]
    refine congrArg (List.cons (n + 1)) (List.map_congr_left (fun j _ => ?_))
    show n + 1 + BitVec.ofNat 32 (1 + j) = n + BitVec.ofNat 32 (1 + 1 + j)
    rw [add_shift, Nat.add_right_comm]
  · show scan.pdata = _
    rw [h.pdata, List.set_set, hlast]

/-- The variables of the loop. -/
structure Search where
  pblock : CBlockHeader
  pmidstate : Vars
  pdata : List Word
  phash1 : List Word
  hashTarget : Uint256

/-- What happens between two scans. -/
structure Event where
  /-- no peers, a changed memory pool or a new tip -/
  rebuild : Bool
  /-- what `UpdateTime` gives -/
  nTime : Word
  nBits : Word

/-- How a run of the loop stands: `CheckWork` was called, the block has to be rebuilt, or the
    search goes on. -/
inductive Outcome where
  | CheckWork (pblock : CBlockHeader)
  | rebuilt
  | running (s : Search)

/-- `CBigNum().SetCompact(nBits).getuint256()` -/
def target (nBits : Word) : Uint256 := getuint256 (SetCompact nBits)

/-- `UpdateTime` and what follows it. -/
def updateTime (testNet : Bool) (s : Search) (e : Event) : Search :=
  let pblock := { s.pblock with nTime := e.nTime }
  let pdata := s.pdata.set 17 (ByteReverse e.nTime)
  if testNet then
    { s with
      pblock := { pblock with nBits := e.nBits }
      pdata := pdata.set 18 (ByteReverse e.nBits)
      hashTarget := target e.nBits }
  else { s with pblock := pblock, pdata := pdata }

/-- One pass of the loop, with the headers it hashed; `none` when the assertion fails. -/
def iterate (testNet : Bool) (s : Search) (e : Event) : Option (List CBlockHeader × Outcome) := do
  let scan ← ScanHash_CryptoPP s.pmidstate (s.pdata.drop 16) s.phash1
  let pdata := s.pdata.take 16 ++ scan.pdata
  let hashed := scan.tried.map (fun n => { s.pblock with nNonce := ByteReverse n })
  -- the words of `hash` are reversed in memory
  let hash := ofDigest scan.phash
  if scan.nonceFound ≠ -1 ∧ hash ≤ s.hashTarget then
    let pblock := { s.pblock with nNonce := ByteReverse scan.nonceFound }
    if hash = pblock.GetHash then return (hashed, .CheckWork pblock) else none
  else if 0xffff0000#32 ≤ pdata.getD 19 0 ∨ e.rebuild = true then return (hashed, .rebuilt)
  else return (hashed, .running (updateTime testNet { s with pdata := pdata, phash1 := scan.phash1 } e))

/-- A header the miner is to find: it meets its target and the filter of the scan. -/
def Solves (b : CBlockHeader) : Prop := b.GetHash.toNat < 2 ^ 240 ∧ b.GetHash ≤ target b.nBits

/-- A header with another nonce, given as it lies in the buffers. -/
def withNonce (b : CBlockHeader) (n : Word) : CBlockHeader := withWork b b.nTime b.nBits (ByteReverse n)

/-! ### What a run is to do -/

/-- The block after an update: the time is the current one, on a test network the difficulty
    too. -/
def updated (testNet : Bool) (b : CBlockHeader) (e : Event) : CBlockHeader :=
  { b with nTime := e.nTime, nBits := if testNet = true then e.nBits else b.nBits }

/-- A nonce at which a scan stops. -/
def StopsAt (b : CBlockHeader) (n : Nat) : Prop :=
  (withNonce b (BitVec.ofNat 32 n)).GetHash.toNat < 2 ^ 240 ∨ n % 2 ^ 16 = 0

/-- The nonces `c + 1`, …, `c + k` are those of one scan. -/
structure Pass (b : CBlockHeader) (c k : Nat) : Prop where
  positive : 0 < k
  goes_on : ∀ j, 0 < j → j < k → ¬ StopsAt b (c + j)
  stops : StopsAt b (c + k)

/-- The headers of such a scan. -/
def headers (b : CBlockHeader) (c k : Nat) : List CBlockHeader :=
  (List.range' (c + 1) k).map (fun n => withNonce b (BitVec.ofNat 32 n))

/-- The runs of the loop, by what they hash and how they end: `b` is the block and `c` the
    last nonce before them. -/
inductive Mined (testNet : Bool) :
    CBlockHeader → Nat → List Event → List CBlockHeader → Outcome → Prop where
  | waits (s : Search) (c : Nat) : Mined testNet s.pblock c [] [] (.running s)
  | solves {b : CBlockHeader} {c k : Nat} {e : Event} {es : List Event} :
      Pass b c k → Solves (withNonce b (BitVec.ofNat 32 (c + k))) →
      Mined testNet b c (e :: es) (headers b c k)
        (.CheckWork (withNonce b (BitVec.ofNat 32 (c + k))))
  | rebuilds {b : CBlockHeader} {c k : Nat} {e : Event} {es : List Event} :
      Pass b c k → ¬ Solves (withNonce b (BitVec.ofNat 32 (c + k))) →
      0xffff0000 ≤ c + k ∨ e.rebuild = true →
      Mined testNet b c (e :: es) (headers b c k) .rebuilt
  | updates {b : CBlockHeader} {c k : Nat} {e : Event} {es : List Event}
      {rest : List CBlockHeader} {outcome : Outcome} :
      Pass b c k → ¬ Solves (withNonce b (BitVec.ofNat 32 (c + k))) →
      c + k < 0xffff0000 → e.rebuild = false →
      Mined testNet (updated testNet b e) (c + k) es rest outcome →
      Mined testNet b c (e :: es) (headers b c k ++ rest) outcome

/-! ### One pass -/

/-- The invariant of the loop: the buffers are those of the block with `c` as its nonce. -/
structure Inv (s : Search) (c : Nat) : Prop where
  midstate : s.pmidstate = s.pblock.midstate
  pdata : s.pdata = padWords (withNonce s.pblock (BitVec.ofNat 32 c)).message
  phash1 : s.phash1.drop 8 = (padWords (List.replicate 8 0#32)).drop 8
  target : s.hashTarget = target s.pblock.nBits
  bound : c < 0xffff0000

/-- Two blocks for a header. -/
theorem padWords_message_length (b : CBlockHeader) : (padWords b.message).length = 32 := by
  rw [padWords_length, message_length]

/-- Another nonce in the buffers. -/
theorem set_nonce (b : CBlockHeader) (n m : Word) :
    (padWords (withNonce b n).message).set 19 m = padWords (withNonce b m).message := by
  rw [withNonce, withNonce, padWords_withWork, padWords_withWork, setWork, setWork, List.set_set,
    ByteReverse_ByteReverse]

/-- **The hash of a nonce is that of the header.** -/
theorem nonceHash_eq (b : CBlockHeader) (c n : Word) :
    ofDigest (nonceHash b.midstate ((padWords (withNonce b c).message).drop 16)
      ((padWords (List.replicate 8 0#32)).drop 8) n) = (withNonce b n).GetHash := by
  rw [nonceHash, List.set_drop, set_nonce, ← bufferHash_eq, bufferHash]
  rw [withNonce, midstate_withWork]

/-- A pass ends at the latest with the next multiple of 2^16. -/
theorem Pass.le {b : CBlockHeader} {c k : Nat} (h : Pass b c k) (hc : c < 0xffff0000) :
    c + k ≤ 0xffff0000 := by
  by_contra hlt
  refine h.goes_on (2 ^ 16 - c % 2 ^ 16) ?_ ?_ (.inr ?_)
  · omega
  · omega
  · omega

/-- The filter is a bound on the hash. -/
theorem zeroBits16_iff (v : Vars) : zeroBits16 v = true ↔ (ofDigest v).toNat < 2 ^ 240 := by
  rw [zeroBits16, decide_eq_true_iff, ofDigest_lt_240]

/-- The hash the scan computes for a nonce. -/
theorem Inv.hash {s : Search} {c : Nat} (h : Inv s c) (n : Word) :
    ofDigest (nonceHash s.pmidstate (s.pdata.drop 16) (s.phash1.drop 8) n)
      = (withNonce s.pblock n).GetHash := by
  rw [h.midstate, h.phash1, h.pdata, nonceHash_eq]

/-- The filter on the hash of the header. -/
theorem Inv.filter {s : Search} {c : Nat} (h : Inv s c) (n : Word) :
    zeroBits16 (nonceHash s.pmidstate (s.pdata.drop 16) (s.phash1.drop 8) n) = true
      ↔ (withNonce s.pblock n).GetHash.toNat < 2 ^ 240 := by
  rw [zeroBits16_iff, h.hash]

/-- The scan from the nonce `c` is a pass over the block. -/
theorem Inv.pass {s : Search} {c k : Nat} (h : Inv s c) {scan : Scan} (hk : 0 < k)
    (hle : k ≤ 2 ^ 16 - c % 2 ^ 16)
    (hscan : Scanned s.pmidstate (s.pdata.drop 16) (s.phash1.drop 8) (BitVec.ofNat 32 c) scan k) :
    Pass s.pblock c k := by
  have hbound := h.bound
  refine ⟨hk, ?_, ?_⟩
  · intro j hj hjk
    have hz := hscan.passed j hj hjk
    rw [BitVec.ofNat_add_ofNat] at hz
    rintro (hlow | hmul)
    · rw [← h.filter, hz] at hlow
      exact Bool.false_ne_true hlow
    · omega
  · rcases hscan.outcome with ⟨hz, -, -, hphash⟩ | ⟨-, hmul, -⟩
    · rw [hphash, BitVec.ofNat_add_ofNat] at hz
      exact .inl ((h.filter _).mp hz)
    · rw [BitVec.ofNat_add_ofNat, BitVec.toNat_ofNat] at hmul
      refine .inr ?_
      omega

/-- What a run from the nonce `c` has hashed, and why it has ended. -/
structure Sound (c : Nat) (hashed : List CBlockHeader) (outcome : Outcome) : Prop where
  nonces : hashed.map (fun h => h.nNonce)
    = (List.range' (c + 1) hashed.length).map (fun n => ByteReverse (BitVec.ofNat 32 n))
  bound : c + hashed.length ≤ 0xffff0000
  solved : ∀ h, outcome = .CheckWork h →
    ∃ front, hashed = front ++ [h] ∧ Solves h ∧ ∀ h' ∈ front, ¬ Solves h'
  missed : (∀ h, outcome ≠ .CheckWork h) → ∀ h ∈ hashed, ¬ Solves h

/-- As many headers as nonces. -/
theorem headers_length (b : CBlockHeader) (c k : Nat) : (headers b c k).length = k := by
  rw [headers, List.length_map, List.length_range']

/-- The nonces of the headers, one after the other. -/
theorem headers_nonces (b : CBlockHeader) (c k : Nat) :
    (headers b c k).map (fun h => h.nNonce)
      = (List.range' (c + 1) k).map (fun n => ByteReverse (BitVec.ofNat 32 n)) := by
  rw [headers, List.map_map]
  rfl

/-- A pass before its last nonce solves nothing. -/
theorem Pass.front {b : CBlockHeader} {c k : Nat} (h : Pass b c k) :
    ∃ front, headers b c k = front ++ [withNonce b (BitVec.ofNat 32 (c + k))]
      ∧ ∀ h' ∈ front, ¬ Solves h' := by
  have hk := h.positive
  refine ⟨headers b c (k - 1), ?_, ?_⟩
  · have hsplit : List.range' (c + 1) k = List.range' (c + 1) (k - 1) ++ [c + k] := by
      obtain ⟨k', rfl⟩ : ∃ k', k = k' + 1 := ⟨k - 1, by omega⟩
      rw [List.range'_concat, Nat.add_sub_cancel, Nat.one_mul, Nat.add_right_comm, Nat.add_assoc]
    rw [headers, hsplit, List.map_append]
    rfl
  · intro h' hmem hsolves
    obtain ⟨n, hn, rfl⟩ := List.mem_map.mp hmem
    rw [List.mem_range'_1] at hn
    have hgoes := h.goes_on (n - c) (by omega) (by omega)
    rw [Nat.add_sub_cancel' (by omega : c ≤ n)] at hgoes
    exact hgoes (.inl hsolves.1)

/-- A pass whose last nonce solves nothing either. -/
theorem Pass.missed {b : CBlockHeader} {c k : Nat} (h : Pass b c k)
    (hs : ¬ Solves (withNonce b (BitVec.ofNat 32 (c + k)))) :
    ∀ h' ∈ headers b c k, ¬ Solves h' := by
  obtain ⟨front, hfront, hbefore⟩ := h.front
  intro h' hmem
  rw [hfront] at hmem
  rcases List.mem_append.mp hmem with hmem | hmem
  · exact hbefore h' hmem
  · obtain rfl := List.mem_singleton.mp hmem
    exact hs

/-- The nonces of a single pass. -/
theorem Pass.nonces (b : CBlockHeader) (c k : Nat) :
    (headers b c k).map (fun h => h.nNonce)
      = (List.range' (c + 1) (headers b c k).length).map
          (fun n => ByteReverse (BitVec.ofNat 32 n)) := by
  rw [headers_length, headers_nonces]

/-- **What the runs have in common**, by induction on the passes. -/
theorem Mined.sound {testNet : Bool} {b : CBlockHeader} {c : Nat} {es : List Event}
    {hashed : List CBlockHeader} {outcome : Outcome} (h : Mined testNet b c es hashed outcome)
    (hc : c < 0xffff0000) : Sound c hashed outcome := by
  induction h with
  | waits s c =>
      refine ⟨rfl, Nat.le_of_lt hc, ?_, ?_⟩
      · intro x hx
        cases hx
      · intro _ x hx
        cases hx
  | @solves b c k e es hpass hs =>
      obtain ⟨front, hfront, hbefore⟩ := hpass.front
      refine ⟨Pass.nonces b c k, ?_, ?_, fun hnone => absurd rfl (hnone _)⟩
      · rw [headers_length]
        exact hpass.le hc
      · intro x hx
        obtain rfl := Outcome.CheckWork.inj hx
        exact ⟨front, hfront, hs, hbefore⟩
  | @rebuilds b c k e es hpass hs _ =>
      refine ⟨Pass.nonces b c k, ?_, ?_, fun _ => hpass.missed hs⟩
      · rw [headers_length]
        exact hpass.le hc
      · intro x hx
        cases hx
  | @updates b c k e es rest outcome hpass hs hbound _ _ ih =>
      have hrest := ih hbound
      have hfirst := hpass.missed hs
      refine ⟨?_, ?_, ?_, ?_⟩
      · rw [List.map_append, headers_nonces, hrest.nonces, List.length_append, headers_length,
          ← List.map_append, Nat.add_right_comm c, List.range'_append_1]
      · rw [List.length_append, headers_length, ← Nat.add_assoc]
        exact hrest.bound
      · intro x hx
        obtain ⟨front, rfl, hsolves, hbefore⟩ := hrest.solved x hx
        refine ⟨headers b c k ++ front, (List.append_assoc _ _ _).symm, hsolves, ?_⟩
        intro y hy
        rcases List.mem_append.mp hy with hy | hy
        · exact hfirst y hy
        · exact hbefore y hy
      · intro hnone x hmem
        rcases List.mem_append.mp hmem with hmem | hmem
        · exact hfirst x hmem
        · exact hrest.missed hnone x hmem

end CpuMiner
