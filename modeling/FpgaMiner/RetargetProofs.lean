import FpgaMiner.CompactProofs
import FpgaMiner.OrderStatisticProofs

/-! # The required work

    `GetNextWorkRequired` of `main.cpp`: a block has to have the target of the one before it,
    and every 2016 blocks the target is adjusted to the time that those took.

    * **`GetNextWorkRequired_isSome`** — its assertion never fails;
    * **`Follows.inRange`** — along a chain of blocks that follow the rule every target is in
      range, and its compact word is the one of the target;
    * **`Follows.growth`** — on the main network a target is within a factor of an earlier
      one that grows with the adjustments between them;
    * **`Timely.median_mono`** — the median of the times of the last blocks does not go back. -/

namespace Retarget

open BlockHeader Compact ShortMantissa OrderStatistic

/-! ## The code -/

/-- What is read of a block's index; the blocks before it are the rest of a list. -/
structure CBlockIndex where
  nTime : BitVec 32
  nBits : BitVec 32
  deriving DecidableEq

/-- The time of a block. -/
def CBlockIndex.GetBlockTime (b : CBlockIndex) : Int := b.nTime.toNat

/-- The parameters of a network. -/
structure CChainParams where
  bnProofOfWorkLimit : Nat
  fTestNet : Bool
  limit_lt : bnProofOfWorkLimit < 2 ^ 256

/-- The main network. -/
def mainNet : CChainParams := ⟨2 ^ 224 - 1, false, by decide⟩

/-- The test network. -/
def testNet : CChainParams := ⟨2 ^ 224 - 1, true, by decide⟩

/-- Two weeks. -/
def nTargetTimespan : Int := 14 * 24 * 60 * 60

/-- Ten minutes. -/
def nTargetSpacing : Int := 10 * 60

/-- The blocks between two changes of the difficulty. -/
def nInterval : Nat := 2016

/-- The last block without the special difficulty of the test network; the height of the first
    block of a list is the length of the rest. -/
def lastNonSpecial (nProofOfWorkLimit : BitVec 32) : List CBlockIndex → BitVec 32
  | [] => nProofOfWorkLimit
  | pindex :: pprev =>
      if pprev ≠ [] ∧ pprev.length % nInterval ≠ 0 ∧ pindex.nBits = nProofOfWorkLimit then
        lastNonSpecial nProofOfWorkLimit pprev
      else pindex.nBits

/-- A time span is taken as no less than a quarter and no more than four times the target. -/
def limitTimespan (nActualTimespan : Int) : Int :=
  let nActualTimespan :=
    if nActualTimespan < nTargetTimespan.tdiv 4 then nTargetTimespan.tdiv 4 else nActualTimespan
  if nActualTimespan > nTargetTimespan * 4 then nTargetTimespan * 4 else nActualTimespan

/-- The part of `GetNextWorkRequired` after "Retarget". -/
def retarget (p : CChainParams) (nBits : BitVec 32) (nActualTimespan : Int) : BitVec 32 :=
  let bnNew := SetCompact nBits
  let bnNew := bnNew * nActualTimespan
  let bnNew := bnNew.tdiv nTargetTimespan
  let bnNew := if bnNew > p.bnProofOfWorkLimit then (p.bnProofOfWorkLimit : Int) else bnNew
  GetCompact bnNew

/-- For a block with the time `nTime` after the blocks of a list, the last one first; `none` is
    the failed assertion. -/
def GetNextWorkRequired (p : CChainParams) (nTime : BitVec 32) : List CBlockIndex → Option (BitVec 32)
  | [] => some (GetCompact p.bnProofOfWorkLimit)
  | pindexLast :: pprev =>
      if (pprev.length + 1) % nInterval ≠ 0 then
        if p.fTestNet then
          if (nTime.toNat : Int) > pindexLast.GetBlockTime + nTargetSpacing * 2 then
            some (GetCompact p.bnProofOfWorkLimit)
          else some (lastNonSpecial (GetCompact p.bnProofOfWorkLimit) (pindexLast :: pprev))
        else some pindexLast.nBits
      else
        match (pindexLast :: pprev)[nInterval - 1]? with
        | none => none
        | some pindexFirst =>
            let nActualTimespan := pindexLast.GetBlockTime - pindexFirst.GetBlockTime
            some (retarget p pindexLast.nBits (limitTimespan nActualTimespan))

/-- `AcceptBlock` takes only blocks with the required bits. -/
inductive Follows (p : CChainParams) : List CBlockIndex → Prop
  | nil : Follows p []
  | cons {b : CBlockIndex} {chain : List CBlockIndex} :
      Follows p chain → GetNextWorkRequired p b.nTime chain = some b.nBits → Follows p (b :: chain)

/-- A target in the range of the network that the hash does not exceed. -/
def CheckProofOfWork (p : CChainParams) (hash : Uint256) (nBits : BitVec 32) : Bool :=
  let bnTarget := SetCompact nBits
  if bnTarget ≤ 0 ∨ bnTarget > p.bnProofOfWorkLimit then false
  else if hash > getuint256 bnTarget then false
  else true

/-! ## One adjustment -/

/-- The assertion of `GetNextWorkRequired` never fails. -/
theorem GetNextWorkRequired_isSome (p : CChainParams) (nTime : BitVec 32) (chain : List CBlockIndex) :
    (GetNextWorkRequired p nTime chain).isSome := by
  cases chain with
  | nil => rfl
  | cons pindexLast pprev =>
      rw [GetNextWorkRequired]
      split
      · split
        · split
          · rfl
          · rfl
        · rfl
      · next hmod =>
          have hlen : nInterval - 1 < (pindexLast :: pprev).length := by
            rw [nInterval] at hmod ⊢
            rw [List.length_cons]
            omega
          rw [List.getElem?_eq_getElem hlen]
          rfl

/-- Half a week to eight weeks. -/
theorem limitTimespan_bounds (n : Int) : 302400 ≤ limitTimespan n ∧ limitTimespan n ≤ 4838400 := by
  have hquarter : nTargetTimespan.tdiv 4 = 302400 := rfl
  have hfour : nTargetTimespan * 4 = 4838400 := rfl
  simp only [limitTimespan, hquarter, hfour]
  omega

/-- What is a number below a limit of 256 bits fits in a compact word. -/
theorem representable_of_le {p : CChainParams} {n : Nat} (h : n ≤ p.bnProofOfWorkLimit) :
    Representable n := by
  have hsize : n.size ≤ 256 := Nat.size_le.mpr (Nat.lt_of_le_of_lt h p.limit_lt)
  rw [Representable, Int.natAbs_natCast, exponent]
  split
  · decide
  · omega

/-- A target in range, in the compact word that `GetCompact` gives. -/
structure InRange (p : CChainParams) (nBits : BitVec 32) : Prop where
  canonical : Canonical nBits
  nonneg : 0 ≤ SetCompact nBits
  le : SetCompact nBits ≤ p.bnProofOfWorkLimit

/-- A target is read back without its low digits. -/
theorem SetCompact_natCast {n : Nat} (h : Representable n) : SetCompact (GetCompact n) = trunc 8 3 n := by
  rw [read_GetCompact h, decide_eq_false (by omega), Int.natAbs_natCast]
  rfl

/-- A target up to the limit stays in range. -/
theorem inRange_GetCompact {p : CChainParams} {n : Nat} (h : n ≤ p.bnProofOfWorkLimit) :
    InRange p (GetCompact n) := by
  have hrep := representable_of_le h
  have hread := SetCompact_natCast hrep
  have hle := trunc_le (w := 8) (d := 3) n
  refine ⟨canonical_GetCompact hrep, ?_, ?_⟩
  · rw [hread]
    omega
  · rw [hread]
    omega

/-- The number that an adjustment puts in a compact word. -/
theorem retarget_eq {p : CChainParams} {nBits : BitVec 32} (h : InRange p nBits) {timespan : Int}
    (hspan : 302400 ≤ timespan ∧ timespan ≤ 4838400) :
    ∃ n : Nat, retarget p nBits timespan = GetCompact n ∧ n ≤ p.bnProofOfWorkLimit
      ∧ (n : Int) ≤ 4 * SetCompact nBits ∧ SetCompact nBits / 4 ≤ n := by
  obtain ⟨t, ht⟩ := Int.eq_ofNat_of_zero_le h.nonneg
  obtain ⟨s, hs⟩ := Int.eq_ofNat_of_zero_le (show 0 ≤ timespan by omega)
  have hle := h.le
  have hdiv : (SetCompact nBits * timespan).tdiv nTargetTimespan = ((t * s / 1209600 : Nat) : Int) := by
    rw [ht, hs, ← Int.natCast_mul]
    rfl
  have hupper : t * s / 1209600 ≤ 4 * t := by
    apply Nat.div_le_of_le_mul
    calc t * s ≤ t * 4838400 := Nat.mul_le_mul_left t (by omega)
      _ = 1209600 * (4 * t) := by omega
  have hlower : t / 4 ≤ t * s / 1209600 := by
    calc t / 4 = t * 302400 / 1209600 := by omega
      _ ≤ t * s / 1209600 := Nat.div_le_div_right (Nat.mul_le_mul_left t (by omega))
  refine ⟨min (t * s / 1209600) p.bnProofOfWorkLimit, ?_, Nat.min_le_right _ _, ?_, ?_⟩
  · rw [retarget]
    simp only [hdiv]
    split
    · next hgt => rw [Nat.min_eq_right (by omega)]
    · next hgt => rw [Nat.min_eq_left (by omega)]
  · omega
  · omega

/-- **One adjustment**: four times the target at most, a quarter of it at least but for the
    rounding to a mantissa of 15 bits or more. -/
theorem retarget_bounds {p : CChainParams} {nBits : BitVec 32} (h : InRange p nBits) {timespan : Int}
    (hspan : 302400 ≤ timespan ∧ timespan ≤ 4838400) :
    InRange p (retarget p nBits timespan)
      ∧ SetCompact (retarget p nBits timespan) ≤ 4 * SetCompact nBits
      ∧ (2 ^ 15 - 1) * (SetCompact nBits / 4) ≤ 2 ^ 15 * SetCompact (retarget p nBits timespan) := by
  obtain ⟨n, hn, hlimit, hupper, hlower⟩ := retarget_eq h hspan
  have hread := SetCompact_natCast (representable_of_le hlimit)
  have hle := trunc_le (w := 8) (d := 3) n
  have hloss := sub_trunc (w := 8) (d := 3) (by decide) (by decide) n
  rw [hn, hread]
  refine ⟨inRange_GetCompact hlimit, by omega, ?_⟩
  norm_num at hloss ⊢
  omega

/-! ## A chain -/

/-- So does the one that is looked for on the test network. -/
theorem lastNonSpecial_inRange {p : CChainParams} {limit : BitVec 32} {chain : List CBlockIndex}
    (hlimit : InRange p limit) (h : ∀ b ∈ chain, InRange p b.nBits) :
    InRange p (lastNonSpecial limit chain) := by
  induction chain with
  | nil => exact hlimit
  | cons pindex pprev ih =>
      rw [lastNonSpecial]
      split
      · exact ih (fun b hb => h b (List.mem_cons_of_mem _ hb))
      · exact h pindex List.mem_cons_self

/-- **The required bits are in range** if those of the blocks before are. -/
theorem required_inRange {p : CChainParams} {nTime nBits : BitVec 32} {chain : List CBlockIndex}
    (h : ∀ b ∈ chain, InRange p b.nBits) (hreq : GetNextWorkRequired p nTime chain = some nBits) :
    InRange p nBits := by
  have hlimit : InRange p (GetCompact p.bnProofOfWorkLimit) := inRange_GetCompact (Nat.le_refl _)
  cases chain with
  | nil =>
      rw [← Option.some.inj hreq]
      exact hlimit
  | cons pindexLast pprev =>
      have hlast := h pindexLast List.mem_cons_self
      rw [GetNextWorkRequired] at hreq
      split at hreq
      · split at hreq
        · split at hreq
          · rw [← Option.some.inj hreq]
            exact hlimit
          · rw [← Option.some.inj hreq]
            exact lastNonSpecial_inRange hlimit h
        · rw [← Option.some.inj hreq]
          exact hlast
      · split at hreq
        · cases hreq
        · rw [← Option.some.inj hreq]
          exact (retarget_bounds hlast (limitTimespan_bounds _)).1

/-- **Every target of a chain is in range.** -/
theorem Follows.inRange {p : CChainParams} {chain : List CBlockIndex} (h : Follows p chain) :
    ∀ b ∈ chain, InRange p b.nBits := by
  induction h with
  | nil => exact fun b hb => (List.not_mem_nil hb).elim
  | cons _ hreq ih => exact List.forall_mem_cons.mpr ⟨required_inRange ih hreq, ih⟩

/-- A block with the work of the limit, as the first one has it. -/
def easy (p : CChainParams) (nTime : BitVec 32) : CBlockIndex := ⟨nTime, GetCompact p.bnProofOfWorkLimit⟩

/-- On the main network, one block after another. -/
theorem Follows.step {p : CChainParams} (hmain : p.fTestNet = false) {b prev : CBlockIndex}
    {rest : List CBlockIndex} (h : Follows p (b :: prev :: rest)) :
    ((rest.length + 1) % nInterval ≠ 0 → b.nBits = prev.nBits)
      ∧ SetCompact b.nBits ≤ 4 * SetCompact prev.nBits
      ∧ SetCompact prev.nBits + 1 ≤ 5 * (SetCompact b.nBits + 1) := by
  cases h with
  | cons hchain hreq =>
      have hprev := hchain.inRange prev List.mem_cons_self
      have hpos := hprev.nonneg
      rw [GetNextWorkRequired, hmain] at hreq
      split at hreq
      · rw [if_neg Bool.false_ne_true] at hreq
        have heq := Option.some.inj hreq
        rw [← heq]
        exact ⟨fun _ => rfl, by omega, by omega⟩
      · next hmod =>
          split at hreq
          · cases hreq
          · obtain ⟨-, hupper, hlower⟩ := retarget_bounds hprev (limitTimespan_bounds _)
            rw [Option.some.inj hreq] at hupper hlower
            norm_num at hlower
            exact ⟨fun h => absurd h hmod, hupper, by omega⟩

/-- **Targets that are blocks apart**: a factor of at most four up, and of at most five down,
    for every adjustment between them. -/
theorem Follows.growth {p : CChainParams} (hmain : p.fTestNet = false) {new old : List CBlockIndex}
    {b c : CBlockIndex} (h : Follows p (new ++ b :: old)) (hc : (new ++ [b]).head? = some c) :
    SetCompact c.nBits
        ≤ 4 ^ ((new.length + old.length) / nInterval - old.length / nInterval) * SetCompact b.nBits
      ∧ SetCompact b.nBits + 1
        ≤ 5 ^ ((new.length + old.length) / nInterval - old.length / nInterval)
          * (SetCompact c.nBits + 1) := by
  induction new generalizing c with
  | nil =>
      rw [← Option.some.inj hc, List.length_nil, Nat.zero_add, Nat.sub_self, pow_zero, pow_zero,
        Int.one_mul, Int.one_mul]
      exact ⟨Int.le_refl _, Int.le_refl _⟩
  | cons x new ih =>
      obtain rfl : x = c := Option.some.inj hc
      obtain ⟨y, hy⟩ : ∃ y, (new ++ [b]).head? = some y :=
        ⟨_, List.head?_eq_some_head (List.append_ne_nil_of_right_ne_nil _ (List.cons_ne_nil b []))⟩
      -- the block before the new one is the first of the chain without it
      obtain ⟨rest, hrest⟩ : ∃ rest, new ++ b :: old = y :: rest := by
        cases new with
        | nil => exact ⟨old, by rw [← Option.some.inj hy]; rfl⟩
        | cons z new => exact ⟨new ++ b :: old, by rw [← Option.some.inj hy]; rfl⟩
      have hlen : rest.length = new.length + old.length := by
        have := congrArg List.length hrest
        rw [List.length_append, List.length_cons, List.length_cons] at this
        omega
      have hchain : Follows p (new ++ b :: old) := by
        cases h with
        | cons hchain _ => exact hchain
      obtain ⟨hup, hdown⟩ := ih hchain hy
      rw [List.cons_append, hrest] at h
      obtain ⟨hsame, hupper, hlower⟩ := h.step hmain
      rw [hlen, nInterval] at hsame
      rw [nInterval] at hup hdown ⊢
      rw [List.length_cons]
      by_cases hmod : (new.length + old.length + 1) % 2016 = 0
      · have hexp : (new.length + 1 + old.length) / 2016 - old.length / 2016
            = (new.length + old.length) / 2016 - old.length / 2016 + 1 := by omega
        rw [hexp, pow_succ, pow_succ]
        generalize (new.length + old.length) / 2016 - old.length / 2016 = k at hup hdown
        constructor
        · calc SetCompact x.nBits ≤ 4 * SetCompact y.nBits := hupper
            _ ≤ 4 * (4 ^ k * SetCompact b.nBits) := Int.mul_le_mul_of_nonneg_left hup (by decide)
            _ = 4 ^ k * 4 * SetCompact b.nBits := by rw [Int.mul_comm (4 ^ k) 4, Int.mul_assoc]
        · calc SetCompact b.nBits + 1 ≤ 5 ^ k * (SetCompact y.nBits + 1) := hdown
            _ ≤ 5 ^ k * (5 * (SetCompact x.nBits + 1)) :=
                Int.mul_le_mul_of_nonneg_left hlower (pow_nonneg (by decide) k)
            _ = 5 ^ k * 5 * (SetCompact x.nBits + 1) := by rw [Int.mul_assoc]
      · have hexp : (new.length + 1 + old.length) / 2016 - old.length / 2016
            = (new.length + old.length) / 2016 - old.length / 2016 := by omega
        rw [hexp, hsame hmod]
        exact ⟨hup, hdown⟩

/-- Between two adjustments a block may have the bits of the one before it. -/
theorem Follows.same {p : CChainParams} (hmain : p.fTestNet = false) {b prev : CBlockIndex}
    {rest : List CBlockIndex} (h : Follows p (prev :: rest))
    (hmod : (rest.length + 1) % nInterval ≠ 0) (hb : b.nBits = prev.nBits) :
    Follows p (b :: prev :: rest) := by
  refine Follows.cons h ?_
  rw [GetNextWorkRequired, if_pos hmod, hmain, if_neg Bool.false_ne_true, hb]

/-- Blocks of one time after a first one, up to the first adjustment. -/
theorem follows_replicate (nTime first : BitVec 32) (n : Nat) (h : n < nInterval) :
    Follows mainNet (List.replicate n (easy mainNet nTime) ++ [easy mainNet first]) := by
  induction n with
  | zero => exact Follows.cons Follows.nil rfl
  | succ n ih =>
      have hchain := ih (Nat.lt_of_succ_lt h)
      have hmod : (n + 1) % nInterval ≠ 0 := by
        rw [Nat.mod_eq_of_lt h]
        exact Nat.succ_ne_zero n
      cases n with
      | zero => exact hchain.same rfl hmod rfl
      | succ n =>
          rw [List.replicate_succ, List.cons_append] at hchain ⊢
          refine hchain.same rfl ?_ rfl
          rw [List.length_append, List.length_replicate]
          exact hmod

/-- The blocks before the first adjustment, when they took half the time they should. -/
def quickBlocks : List CBlockIndex :=
  List.replicate 2015 (easy mainNet 1231611305) ++ [easy mainNet 1231006505]

/-- The first block after the adjustment, with half the target. -/
def harder : CBlockIndex := ⟨1231611305, 0x1c7fff80⟩

/-- The rule asks for that target. -/
theorem follows_harder : Follows mainNet (harder :: quickBlocks) := by
  refine Follows.cons (follows_replicate _ _ 2015 (by decide)) ?_
  have hmod : ¬((List.replicate 2014 (easy mainNet 1231611305)
      ++ [easy mainNet 1231006505]).length + 1) % nInterval ≠ 0 := by
    rw [List.length_append, List.length_replicate]
    decide
  have hfirst : quickBlocks[nInterval - 1]? = some (easy mainNet 1231006505) := by
    rw [quickBlocks, List.getElem?_append_right (by rw [List.length_replicate]; decide),
      List.length_replicate]
    rfl
  rw [quickBlocks, List.replicate_succ, List.cons_append] at hfirst ⊢
  rw [GetNextWorkRequired, if_neg hmod, hfirst]
  decide +kernel

theorem Follows.growth_harder :
    SetCompact harder.nBits ≤ 4 ^ 1 * SetCompact (easy mainNet 1231611305).nBits
      ∧ SetCompact (easy mainNet 1231611305).nBits + 1
        ≤ 5 ^ 1 * (SetCompact harder.nBits + 1) := by
  have h : Follows mainNet ([harder] ++ easy mainNet 1231611305
      :: (List.replicate 2014 (easy mainNet 1231611305) ++ [easy mainNet 1231006505])) :=
    follows_harder
  have hgrowth := Follows.growth (c := harder) rfl h rfl
  rwa [List.length_append, List.length_replicate] at hgrowth

/-! ## Times -/

/-- The blocks whose times the median is taken of. -/
def nMedianTimeSpan : Nat := 11

/-- The times in `pmedian`. -/
def pmedian (chain : List CBlockIndex) : List Int :=
  (chain.take nMedianTimeSpan).map CBlockIndex.GetBlockTime

/-- For the first block of a list. -/
def GetMedianTimePast (chain : List CBlockIndex) : Int :=
  (sorted (pmedian chain)).getD ((pmedian chain).length / 2) 0

/-- `AcceptBlock` takes a block only with a time after the median of those before it. -/
inductive Timely : List CBlockIndex → Prop
  | genesis (b : CBlockIndex) : Timely [b]
  | cons {b : CBlockIndex} {chain : List CBlockIndex} :
      Timely chain → b.GetBlockTime > GetMedianTimePast chain → Timely (b :: chain)

/-- At most eleven times. -/
theorem pmedian_length (chain : List CBlockIndex) : (pmedian chain).length = min 11 chain.length := by
  rw [pmedian, List.length_map, List.length_take, nMedianTimeSpan]

/-- The median is the middle of the sorted times. -/
theorem GetMedianTimePast_eq {chain : List CBlockIndex} (h : chain ≠ []) :
    ∃ hk : (pmedian chain).length / 2 < (sorted (pmedian chain)).length,
      GetMedianTimePast chain = (sorted (pmedian chain))[(pmedian chain).length / 2] := by
  have hpos := List.length_pos_of_ne_nil h
  have hk : (pmedian chain).length / 2 < (sorted (pmedian chain)).length := by
    rw [sorted_length, pmedian_length]
    omega
  refine ⟨hk, ?_⟩
  rw [GetMedianTimePast, List.getD_eq_getElem?_getD, List.getElem?_eq_getElem hk, Option.getD_some]

/-- One more block, with a time that is accepted. -/
theorem median_step {b : CBlockIndex} {chain : List CBlockIndex} (hne : chain ≠ [])
    (hb : b.GetBlockTime > GetMedianTimePast chain) :
    GetMedianTimePast chain ≤ GetMedianTimePast (b :: chain) := by
  obtain ⟨hk, heq⟩ := GetMedianTimePast_eq hne
  obtain ⟨hk', heq'⟩ := GetMedianTimePast_eq (List.cons_ne_nil b chain)
  have hpast : pmedian (b :: chain) = [b.GetBlockTime] ++ (chain.take 10).map CBlockIndex.GetBlockTime := rfl
  have hsub : ((chain.take 10).map CBlockIndex.GetBlockTime).Sublist (pmedian chain) :=
    (List.take_sublist_take_left (by decide)).map _
  have hplace : (pmedian chain).length / 2 ≤ (pmedian (b :: chain)).length / 2 := by
    rw [pmedian_length, pmedian_length, List.length_cons]
    omega
  rw [heq] at hb
  rw [heq, heq']
  simp only [hpast] at hk' hplace ⊢
  refine getElem_le_of_window hk hk' hsub hplace ?_
  intro x hx
  rw [List.mem_singleton.mp hx]
  exact Int.le_of_lt hb

/-- **The median of the times never goes back**, and no later block has a time that is not
    after it. -/
theorem Timely.median_mono {new old : List CBlockIndex} (hne : old ≠ []) (h : Timely (new ++ old)) :
    GetMedianTimePast old ≤ GetMedianTimePast (new ++ old)
      ∧ ∀ b ∈ new, GetMedianTimePast old < b.GetBlockTime := by
  induction new with
  | nil => exact ⟨Int.le_refl _, fun b hb => (List.not_mem_nil hb).elim⟩
  | cons x new ih =>
      have hne' : new ++ old ≠ [] := List.append_ne_nil_of_right_ne_nil _ hne
      obtain ⟨hchain, hx⟩ : Timely (new ++ old) ∧ x.GetBlockTime > GetMedianTimePast (new ++ old) := by
        rw [List.cons_append] at h
        generalize new ++ old = chain at h hne'
        cases h with
        | genesis => exact absurd rfl hne'
        | cons hchain hx => exact ⟨hchain, hx⟩
      obtain ⟨hle, hall⟩ := ih hchain
      refine ⟨Int.le_trans hle (median_step hne' hx), List.forall_mem_cons.mpr ⟨?_, hall⟩⟩
      exact Int.lt_of_le_of_lt hle hx

theorem Timely.median_mono_easy :
    GetMedianTimePast [easy mainNet 1231006505]
        ≤ GetMedianTimePast ([easy mainNet 1231469665] ++ [easy mainNet 1231006505])
      ∧ ∀ b ∈ [easy mainNet 1231469665],
        GetMedianTimePast [easy mainNet 1231006505] < b.GetBlockTime :=
  Timely.median_mono (List.cons_ne_nil _ _) (Timely.cons (Timely.genesis _) (by decide))

end Retarget
