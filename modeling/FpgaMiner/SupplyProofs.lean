import FpgaMiner.ChainstateProofs
import Mathlib.Algebra.BigOperators.Group.Finset.Piecewise
import Mathlib.Algebra.Order.BigOperators.Group.List
import Mathlib.Data.Set.Finite.Basic

/-! # The supply of money

    What all unspent outputs are worth changes by what the transactions of a block make and
    spend, and a coinbase may take no more than the subsidy of its block and the fees.

    * **`Extends.supply_le`** — a block adds no more than its subsidy;
    * **`issued_le`** — the subsidies add up to no more than `MAX_MONEY`, as long as the halvings
      stay below the width of the shift;
    * **`Reachable.no_inflation`** — no node ever has a view with more money. -/

namespace Chainstate

open MinerDriver BlockHeader Serialize Script Transaction Block Retarget Coins TrimmedList

/-! ## What coins are worth -/

/-- The value of an output; a blank one has none. -/
def outWorth (txout : CTxOut) : Int := if txout.IsNull then 0 else txout.value

/-- The value of the outputs that are left. -/
def worth (c : CCoins) : Int := (c.vout.map outWorth).sum

/-- A blank output is worth nothing. -/
theorem outWorth_null {txout : CTxOut} (h : txout.IsNull = true) : outWorth txout = 0 := if_pos h

/-- Spent coins are worth nothing. -/
theorem worth_of_pruned {c : CCoins} (h : c.IsPruned = true) : worth c = 0 := by
  apply List.sum_eq_zero
  intro v hv
  obtain ⟨o, ho, rfl⟩ := List.mem_map.mp hv
  exact outWorth_null (List.all_eq_true.mp h o ho)

/-- Counting spent coins as none changes nothing. -/
theorem worth_unspent (c : CCoins) : worth (unspent (some c)) = worth c := by
  by_cases hp : c.IsPruned = true
  · rw [unspent_of_pruned hp, worth_of_pruned hp]
    rfl
  · rw [unspent_some_of_not hp]

/-- What is cut off at the end is worth nothing. -/
theorem sum_rdropWhile (vout : List CTxOut) :
    ((vout.rdropWhile CTxOut.IsNull).map outWorth).sum = (vout.map outWorth).sum := by
  induction vout using List.reverseRecOn with
  | nil => rfl
  | append_singleton vout o ih =>
      rw [List.rdropWhile_concat]
      by_cases hnull : o.IsNull = true
      · rw [if_pos hnull, ih, List.map_append, List.sum_append, List.map_singleton, List.sum_singleton,
          outWorth_null hnull, Int.add_zero]
      · rw [if_neg hnull]

/-- An output that is spent takes its value with it. -/
theorem worth_without {c : CCoins} {n : Nat} (hn : c.IsAvailable n = true) :
    worth (c.without n) + (c.undoOf n).txout.value = worth c := by
  have hlt := lt_of_isAvailable hn
  have hout : c.vout.getD n CTxOut.SetNull = c.vout[n] := getD_of_lt hlt
  have hvalue : outWorth c.vout[n] = c.vout[n].value := by
    rw [isAvailable_iff, hout] at hn
    exact if_neg hn
  rw [undoOf_txout, hout, CCoins.without, worth, CCoins.Cleanup, sum_rdropWhile, List.map_set,
    List.sum_set', dif_pos (by rwa [List.length_map]), List.getElem_map, hvalue,
    outWorth_null isNull_SetNull, worth]
  omega

/-- Coins that the disk can hold are worth no less than nothing. -/
theorem worth_nonneg {c : CCoins} (h : Storable c) : 0 ≤ worth c := by
  refine List.sum_nonneg fun v hv => ?_
  obtain ⟨o, ho, rfl⟩ := List.mem_map.mp hv
  rw [outWorth]
  split
  · exact Int.le_refl 0
  · next hleft =>
      obtain ⟨i, hi, rfl⟩ := List.mem_iff_getElem.mp ho
      have hout := h.out i (isAvailable_iff.mpr (by rwa [getD_of_lt hi]))
      rw [getD_of_lt hi] at hout
      exact hout.1.1

/-- New coins are worth no more than the outputs of their transaction. -/
theorem worth_ofTx {tx : CTransaction} (h : Valid tx) (nHeight : Nat) :
    worth (CCoins.ofTx tx nHeight) ≤ Transaction.total tx.vout := by
  have hout : ∀ o ∈ tx.vout, outWorth (clearOut o) ≤ o.value := by
    intro o ho
    have hrange := h.value o ho
    rw [clearOut]
    split
    · rw [outWorth_null isNull_SetNull]
      exact hrange.1
    · rw [outWorth, if_neg (not_isNull hrange)]
  have hsum : worth (CCoins.ofTx tx nHeight) = (tx.vout.map (fun o => outWorth (clearOut o))).sum := by
    show (((tx.vout.map clearOut).rdropWhile CTxOut.IsNull).map outWorth).sum = _
    rw [sum_rdropWhile, List.map_map]
    rfl
  rw [hsum]
  exact List.sum_le_sum hout

/-! ## What a view is worth -/

/-- The hashes that transactions can have. -/
noncomputable def txids : Finset Uint256 :=
  haveI : Finite Uint256 := Finite.of_injective BitVec.toFin fun _ _ => BitVec.eq_of_toFin_eq
  (Set.toFinite (Set.univ : Set Uint256)).toFinset

/-- What all unspent outputs are worth. -/
noncomputable def supply (view : CoinsMap) : Int := ∑ txid ∈ txids, worth (unspent (view txid))

/-- Every hash is one. -/
theorem mem_txids (txid : Uint256) : txid ∈ txids := by
  rw [txids, Set.Finite.mem_toFinset]
  exact Set.mem_univ txid

/-- Setting coins replaces what they are worth. -/
theorem supply_SetCoins (view : CoinsMap) (txid : Uint256) (c : CCoins) :
    supply (SetCoins view txid c) + worth (unspent (view txid)) = supply view + worth c := by
  have hupdate : (fun x => worth (unspent (SetCoins view txid c x)))
      = Function.update (fun x => worth (unspent (view x))) txid (worth c) := by
    funext x
    by_cases hx : x = txid
    · rw [hx, SetCoins_self, Function.update_self, worth_unspent]
    · rw [SetCoins_of_ne c hx, Function.update_of_ne hx]
  rw [supply, hupdate, Finset.sum_update_of_mem (mem_txids txid), supply,
    Finset.sum_eq_add_sum_sdiff_singleton_of_mem (mem_txids txid)]
  omega

/-- The disk keeps what a view is worth. -/
theorem supply_stored {view view' : CoinsMap} (hs : StoredView view view') : supply view' = supply view := by
  refine Finset.sum_congr rfl fun txid _ => ?_
  rw [worth, worth, (hs txid).vout]

/-- What undo information gives back. -/
def undoValue (txundo : CTxUndo) : Int := (txundo.map (fun u => u.txout.value)).sum

/-- Spending takes away what the undo information gives back. -/
theorem supply_spendInputs {view va : CoinsMap} {outs : List COutPoint} {us : CTxUndo}
    (h : spendInputs view outs = some (va, us)) : supply va + undoValue us = supply view := by
  induction outs generalizing view us with
  | nil =>
      obtain ⟨rfl, rfl⟩ := Prod.mk.inj (Option.some.inj h)
      exact Int.add_zero _
  | cons o rest ih =>
      obtain ⟨us', hav, hrest, rfl⟩ := spendInputs_cons h
      have hset := supply_SetCoins view o.hash ((coinsOf view o).without o.n.toNat)
      have hone := worth_without hav
      have hcoins : unspent (view o.hash) = coinsOf view o := rfl
      have hsum : undoValue ((coinsOf view o).undoOf o.n.toNat :: us')
          = ((coinsOf view o).undoOf o.n.toNat).txout.value + undoValue us' := List.sum_cons
      have hih := ih hrest
      rw [hcoins] at hset
      omega

/-- Spending one output leaves the others as they are. -/
theorem outputOf_spent {view : CoinsMap} (hk : KeptView view) {o : COutPoint}
    (hav : (coinsOf view o).IsAvailable o.n.toNat = true) {txin : CTxIn} (hne : txin.prevout ≠ o) :
    outputOf (SetCoins view o.hash ((coinsOf view o).without o.n.toNat)) txin = outputOf view txin := by
  have hc : Kept (coinsOf view o) := hk o.hash
  by_cases hhash : txin.prevout.hash = o.hash
  · have hn : txin.prevout.n.toNat ≠ o.n.toNat := by
      intro hn
      apply hne
      cases hprev : txin.prevout with
      | mk hash n =>
          rw [hprev] at hhash hn
          cases o
          exact congrArg₂ COutPoint.mk hhash (BitVec.eq_of_toNat_eq hn)
    have hvout : ∀ c : CCoins, Kept c → (unspent (some c)).vout = c.vout := by
      intro c hkept
      by_cases hp : c.IsPruned = true
      · rw [unspent_of_pruned hp, (isPruned_iff hkept).mp hp]
      · rw [unspent_some_of_not hp]
    rw [outputOf, coinsOf, hhash, SetCoins_self, hvout _ (without_kept hc hav), without_getD hc hav,
      if_neg hn, outputOf, coinsOf, coinsOf, hhash]
  · rw [outputOf, coinsOf, SetCoins_of_ne _ hhash]
    rfl

/-- The undo information gives back what the inputs are worth. -/
theorem undoValue_spendInputs {view va : CoinsMap} {vin : List CTxIn} {us : CTxUndo}
    (hk : KeptView view) (hnodup : (vin.map CTxIn.prevout).Nodup)
    (h : spendInputs view (vin.map CTxIn.prevout) = some (va, us)) :
    undoValue us = inputValue view vin := by
  induction vin generalizing view us with
  | nil =>
      obtain ⟨-, rfl⟩ := Prod.mk.inj (Option.some.inj h)
      rfl
  | cons txin vin ih =>
      rw [List.map_cons] at h hnodup
      obtain ⟨hnew, hnodup⟩ := List.nodup_cons.mp hnodup
      obtain ⟨us', hav, hrest, rfl⟩ := spendInputs_cons h
      have hc : Kept (coinsOf view txin.prevout) := hk txin.prevout.hash
      have hsame : ∀ t ∈ vin, (outputOf (SetCoins view txin.prevout.hash
          ((coinsOf view txin.prevout).without txin.prevout.n.toNat)) t).value = (outputOf view t).value := by
        intro t ht
        have hne : t.prevout ≠ txin.prevout := fun heq => hnew (heq ▸ List.mem_map_of_mem ht)
        rw [outputOf_spent hk hav hne]
      have hih := ih (hk.setCoins _ (without_kept hc hav)) hnodup hrest
      rw [inputValue, List.map_congr_left hsame, ← inputValue] at hih
      rw [undoValue, List.map_cons, List.sum_cons, ← undoValue, hih, undoOf_txout, inputValue, inputValue,
        List.map_cons, List.sum_cons]
      rfl

/-! ## One transaction, one block -/

/-- A coinbase adds its outputs; another transaction takes its fee away.  What either of them
    overwrites is worth no less than nothing. -/
theorem UpdateCoins_supply {view view1 : CoinsMap} {tx : CTransaction} {nHeight : Nat}
    {txundo : CTxUndo} (hs : StorableView view) (hv : Valid tx)
    (h : UpdateCoins view tx nHeight = some (view1, txundo)) :
    supply view1 ≤ supply view + (if tx.IsCoinBase then Transaction.total tx.vout
      else -(inputValue view tx.vin - Transaction.total tx.vout)) := by
  have hnew := worth_ofTx hv nHeight
  obtain ⟨va, rfl, ⟨hcb, rfl, rfl⟩ | ⟨hcb, hspend⟩⟩ := UpdateCoins_cases h
  · have hset := supply_SetCoins va tx.GetHash (CCoins.ofTx tx nHeight)
    have hgone := worth_nonneg (hs tx.GetHash)
    rw [if_pos hcb]
    omega
  · have hset := supply_SetCoins va tx.GetHash (CCoins.ofTx tx nHeight)
    have hva := supply_spendInputs hspend
    have hinputs := undoValue_spendInputs hs.kept hv.prevout hspend
    have hgone := worth_nonneg ((spendInputs_storable hs hspend).1 tx.GetHash)
    rw [if_neg hcb]
    omega

/-- Transactions that are no coinbases take their fees away. -/
theorem UpdateAll_supply {view view2 : CoinsMap} {vtx : List CTransaction} {nHeight : Nat}
    {undos : List CTxUndo} (hs : StorableView view) (hheight : nHeight ≠ 0) (hlt : nHeight < 2 ^ 31)
    (hv : ∀ tx ∈ vtx, Valid tx) (hrest : ∀ tx ∈ vtx, ¬ tx.IsCoinBase = true)
    (h : UpdateAll nHeight view vtx = some (view2, undos)) :
    supply view2 ≤ supply view - totalFees nHeight view vtx := by
  induction vtx generalizing view undos with
  | nil =>
      obtain ⟨rfl, -⟩ := Prod.mk.inj (Option.some.inj h)
      rw [totalFees]
      omega
  | cons tx vtx ih =>
      obtain ⟨htx, hvtx⟩ := List.forall_mem_cons.mp hv
      obtain ⟨hcb, hcbs⟩ := List.forall_mem_cons.mp hrest
      obtain ⟨view1, txundo, undos', hupdate, hall, -⟩ := UpdateAll_cons h
      have hone := UpdateCoins_supply hs htx hupdate
      have hmore := ih (UpdateCoins_storable hs htx hheight hlt hupdate).1 hvtx hcbs hall
      rw [if_neg hcb] at hone
      rw [totalFees, hupdate, if_neg hcb]
      show supply view2 ≤ supply view - (_ + totalFees nHeight view1 vtx)
      omega

/-- The subsidy of a block. -/
def subsidy (env : Env) (nHeight : Nat) : Int := GetBlockValue env nHeight 0

/-- What a coinbase may take: the subsidy and the fees. -/
theorem GetBlockValue_eq (env : Env) (nHeight : Nat) (nFees : Int) :
    GetBlockValue env nHeight nFees = subsidy env nHeight + nFees := by
  rw [subsidy, GetBlockValue, GetBlockValue, Int.add_zero]

/-- **A block adds no more than its subsidy.** -/
theorem Extends.supply_le {env : Env} {chain : List CBlock} {view view' : CoinsMap} {block : CBlock}
    {undos : List CTxUndo} (hs : StorableView view) (hlt : chain.length + 1 < 2 ^ 31)
    (h : Extends env chain view block view' undos) :
    supply view' ≤ supply view + subsidy env (chain.length + 1) := by
  obtain ⟨tx, vtx, hvtx, hcb, hrest⟩ := coinbase_first h.valid
  have hv := valid_transactions h.valid
  have hall := h.update
  have hvalue := h.coinbase tx (by rw [hvtx]; rfl)
  rw [hvtx] at hv hall hvalue
  obtain ⟨htx, hvs⟩ := List.forall_mem_cons.mp hv
  obtain ⟨view1, txundo, undos', hupdate, hall, -⟩ := UpdateAll_cons hall
  have hone := UpdateCoins_supply hs htx hupdate
  have hheight : chain.length + 1 ≠ 0 := Nat.succ_ne_zero _
  have hmore := UpdateAll_supply (UpdateCoins_storable hs htx hheight hlt hupdate).1 hheight hlt hvs
    hrest hall
  -- the coinbase takes the fees the others leave
  have hfees : totalFees (chain.length + 1) view (tx :: vtx)
      = totalFees (chain.length + 1) view1 vtx := by
    rw [totalFees, hupdate, if_pos hcb]
    exact Int.zero_add _
  rw [if_pos hcb] at hone
  rw [GetBlockValue_eq, hfees] at hvalue
  omega

/-! ## The whole chain -/

/-- The subsidies of the blocks up to a height, the genesis block apart. -/
def issued (env : Env) : Nat → Int
  | 0 => 0
  | nHeight + 1 => issued env nHeight + subsidy env (nHeight + 1)

/-- **A chain issues no more than its subsidies**, by induction on its blocks. -/
theorem Replay.supply_le {env : Env} {chain : List CBlock} {view : CoinsMap} (h : Replay env chain view)
    (hlt : chain.length < 2 ^ 31) : supply view ≤ issued env chain.length := by
  induction h with
  | nil =>
      refine Int.le_of_eq (Finset.sum_eq_zero fun txid _ => ?_)
      rfl
  | @cons chain view view' block undos hchain hext ih =>
      rw [List.length_cons] at hlt
      have hstart := ih (Nat.lt_of_succ_lt hlt)
      have hblock : supply view' ≤ supply view + subsidy env (chain.length + 1) :=
        hext.supply_le (hchain.storable (Nat.lt_of_succ_lt hlt)) hlt
      rw [List.length_cons, issued]
      omega

/-- Halvings after every `interval` blocks, from `v` on; two more intervals at the present value
    would be enough for all that is to come. -/
def halvings (interval v : Nat) : Nat → Nat
  | 0 => 0
  | n + 1 => halvings interval v n + v >>> (n / interval)

/-- **The halvings add up**: what was issued and two intervals at the present value stay below
    two intervals at the first one. -/
theorem halvings_le {interval : Nat} (hpos : 0 < interval) (v n : Nat) :
    halvings interval v n + (v >>> (n / interval)) * (2 * interval - n % interval)
      ≤ v * (2 * interval) := by
  induction n with
  | zero => rw [halvings, Nat.zero_div, Nat.zero_mod, Nat.sub_zero, Nat.zero_add, Nat.shiftRight_zero]
  | succ n ih =>
      refine Nat.le_trans ?_ ih
      have hmod : n % interval < interval := Nat.mod_lt n hpos
      have hsplit := Nat.div_add_mod n interval
      rw [halvings, Nat.add_assoc]
      refine Nat.add_le_add_left ?_ _
      rcases Nat.lt_or_ge (n % interval + 1) interval with hin | hout
      · -- still in the same interval
        have hdiv : (n + 1) / interval = n / interval := by
          rw [← hsplit, Nat.add_assoc, Nat.mul_add_div hpos, Nat.mul_add_div hpos,
            Nat.div_eq_of_lt hin, Nat.div_eq_of_lt hmod]
        have hrest : (n + 1) % interval = n % interval + 1 := by
          rw [Nat.add_mod, Nat.mod_eq_of_lt (Nat.lt_of_le_of_lt (Nat.le_add_left 1 _) hin), Nat.mod_eq_of_lt hin]
        rw [hdiv, hrest, show 2 * interval - n % interval = 2 * interval - (n % interval + 1) + 1 by omega,
          Nat.mul_succ, Nat.add_comm]
      · -- the first block of the next one
        have heq : n + 1 = interval * (n / interval + 1) := by
          rw [Nat.mul_succ]
          omega
        have hdiv : (n + 1) / interval = n / interval + 1 := by
          rw [heq, Nat.mul_div_cancel_left _ hpos]
        have hrest : (n + 1) % interval = 0 := by
          rw [heq, Nat.mul_mod_right]
        have hhalf : v >>> (n / interval) / 2 * 2 ≤ v >>> (n / interval) := Nat.div_mul_le_self _ 2
        rw [hdiv, hrest, Nat.sub_zero, Nat.shiftRight_succ, ← Nat.mul_assoc,
          show 2 * interval - n % interval = interval + 1 by omega, Nat.mul_succ, Nat.add_comm]
        exact Nat.add_le_add_right (Nat.mul_le_mul_right interval hhalf) _

/-- The subsidies are halvings, the genesis block with them. -/
theorem issued_eq {env : Env} (hpos : 0 < env.nSubsidyHalvingInterval) {nHeight : Nat}
    (hlt : nHeight < 64 * env.nSubsidyHalvingInterval) :
    issued env nHeight + (50 * COIN : Nat)
      = halvings env.nSubsidyHalvingInterval (50 * COIN) (nHeight + 1) := by
  induction nHeight with
  | zero =>
      rw [issued, halvings, halvings, Nat.zero_div, Nat.shiftRight_zero, Int.zero_add, Nat.zero_add]
  | succ n ih =>
      have hshift : (n + 1) / env.nSubsidyHalvingInterval % 64 = (n + 1) / env.nSubsidyHalvingInterval := by
        apply Nat.mod_eq_of_lt
        rwa [Nat.div_lt_iff_lt_mul hpos]
      have hsub : subsidy env (n + 1) = ((50 * COIN) >>> ((n + 1) / env.nSubsidyHalvingInterval) : Nat) := by
        rw [subsidy, GetBlockValue, hshift, Int.add_zero]
      have hih := ih (Nat.lt_of_succ_lt hlt)
      rw [issued, hsub, halvings, Int.natCast_add, ← hih]
      omega

/-- **The subsidies add up to no more than `MAX_MONEY`.** -/
theorem issued_le {env : Env} (hpos : 0 < env.nSubsidyHalvingInterval)
    (hmax : env.nSubsidyHalvingInterval ≤ 210000) {nHeight : Nat}
    (hlt : nHeight < 64 * env.nSubsidyHalvingInterval) : issued env nHeight ≤ MAX_MONEY := by
  have hsum := issued_eq hpos hlt
  have hbound := halvings_le hpos (50 * COIN) (nHeight + 1)
  have hcoin : 50 * COIN = 5000000000 := rfl
  have hmoney : (MAX_MONEY : Int) = 2100000000000000 := rfl
  rw [hcoin] at hsum hbound
  omega

/-- **No node has a view with more money** than the subsidies of its chain, nor than `MAX_MONEY`. -/
theorem Reachable.no_inflation {env : Env} {K : KeyLibrary} {s : State} (h : Reachable env K s)
    (hpos : 0 < env.nSubsidyHalvingInterval) (hmax : env.nSubsidyHalvingInterval ≤ 210000)
    (hlt : s.chainActive.length < 64 * env.nSubsidyHalvingInterval) :
    supply s.pcoinsTip.coins ≤ issued env s.chainActive.length
      ∧ supply s.pcoinsTip.coins ≤ MAX_MONEY := by
  obtain ⟨view, hreplay, hs⟩ := h.inv.view
  have hissued := hreplay.supply_le h.inv.height
  rw [← supply_stored hs] at hissued
  exact ⟨hissued, Int.le_trans hissued (issued_le hpos hmax hlt)⟩

theorem Reachable.no_inflation_again :
    supply State.again.pcoinsTip.coins ≤ issued mainEnv State.again.chainActive.length
      ∧ supply State.again.pcoinsTip.coins ≤ MAX_MONEY :=
  Reachable.no_inflation reachable_again (by decide) (by decide) (by decide)

end Chainstate
