import FpgaMiner.ConnectBlockProofs

/-! # Disconnecting a block

    `DisconnectBlock` takes a block back with the undo information that was kept when it was
    connected, its transactions from the last to the first.

    * **`connectTxs_stored`** — connecting to what the disk made of a view does what it does
      to the view;
    * **`disconnectTxs_UpdateAll`** — disconnecting gives the view from before, and finds
      nothing that should not be there. -/

namespace Chainstate

open MinerDriver BlockHeader Script Transaction Block Coins

/-! ## The code -/

/-- The outputs of a transaction are taken out, if they are what they should be. -/
def removeOutputs (nHeight : Nat) (view : CoinsMap) (tx : CTransaction) : CoinsMap × Bool :=
  let hash := tx.GetHash
  let outs := ((view hash).getD {}).ClearUnspendable
  let outsBlock := CCoins.ofTx tx nHeight
  let outs := if outsBlock.nVersion.toInt < 0 then { outs with nVersion := outsBlock.nVersion } else outs
  (if (view hash).isSome then SetCoins view hash {} else view, outs.same outsBlock)

/-- One round of the loop; there is undo information for all but the first transaction. -/
def disconnectTx (nHeight : Nat) (view : CoinsMap) (tx : CTransaction) :
    Option CTxUndo → Option (CoinsMap × Bool)
  | none => some (removeOutputs nHeight view tx)
  | some txundo =>
      let r := removeOutputs nHeight view tx
      if txundo.length ≠ tx.vin.length then none
      else
        let s := restoreInputs r.1 ((tx.vin.map CTxIn.prevout).zip txundo)
        some (s.1, r.2 && s.2)

/-- The loop, from the last transaction on. -/
def disconnectTxs (nHeight : Nat) (view : CoinsMap) :
    List (CTransaction × Option CTxUndo) → Option (CoinsMap × Bool)
  | [] => some (view, true)
  | (tx, txundo) :: rest =>
      match disconnectTxs nHeight view rest with
      | none => none
      | some (view, fClean) =>
          match disconnectTx nHeight view tx txundo with
          | none => none
          | some (view, fClean') => some (view, fClean && fClean')

/-- The transactions with their undo information. -/
def withUndo (vtx : List CTransaction) (blockUndo : CBlockUndo) : List (CTransaction × Option CTxUndo) :=
  vtx.zip (none :: blockUndo.map some)

/-- The view before the block and `fClean`; `none` is an error or a failed assertion. -/
def DisconnectBlock (block : CBlock) (pindex : BlockIndex) (view : View) (blockUndo : CBlockUndo) :
    Option (View × Bool) :=
  if pindex.phashBlock ≠ some view.hashBlock then none
  else if blockUndo.length + 1 ≠ block.vtx.length then none
  else
    (disconnectTxs pindex.nHeight view.coins (withUndo block.vtx blockUndo)).map
      (fun r => (⟨r.1, pindex.hashPrev⟩, r.2))

/-! ## One transaction -/

/-- No output of a transaction with this hash is unspent. -/
def Fresh (view : CoinsMap) (txid : Uint256) : Prop := (unspent (view txid)).vout = []

/-- Coins without outputs count as none. -/
theorem unspent_of_fresh {view : CoinsMap} {txid : Uint256} (h : Fresh view txid) :
    unspent (view txid) = {} := by
  have hpruned := pruned_of_unspent_nil h
  cases hfound : view txid with
  | none => rfl
  | some c =>
      rw [hfound, Option.getD_some] at hpruned
      exact unspent_of_pruned hpruned

/-- The version after the correction is the one of the transaction. -/
theorem version_corrected {v v' : BitVec 32} (h : StoredVersion v v') (hneg : ¬ v.toInt < 0) : v' = v := by
  rcases h with h | h
  · exact h
  · rw [h, diskVersion, if_neg hneg]

/-- **The outputs of a transaction are taken out again.** -/
theorem removeOutputs_ofTx {va view' : CoinsMap} {tx : CTransaction} {nHeight : Nat} (hv : Valid tx)
    (hheight : nHeight ≠ 0) (hfresh : Fresh va tx.GetHash)
    (hs : StoredView (SetCoins va tx.GetHash (CCoins.ofTx tx nHeight)) view') :
    ∃ r, removeOutputs nHeight view' tx = (r, true) ∧ StoredView va r := by
  have hkept := ofTx_kept hv hheight
  have hhash := hs tx.GetHash
  rw [SetCoins_self] at hhash
  refine ⟨(removeOutputs nHeight view' tx).1, Prod.ext rfl ?_, ?_⟩
  · -- the outputs match those of the block
    show CCoins.same _ _ = true
    by_cases hnil : (CCoins.ofTx tx nHeight).vout = []
    · have hpruned : (CCoins.ofTx tx nHeight).IsPruned = true := (isPruned_iff hkept).mpr hnil
      rw [unspent_of_pruned hpruned] at hhash
      have hfound : ((view' tx.GetHash).getD {}).ClearUnspendable.IsPruned = true := by
        have hp := pruned_of_unspent_nil hhash.vout
        generalize (view' tx.GetHash).getD {} = c at hp
        rw [CCoins.IsPruned, List.all_eq_true] at hp ⊢
        intro x hx
        have hx := (List.rdropWhile_prefix _ (c.vout.map clearOut)).subset hx
        obtain ⟨o, ho, rfl⟩ := List.mem_map.mp hx
        rw [clearOut]
        split
        · rfl
        · exact hp o ho
      rw [CCoins.same]
      split
      · have hp : CCoins.IsPruned { ((view' tx.GetHash).getD {}).ClearUnspendable with
            nVersion := (CCoins.ofTx tx nHeight).nVersion } = true := hfound
        rw [hp, hpruned]
        rfl
      · rw [hfound, hpruned]
        rfl
    · rw [unspent_some_of_not (fun hp => hnil ((isPruned_iff hkept).mp hp))] at hhash
      have hout : (unspent (view' tx.GetHash)).vout ≠ [] := by
        rw [hhash.vout]
        exact hnil
      obtain ⟨hsome, -⟩ := eq_some_of_unspent hout
      rw [hsome, Option.getD_some, ClearUnspendable_ofTx hv hhash.vout, CCoins.same]
      have heq : (if (CCoins.ofTx tx nHeight).nVersion.toInt < 0 then
          { unspent (view' tx.GetHash) with nVersion := (CCoins.ofTx tx nHeight).nVersion }
        else unspent (view' tx.GetHash)) = CCoins.ofTx tx nHeight := by
        have hfields : ∀ c d : CCoins, c.fCoinBase = d.fCoinBase → c.vout = d.vout →
            c.nHeight = d.nHeight → c.nVersion = d.nVersion → c = d := by
          rintro ⟨_, _, _, _⟩ ⟨_, _, _, _⟩ rfl rfl rfl rfl
          rfl
        split
        · exact hfields _ _ hhash.fCoinBase hhash.vout hhash.nHeight rfl
        · next hneg =>
            exact hfields _ _ hhash.fCoinBase hhash.vout hhash.nHeight
              (version_corrected hhash.nVersion hneg)
      rw [heq, decide_eq_true rfl, Bool.or_true]
  · intro txid
    show Stored _ (unspent ((if (view' tx.GetHash).isSome then SetCoins view' tx.GetHash {} else view')
      txid))
    by_cases htx : txid = tx.GetHash
    · rw [htx, unspent_of_fresh hfresh]
      split
      · rw [SetCoins_self]
        exact Stored.refl {}
      · next hnone =>
          rw [Option.not_isSome_iff_eq_none] at hnone
          rw [hnone]
          exact Stored.refl {}
    · have hother := hs txid
      rw [SetCoins_of_ne _ htx] at hother
      split
      · rw [SetCoins_of_ne _ htx]
        exact hother
      · exact hother

/-- The undo information of a transaction, which a coinbase does not have. -/
def undoFor (tx : CTransaction) (txundo : CTxUndo) : Option CTxUndo :=
  if tx.IsCoinBase then none else some txundo

/-- **A transaction is taken back.** -/
theorem disconnectTx_UpdateCoins {view view1 view1' : CoinsMap} {tx : CTransaction} {nHeight : Nat}
    {txundo txundo' : CTxUndo} (hk : KeptView view) (hv : Valid tx) (hheight : nHeight ≠ 0)
    (hfresh : Fresh view tx.GetHash) (h : UpdateCoins view tx nHeight = some (view1, txundo))
    (hs : StoredView view1 view1') (hu : List.Forall₂ StoredUndo txundo txundo') :
    ∃ r, disconnectTx nHeight view1' tx (undoFor tx txundo') = some (r, true) ∧ StoredView view r := by
  obtain ⟨va, rfl, ⟨hcb, rfl, -⟩ | ⟨hcb, hspend⟩⟩ := UpdateCoins_cases h
  · obtain ⟨r, hr, hview⟩ := removeOutputs_ofTx hv hheight hfresh hs
    rw [undoFor, if_pos hcb, disconnectTx, hr]
    exact ⟨r, rfl, hview⟩
  · have hfresh' : Fresh va tx.GetHash := by
      rw [Fresh, spendInputs_frame hspend hfresh]
      exact hfresh
    obtain ⟨r, hr, hview⟩ := removeOutputs_ofTx hv hheight hfresh' hs
    obtain ⟨r', hr', hview'⟩ := restoreInputs_spendInputs hk hspend hview hu
    have hlen : txundo'.length = tx.vin.length := by
      have hl := spendInputs_length hspend
      rw [List.length_map] at hl
      rw [← hu.length_eq, hl]
    rw [undoFor, if_neg hcb, disconnectTx, if_neg (not_not.mpr hlen), hr]
    simp only [hr']
    exact ⟨r', rfl, hview'⟩

/-! ## All transactions of a block -/

/-- The coins after some transactions, with all undo information. -/
def UpdateAll (nHeight : Nat) : CoinsMap → List CTransaction → Option (CoinsMap × List CTxUndo)
  | view, [] => some (view, [])
  | view, tx :: vtx =>
      match UpdateCoins view tx nHeight with
      | none => none
      | some (view, txundo) =>
          match UpdateAll nHeight view vtx with
          | none => none
          | some (view, undos) => some (view, txundo :: undos)

/-- What the transactions spend more than they make, a coinbase apart. -/
def totalFees (nHeight : Nat) : CoinsMap → List CTransaction → Int
  | _, [] => 0
  | view, tx :: vtx =>
      (if tx.IsCoinBase then 0 else inputValue view tx.vin - Transaction.total tx.vout)
        + match UpdateCoins view tx nHeight with
          | none => 0
          | some (view, _) => totalFees nHeight view vtx

/-- The first transaction, then the others. -/
theorem UpdateAll_cons {view view2 : CoinsMap} {tx : CTransaction} {vtx : List CTransaction}
    {nHeight : Nat} {undos : List CTxUndo} (h : UpdateAll nHeight view (tx :: vtx) = some (view2, undos)) :
    ∃ view1 txundo undos', UpdateCoins view tx nHeight = some (view1, txundo)
      ∧ UpdateAll nHeight view1 vtx = some (view2, undos') ∧ undos = txundo :: undos' := by
  rw [UpdateAll] at h
  cases hupdate : UpdateCoins view tx nHeight with
  | none =>
      rw [hupdate] at h
      cases h
  | some r =>
      rw [hupdate] at h
      simp only at h
      cases hall : UpdateAll nHeight r.1 vtx with
      | none =>
          rw [hall] at h
          cases h
      | some r' =>
          rw [hall] at h
          obtain ⟨rfl, rfl⟩ := Prod.mk.inj (Option.some.inj h)
          exact ⟨r.1, r.2, r'.2, rfl, hall, rfl⟩

/-- Undo information for each transaction. -/
theorem UpdateAll_length {view view2 : CoinsMap} {vtx : List CTransaction} {nHeight : Nat}
    {undos : List CTxUndo} (h : UpdateAll nHeight view vtx = some (view2, undos)) :
    undos.length = vtx.length := by
  induction vtx generalizing view undos with
  | nil =>
      obtain ⟨-, rfl⟩ := Prod.mk.inj (Option.some.inj h)
      rfl
  | cons tx vtx ih =>
      obtain ⟨view1, txundo, undos', -, hall, rfl⟩ := UpdateAll_cons h
      exact congrArg (· + 1) (ih hall)

/-- Transactions whose hashes are new stay so until they are reached. -/
theorem fresh_UpdateCoins {view view1 : CoinsMap} {tx : CTransaction} {nHeight : Nat} {txundo : CTxUndo}
    (h : UpdateCoins view tx nHeight = some (view1, txundo)) {txid : Uint256} (hfresh : Fresh view txid)
    (hne : txid ≠ tx.GetHash) : Fresh view1 txid := by
  obtain ⟨va, rfl, ⟨-, rfl, -⟩ | ⟨-, hspend⟩⟩ := UpdateCoins_cases h
  · rw [Fresh, SetCoins_of_ne _ hne]
    exact hfresh
  · rw [Fresh, SetCoins_of_ne _ hne, spendInputs_frame hspend hfresh]
    exact hfresh

/-- The transactions of a block are valid and their hashes are new, each one once. -/
structure Acceptable (view : CoinsMap) (vtx : List CTransaction) : Prop where
  valid : ∀ tx ∈ vtx, Valid tx
  fresh : ∀ tx ∈ vtx, Fresh view tx.GetHash
  nodup : (vtx.map CTransaction.GetHash).Nodup

/-- What is asked of a block holds of its rest. -/
theorem Acceptable.tail {view view1 : CoinsMap} {tx : CTransaction} {vtx : List CTransaction}
    {nHeight : Nat} {txundo : CTxUndo} (h : Acceptable view (tx :: vtx))
    (hupdate : UpdateCoins view tx nHeight = some (view1, txundo)) : Acceptable view1 vtx := by
  obtain ⟨hnew, hnodup⟩ := List.nodup_cons.mp h.nodup
  refine ⟨fun t ht => h.valid t (List.mem_cons_of_mem _ ht), ?_, hnodup⟩
  intro t ht
  refine fresh_UpdateCoins hupdate (h.fresh t (List.mem_cons_of_mem _ ht)) ?_
  intro heq
  exact hnew (heq ▸ List.mem_map_of_mem ht)

/-- **The transactions of a block are taken back.** -/
theorem disconnectTxs_UpdateAll {view view2 view2' : CoinsMap} {vtx : List CTransaction} {nHeight : Nat}
    {undos undos' : List CTxUndo} (hk : KeptView view) (hheight : nHeight ≠ 0)
    (ha : Acceptable view vtx) (h : UpdateAll nHeight view vtx = some (view2, undos))
    (hs : StoredView view2 view2') (hu : List.Forall₂ (List.Forall₂ StoredUndo) undos undos') :
    ∃ r, disconnectTxs nHeight view2' (List.zipWith (fun tx u => (tx, undoFor tx u)) vtx undos')
        = some (r, true) ∧ StoredView view r := by
  induction vtx generalizing view undos undos' with
  | nil =>
      obtain ⟨rfl, rfl⟩ := Prod.mk.inj (Option.some.inj h)
      exact ⟨view2', rfl, hs⟩
  | cons tx vtx ih =>
      have htx := ha.valid tx List.mem_cons_self
      obtain ⟨view1, txundo, undos1, hupdate, hall, rfl⟩ := UpdateAll_cons h
      obtain ⟨txundo', undos1', hu1, hurest, rfl⟩ := List.forall₂_cons_left_iff.mp hu
      obtain ⟨r, hr, hview⟩ := ih (UpdateCoins_kept hk htx hheight hupdate) (ha.tail hupdate) hall hurest
      obtain ⟨r', hr', hview'⟩ := disconnectTx_UpdateCoins hk htx hheight
        (ha.fresh tx List.mem_cons_self) hupdate hview hu1
      refine ⟨r', ?_, hview'⟩
      rw [List.zipWith_cons_cons, disconnectTxs, hr]
      simp only [hr', Bool.and_self]

/-! ## Connecting to what the disk made of a view -/

/-- Values are the same in a stored view. -/
theorem inputValue_stored {view view' : CoinsMap} (hs : StoredView view view') (vin : List CTxIn) :
    inputValue view' vin = inputValue view vin := by
  have hout : ∀ txin, outputOf view' txin = outputOf view txin := by
    intro txin
    rw [outputOf, outputOf, coinsOf, (hs txin.prevout.hash).vout, coinsOf]
  simp only [inputValue, hout]

/-- An update of a stored view is the stored update. -/
theorem UpdateCoins_stored {view view' view1' : CoinsMap} {tx : CTransaction} {nHeight : Nat}
    {txundo' : CTxUndo} (hs : StoredView view view')
    (h : UpdateCoins view' tx nHeight = some (view1', txundo')) :
    ∃ view1 txundo, UpdateCoins view tx nHeight = some (view1, txundo) ∧ StoredView view1 view1'
      ∧ List.Forall₂ StoredUndo txundo txundo' := by
  obtain ⟨va', rfl, ⟨hcb, rfl, rfl⟩ | ⟨hcb, hspend⟩⟩ := UpdateCoins_cases h
  · refine ⟨_, [], ?_, hs.setCoins tx.GetHash (Stored.refl _), List.Forall₂.nil⟩
    rw [UpdateCoins, if_pos hcb]
  · obtain ⟨va, us, hva, hview, hus⟩ := spendInputs_stored hs hspend
    refine ⟨_, us, ?_, hview.setCoins tx.GetHash (Stored.refl _), hus⟩
    rw [UpdateCoins, if_neg hcb, hva]

/-- The undo information that `ConnectBlock` keeps. -/
def keptUndos (vtx : List CTransaction) (undos : List CTxUndo) : CBlockUndo :=
  ((vtx.zip undos).filter (fun p => !p.1.IsCoinBase)).map Prod.snd

/-- **Connecting to a stored view.** -/
theorem connectTxs_stored {env : Env} {pindex : BlockIndex} {fStrict : Bool} {view : CoinsMap}
    {s' s2' : Progress} {vtx : List CTransaction} (hs : StoredView view s'.view)
    (hv : ∀ tx ∈ vtx, Valid tx) (h : connectTxs env pindex fStrict s' vtx = .ok s2') :
    ∃ view2 undos undos', UpdateAll pindex.nHeight view vtx = some (view2, undos)
      ∧ StoredView view2 s2'.view ∧ List.Forall₂ (List.Forall₂ StoredUndo) undos undos'
      ∧ s2'.blockundo = s'.blockundo ++ keptUndos vtx undos'
      ∧ s2'.nFees = s'.nFees + totalFees pindex.nHeight view vtx := by
  induction vtx generalizing view s' with
  | nil =>
      cases h
      refine ⟨view, [], [], rfl, hs, List.Forall₂.nil, (List.append_nil _).symm, ?_⟩
      rw [totalFees, Int.add_zero]
  | cons tx vtx ih =>
      obtain ⟨htx, hvtx⟩ := List.forall_mem_cons.mp hv
      obtain ⟨s1', hs1, h⟩ := bind_ok h
      obtain ⟨txundo', hupdate', hundo, -, hfees⟩ := connectTx_ok htx hs1
      obtain ⟨view1, txundo, hupdate, hview1, hu⟩ := UpdateCoins_stored hs hupdate'
      obtain ⟨view2, undos, undos', hall, hview2, hus, hundos, hfees2⟩ := ih hview1 hvtx h
      refine ⟨view2, txundo :: undos, txundo' :: undos', ?_, hview2, List.Forall₂.cons hu hus, ?_, ?_⟩
      · rw [UpdateAll, hupdate]
        simp only [hall]
      · rw [hundos, hundo, keptUndos, keptUndos, List.zip_cons_cons, List.filter_cons]
        by_cases hcb : tx.IsCoinBase = true
        · rw [if_pos hcb, if_neg (by rw [hcb]; exact Bool.false_ne_true)]
        · rw [if_neg hcb, if_pos (by rw [Bool.not_eq_true _ |>.mp hcb]; rfl), List.map_cons,
            List.append_assoc]
          rfl
      · rw [hfees2, hfees, totalFees, hupdate, inputValue_stored hs, Int.add_assoc]

end Chainstate
