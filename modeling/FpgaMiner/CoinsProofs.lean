import FpgaMiner.TrimmedListProofs
import FpgaMiner.TransactionProofs

/-! # Unspent outputs

    `CCoins` holds the outputs of a transaction that are not spent; a spent one is null, and
    null ones at the end are dropped.  A view gives the coins of a transaction hash.

    * **`restore_spend`** — an output that is put back from the undo information of its
      spending gives the coins from before, whether they were the last ones or not;
    * **`restoreInputs_spendInputs`** — the same for the inputs of a transaction, put back
      last to first.

    The disk does not keep a negative version, so both are about coins that agree up to what
    the disk makes of the version. -/

namespace Coins

open MinerDriver BlockHeader Script Transaction TrimmedList

/-! ## The code -/

/-- What is kept of a transaction: its outputs with the spent ones blank, and where it
    came from. -/
structure CCoins where
  fCoinBase : Bool := false
  vout : List CTxOut := []
  nHeight : Nat := 0
  nVersion : BitVec 32 := 0
  deriving DecidableEq

/-- Blank outputs at the end are dropped. -/
def CCoins.Cleanup (c : CCoins) : CCoins := { c with vout := c.vout.rdropWhile CTxOut.IsNull }

/-- Outputs that nobody can spend are made blank. -/
def CCoins.ClearUnspendable (c : CCoins) : CCoins :=
  CCoins.Cleanup { c with
    vout := c.vout.map (fun txout =>
      if IsUnspendable txout.scriptPubKey then CTxOut.SetNull else txout) }

/-- The constructor from a transaction. -/
def CCoins.ofTx (tx : CTransaction) (nHeightIn : Nat) : CCoins :=
  CCoins.ClearUnspendable
    { fCoinBase := tx.IsCoinBase, vout := tx.vout, nHeight := nHeightIn, nVersion := tx.nVersion }

/-- There is such an output, and it is not spent. -/
def CCoins.IsAvailable (c : CCoins) (nPos : Nat) : Bool :=
  decide (nPos < c.vout.length) && !(c.vout.getD nPos CTxOut.SetNull).IsNull

/-- All outputs are spent. -/
def CCoins.IsPruned (c : CCoins) : Bool := c.vout.all CTxOut.IsNull

/-- `operator==` -/
def CCoins.same (a b : CCoins) : Bool := (a.IsPruned && b.IsPruned) || decide (a = b)

/-- What is kept of a spent output; the last three fields are those of its transaction when it
    was the last one left, and blank otherwise. -/
structure CTxInUndo where
  txout : CTxOut
  fCoinBase : Bool := false
  nHeight : Nat := 0
  nVersion : BitVec 32 := 0
  deriving DecidableEq

/-- The coins without output `n`, and the undo information. -/
def CCoins.Spend (c : CCoins) (n : Nat) : Option (CCoins × CTxInUndo) :=
  if c.vout.length ≤ n then none
  else if (c.vout.getD n CTxOut.SetNull).IsNull then none
  else
    let undo : CTxInUndo := { txout := c.vout.getD n CTxOut.SetNull }
    let spent := CCoins.Cleanup { c with vout := c.vout.set n CTxOut.SetNull }
    if spent.vout.length = 0 then
      some (spent, { undo with nHeight := c.nHeight, fCoinBase := c.fCoinBase, nVersion := c.nVersion })
    else some (spent, undo)

/-- What `GetCoins` finds in a view. -/
abbrev CoinsMap := Uint256 → Option CCoins

/-- The coins of one transaction are replaced. -/
def SetCoins (view : CoinsMap) (txid : Uint256) (coins : CCoins) : CoinsMap :=
  Function.update view txid (some coins)

/-- `Spend` on the coins in a view; `none` is a failed assertion. -/
def spendInput (view : CoinsMap) (prevout : COutPoint) : Option (CoinsMap × CTxInUndo) :=
  match view prevout.hash with
  | none => none
  | some coins =>
      match coins.Spend prevout.n.toNat with
      | none => none
      | some (coins, undo) => some (SetCoins view prevout.hash coins, undo)

/-- The loop of `UpdateCoins` over the inputs. -/
def spendInputs (view : CoinsMap) : List COutPoint → Option (CoinsMap × List CTxInUndo)
  | [] => some (view, [])
  | prevout :: rest =>
      match spendInput view prevout with
      | none => none
      | some (view, undo) =>
          match spendInputs view rest with
          | none => none
          | some (view, vprevout) => some (view, undo :: vprevout)

/-- The coins that `DisconnectBlock` puts in the place of those it finds, and whether it finds
    what it expects. -/
def restoreInput (found : Option CCoins) (n : Nat) (undo : CTxInUndo) : CCoins × Bool :=
  let coins := found.getD {}
  let fClean := if undo.nHeight ≠ 0 then coins.IsPruned else !coins.IsPruned
  let coins := if undo.nHeight ≠ 0 then
      { fCoinBase := undo.fCoinBase, nHeight := undo.nHeight, nVersion := undo.nVersion }
    else coins
  ({ coins with vout := put CTxOut.SetNull coins.vout n undo.txout }, fClean && !coins.IsAvailable n)

/-- Its loop over the inputs, from the last one on. -/
def restoreInputs (view : CoinsMap) : List (COutPoint × CTxInUndo) → CoinsMap × Bool
  | [] => (view, true)
  | (out, undo) :: rest =>
      let r := restoreInputs view rest
      let s := restoreInput (r.1 out.hash) out.n.toNat undo
      (SetCoins r.1 out.hash s.1, r.2 && s.2)

/-- What is read back for a version that was written: `WriteVarInt` stops at a negative number
    after its low seven bits. -/
def diskVersion (nVersion : BitVec 32) : BitVec 32 :=
  if nVersion.toInt < 0 then nVersion &&& 0x7f else nVersion

/-! ## What is unspent -/

/-- Pruned coins are as good as none. -/
def unspent (found : Option CCoins) : CCoins :=
  match found with
  | none => {}
  | some c => if c.IsPruned then {} else c

/-- Coins as they are kept: the nulls are all the same one, none is at the end, and the height
    is not the one that means "not the last output" in the undo information. -/
structure Kept (c : CCoins) : Prop where
  trimmed : Trimmed CTxOut.IsNull CTxOut.SetNull c.vout
  height : c.vout ≠ [] → c.nHeight ≠ 0

/-- A view with such coins. -/
def KeptView (view : CoinsMap) : Prop := ∀ txid, Kept (unspent (view txid))

/-- A blank output is blank. -/
theorem isNull_SetNull : CTxOut.SetNull.IsNull = true := rfl

/-- No coins are well formed. -/
theorem kept_empty : Kept {} := ⟨trimmed_nil, fun h => absurd rfl h⟩

/-- Well-formed coins are spent when they have no outputs at all. -/
theorem isPruned_iff {c : CCoins} (h : Kept c) : c.IsPruned = true ↔ c.vout = [] := by
  rw [CCoins.IsPruned, List.all_eq_true]
  constructor
  · intro hall
    by_contra hne
    exact h.trimmed.last hne (hall _ (List.getLast_mem hne))
  · intro hnil o ho
    rw [hnil] at ho
    exact (List.not_mem_nil ho).elim

/-- Coins with an output that is left are what they are. -/
theorem unspent_some_of_not {c : CCoins} (h : ¬ c.IsPruned = true) : unspent (some c) = c := if_neg h

/-- Spent coins count as none. -/
theorem unspent_of_pruned {c : CCoins} (h : c.IsPruned = true) : unspent (some c) = {} := if_pos h

/-- Either way they are well formed. -/
theorem kept_unspent {c : CCoins} (h : Kept c) : Kept (unspent (some c)) := by
  by_cases hp : c.IsPruned = true
  · rw [unspent_of_pruned hp]
    exact kept_empty
  · rw [unspent_some_of_not hp]
    exact h

/-- Coins are pruned if none of their outputs is unspent. -/
theorem pruned_of_unspent_nil {found : Option CCoins} (h : (unspent found).vout = []) :
    (found.getD {}).IsPruned = true := by
  cases found with
  | none => rfl
  | some c =>
      by_cases hp : c.IsPruned = true
      · exact hp
      · rw [unspent_some_of_not hp] at h
        rw [Option.getD_some, CCoins.IsPruned, h]
        rfl

/-- Coins that are found and not pruned are the unspent ones. -/
theorem eq_some_of_unspent {found : Option CCoins} (h : (unspent found).vout ≠ []) :
    found = some (unspent found) ∧ ¬ (unspent found).IsPruned = true := by
  cases found with
  | none => exact absurd rfl h
  | some c =>
      by_cases hp : c.IsPruned = true
      · rw [unspent_of_pruned hp] at h
        exact absurd rfl h
      · rw [unspent_some_of_not hp]
        exact ⟨rfl, hp⟩

/-! ## Up to the disk -/

/-- A version, or what the disk makes of it. -/
def StoredVersion (v v' : BitVec 32) : Prop := v' = v ∨ v' = diskVersion v

/-- The second coins are the first ones, or what the disk makes of them. -/
structure Stored (c c' : CCoins) : Prop where
  fCoinBase : c'.fCoinBase = c.fCoinBase
  vout : c'.vout = c.vout
  nHeight : c'.nHeight = c.nHeight
  nVersion : StoredVersion c.nVersion c'.nVersion

/-- The same for undo information. -/
structure StoredUndo (u u' : CTxInUndo) : Prop where
  txout : u'.txout = u.txout
  fCoinBase : u'.fCoinBase = u.fCoinBase
  nHeight : u'.nHeight = u.nHeight
  nVersion : StoredVersion u.nVersion u'.nVersion

/-- The same for views, where pruned coins need not be there. -/
def StoredView (view view' : CoinsMap) : Prop :=
  ∀ txid, Stored (unspent (view txid)) (unspent (view' txid))

/-- Nothing may have been stored. -/
theorem Stored.refl (c : CCoins) : Stored c c := ⟨rfl, rfl, rfl, Or.inl rfl⟩

theorem StoredUndo.refl (u : CTxInUndo) : StoredUndo u u := ⟨rfl, rfl, rfl, Or.inl rfl⟩

theorem StoredView.refl (view : CoinsMap) : StoredView view view := fun _ => Stored.refl _

/-- The disk does not change what is spent. -/
theorem Stored.isPruned {c c' : CCoins} (h : Stored c c') : c'.IsPruned = c.IsPruned := by
  rw [CCoins.IsPruned, CCoins.IsPruned, h.vout]

/-- Nor what counts as none. -/
theorem Stored.unspent {c c' : CCoins} (h : Stored c c') :
    Stored (unspent (some c)) (unspent (some c')) := by
  by_cases hp : c.IsPruned = true
  · rw [unspent_of_pruned hp, unspent_of_pruned (h.isPruned.trans hp)]
    exact Stored.refl {}
  · rw [unspent_some_of_not hp, unspent_some_of_not (by rw [h.isPruned]; exact hp)]
    exact h

/-- What the disk gives is well formed. -/
theorem Stored.kept {c c' : CCoins} (h : Stored c c') (hk : Kept c) : Kept c' := by
  constructor
  · rw [h.vout]
    exact hk.trimmed
  · rw [h.vout, h.nHeight]
    exact hk.height

/-- A view that was stored is well formed. -/
theorem StoredView.kept {view view' : CoinsMap} (h : StoredView view view') (hk : KeptView view) :
    KeptView view' :=
  fun txid => (h txid).kept (hk txid)

/-- The coins that were set. -/
theorem SetCoins_self (view : CoinsMap) (txid : Uint256) (c : CCoins) :
    SetCoins view txid c txid = some c := by
  rw [SetCoins, Function.update_self]

/-- The coins of other transactions stay. -/
theorem SetCoins_of_ne {view : CoinsMap} {txid x : Uint256} (c : CCoins) (h : x ≠ txid) :
    SetCoins view txid c x = view x := by
  rw [SetCoins, Function.update_of_ne h]

/-- Coins that were stored are set in a view that was. -/
theorem StoredView.setCoins {view view' : CoinsMap} (h : StoredView view view') (txid : Uint256)
    {c c' : CCoins} (hc : Stored c c') : StoredView (SetCoins view txid c) (SetCoins view' txid c') := by
  intro x
  by_cases hx : x = txid
  · rw [hx, SetCoins_self, SetCoins_self]
    exact hc.unspent
  · rw [SetCoins_of_ne c hx, SetCoins_of_ne c' hx]
    exact h x

/-- A view stays well formed when well-formed coins are set in it. -/
theorem KeptView.setCoins {view : CoinsMap} (h : KeptView view) (txid : Uint256) {c : CCoins}
    (hc : Kept c) : KeptView (SetCoins view txid c) := by
  intro x
  by_cases hx : x = txid
  · rw [hx, SetCoins_self]
    exact kept_unspent hc
  · rw [SetCoins_of_ne c hx]
    exact h x

/-! ## Spending -/

/-- An output is there unless it is blank or past the end. -/
theorem isAvailable_iff {c : CCoins} {n : Nat} :
    c.IsAvailable n = true ↔ ¬ (c.vout.getD n CTxOut.SetNull).IsNull = true := by
  rw [CCoins.IsAvailable, Bool.and_eq_true, decide_eq_true_eq, Bool.not_eq_true', Bool.not_eq_true]
  constructor
  · exact fun h => h.2
  · intro h
    refine ⟨?_, h⟩
    by_contra hle
    rw [getD_of_le (Nat.not_lt.mp hle), isNull_SetNull] at h
    cases h

/-- The coins that `Spend` leaves. -/
def CCoins.without (c : CCoins) (n : Nat) : CCoins :=
  CCoins.Cleanup { c with vout := c.vout.set n CTxOut.SetNull }

/-- The undo information that `Spend` gives. -/
def CCoins.undoOf (c : CCoins) (n : Nat) : CTxInUndo :=
  if (c.without n).vout.length = 0 then
    ⟨c.vout.getD n CTxOut.SetNull, c.fCoinBase, c.nHeight, c.nVersion⟩
  else { txout := c.vout.getD n CTxOut.SetNull }

/-- **What `Spend` does.** -/
theorem Spend_eq (c : CCoins) (n : Nat) :
    c.Spend n = if c.IsAvailable n then some (c.without n, c.undoOf n) else none := by
  rw [CCoins.Spend]
  by_cases hav : c.IsAvailable n = true
  · have hlen : n < c.vout.length := by
      rw [CCoins.IsAvailable, Bool.and_eq_true] at hav
      exact of_decide_eq_true hav.1
    rw [if_pos hav, if_neg (Nat.not_le.mpr hlen), if_neg (isAvailable_iff.mp hav), CCoins.undoOf]
    by_cases hlast : (c.without n).vout.length = 0
    · rw [if_pos hlast]
      exact if_pos hlast
    · rw [if_neg hlast]
      exact if_neg hlast
  · rw [if_neg hav]
    split
    · rfl
    · rw [if_pos (not_not.mp (fun h => hav (isAvailable_iff.mpr h)))]

/-- An output that is there has a place. -/
theorem lt_of_isAvailable {c : CCoins} {n : Nat} (h : c.IsAvailable n = true) : n < c.vout.length := by
  rw [CCoins.IsAvailable, Bool.and_eq_true] at h
  exact of_decide_eq_true h.1

/-- Then there are outputs. -/
theorem vout_ne_nil {c : CCoins} {n : Nat} (h : c.IsAvailable n = true) : c.vout ≠ [] :=
  List.ne_nil_of_length_pos (Nat.zero_lt_of_lt (lt_of_isAvailable h))

/-- The blanks of the list that `Spend` trims. -/
theorem without_blank {c : CCoins} (h : Kept c) (n : Nat) :
    ∀ x ∈ c.vout.set n CTxOut.SetNull, CTxOut.IsNull x = true → x = CTxOut.SetNull := by
  intro x hx hb
  rcases List.mem_or_eq_of_mem_set hx with hx | rfl
  · exact h.trimmed.blank_eq x hx hb
  · rfl

/-- Coins without one of their outputs are well formed. -/
theorem without_kept {c : CCoins} (h : Kept c) {n : Nat} (hn : c.IsAvailable n = true) :
    Kept (c.without n) :=
  ⟨trim_trimmed (without_blank h n), fun _ => h.height (vout_ne_nil hn)⟩

/-- **The other outputs stay.** -/
theorem without_getD {c : CCoins} (h : Kept c) {n : Nat} (hn : c.IsAvailable n = true) (m : Nat) :
    (c.without n).vout.getD m CTxOut.SetNull
      = if m = n then CTxOut.SetNull else c.vout.getD m CTxOut.SetNull := by
  rw [CCoins.without, CCoins.Cleanup, trim_getD (without_blank h n), set_getD (lt_of_isAvailable hn)]

/-- The disk keeps every output. -/
theorem Stored.isAvailable {c c' : CCoins} (h : Stored c c') (n : Nat) :
    c'.IsAvailable n = c.IsAvailable n := by
  rw [CCoins.IsAvailable, CCoins.IsAvailable, h.vout]

/-- Spending goes through the disk. -/
theorem Stored.without {c c' : CCoins} (h : Stored c c') (n : Nat) :
    Stored (c.without n) (c'.without n) := by
  refine ⟨h.fCoinBase, ?_, h.nHeight, h.nVersion⟩
  show (c'.vout.set n CTxOut.SetNull).rdropWhile _ = _
  rw [h.vout]
  rfl

/-- And so does the undo information. -/
theorem Stored.undoOf {c c' : CCoins} (h : Stored c c') (n : Nat) :
    StoredUndo (c.undoOf n) (c'.undoOf n) := by
  rw [CCoins.undoOf, CCoins.undoOf, (h.without n).vout]
  split
  · exact ⟨by rw [h.vout], h.fCoinBase, h.nHeight, h.nVersion⟩
  · exact ⟨by rw [h.vout], rfl, rfl, Or.inl rfl⟩

/-! ## Putting back -/

/-- The undo information has the output that was spent. -/
theorem undoOf_txout (c : CCoins) (n : Nat) : (c.undoOf n).txout = c.vout.getD n CTxOut.SetNull := by
  rw [CCoins.undoOf]
  split
  · rfl
  · rfl

/-- Putting an output back in its place. -/
theorem put_without {c : CCoins} (h : Kept c) {n : Nat} (hn : c.IsAvailable n = true) :
    put CTxOut.SetNull (c.without n).vout n (c.vout.getD n CTxOut.SetNull) = c.vout := by
  refine Trimmed.ext isNull_SetNull
    (put_trimmed (without_kept h hn).trimmed n (isAvailable_iff.mp hn)) h.trimmed ?_
  intro m
  rw [put_getD, without_getD h hn]
  by_cases hm : m = n
  · rw [if_pos hm, hm]
  · rw [if_neg hm, if_neg hm]

/-- **Putting back what was spent.** -/
theorem restore_spend {c : CCoins} {n : Nat} (h : Kept c) (hn : c.IsAvailable n = true)
    {found : Option CCoins} (hfound : Stored (unspent (some (c.without n))) (unspent found))
    {undo : CTxInUndo} (hundo : StoredUndo (c.undoOf n) undo) :
    ∃ r, restoreInput found n undo = (r, true) ∧ Stored c r := by
  have hkept := without_kept h hn
  have hput := put_without h hn
  have htxout : undo.txout = c.vout.getD n CTxOut.SetNull := hundo.txout.trans (undoOf_txout c n)
  by_cases hnil : (c.without n).vout = []
  · -- this was the last output
    have hlast : c.undoOf n = ⟨c.vout.getD n CTxOut.SetNull, c.fCoinBase, c.nHeight, c.nVersion⟩ :=
      if_pos (List.length_eq_zero_iff.mpr hnil)
    rw [hlast] at hundo
    have hheight : undo.nHeight ≠ 0 := by
      rw [hundo.nHeight]
      exact h.height (vout_ne_nil hn)
    have hpruned : (found.getD {}).IsPruned = true := by
      apply pruned_of_unspent_nil
      rw [hfound.vout, unspent_of_pruned ((isPruned_iff hkept).mpr hnil)]
    have hempty : CCoins.IsAvailable ⟨undo.fCoinBase, [], undo.nHeight, undo.nVersion⟩ n = false := rfl
    rw [hnil, ← htxout] at hput
    simp only [restoreInput, if_pos hheight, hpruned, hput, hempty]
    exact ⟨_, rfl, hundo.fCoinBase, rfl, hundo.nHeight, hundo.nVersion⟩
  · have hmore : c.undoOf n = { txout := c.vout.getD n CTxOut.SetNull } :=
      if_neg (fun hlen => hnil (List.length_eq_zero_iff.mp hlen))
    rw [hmore] at hundo
    have hheight : ¬ undo.nHeight ≠ 0 := not_not.mpr hundo.nHeight
    rw [unspent_some_of_not (fun hp => hnil ((isPruned_iff hkept).mp hp))] at hfound
    have hout : (unspent found).vout ≠ [] := by
      rw [hfound.vout]
      exact hnil
    obtain ⟨hsome, hnp⟩ := eq_some_of_unspent hout
    have hgone : (unspent found).IsAvailable n = false := by
      rw [hfound.isAvailable, ← Bool.not_eq_true, isAvailable_iff, not_not, without_getD h hn,
        if_pos rfl]
      exact isNull_SetNull
    rw [← htxout, ← hfound.vout] at hput
    rw [hsome]
    simp only [restoreInput, Option.getD_some, if_neg hheight, hput, hgone,
      Bool.not_eq_true _ |>.mp hnp]
    exact ⟨_, rfl, hfound.fCoinBase, rfl, hfound.nHeight, hfound.nVersion⟩

/-! ## The inputs of a transaction -/

/-- The coins of an output that can be spent. -/
def coinsOf (view : CoinsMap) (prevout : COutPoint) : CCoins := unspent (view prevout.hash)

/-- Pruned coins have no output to spend. -/
theorem isAvailable_unspent (found : Option CCoins) (n : Nat) :
    (unspent found).IsAvailable n = (found.getD {}).IsAvailable n := by
  cases found with
  | none => rfl
  | some c =>
      by_cases hp : c.IsPruned = true
      · rw [unspent_of_pruned hp, Option.getD_some]
        cases hc : c.IsAvailable n with
        | false => rfl
        | true =>
            rw [CCoins.IsPruned, List.all_eq_true] at hp
            have hnull := hp _ (List.getElem_mem (lt_of_isAvailable hc))
            rw [← getD_of_lt (d := CTxOut.SetNull)] at hnull
            exact absurd hnull (isAvailable_iff.mp hc)
      · rw [unspent_some_of_not hp, Option.getD_some]

/-- **What `spendInput` does.** -/
theorem spendInput_eq (view : CoinsMap) (o : COutPoint) :
    spendInput view o = if (coinsOf view o).IsAvailable o.n.toNat then
        some (SetCoins view o.hash ((coinsOf view o).without o.n.toNat), (coinsOf view o).undoOf o.n.toNat)
      else none := by
  rw [spendInput]
  by_cases hav : (coinsOf view o).IsAvailable o.n.toNat = true
  · have hsome := (eq_some_of_unspent (vout_ne_nil hav)).1
    rw [if_pos hav, hsome]
    simp only [Spend_eq]
    rw [show unspent (view o.hash) = coinsOf view o from rfl, if_pos hav]
  · rw [if_neg hav]
    cases hfound : view o.hash with
    | none => rfl
    | some c =>
        rw [coinsOf, isAvailable_unspent, hfound, Option.getD_some] at hav
        simp only [Spend_eq, if_neg hav]

/-- A step of `spendInputs`. -/
theorem spendInputs_cons {view va : CoinsMap} {o : COutPoint} {rest : List COutPoint}
    {us : List CTxInUndo} (h : spendInputs view (o :: rest) = some (va, us)) :
    ∃ us', (coinsOf view o).IsAvailable o.n.toNat = true
      ∧ spendInputs (SetCoins view o.hash ((coinsOf view o).without o.n.toNat)) rest = some (va, us')
      ∧ us = (coinsOf view o).undoOf o.n.toNat :: us' := by
  rw [spendInputs, spendInput_eq] at h
  by_cases hav : (coinsOf view o).IsAvailable o.n.toNat = true
  · rw [if_pos hav] at h
    simp only at h
    cases hrest : spendInputs (SetCoins view o.hash ((coinsOf view o).without o.n.toNat)) rest with
    | none =>
        rw [hrest] at h
        cases h
    | some r =>
        rw [hrest] at h
        obtain ⟨rfl, rfl⟩ := Prod.mk.inj (Option.some.inj h)
        exact ⟨r.2, hav, rfl, rfl⟩
  · rw [if_neg hav] at h
    cases h

/-- Spending keeps a view well formed. -/
theorem spendInputs_kept {view va : CoinsMap} {outs : List COutPoint} {us : List CTxInUndo}
    (hk : KeptView view) (h : spendInputs view outs = some (va, us)) : KeptView va := by
  induction outs generalizing view us with
  | nil =>
      obtain ⟨rfl, -⟩ := Prod.mk.inj (Option.some.inj h)
      exact hk
  | cons o rest ih =>
      obtain ⟨us', hav, hrest, -⟩ := spendInputs_cons h
      exact ih (hk.setCoins o.hash (without_kept (hk o.hash) hav)) hrest

/-- There is undo information for each input. -/
theorem spendInputs_length {view va : CoinsMap} {outs : List COutPoint} {us : List CTxInUndo}
    (h : spendInputs view outs = some (va, us)) : us.length = outs.length := by
  induction outs generalizing view us with
  | nil =>
      obtain ⟨-, rfl⟩ := Prod.mk.inj (Option.some.inj h)
      rfl
  | cons o rest ih =>
      obtain ⟨us', -, hrest, rfl⟩ := spendInputs_cons h
      rw [List.length_cons, List.length_cons, ih hrest]

/-- Coins with no output to spend are left alone. -/
theorem spendInputs_frame {view va : CoinsMap} {outs : List COutPoint} {us : List CTxInUndo}
    (h : spendInputs view outs = some (va, us)) {txid : Uint256}
    (hnone : (unspent (view txid)).vout = []) : va txid = view txid := by
  induction outs generalizing view us with
  | nil =>
      obtain ⟨rfl, -⟩ := Prod.mk.inj (Option.some.inj h)
      rfl
  | cons o rest ih =>
      obtain ⟨us', hav, hrest, -⟩ := spendInputs_cons h
      have hne : txid ≠ o.hash := by
        rintro rfl
        exact vout_ne_nil hav hnone
      have hsame : SetCoins view o.hash ((coinsOf view o).without o.n.toNat) txid = view txid :=
        SetCoins_of_ne _ hne
      rw [ih hrest (by rw [hsame]; exact hnone), hsame]

/-- Distinct outputs that are there can be spent. -/
theorem spendInputs_isSome {view : CoinsMap} {outs : List COutPoint} (hk : KeptView view)
    (hav : ∀ o ∈ outs, (coinsOf view o).IsAvailable o.n.toNat = true) (hnodup : outs.Nodup) :
    ∃ va us, spendInputs view outs = some (va, us) := by
  induction outs generalizing view with
  | nil => exact ⟨view, [], rfl⟩
  | cons o rest ih =>
      obtain ⟨ho, hrest⟩ := List.forall_mem_cons.mp hav
      obtain ⟨hnew, hnodup⟩ := List.nodup_cons.mp hnodup
      have hc : Kept (coinsOf view o) := hk o.hash
      have hkept := without_kept hc ho
      have hstill : ∀ o' ∈ rest, (coinsOf (SetCoins view o.hash ((coinsOf view o).without o.n.toNat))
          o').IsAvailable o'.n.toNat = true := by
        intro o' hmem
        have hav' := hrest o' hmem
        by_cases hhash : o'.hash = o.hash
        · have hne : o'.n.toNat ≠ o.n.toNat := by
            intro hn
            have heq : o' = o := by
              cases o
              cases o'
              exact congrArg₂ COutPoint.mk hhash (BitVec.eq_of_toNat_eq hn)
            exact hnew (heq ▸ hmem)
          rw [coinsOf, hhash] at hav'
          rw [coinsOf, hhash, SetCoins_self, isAvailable_unspent, Option.getD_some, isAvailable_iff,
            without_getD hc ho, if_neg hne]
          exact isAvailable_iff.mp hav'
        · rw [coinsOf, SetCoins_of_ne _ hhash]
          exact hav'
      obtain ⟨va, us, hspend⟩ := ih (hk.setCoins o.hash hkept) hstill hnodup
      refine ⟨va, (coinsOf view o).undoOf o.n.toNat :: us, ?_⟩
      rw [spendInputs, spendInput_eq, if_pos ho]
      simp only [hspend]

/-- **Spending from what the disk makes of a view.** -/
theorem spendInputs_stored {view view' va' : CoinsMap} {outs : List COutPoint} {us' : List CTxInUndo}
    (hs : StoredView view view') (h : spendInputs view' outs = some (va', us')) :
    ∃ va us, spendInputs view outs = some (va, us) ∧ StoredView va va'
      ∧ List.Forall₂ StoredUndo us us' := by
  induction outs generalizing view view' us' with
  | nil =>
      obtain ⟨rfl, rfl⟩ := Prod.mk.inj (Option.some.inj h)
      exact ⟨view, [], rfl, hs, List.Forall₂.nil⟩
  | cons o rest ih =>
      obtain ⟨us'', hav, hrest, rfl⟩ := spendInputs_cons h
      have hc : Stored (coinsOf view o) (coinsOf view' o) := hs o.hash
      rw [hc.isAvailable] at hav
      obtain ⟨va, us, hspend, hva, hus⟩ := ih (hs.setCoins o.hash (hc.without o.n.toNat)) hrest
      refine ⟨va, (coinsOf view o).undoOf o.n.toNat :: us, ?_, hva,
        List.Forall₂.cons (hc.undoOf o.n.toNat) hus⟩
      rw [spendInputs, spendInput_eq, if_pos hav]
      simp only [hspend]

/-- **The inputs of a transaction are put back.** -/
theorem restoreInputs_spendInputs {view va va' : CoinsMap} {outs : List COutPoint}
    {us us' : List CTxInUndo} (hk : KeptView view) (h : spendInputs view outs = some (va, us))
    (hs : StoredView va va') (hu : List.Forall₂ StoredUndo us us') :
    ∃ r, restoreInputs va' (outs.zip us') = (r, true) ∧ StoredView view r := by
  induction outs generalizing view us us' with
  | nil =>
      obtain ⟨rfl, rfl⟩ := Prod.mk.inj (Option.some.inj h)
      exact ⟨va', rfl, hs⟩
  | cons o rest ih =>
      obtain ⟨us1, hav, hrest, rfl⟩ := spendInputs_cons h
      cases hu with
      | cons hu1 hurest =>
          rename_i u' us1'
          obtain ⟨r, hr, hview⟩ := ih (hk.setCoins o.hash (without_kept (hk o.hash) hav)) hrest hurest
          have hfound := hview o.hash
          rw [SetCoins_self] at hfound
          obtain ⟨c, hc, hstored⟩ := restore_spend (hk o.hash) hav hfound hu1
          refine ⟨SetCoins r o.hash c, ?_, ?_⟩
          · rw [List.zip_cons_cons, restoreInputs, hr]
            simp only [hc]
            rfl
          · intro x
            by_cases hx : x = o.hash
            · have hnp : ¬ c.IsPruned = true := by
                rw [hstored.isPruned, isPruned_iff (hk o.hash)]
                exact vout_ne_nil hav
              rw [hx, SetCoins_self, unspent_some_of_not hnp]
              exact hstored
            · have hsame := hview x
              rw [SetCoins_of_ne _ hx] at hsame
              rw [SetCoins_of_ne c hx]
              exact hsame

/-! ## New coins -/

/-- An output in the range of money is not blank. -/
theorem not_isNull {o : CTxOut} (h : MoneyRange o.value) : ¬ o.IsNull = true := by
  intro hnull
  have hvalue := of_decide_eq_true hnull
  rw [CTxOut.value, hvalue] at h
  exact absurd h.1 (by decide)

/-- What `ClearUnspendable` makes of an output. -/
def clearOut (txout : CTxOut) : CTxOut :=
  if IsUnspendable txout.scriptPubKey then CTxOut.SetNull else txout

/-- The outputs of a transaction with the unspendable ones null. -/
theorem clearOut_blank {tx : CTransaction} (h : Valid tx) :
    ∀ x ∈ tx.vout.map clearOut, CTxOut.IsNull x = true → x = CTxOut.SetNull := by
  intro x hx hnull
  obtain ⟨o, ho, rfl⟩ := List.mem_map.mp hx
  rw [clearOut] at hnull ⊢
  split at hnull
  · next hun => rw [if_pos hun]
  · exact absurd hnull (not_isNull (h.value o ho))

/-- The coins of a valid transaction are well formed. -/
theorem ofTx_kept {tx : CTransaction} (h : Valid tx) {nHeight : Nat} (hheight : nHeight ≠ 0) :
    Kept (CCoins.ofTx tx nHeight) :=
  ⟨trim_trimmed (clearOut_blank h), fun _ => hheight⟩

/-- **The outputs of a transaction that can be spent.** -/
theorem ofTx_getD {tx : CTransaction} (h : Valid tx) (nHeight n : Nat) :
    (CCoins.ofTx tx nHeight).vout.getD n CTxOut.SetNull = (tx.vout.map clearOut).getD n CTxOut.SetNull :=
  trim_getD (clearOut_blank h) n

/-- `ClearUnspendable` finds nothing to clear again. -/
theorem ClearUnspendable_ofTx {tx : CTransaction} (h : Valid tx) {nHeight : Nat} {c : CCoins}
    (hc : c.vout = (CCoins.ofTx tx nHeight).vout) : c.ClearUnspendable = c := by
  have hclear : c.vout.map clearOut = c.vout := by
    rw [hc]
    refine (List.map_congr_left ?_).trans (List.map_id _)
    intro x hx
    have hx' := (List.rdropWhile_prefix _ (tx.vout.map clearOut)).subset hx
    obtain ⟨o, -, rfl⟩ := List.mem_map.mp hx'
    rw [id_eq, clearOut]
    split
    · next hun =>
        rw [clearOut] at hun ⊢
        split
        · rfl
        · next hsp =>
            rw [if_neg hsp] at hun
            exact absurd hun hsp
    · rfl
  have htrim : c.vout.rdropWhile CTxOut.IsNull = c.vout := by
    have hkept : Trimmed CTxOut.IsNull CTxOut.SetNull c.vout := by
      rw [hc]
      exact trim_trimmed (clearOut_blank h)
    refine Trimmed.ext isNull_SetNull (trim_trimmed hkept.blank_eq) hkept ?_
    intro n
    exact trim_getD hkept.blank_eq n
  show CCoins.Cleanup { c with vout := c.vout.map clearOut } = c
  rw [hclear, CCoins.Cleanup, htrim]

end Coins
