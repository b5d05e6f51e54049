import FpgaMiner.BlockProofs
import FpgaMiner.CoinsDiskProofs

/-! # Connecting a block

    `ConnectBlock` checks the transactions of a block against the unspent outputs, spends
    what they spend and adds what they make.  Whether a script is satisfied is left to a
    parameter.

    * **`connectTx_ok`** — what one transaction changes when it is taken;
    * **`ConnectBlock_answers`** — a block is taken or refused: no assertion fails and no
      exception is thrown, whatever the block has in it. -/

namespace Chainstate

open MinerDriver BlockHeader Serialize Script Transaction Block Retarget Coins

/-! ## The code -/

/-- How a check ends when it does not succeed. -/
inductive Failure
  | invalid (r : Reject)
  | assertion
  | exception
  deriving DecidableEq

/-- A value that an assertion asks for. -/
def orAssert {α : Type} : Option α → Except Failure α
  | some a => .ok a
  | none => .error .assertion

/-- A value in whose place an exception may be thrown. -/
def orThrow {α : Type} : Option α → Except Failure α
  | some a => .ok a
  | none => .error .exception

/-- What is the same for every block: parameters of the network and of the node, and the
    verification of a script. -/
structure Env where
  params : CChainParams
  hashGenesisBlock : Uint256
  nSubsidyHalvingInterval : Nat
  nTotalBlocksEstimate : Nat
  fScriptCheckThreads : Bool
  VerifyScript : CScript → CScript → CTransaction → Nat → BitVec 32 → Bool

/-- The index of the block that is to be connected. -/
structure BlockIndex where
  nHeight : Nat
  nTime : BitVec 32
  phashBlock : Option Uint256
  hashPrev : Uint256
  deriving DecidableEq

/-- The blocks after which a coinbase can be spent. -/
def COINBASE_MATURITY : Int := 100

/-- The reject code of a script that is not canonical. -/
def REJECT_NONSTANDARD : BitVec 8 := 0x40

/-- No flag. -/
def SCRIPT_VERIFY_NONE : BitVec 32 := 0

/-- Scripts that pay to a script hash are evaluated. -/
def SCRIPT_VERIFY_P2SH : BitVec 32 := 1

/-- Signatures and keys must be in strict encodings. -/
def SCRIPT_VERIFY_STRICTENC : BitVec 32 := 2

/-- Signatures are not kept in the cache of signatures. -/
def SCRIPT_VERIFY_NOCACHE : BitVec 32 := 8

/-- A shift by 64 or more is undefined; here it is by the low six bits, as x86 shifts. -/
def GetBlockValue (env : Env) (nHeight : Nat) (nFees : Int) : Int :=
  ((50 * COIN) >>> (nHeight / env.nSubsidyHalvingInterval % 64) : Nat) + nFees

/-- All that a transaction spends is there. -/
def HaveInputs (view : CoinsMap) (tx : CTransaction) : Bool :=
  tx.IsCoinBase
    || (tx.vin.all (fun txin => (view txin.prevout.hash).isSome)
      && tx.vin.all (fun txin =>
        ((view txin.prevout.hash).getD {}).IsAvailable txin.prevout.n.toNat))

/-- `none` is a failed assertion. -/
def GetOutputFor (view : CoinsMap) (txin : CTxIn) : Option CTxOut :=
  match view txin.prevout.hash with
  | none => none
  | some coins =>
      if coins.IsAvailable txin.prevout.n.toNat then
        some (coins.vout.getD txin.prevout.n.toNat CTxOut.SetNull)
      else none

/-- The loop of `GetValueIn`. -/
def valueIn (view : CoinsMap) : Int → List CTxIn → Option Int
  | nResult, [] => some nResult
  | nResult, txin :: vin =>
      match GetOutputFor view txin with
      | none => none
      | some txout => valueIn view (nResult + txout.value) vin

/-- What a transaction spends; a coinbase spends nothing. -/
def GetValueIn (view : CoinsMap) (tx : CTransaction) : Option Int :=
  if tx.IsCoinBase then some 0 else valueIn view 0 tx.vin

/-- `OP_HASH160 20 [20 byte hash] OP_EQUAL` -/
def IsPayToScriptHash (script : CScript) : Bool :=
  decide (script.length = 23) && decide ((script.getD 0 0).toNat = OP_HASH160)
    && decide (script.getD 1 0 = 0x14) && decide ((script.getD 22 0).toNat = OP_EQUAL)

/-- The last item that a script of pushes puts on the stack; `none` if it has anything else. -/
def lastPush (data : List Byte) (pc : List Byte) : Option (List Byte) :=
  if pc = [] then some data
  else
    match h : GetOp2 pc with
    | none => none
    | some (opcode, vch, rest) =>
        have : rest.length < pc.length := GetOp2_length h
        if opcode > OP_16 then none else lastPush vch rest
termination_by pc.length

/-- `CScript::GetSigOpCount` with the script that satisfies it. -/
def GetSigOpCountWith (scriptPubKey scriptSig : CScript) : Nat :=
  if ¬ IsPayToScriptHash scriptPubKey then GetSigOpCount scriptPubKey true
  else
    match lastPush [] scriptSig with
    | none => 0
    | some subscript => GetSigOpCount subscript true

/-- The loop of `GetP2SHSigOpCount`. -/
def p2shSigOps (view : CoinsMap) : Nat → List CTxIn → Option Nat
  | nSigOps, [] => some nSigOps
  | nSigOps, txin :: vin =>
      match GetOutputFor view txin with
      | none => none
      | some prevout =>
          p2shSigOps view
            (if IsPayToScriptHash prevout.scriptPubKey then
              nSigOps + GetSigOpCountWith prevout.scriptPubKey txin.scriptSig
            else nSigOps) vin

/-- The signature operations in the scripts whose hashes are paid. -/
def GetP2SHSigOpCount (view : CoinsMap) (tx : CTransaction) : Option Nat :=
  if tx.IsCoinBase then some 0 else p2shSigOps view 0 tx.vin

/-- A script to be verified, as it is handed to the threads. -/
structure CScriptCheck where
  scriptPubKey : CScript
  txTo : CTransaction
  scriptSig : CScript
  nIn : Nat
  nFlags : BitVec 32

/-- `CScriptCheck::operator()` -/
def CScriptCheck.run (env : Env) (check : CScriptCheck) : Bool :=
  env.VerifyScript check.scriptSig check.scriptPubKey check.txTo check.nIn check.nFlags

/-- The first loop of `CheckInputs`: the inputs have this value, and are mature. -/
def checkValues (view : CoinsMap) (nSpendHeight : Int) : Int → List CTxIn → Except Failure Int
  | nValueIn, [] => .ok nValueIn
  | nValueIn, txin :: vin =>
      match view txin.prevout.hash with
      | none => .error .assertion
      | some coins =>
          let nValue := (coins.vout.getD txin.prevout.n.toNat CTxOut.SetNull).value
          if coins.fCoinBase ∧ nSpendHeight - coins.nHeight < COINBASE_MATURITY then
            .error (.invalid (DoS 0 "bad-txns-premature-spend-of-coinbase"))
          else if ¬ MoneyRange nValue ∨ ¬ MoneyRange (nValueIn + nValue) then
            .error (.invalid (DoS 100 "bad-txns-inputvalues-outofrange"))
          else checkValues view nSpendHeight (nValueIn + nValue) vin

/-- Its second loop, from input `i` on: the checks that are left to the threads. -/
def checkScripts (env : Env) (view : CoinsMap) (tx : CTransaction) (flags : BitVec 32) (pvChecks : Bool) :
    Nat → List CTxIn → Except Failure (List CScriptCheck)
  | _, [] => .ok []
  | i, txin :: vin =>
      match view txin.prevout.hash with
      | none => .error .assertion
      | some coins =>
          let scriptPubKey := (coins.vout.getD txin.prevout.n.toNat CTxOut.SetNull).scriptPubKey
          let check : CScriptCheck := ⟨scriptPubKey, tx, txin.scriptSig, i, flags⟩
          if pvChecks then (checkScripts env view tx flags pvChecks (i + 1) vin).map (check :: ·)
          else if check.run env then checkScripts env view tx flags pvChecks (i + 1) vin
          else
            let strict := flags &&& SCRIPT_VERIFY_STRICTENC ≠ 0
              ∧ CScriptCheck.run env { check with nFlags := flags &&& ~~~SCRIPT_VERIFY_STRICTENC } = true
            .error (.invalid ⟨if strict then 0 else 100, REJECT_NONSTANDARD, "non-canonical", false⟩)

/-- The checks are those that are put in `pvChecks`. -/
def CheckInputs (env : Env) (view : CoinsMap) (tx : CTransaction) (nSpendHeight : Int)
    (fScriptChecks : Bool) (flags : BitVec 32) (pvChecks : Bool) : Except Failure (List CScriptCheck) :=
  if tx.IsCoinBase then .ok []
  else if ¬ HaveInputs view tx then .error (.invalid ⟨0, 0, "", false⟩)
  else do
    let nValueIn ← checkValues view nSpendHeight 0 tx.vin
    let nValueOut ← orThrow tx.GetValueOut
    if nValueIn < nValueOut then .error (.invalid (DoS 100 "bad-txns-in-belowout"))
    else if nValueIn - nValueOut < 0 then .error (.invalid (DoS 100 "bad-txns-fee-negative"))
    else if ¬ MoneyRange (nValueIn - nValueOut) then
      .error (.invalid (DoS 100 "bad-txns-fee-outofrange"))
    else if fScriptChecks then checkScripts env view tx flags pvChecks 0 tx.vin
    else .ok []

/-- `none` is a failed assertion. -/
def UpdateCoins (view : CoinsMap) (tx : CTransaction) (nHeight : Nat) : Option (CoinsMap × CTxUndo) :=
  match if tx.IsCoinBase then some (view, []) else spendInputs view (tx.vin.map CTxIn.prevout) with
  | none => none
  | some (view, txundo) => some (SetCoins view tx.GetHash (CCoins.ofTx tx nHeight), txundo)

/-- The variables of the loop of `ConnectBlock`. -/
structure Progress where
  view : CoinsMap
  nFees : Int := 0
  nSigOps : Nat := 0
  control : List CScriptCheck := []
  blockundo : CBlockUndo := []

/-- The operations that are counted since BIP 16. -/
def strictSigOps (fStrictPayToScriptHash : Bool) (view : CoinsMap) (tx : CTransaction) :
    Except Failure Nat :=
  if fStrictPayToScriptHash then orAssert (GetP2SHSigOpCount view tx) else .ok 0

/-- The flags with which the scripts of a block are verified. -/
def blockFlags (fStrictPayToScriptHash : Bool) : BitVec 32 :=
  SCRIPT_VERIFY_NOCACHE ||| (if fStrictPayToScriptHash then SCRIPT_VERIFY_P2SH else SCRIPT_VERIFY_NONE)

/-- The part of the loop for a transaction that is no coinbase, up to its checks. -/
def connectInputs (env : Env) (pindex : BlockIndex) (fStrictPayToScriptHash : Bool) (s : Progress)
    (tx : CTransaction) : Except Failure Progress :=
  if ¬ HaveInputs s.view tx then .error (.invalid (DoS 100 "bad-txns-inputs-missingorspent"))
  else do
    let nP2SH ← strictSigOps fStrictPayToScriptHash s.view tx
    if fStrictPayToScriptHash ∧ s.nSigOps + nP2SH > MAX_BLOCK_SIGOPS then
      .error (.invalid (DoS 100 "bad-blk-sigops"))
    else do
      let nValueIn ← orAssert (GetValueIn s.view tx)
      let nValueOut ← orThrow tx.GetValueOut
      let vChecks ← CheckInputs env s.view tx pindex.nHeight
        (decide (env.nTotalBlocksEstimate ≤ pindex.nHeight)) (blockFlags fStrictPayToScriptHash)
        env.fScriptCheckThreads
      .ok { s with
        nFees := s.nFees + (nValueIn - nValueOut), nSigOps := s.nSigOps + nP2SH
        control := s.control ++ vChecks }

/-- The loop before the coins are updated. -/
def beforeUpdate (env : Env) (pindex : BlockIndex) (fStrictPayToScriptHash : Bool) (s : Progress)
    (tx : CTransaction) : Except Failure Progress :=
  let nSigOps := s.nSigOps + GetLegacySigOpCount tx
  if nSigOps > MAX_BLOCK_SIGOPS then .error (.invalid (DoS 100 "bad-blk-sigops"))
  else if tx.IsCoinBase then .ok { s with nSigOps := nSigOps }
  else connectInputs env pindex fStrictPayToScriptHash { s with nSigOps := nSigOps } tx

/-- One round of the loop of `ConnectBlock`. -/
def connectTx (env : Env) (pindex : BlockIndex) (fStrictPayToScriptHash : Bool) (s : Progress)
    (tx : CTransaction) : Except Failure Progress := do
  let s ← beforeUpdate env pindex fStrictPayToScriptHash s tx
  let (view, txundo) ← orAssert (UpdateCoins s.view tx pindex.nHeight)
  .ok { s with
    view := view, blockundo := if tx.IsCoinBase then s.blockundo else s.blockundo ++ [txundo] }

/-- The loop of `ConnectBlock`. -/
def connectTxs (env : Env) (pindex : BlockIndex) (fStrictPayToScriptHash : Bool) :
    Progress → List CTransaction → Except Failure Progress
  | s, [] => .ok s
  | s, tx :: vtx => do
      let s ← connectTx env pindex fStrictPayToScriptHash s tx
      connectTxs env pindex fStrictPayToScriptHash s vtx

/-- The blocks that may overwrite transactions which are not spent. -/
def fEnforceBIP30 (pindex : BlockIndex) : Bool :=
  match pindex.phashBlock with
  | none => true
  | some hash =>
      !((pindex.nHeight = 91842
          ∧ hash = 0x00000000000a4d0a398161ffc163c503763b1f4360639393e0e4c8e300e0caec)
        ∨ (pindex.nHeight = 91880
          ∧ hash = 0x00000000000743f190a18c5577a3c2d2a1f610ae9601ac046a38084ccb7cd721))

/-- From this time on scripts that pay to a script hash are evaluated. -/
def nBIP16SwitchTime : Nat := 1333238400

/-- What a view is of: the coins after a block. -/
structure View where
  coins : CoinsMap
  hashBlock : Uint256

/-- The view after the block and the undo information for it. -/
def ConnectBlock (env : Env) (now : Int) (block : CBlock) (pindex : BlockIndex) (view : View)
    (fJustCheck : Bool) : Except Failure (View × CBlockUndo) :=
  match CheckBlock env.params now block (!fJustCheck) (!fJustCheck) with
  | .error r => .error (.invalid r)
  | .ok () =>
      if pindex.hashPrev ≠ view.hashBlock then .error .assertion
      else if block.GetHash = env.hashGenesisBlock then
        .ok ({ view with hashBlock := pindex.phashBlock.getD 0 }, [])
      else if fEnforceBIP30 pindex ∧ block.txids.any (fun hash =>
          (view.coins hash).isSome && !((view.coins hash).getD {}).IsPruned) then
        .error (.invalid (DoS 100 "bad-txns-BIP30"))
      else do
        let s ← connectTxs env pindex (decide (nBIP16SwitchTime ≤ pindex.nTime.toNat))
          { view := view.coins } block.vtx
        let nValueOut ← orThrow (block.vtx.head?.bind CTransaction.GetValueOut)
        if nValueOut > GetBlockValue env pindex.nHeight s.nFees then
          .error (.invalid (DoS 100 "bad-cb-amount"))
        else if ¬ s.control.all (CScriptCheck.run env) then .error (.invalid ⟨100, 0, "", false⟩)
        else if fJustCheck then .ok (⟨s.view, view.hashBlock⟩, s.blockundo)
        else .ok (⟨s.view, pindex.phashBlock.getD 0⟩, s.blockundo)

/-! ## What is looked up -/

/-- The output that an input spends, if it is there. -/
def outputOf (view : CoinsMap) (txin : CTxIn) : CTxOut :=
  (coinsOf view txin.prevout).vout.getD txin.prevout.n.toNat CTxOut.SetNull

/-- The outputs that a transaction spends are all there. -/
def InputsThere (view : CoinsMap) (vin : List CTxIn) : Prop :=
  ∀ txin ∈ vin, (coinsOf view txin.prevout).IsAvailable txin.prevout.n.toNat = true

/-- What they are worth. -/
def inputValue (view : CoinsMap) (vin : List CTxIn) : Int :=
  (vin.map (fun txin => (outputOf view txin).value)).sum

/-- Coins with an output to spend are found. -/
theorem found_of_there {view : CoinsMap} {txin : CTxIn}
    (h : (coinsOf view txin.prevout).IsAvailable txin.prevout.n.toNat = true) :
    view txin.prevout.hash = some (coinsOf view txin.prevout) :=
  (eq_some_of_unspent (vout_ne_nil h)).1

/-- What `HaveInputs` looks for. -/
theorem haveInputs_iff {view : CoinsMap} {tx : CTransaction} (h : ¬ tx.IsCoinBase = true) :
    HaveInputs view tx = true ↔ InputsThere view tx.vin := by
  rw [HaveInputs, Bool.not_eq_true _ |>.mp h, Bool.false_or, Bool.and_eq_true, List.all_eq_true,
    List.all_eq_true]
  constructor
  · rintro ⟨-, hav⟩ txin hmem
    rw [coinsOf, isAvailable_unspent]
    exact hav txin hmem
  · intro hav
    refine ⟨?_, ?_⟩
    · intro txin hmem
      rw [found_of_there (hav txin hmem)]
      rfl
    · intro txin hmem
      rw [← isAvailable_unspent]
      exact hav txin hmem

/-- An output that is there is found. -/
theorem GetOutputFor_eq {view : CoinsMap} {txin : CTxIn}
    (h : (coinsOf view txin.prevout).IsAvailable txin.prevout.n.toNat = true) :
    GetOutputFor view txin = some (outputOf view txin) := by
  rw [GetOutputFor, found_of_there h]
  exact if_pos h

/-- The loop adds up what the inputs are worth. -/
theorem valueIn_eq {view : CoinsMap} {vin : List CTxIn} (h : InputsThere view vin) (nResult : Int) :
    valueIn view nResult vin = some (nResult + inputValue view vin) := by
  induction vin generalizing nResult with
  | nil => rw [inputValue, List.map_nil, List.sum_nil, Int.add_zero]; rfl
  | cons txin vin ih =>
      obtain ⟨ht, hvin⟩ := List.forall_mem_cons.mp h
      rw [valueIn, GetOutputFor_eq ht]
      simp only [ih hvin, inputValue, List.map_cons, List.sum_cons, Int.add_assoc]

/-- No assertion fails while the operations are counted. -/
theorem p2shSigOps_isSome {view : CoinsMap} {vin : List CTxIn} (h : InputsThere view vin)
    (nSigOps : Nat) : ∃ k, p2shSigOps view nSigOps vin = some k := by
  induction vin generalizing nSigOps with
  | nil => exact ⟨nSigOps, rfl⟩
  | cons txin vin ih =>
      obtain ⟨ht, hvin⟩ := List.forall_mem_cons.mp h
      rw [p2shSigOps, GetOutputFor_eq ht]
      exact ih hvin _

/-! ## Every check answers -/

/-- A check succeeds or refuses. -/
def Answers {α : Type} (x : Except Failure α) : Prop := (∃ a, x = .ok a) ∨ ∃ r, x = .error (.invalid r)

/-- Success is an answer. -/
theorem answers_ok {α : Type} (a : α) : Answers (.ok a : Except Failure α) := Or.inl ⟨a, rfl⟩

/-- So is a refusal. -/
theorem answers_invalid {α : Type} (r : Reject) : Answers (.error (.invalid r) : Except Failure α) :=
  Or.inr ⟨r, rfl⟩

/-- Checks in a row answer. -/
theorem Answers.bind {α β : Type} {x : Except Failure α} {f : α → Except Failure β} (hx : Answers x)
    (hf : ∀ a, x = .ok a → Answers (f a)) : Answers (x >>= f) := by
  rcases hx with ⟨a, rfl⟩ | ⟨r, rfl⟩
  · exact hf a rfl
  · exact answers_invalid r

/-- What is made of an answer is one. -/
theorem Answers.map {α β : Type} {x : Except Failure α} (hx : Answers x) (f : α → β) :
    Answers (x.map f) := by
  rcases hx with ⟨a, rfl⟩ | ⟨r, rfl⟩
  · exact answers_ok (f a)
  · exact answers_invalid r

/-- Either way there is an answer. -/
theorem Answers.ite {α : Type} {P : Prop} [Decidable P] {x y : Except Failure α} (hx : P → Answers x)
    (hy : ¬ P → Answers y) : Answers (if P then x else y) := by
  by_cases h : P
  · rw [if_pos h]
    exact hx h
  · rw [if_neg h]
    exact hy h

/-- The values of inputs that are there are checked. -/
theorem checkValues_answers {view : CoinsMap} {vin : List CTxIn} (h : InputsThere view vin)
    (nSpendHeight nValueIn : Int) : Answers (checkValues view nSpendHeight nValueIn vin) := by
  induction vin generalizing nValueIn with
  | nil => exact answers_ok nValueIn
  | cons txin vin ih =>
      obtain ⟨ht, hvin⟩ := List.forall_mem_cons.mp h
      rw [checkValues, found_of_there ht]
      exact .ite (fun _ => answers_invalid _) fun _ => .ite (fun _ => answers_invalid _) fun _ => ih hvin _

/-- And their scripts. -/
theorem checkScripts_answers (env : Env) {view : CoinsMap} (tx : CTransaction) (flags : BitVec 32)
    (pvChecks : Bool) {vin : List CTxIn} (h : InputsThere view vin) (i : Nat) :
    Answers (checkScripts env view tx flags pvChecks i vin) := by
  induction vin generalizing i with
  | nil => exact answers_ok []
  | cons txin vin ih =>
      obtain ⟨ht, hvin⟩ := List.forall_mem_cons.mp h
      rw [checkScripts, found_of_there ht]
      exact .ite (fun _ => (ih hvin (i + 1)).map _) fun _ =>
        .ite (fun _ => ih hvin (i + 1)) fun _ => answers_invalid _

/-- **`CheckInputs` answers** on a valid transaction. -/
theorem CheckInputs_answers (env : Env) {view : CoinsMap} {tx : CTransaction} (hv : Valid tx)
    (nSpendHeight : Int) (fScriptChecks : Bool) (flags : BitVec 32) (pvChecks : Bool) :
    Answers (CheckInputs env view tx nSpendHeight fScriptChecks flags pvChecks) := by
  rw [CheckInputs]
  refine .ite (fun _ => answers_ok []) fun hcb => .ite (fun _ => answers_invalid _) fun hhave => ?_
  have hthere := (haveInputs_iff hcb).mp (not_not.mp hhave)
  refine (checkValues_answers hthere nSpendHeight 0).bind fun nValueIn _ => ?_
  rw [hv.GetValueOut]
  refine (answers_ok _).bind fun nValueOut _ => ?_
  exact .ite (fun _ => answers_invalid _) fun _ => .ite (fun _ => answers_invalid _) fun _ =>
    .ite (fun _ => answers_invalid _) fun _ =>
    .ite (fun _ => checkScripts_answers env tx flags pvChecks hthere 0) fun _ => answers_ok []

/-- The parts of a check that succeeds. -/
theorem bind_ok {α β : Type} {x : Except Failure α} {f : α → Except Failure β} {b : β}
    (h : x >>= f = .ok b) : ∃ a, x = .ok a ∧ f a = .ok b := by
  cases x with
  | error e => cases h
  | ok a => exact ⟨a, rfl, h⟩

/-- What a successful assertion was about. -/
theorem orAssert_ok {α : Type} {x : Option α} {a : α} (h : orAssert x = .ok a) : x = some a := by
  cases x with
  | none => cases h
  | some b =>
      cases h
      rfl

/-! ## One transaction -/

/-- **The coins after a transaction** whose inputs are there. -/
theorem UpdateCoins_isSome {view : CoinsMap} {tx : CTransaction} (hk : KeptView view) (hv : Valid tx)
    (h : tx.IsCoinBase = true ∨ InputsThere view tx.vin) (nHeight : Nat) :
    ∃ r, UpdateCoins view tx nHeight = some r := by
  rw [UpdateCoins]
  by_cases hcb : tx.IsCoinBase = true
  · rw [if_pos hcb]
    exact ⟨_, rfl⟩
  · have hthere := h.resolve_left hcb
    have hav : ∀ o ∈ tx.vin.map CTxIn.prevout, (coinsOf view o).IsAvailable o.n.toNat = true := by
      intro o ho
      obtain ⟨txin, hmem, rfl⟩ := List.mem_map.mp ho
      exact hthere txin hmem
    obtain ⟨va, us, hspend⟩ := spendInputs_isSome hk hav hv.prevout
    rw [if_neg hcb, hspend]
    exact ⟨_, rfl⟩

/-- What `UpdateCoins` does: spend and add. -/
theorem UpdateCoins_cases {view view' : CoinsMap} {tx : CTransaction} {nHeight : Nat} {txundo : CTxUndo}
    (h : UpdateCoins view tx nHeight = some (view', txundo)) :
    ∃ va, view' = SetCoins va tx.GetHash (CCoins.ofTx tx nHeight)
      ∧ ((tx.IsCoinBase = true ∧ va = view ∧ txundo = [])
        ∨ (¬ tx.IsCoinBase = true ∧ spendInputs view (tx.vin.map CTxIn.prevout) = some (va, txundo))) := by
  rw [UpdateCoins] at h
  by_cases hcb : tx.IsCoinBase = true
  · rw [if_pos hcb] at h
    obtain ⟨rfl, rfl⟩ := Prod.mk.inj (Option.some.inj h)
    exact ⟨view, rfl, Or.inl ⟨hcb, rfl, rfl⟩⟩
  · rw [if_neg hcb] at h
    cases hspend : spendInputs view (tx.vin.map CTxIn.prevout) with
    | none =>
        rw [hspend] at h
        cases h
    | some r =>
        rw [hspend] at h
        obtain ⟨rfl, rfl⟩ := Prod.mk.inj (Option.some.inj h)
        exact ⟨r.1, rfl, Or.inr ⟨hcb, rfl⟩⟩

/-- A valid transaction keeps a view well formed. -/
theorem UpdateCoins_kept {view view' : CoinsMap} {tx : CTransaction} {nHeight : Nat} {txundo : CTxUndo}
    (hk : KeptView view) (hv : Valid tx) (hheight : nHeight ≠ 0)
    (h : UpdateCoins view tx nHeight = some (view', txundo)) : KeptView view' := by
  obtain ⟨va, rfl, ⟨-, rfl, -⟩ | ⟨-, hspend⟩⟩ := UpdateCoins_cases h
  · exact hk.setCoins _ (ofTx_kept hv hheight)
  · exact (spendInputs_kept hk hspend).setCoins _ (ofTx_kept hv hheight)

/-- A transaction that is no coinbase is checked. -/
theorem connectInputs_answers (env : Env) (pindex : BlockIndex) (fStrict : Bool) {s : Progress}
    {tx : CTransaction} (hv : Valid tx) (hcb : ¬ tx.IsCoinBase = true) :
    Answers (connectInputs env pindex fStrict s tx) := by
  rw [connectInputs]
  refine .ite (fun _ => answers_invalid _) fun hhave => ?_
  have hthere := (haveInputs_iff hcb).mp (not_not.mp hhave)
  have hp2sh : Answers (strictSigOps fStrict s.view tx) := by
    rw [strictSigOps]
    refine .ite (fun _ => ?_) fun _ => answers_ok 0
    obtain ⟨k, hcount⟩ := p2shSigOps_isSome hthere 0
    rw [GetP2SHSigOpCount, if_neg hcb, hcount]
    exact answers_ok k
  refine hp2sh.bind fun nP2SH _ => ?_
  refine .ite (fun _ => answers_invalid _) fun _ => ?_
  have hvalue : Answers (orAssert (GetValueIn s.view tx)) := by
    rw [GetValueIn, if_neg hcb, valueIn_eq hthere]
    exact answers_ok _
  refine hvalue.bind fun nValueIn _ => ?_
  rw [hv.GetValueOut]
  refine (answers_ok _).bind fun nValueOut _ => ?_
  exact (CheckInputs_answers env hv _ _ _ _).bind fun vChecks _ => answers_ok _

/-- What is known before the coins are updated. -/
theorem beforeUpdate_ok {env : Env} {pindex : BlockIndex} {fStrict : Bool} {s s' : Progress}
    {tx : CTransaction} (hv : Valid tx) (h : beforeUpdate env pindex fStrict s tx = .ok s') :
    s'.view = s.view ∧ s'.blockundo = s.blockundo
      ∧ (tx.IsCoinBase = true ∨ InputsThere s.view tx.vin)
      ∧ s'.nFees = s.nFees
        + if tx.IsCoinBase then 0 else inputValue s.view tx.vin - Transaction.total tx.vout := by
  rw [beforeUpdate] at h
  split at h
  · cases h
  · split at h
    · next hcb =>
        cases h
        rw [if_pos hcb, Int.add_zero]
        exact ⟨rfl, rfl, Or.inl hcb, rfl⟩
    · next hcb =>
        rw [connectInputs] at h
        split at h
        · cases h
        · next hhave =>
            have hthere := (haveInputs_iff hcb).mp (not_not.mp hhave)
            have hvalue : GetValueIn s.view tx = some (inputValue s.view tx.vin) := by
              rw [GetValueIn, if_neg hcb, valueIn_eq hthere, Int.zero_add]
            obtain ⟨nP2SH, -, h⟩ := bind_ok h
            split at h
            · cases h
            · obtain ⟨nValueIn, hin, h⟩ := bind_ok h
              have hin : nValueIn = inputValue s.view tx.vin := by
                have hin := orAssert_ok hin
                rw [hvalue] at hin
                exact (Option.some.inj hin).symm
              rw [hv.GetValueOut] at h
              obtain ⟨nValueOut, hout, h⟩ := bind_ok h
              cases hout
              obtain ⟨vChecks, -, h⟩ := bind_ok h
              cases h
              rw [if_neg hcb, hin]
              exact ⟨rfl, rfl, Or.inr hthere, rfl⟩

/-- **What a transaction changes when it is taken.** -/
theorem connectTx_ok {env : Env} {pindex : BlockIndex} {fStrict : Bool} {s s' : Progress}
    {tx : CTransaction} (hv : Valid tx) (h : connectTx env pindex fStrict s tx = .ok s') :
    ∃ txundo, UpdateCoins s.view tx pindex.nHeight = some (s'.view, txundo)
      ∧ s'.blockundo = (if tx.IsCoinBase then s.blockundo else s.blockundo ++ [txundo])
      ∧ (tx.IsCoinBase = true ∨ InputsThere s.view tx.vin)
      ∧ s'.nFees = s.nFees
        + if tx.IsCoinBase then 0 else inputValue s.view tx.vin - Transaction.total tx.vout := by
  rw [connectTx] at h
  obtain ⟨s1, hbefore, h⟩ := bind_ok h
  obtain ⟨hview, hundo, hthere, hfees⟩ := beforeUpdate_ok hv hbefore
  obtain ⟨⟨view, txundo⟩, hupdate, h⟩ := bind_ok h
  cases h
  rw [← hundo]
  refine ⟨txundo, ?_, rfl, hthere, hfees⟩
  rw [← hview]
  exact orAssert_ok hupdate

/-- **One round of the loop answers.** -/
theorem connectTx_answers (env : Env) {pindex : BlockIndex} (fStrict : Bool) {s : Progress}
    {tx : CTransaction} (hk : KeptView s.view) (hv : Valid tx) :
    Answers (connectTx env pindex fStrict s tx) := by
  rw [connectTx]
  have hbefore : Answers (beforeUpdate env pindex fStrict s tx) := by
    rw [beforeUpdate]
    exact .ite (fun _ => answers_invalid _) fun _ => .ite (fun _ => answers_ok _) fun hcb =>
      connectInputs_answers env pindex fStrict hv hcb
  refine hbefore.bind fun s1 hs1 => ?_
  obtain ⟨hview, -, hthere, -⟩ := beforeUpdate_ok hv hs1
  obtain ⟨r, hr⟩ := UpdateCoins_isSome hk hv hthere pindex.nHeight
  rw [hview, hr]
  exact answers_ok _

/-! ## The block -/

/-- **The loop answers**, by induction on the transactions. -/
theorem connectTxs_answers (env : Env) {pindex : BlockIndex} (fStrict : Bool) {s : Progress}
    {vtx : List CTransaction} (hheight : pindex.nHeight ≠ 0) (hk : KeptView s.view)
    (hv : ∀ tx ∈ vtx, Valid tx) : Answers (connectTxs env pindex fStrict s vtx) := by
  induction vtx generalizing s with
  | nil => exact answers_ok s
  | cons tx vtx ih =>
      obtain ⟨htx, hvtx⟩ := List.forall_mem_cons.mp hv
      rw [connectTxs]
      refine (connectTx_answers env fStrict hk htx).bind fun s1 hs1 => ?_
      obtain ⟨txundo, hupdate, -⟩ := connectTx_ok htx hs1
      exact ih (UpdateCoins_kept hk htx hheight hupdate) hvtx

/-- The transactions of a block that passed `CheckBlock`. -/
theorem valid_transactions {block : CBlock} {fCheckMerkleRoot : Bool}
    (h : Block.Valid block fCheckMerkleRoot) : ∀ tx ∈ block.vtx, Valid tx :=
  fun tx hmem => (CheckTransaction_iff tx).mp (h.transaction tx hmem)

/-- **A block is taken or refused.** -/
theorem ConnectBlock_answers (env : Env) (now : Int) (block : CBlock) {pindex : BlockIndex} {view : View}
    (fJustCheck : Bool) (hk : KeptView view.coins) (hheight : pindex.nHeight ≠ 0)
    (hbest : pindex.hashPrev = view.hashBlock) :
    (∃ r, ConnectBlock env now block pindex view fJustCheck = .ok r)
      ∨ ∃ r, ConnectBlock env now block pindex view fJustCheck = .error (.invalid r) := by
  show Answers _
  rw [ConnectBlock]
  cases hcheck : CheckBlock env.params now block (!fJustCheck) (!fJustCheck) with
  | error r => exact answers_invalid r
  | ok u =>
      have hblock := valid_of_CheckBlock hcheck
      have hv := valid_transactions hblock
      refine .ite (fun h => absurd hbest h) fun _ => .ite (fun _ => answers_ok _) fun _ =>
        .ite (fun _ => answers_invalid _) fun _ => ?_
      refine (connectTxs_answers env _ hheight hk hv).bind fun s _ => ?_
      obtain ⟨tx, vtx, hvtx⟩ := List.exists_cons_of_ne_nil hblock.vtx
      have hout : block.vtx.head?.bind CTransaction.GetValueOut = some (Transaction.total tx.vout) := by
        rw [hvtx]
        exact (hv tx (by rw [hvtx]; exact List.mem_cons_self)).GetValueOut
      rw [hout]
      refine (answers_ok _).bind fun nValueOut _ => ?_
      exact .ite (fun _ => answers_invalid _) fun _ => .ite (fun _ => answers_invalid _) fun _ =>
        .ite (fun _ => answers_ok _) fun _ => answers_ok _

end Chainstate
