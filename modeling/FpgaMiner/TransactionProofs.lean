import FpgaMiner.BlockHeaderProofs
import FpgaMiner.ScriptProofs
import Mathlib.Algebra.Order.BigOperators.Group.List

/-! # Transactions

    The transactions of `core.h` with the format in which they are hashed, sent and stored,
    and the checks of `CheckTransaction`.

    * **`CTransaction.Unserialize_iff`** — the bytes that are read as a transaction are what
      is written for it, and nothing else;
    * **`CTransaction.GetHash_binding`** — two transactions with one hash are equal, unless
      `Hash` collides on what is written for them;
    * **`CheckTransaction_iff`** — what `CheckTransaction` accepts, and
      **`CheckTransaction_fits`** — what it accepts can be read back. -/

namespace Transaction

open MinerDriver Codec Serialize Script BlockHeader

/-! ## The data -/

/-- An output, by its transaction and its place there. -/
structure COutPoint where
  hash : Uint256
  n : BitVec 32
  deriving DecidableEq

/-- What the input of a coinbase refers to. -/
def COutPoint.IsNull (o : COutPoint) : Bool := decide (o.hash = 0 ∧ o.n = -1)

/-- An input: what it spends and the script that satisfies it. -/
structure CTxIn where
  prevout : COutPoint
  scriptSig : CScript
  nSequence : BitVec 32
  deriving DecidableEq

/-- An output: its value and what it takes to spend it. -/
structure CTxOut where
  nValue : BitVec 64
  scriptPubKey : CScript
  deriving DecidableEq

/-- A blank output. -/
def CTxOut.SetNull : CTxOut := { nValue := -1, scriptPubKey := [] }

/-- An output is blank. -/
def CTxOut.IsNull (o : CTxOut) : Bool := decide (o.nValue = -1)

/-- A transaction. -/
structure CTransaction where
  nVersion : BitVec 32
  vin : List CTxIn
  vout : List CTxOut
  nLockTime : BitVec 32
  deriving DecidableEq

/-- A transaction whose only input refers to nothing. -/
def CTransaction.IsCoinBase (tx : CTransaction) : Bool :=
  match tx.vin with
  | [txin] => txin.prevout.IsNull
  | _ => false

/-! ## The format -/

/-- A word of 32 bits has four bytes. -/
theorem four_bytes : 32 = 8 * 4 := rfl

/-- One of 64 bits has eight. -/
theorem eight_bytes : 64 = 8 * 8 := rfl

/-- Thirty-two bytes, the lowest first. -/
def uint256 : Codec Byte Uint256 := word 256 32 rfl

/-- Four bytes. -/
def uint32 : Codec Byte (BitVec 32) := word 32 4 four_bytes

/-- Eight bytes. -/
def int64 : Codec Byte (BitVec 64) := word 64 8 eight_bytes

/-- `COutPoint::IMPLEMENT_SERIALIZE` -/
def COutPoint.codec : Codec Byte COutPoint :=
  (uint256.pair uint32).iso
    { toFun := fun p => ⟨p.1, p.2⟩
      invFun := fun o => (o.hash, o.n)
      left_inv := fun _ => rfl
      right_inv := fun _ => rfl }

/-- `CTxIn::IMPLEMENT_SERIALIZE` -/
def CTxIn.codec : Codec Byte CTxIn :=
  (COutPoint.codec.pair (byteVector.pair uint32)).iso
    { toFun := fun p => ⟨p.1, p.2.1, p.2.2⟩
      invFun := fun txin => (txin.prevout, txin.scriptSig, txin.nSequence)
      left_inv := fun _ => rfl
      right_inv := fun _ => rfl }

/-- `CTxOut::IMPLEMENT_SERIALIZE` -/
def CTxOut.codec : Codec Byte CTxOut :=
  (int64.pair byteVector).iso
    { toFun := fun p => ⟨p.1, p.2⟩
      invFun := fun txout => (txout.nValue, txout.scriptPubKey)
      left_inv := fun _ => rfl
      right_inv := fun _ => rfl }

/-- `CTransaction::IMPLEMENT_SERIALIZE` -/
def CTransaction.codec : Codec Byte CTransaction :=
  (uint32.pair ((counted compactSize CTxIn.codec).pair
      ((counted compactSize CTxOut.codec).pair uint32))).iso
    { toFun := fun p => ⟨p.1, p.2.1, p.2.2.1, p.2.2.2⟩
      invFun := fun tx => (tx.nVersion, tx.vin, tx.vout, tx.nLockTime)
      left_inv := fun _ => rfl
      right_inv := fun _ => rfl }

/-- The bytes of a transaction.  Their number is a `Nat` where `GetSerializeSize` has an
    `unsigned int`: it is taken to be below 2^32. -/
def CTransaction.Serialize (tx : CTransaction) : List Byte := CTransaction.codec.write tx

/-- A transaction is read from the front of a stream. -/
def CTransaction.Unserialize (is : List Byte) : Option (CTransaction × List Byte) :=
  CTransaction.codec.read is

/-- `SerializeHash` -/
def CTransaction.GetHash (tx : CTransaction) : Uint256 := Hash tx.Serialize

/-- No vector and no script is longer than `MAX_SIZE`. -/
structure CTransaction.Fits (tx : CTransaction) : Prop where
  vin : tx.vin.length ≤ MAX_SIZE
  vout : tx.vout.length ≤ MAX_SIZE
  scriptSig : ∀ txin ∈ tx.vin, txin.scriptSig.length ≤ MAX_SIZE
  scriptPubKey : ∀ txout ∈ tx.vout, txout.scriptPubKey.length ≤ MAX_SIZE

/-- What the format can hold. -/
theorem CTransaction.fits_iff (tx : CTransaction) : CTransaction.codec.fits tx ↔ tx.Fits := by
  constructor
  · rintro ⟨-, ⟨hvin, hin⟩, ⟨hvout, hout⟩, -⟩
    exact ⟨hvin, hvout, fun txin h => (hin txin h).2.1.1, fun txout h => (hout txout h).2.1⟩
  · rintro ⟨hvin, hvout, hin, hout⟩
    refine ⟨trivial, ⟨hvin, ?_⟩, ⟨hvout, ?_⟩, trivial⟩
    · intro txin h
      exact ⟨⟨trivial, trivial⟩, ⟨hin txin h, fun _ _ => trivial⟩, trivial⟩
    · intro txout h
      exact ⟨trivial, hout txout h, fun _ _ => trivial⟩

/-- **The bytes that are read as a transaction.** -/
theorem CTransaction.Unserialize_iff (tx : CTransaction) (is rest : List Byte) :
    CTransaction.Unserialize is = some (tx, rest) ↔ tx.Fits ∧ is = tx.Serialize ++ rest := by
  rw [← fits_iff]
  exact CTransaction.codec.read_iff

/-- Two strings, one of `S` and one of `T`, with one hash. -/
def HashCollision (S T : Set (List Byte)) : Prop := ∃ s ∈ S, ∃ t ∈ T, s ≠ t ∧ Hash s = Hash t

/-- Equal hashes come from equal strings, or they collide. -/
theorem eq_or_collision {S T : Set (List Byte)} {s t : List Byte} (hS : s ∈ S) (hT : t ∈ T)
    (h : Hash s = Hash t) : s = t ∨ HashCollision S T := by
  by_cases hst : s = t
  · exact Or.inl hst
  · exact Or.inr ⟨s, hS, t, hT, hst, h⟩

/-- A collision does not depend on the order. -/
theorem HashCollision.symm {S T : Set (List Byte)} (h : HashCollision S T) : HashCollision T S := by
  obtain ⟨s, hs, t, ht, hne, heq⟩ := h
  exact ⟨t, ht, s, hs, hne.symm, heq.symm⟩

/-- **The hash of a transaction binds it.** -/
theorem CTransaction.GetHash_binding {S T : Set (List Byte)} {tx tx' : CTransaction} (hfit : tx.Fits)
    (hfit' : tx'.Fits) (hS : tx.Serialize ∈ S) (hT : tx'.Serialize ∈ T)
    (h : tx.GetHash = tx'.GetHash) : tx = tx' ∨ HashCollision S T := by
  rcases eq_or_collision hS hT h with hs | hc
  · exact Or.inl (CTransaction.codec.eq_of_write_eq ((fits_iff tx).mpr hfit)
      ((fits_iff tx').mpr hfit') hs)
  · exact Or.inr hc

/-! ## Checks -/

/-- The bytes that a block may have. -/
def MAX_BLOCK_SIZE : Nat := 1000000

/-- The reject code of what breaks a rule. -/
def REJECT_INVALID : BitVec 8 := 0x10

/-- The arguments of `CValidationState::DoS`. -/
structure Reject where
  nDoS : Nat
  chRejectCode : BitVec 8
  strRejectReason : String
  corruptionPossible : Bool
  deriving DecidableEq

/-- `CValidationState::DoS`: a refusal, with how much it counts against the peer. -/
def DoS (level : Nat) (reason : String) : Reject := ⟨level, REJECT_INVALID, reason, false⟩

/-- An amount as a number with its sign. -/
def CTxOut.value (o : CTxOut) : Int := o.nValue.toInt

/-- A value that an output, or a sum of them, may have. -/
def MoneyRange (nValue : Int) : Prop := 0 ≤ nValue ∧ nValue ≤ MAX_MONEY

instance (nValue : Int) : Decidable (MoneyRange nValue) := inferInstanceAs (Decidable (_ ∧ _))

/-- `GetValueOut` from a sum on; `none` is its exception.  The sums stay below `2 * MAX_MONEY`,
    so 64 bits hold them. -/
def valueOut : Int → List CTxOut → Option Int
  | nValueOut, [] => some nValueOut
  | nValueOut, txout :: vout =>
      let nValueOut := nValueOut + txout.value
      if ¬ MoneyRange txout.value ∨ ¬ MoneyRange nValueOut then none
      else valueOut nValueOut vout

/-- The sum of the outputs; `none` is an exception. -/
def CTransaction.GetValueOut (tx : CTransaction) : Option Int := valueOut 0 tx.vout

/-- The outputs, after others whose values sum up to `nValueOut`. -/
def checkOutputs : Int → List CTxOut → Except Reject Unit
  | _, [] => .ok ()
  | nValueOut, txout :: vout =>
      if txout.value < 0 then .error (DoS 100 "bad-txns-vout-negative")
      else if txout.value > MAX_MONEY then .error (DoS 100 "bad-txns-vout-toolarge")
      else if ¬ MoneyRange (nValueOut + txout.value) then
        .error (DoS 100 "bad-txns-txouttotal-toolarge")
      else checkOutputs (nValueOut + txout.value) vout

/-- The inputs, after others with the points in `vInOutPoints`. -/
def checkDuplicates : List COutPoint → List CTxIn → Except Reject Unit
  | _, [] => .ok ()
  | vInOutPoints, txin :: vin =>
      if txin.prevout ∈ vInOutPoints then .error (DoS 100 "bad-txns-inputs-duplicate")
      else checkDuplicates (txin.prevout :: vInOutPoints) vin

/-- The script of a coinbase, or the points that other inputs spend. -/
def checkScript (tx : CTransaction) : Except Reject Unit :=
  if tx.IsCoinBase then
    let size := (tx.vin.head?.map (fun txin => txin.scriptSig.length)).getD 0
    if size < 2 ∨ size > 100 then .error (DoS 100 "bad-cb-length") else .ok ()
  else if tx.vin.any (fun txin => txin.prevout.IsNull) then .error (DoS 10 "bad-txns-prevout-null")
  else .ok ()

/-- The checks of a transaction that need nothing but itself, in their order. -/
def CheckTransaction (tx : CTransaction) : Except Reject Unit :=
  if tx.vin = [] then .error (DoS 10 "bad-txns-vin-empty")
  else if tx.vout = [] then .error (DoS 10 "bad-txns-vout-empty")
  else if tx.Serialize.length > MAX_BLOCK_SIZE then .error (DoS 100 "bad-txns-oversize")
  else do
    checkOutputs 0 tx.vout
    checkDuplicates [] tx.vin
    checkScript tx

/-- The sum of the values of some outputs. -/
def total (vout : List CTxOut) : Int := (vout.map CTxOut.value).sum

/-- Outputs in range are worth no less than nothing. -/
theorem total_nonneg {vout : List CTxOut} (h : ∀ o ∈ vout, MoneyRange o.value) : 0 ≤ total vout := by
  apply List.sum_nonneg
  intro v hv
  obtain ⟨o, ho, rfl⟩ := List.mem_map.mp hv
  exact (h o ho).1

/-- The sum, one output first. -/
theorem total_cons (o : CTxOut) (vout : List CTxOut) : total (o :: vout) = o.value + total vout := by
  rw [total, List.map_cons, List.sum_cons, total]

/-- Values in range with a sum in range have their partial sums in range. -/
theorem moneyRange_partial {s : Int} {o : CTxOut} {vout : List CTxOut} (hs : MoneyRange s)
    (ho : MoneyRange o.value) (hvout : ∀ o ∈ vout, MoneyRange o.value)
    (htotal : MoneyRange (s + total (o :: vout))) : MoneyRange (s + o.value) := by
  have hrest := total_nonneg hvout
  rw [total_cons] at htotal
  have hle := htotal.2
  refine ⟨Int.add_nonneg hs.1 ho.1, ?_⟩
  omega

/-- The loop checks every output and the sum; as no output is negative, the sums on the way
    are in range with it. -/
theorem checkOutputs_iff {vout : List CTxOut} {s : Int} (hs : MoneyRange s) :
    checkOutputs s vout = .ok ()
      ↔ (∀ o ∈ vout, MoneyRange o.value) ∧ MoneyRange (s + total vout) := by
  induction vout generalizing s with
  | nil =>
      rw [total, List.map_nil, List.sum_nil, Int.add_zero]
      exact ⟨fun _ => ⟨fun o ho => (List.not_mem_nil ho).elim, hs⟩, fun _ => rfl⟩
  | cons o vout ih =>
      rw [checkOutputs]
      constructor
      · intro h
        split at h
        · cases h
        · next hneg =>
            split at h
            · cases h
            · next hlarge =>
                split at h
                · cases h
                · next hsum =>
                    have hsum := not_not.mp hsum
                    obtain ⟨hall, htotal⟩ := (ih hsum).mp h
                    have ho : MoneyRange o.value := ⟨Int.not_lt.mp hneg, Int.not_lt.mp hlarge⟩
                    refine ⟨List.forall_mem_cons.mpr ⟨ho, hall⟩, ?_⟩
                    rw [total_cons, ← Int.add_assoc]
                    exact htotal
      · rintro ⟨hall, htotal⟩
        obtain ⟨ho, hvout⟩ := List.forall_mem_cons.mp hall
        have hsum := moneyRange_partial hs ho hvout htotal
        rw [total_cons, ← Int.add_assoc] at htotal
        rw [if_neg (Int.not_lt.mpr ho.1), if_neg (Int.not_lt.mpr ho.2), if_neg (not_not.mpr hsum)]
        exact (ih hsum).mpr ⟨hvout, htotal⟩

/-- The exception of `GetValueOut` is what `checkOutputs` refuses. -/
theorem valueOut_eq {vout : List CTxOut} {s : Int} (hs : MoneyRange s)
    (hall : ∀ o ∈ vout, MoneyRange o.value) (htotal : MoneyRange (s + total vout)) :
    valueOut s vout = some (s + total vout) := by
  induction vout generalizing s with
  | nil =>
      rw [total, List.map_nil, List.sum_nil, Int.add_zero]
      rfl
  | cons o vout ih =>
      obtain ⟨ho, hvout⟩ := List.forall_mem_cons.mp hall
      have hsum := moneyRange_partial hs ho hvout htotal
      rw [total_cons, ← Int.add_assoc] at htotal ⊢
      rw [valueOut, if_neg (not_or.mpr ⟨not_not.mpr ho, not_not.mpr hsum⟩)]
      exact ih hsum hvout htotal

/-- The loop finds no input twice. -/
theorem checkDuplicates_iff {vin : List CTxIn} {seen : List COutPoint} :
    checkDuplicates seen vin = .ok ()
      ↔ (vin.map CTxIn.prevout).Nodup ∧ ∀ p ∈ vin.map CTxIn.prevout, p ∉ seen := by
  induction vin generalizing seen with
  | nil => exact ⟨fun _ => ⟨List.nodup_nil, fun p hp => (List.not_mem_nil hp).elim⟩, fun _ => rfl⟩
  | cons txin vin ih =>
      rw [checkDuplicates, List.map_cons, List.nodup_cons, List.forall_mem_cons]
      constructor
      · intro h
        split at h
        · cases h
        · next hnew =>
            obtain ⟨hnodup, hdisj⟩ := ih.mp h
            refine ⟨⟨?_, hnodup⟩, hnew, ?_⟩
            · intro hmem
              exact hdisj _ hmem List.mem_cons_self
            · intro p hp hseen
              exact hdisj p hp (List.mem_cons_of_mem _ hseen)
      · rintro ⟨⟨hfirst, hnodup⟩, hnew, hdisj⟩
        rw [if_neg hnew]
        refine ih.mpr ⟨hnodup, ?_⟩
        intro p hp hmem
        rcases List.mem_cons.mp hmem with rfl | hseen
        · exact hfirst hp
        · exact hdisj p hp hseen

/-- What `CheckTransaction` asks of a transaction. -/
structure Valid (tx : CTransaction) : Prop where
  vin : tx.vin ≠ []
  vout : tx.vout ≠ []
  size : tx.Serialize.length ≤ MAX_BLOCK_SIZE
  value : ∀ o ∈ tx.vout, MoneyRange o.value
  total : MoneyRange (total tx.vout)
  prevout : (tx.vin.map CTxIn.prevout).Nodup
  script : checkScript tx = .ok ()

/-- Two checks in a row succeed when both do. -/
theorem bind_eq_ok {ε : Type} {x : Except ε Unit} {f : Unit → Except ε Unit} :
    x >>= f = .ok () ↔ x = .ok () ∧ f () = .ok () := by
  cases x with
  | error e =>
      constructor
      · intro h
        cases h
      · rintro ⟨h, -⟩
        cases h
  | ok u => exact ⟨fun h => ⟨rfl, h⟩, fun h => h.2⟩

/-- **The transactions that are accepted.** -/
theorem CheckTransaction_iff (tx : CTransaction) : CheckTransaction tx = .ok () ↔ Valid tx := by
  have hzero : MoneyRange 0 := by decide
  rw [CheckTransaction]
  constructor
  · intro h
    split at h
    · cases h
    · next hvin =>
        split at h
        · cases h
        · next hvout =>
            split at h
            · cases h
            · next hsize =>
                obtain ⟨hout, h⟩ := bind_eq_ok.mp h
                obtain ⟨hin, hscript⟩ := bind_eq_ok.mp h
                obtain ⟨hall, htotal⟩ := (checkOutputs_iff hzero).mp hout
                rw [Int.zero_add] at htotal
                exact ⟨hvin, hvout, Nat.not_lt.mp hsize, hall, htotal,
                  (checkDuplicates_iff.mp hin).1, hscript⟩
  · rintro ⟨hvin, hvout, hsize, hall, htotal, hin, hscript⟩
    rw [if_neg hvin, if_neg hvout, if_neg (Nat.not_lt.mpr hsize)]
    rw [← Int.zero_add (total tx.vout)] at htotal
    exact bind_eq_ok.mpr ⟨(checkOutputs_iff hzero).mpr ⟨hall, htotal⟩,
      bind_eq_ok.mpr ⟨checkDuplicates_iff.mpr ⟨hin, fun p _ hp => List.not_mem_nil hp⟩, hscript⟩⟩

/-- Of an accepted transaction the outputs have a sum, and it is money. -/
theorem Valid.GetValueOut {tx : CTransaction} (h : Valid tx) :
    tx.GetValueOut = some (Transaction.total tx.vout) := by
  have hsum := valueOut_eq (s := 0) (by decide) h.value (by rw [Int.zero_add]; exact h.total)
  rw [Int.zero_add] at hsum
  exact hsum

/-- Elements of at least one byte are no more than their bytes. -/
theorem length_le_flatMap {α : Type} {c : Codec Byte α} (hc : ∀ a, 1 ≤ (c.write a).length)
    (l : List α) : l.length ≤ (l.flatMap c.write).length := by
  induction l with
  | nil => exact Nat.le_refl 0
  | cons a l ih =>
      have ha := hc a
      rw [List.flatMap_cons, List.length_append, List.length_cons]
      omega

/-- An element is no longer than all of them. -/
theorem write_length_le {α : Type} (c : Codec Byte α) {l : List α} {a : α} (ha : a ∈ l) :
    (c.write a).length ≤ (l.flatMap c.write).length := by
  rw [List.length_flatMap]
  exact List.single_le_sum (fun _ _ => Nat.zero_le _) _ (List.mem_map_of_mem ha)

/-- A vector of bytes is no longer than what is written for it. -/
theorem byteVector_length (v : List Byte) : v.length ≤ (byteVector.write v).length := by
  have h := length_le_flatMap (c := symbol) (fun _ => Nat.le_refl 1) v
  show v.length ≤ (_ ++ _ : List Byte).length
  rw [List.length_append]
  omega

/-- Four bytes are written. -/
theorem uint32_length (x : BitVec 32) : (uint32.write x).length = 4 := bytesLE_length 4 x.toNat

/-- The script of an input is shorter than the input. -/
theorem CTxIn.write_length (txin : CTxIn) :
    txin.scriptSig.length + 1 ≤ (CTxIn.codec.write txin).length := by
  have hscript := byteVector_length txin.scriptSig
  have hseq := uint32_length txin.nSequence
  show _ ≤ (_ ++ (byteVector.write txin.scriptSig ++ uint32.write txin.nSequence)).length
  rw [List.length_append, List.length_append]
  omega

/-- And that of an output than the output. -/
theorem CTxOut.write_length (txout : CTxOut) :
    txout.scriptPubKey.length + 1 ≤ (CTxOut.codec.write txout).length := by
  have hscript := byteVector_length txout.scriptPubKey
  have hvalue : (int64.write txout.nValue).length = 8 := bytesLE_length 8 txout.nValue.toNat
  show _ ≤ (int64.write txout.nValue ++ byteVector.write txout.scriptPubKey).length
  rw [List.length_append]
  omega

/-- The parts of a transaction are not longer than the whole. -/
theorem CTransaction.Serialize_length (tx : CTransaction) :
    (tx.vin.flatMap CTxIn.codec.write).length + (tx.vout.flatMap CTxOut.codec.write).length
      ≤ tx.Serialize.length := by
  show _ ≤ (_ ++ ((_ ++ tx.vin.flatMap CTxIn.codec.write)
    ++ ((_ ++ tx.vout.flatMap CTxOut.codec.write) ++ _)) : List Byte).length
  simp only [List.length_append]
  omega

/-- **What is accepted can be read back.** -/
theorem CheckTransaction_fits {tx : CTransaction} (h : CheckTransaction tx = .ok ()) : tx.Fits := by
  have hsize := ((CheckTransaction_iff tx).mp h).size
  have hmax : MAX_BLOCK_SIZE ≤ MAX_SIZE := by decide
  have hparts := tx.Serialize_length
  have hin : ∀ txin : CTxIn, 1 ≤ (CTxIn.codec.write txin).length := by
    intro txin
    have := txin.write_length
    omega
  have hout : ∀ txout : CTxOut, 1 ≤ (CTxOut.codec.write txout).length := by
    intro txout
    have := txout.write_length
    omega
  have hvin := length_le_flatMap hin tx.vin
  have hvout := length_le_flatMap hout tx.vout
  refine ⟨by omega, by omega, ?_, ?_⟩
  · intro txin hmem
    have h1 := write_length_le CTxIn.codec hmem
    have h2 := txin.write_length
    omega
  · intro txout hmem
    have h1 := write_length_le CTxOut.codec hmem
    have h2 := txout.write_length
    omega

end Transaction
