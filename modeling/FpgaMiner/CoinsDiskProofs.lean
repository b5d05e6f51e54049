import FpgaMiner.CoinsProofs

/-! # Coins on the disk

    The database keeps coins and undo information with amounts and scripts compressed: the
    six common kinds of script are a number and a hash or a coordinate, and a bitmask tells
    which outputs are there.

    * **`readScript_writeScript`** — every script is read back, compressed or not;
    * **`CCoins.Unserialize_Serialize`** — coins are read back as `diskCoins` makes them;
    * **`CBlockUndo.Unserialize_Serialize`** — and so is the undo information of a block. -/

namespace Coins

open MinerDriver Codec Serialize BlockHeader Script Transaction TrimmedList

/-! ## Scripts -/

/-- What `CPubKey` leaves to a library: keys of 65 bytes and of 33, of which the short ones have
    the first coordinate and the parity of the second. -/
structure KeyLibrary where
  IsFullyValid : List Byte → Bool
  Decompress : List Byte → Option (List Byte)
  decompress_of_valid : ∀ x y : List Byte, x.length = 32 → y.length = 32 →
    IsFullyValid (4 :: (x ++ y)) = true →
    Decompress ((2 + (y.getD 31 0 &&& 1)) :: x) = some (4 :: (x ++ y))

/-- An opcode as a byte of a script. -/
def op (opcode : Nat) : Byte := BitVec.ofNat 8 opcode

/-- `CScriptCompressor::IsToKeyID`: the hash of a key, if the script pays to it. -/
def IsToKeyID (script : CScript) : Option (List Byte) :=
  if script.length = 25 ∧ script.take 3 = [op OP_DUP, op OP_HASH160, 20]
      ∧ script.drop 23 = [op OP_EQUALVERIFY, op OP_CHECKSIG] then
    some ((script.drop 3).take 20)
  else none

/-- `CScriptCompressor::IsToScriptID`: the hash of a script, if the script pays to it. -/
def IsToScriptID (script : CScript) : Option (List Byte) :=
  if script.length = 23 ∧ script.take 2 = [op OP_HASH160, 20] ∧ script.drop 22 = [op OP_EQUAL] then
    some ((script.drop 2).take 20)
  else none

/-- `CScriptCompressor::IsToPubKey`: the key, if the script is a compressed key, or a full one
    on the curve, and its check. -/
def IsToPubKey (K : KeyLibrary) (script : CScript) : Option (List Byte) :=
  if script.length = 35 ∧ script.take 1 = [33] ∧ script.drop 34 = [op OP_CHECKSIG]
      ∧ (script.getD 1 0 = 2 ∨ script.getD 1 0 = 3) then
    some ((script.drop 1).take 33)
  else if script.length = 67 ∧ script.take 1 = [65] ∧ script.drop 66 = [op OP_CHECKSIG]
      ∧ script.getD 1 0 = 4 then
    let pubkey := (script.drop 1).take 65
    if K.IsFullyValid pubkey then some pubkey else none
  else none

/-- `CScriptCompressor::Compress`: a special script in 21 or 33 bytes, the first of them
    its kind. -/
def Compress (K : KeyLibrary) (script : CScript) : Option (List Byte) :=
  match IsToKeyID script with
  | some keyID => some (0 :: keyID)
  | none =>
      match IsToScriptID script with
      | some scriptID => some (1 :: scriptID)
      | none =>
          match IsToPubKey K script with
          | none => none
          | some pubkey =>
              let x := (pubkey.drop 1).take 32
              if pubkey.getD 0 0 = 2 ∨ pubkey.getD 0 0 = 3 then some (pubkey.getD 0 0 :: x)
              else if pubkey.getD 0 0 = 4 then some ((4 ||| (pubkey.getD 64 0 &&& 1)) :: x)
              else none

/-- `CScriptCompressor::GetSpecialSize`: what follows the kind of a special script. -/
def GetSpecialSize (nSize : Nat) : Nat := if nSize = 0 ∨ nSize = 1 then 20 else if nSize < 6 then 32 else 0

/-- `CScriptCompressor::Decompress`: the script of a kind; `none` when the key of a full one
    is not on the curve. -/
def Decompress (K : KeyLibrary) (nSize : Nat) (data : List Byte) : Option CScript :=
  match nSize with
  | 0 => some ([op OP_DUP, op OP_HASH160, 20] ++ data ++ [op OP_EQUALVERIFY, op OP_CHECKSIG])
  | 1 => some ([op OP_HASH160, 20] ++ data ++ [op OP_EQUAL])
  | 2 | 3 => some ([33, BitVec.ofNat 8 nSize] ++ data ++ [op OP_CHECKSIG])
  | 4 | 5 =>
      match K.Decompress (BitVec.ofNat 8 (nSize - 2) :: data) with
      | none => none
      | some pubkey => some ([65] ++ pubkey ++ [op OP_CHECKSIG])
  | _ => none

/-- The kinds of special scripts; from here on the number before a script is its length. -/
def nSpecialScripts : Nat := 6

/-- `CScriptCompressor::Serialize` -/
def writeScript (K : KeyLibrary) (script : CScript) : List Byte :=
  match Compress K script with
  | some compr => compr
  | none => WriteVarInt ((script.length + nSpecialScripts) % 2 ^ 32) ++ script

/-- A number of bytes. -/
def readFlat (k : Nat) (s : List Byte) : Option (List Byte × List Byte) :=
  if s.length < k then none else some (s.take k, s.drop k)

/-- `CScriptCompressor::Unserialize` of an empty script; it stays empty when `Decompress` fails. -/
def readScript (K : KeyLibrary) (s : List Byte) : Option (CScript × List Byte) := do
  let (nSize, s) ← ReadVarInt 32 0 s
  if nSize < nSpecialScripts then
    let (vch, s) ← readFlat (GetSpecialSize nSize) s
    some ((Decompress K nSize vch).getD [], s)
  else readFlat (nSize - nSpecialScripts) s

/-- Bytes of a known number are read back. -/
theorem readFlat_append (l rest : List Byte) : readFlat l.length (l ++ rest) = some (l, rest) := by
  rw [readFlat, if_neg (by rw [List.length_append]; omega), List.take_left' rfl, List.drop_left' rfl]

/-- The parts of a list. -/
theorem split_three {α : Type} (l : List α) (j k : Nat) :
    l = l.take j ++ (l.drop j).take k ++ l.drop (j + k) := by
  rw [List.append_assoc, ← List.drop_drop, List.take_append_drop, List.take_append_drop]

/-- A number below 128 is its byte. -/
theorem ReadVarInt_small {b : Byte} (hb : b.toNat < 128) (s : List Byte) :
    ReadVarInt 32 0 (b :: s) = some (b.toNat, s) := by
  rw [ReadVarInt, if_neg (by omega), Nat.zero_mul, Nat.zero_add, Nat.mod_eq_of_lt hb,
    Nat.mod_eq_of_lt (by omega)]

/-- A compressed script is read from its kind and what it has then. -/
theorem readScript_special {K : KeyLibrary} {script : CScript} {b : Byte} {data : List Byte}
    (hb : b.toNat < nSpecialScripts) (hlen : data.length = GetSpecialSize b.toNat)
    (h : Decompress K b.toNat data = some script) (rest : List Byte) :
    readScript K (b :: data ++ rest) = some (script, rest) := by
  have hsix : nSpecialScripts = 6 := rfl
  have hflat : readFlat (GetSpecialSize b.toNat) (data ++ rest) = some (data, rest) := by
    rw [← hlen]
    exact readFlat_append data rest
  simp only [readScript, List.cons_append, ReadVarInt_small (show b.toNat < 128 by omega),
    Option.bind_eq_bind, Option.bind_some]
  rw [if_pos hb]
  simp only [hflat, Option.bind_some, h, Option.getD_some]

/-- A script that pays to a key is made from its hash. -/
theorem keyID_spec {script keyID : List Byte} (h : IsToKeyID script = some keyID) :
    keyID.length = 20
      ∧ script = [op OP_DUP, op OP_HASH160, 20] ++ keyID ++ [op OP_EQUALVERIFY, op OP_CHECKSIG] := by
  rw [IsToKeyID] at h
  split at h
  · next hc =>
      obtain ⟨hlen, hpre, hpost⟩ := hc
      have heq := Option.some.inj h
      refine ⟨?_, ?_⟩
      · rw [← heq, List.length_take, List.length_drop]
        omega
      · conv_lhs => rw [split_three script 3 20]
        rw [hpre, hpost, heq]
  · cases h

/-- A script that pays to a script is made from its hash. -/
theorem scriptID_spec {script scriptID : List Byte} (h : IsToScriptID script = some scriptID) :
    scriptID.length = 20 ∧ script = [op OP_HASH160, 20] ++ scriptID ++ [op OP_EQUAL] := by
  rw [IsToScriptID] at h
  split at h
  · next hc =>
      obtain ⟨hlen, hpre, hpost⟩ := hc
      have heq := Option.some.inj h
      refine ⟨?_, ?_⟩
      · rw [← heq, List.length_take, List.length_drop]
        omega
      · conv_lhs => rw [split_three script 2 20]
        rw [hpre, hpost, heq]
  · cases h

/-- A script with a key is its length, the key and the check of a signature. -/
theorem pubKey_spec {K : KeyLibrary} {script pubkey : List Byte} (h : IsToPubKey K script = some pubkey) :
    (pubkey.length = 33 ∧ (pubkey.getD 0 0 = 2 ∨ pubkey.getD 0 0 = 3)
        ∧ script = [33] ++ pubkey ++ [op OP_CHECKSIG])
      ∨ (pubkey.length = 65 ∧ pubkey.getD 0 0 = 4 ∧ K.IsFullyValid pubkey = true
        ∧ script = [65] ++ pubkey ++ [op OP_CHECKSIG]) := by
  have hfirst : ∀ k, ((script.drop 1).take (k + 1)).getD 0 0 = script.getD 1 0 := by
    intro k
    rw [List.getD_eq_getElem?_getD, List.getElem?_take_of_lt (Nat.succ_pos k), List.getElem?_drop,
      List.getD_eq_getElem?_getD]
  rw [IsToPubKey] at h
  split at h
  · next hc =>
      obtain ⟨hlen, hpre, hpost, hkind⟩ := hc
      have heq := Option.some.inj h
      left
      refine ⟨?_, ?_, ?_⟩
      · rw [← heq, List.length_take, List.length_drop]
        omega
      · rw [← heq, hfirst]
        exact hkind
      · conv_lhs => rw [split_three script 1 33]
        rw [hpre, hpost, heq]
  · split at h
    · next hc =>
        obtain ⟨hlen, hpre, hpost, hkind⟩ := hc
        simp only at h
        split at h
        · next hvalid =>
            have heq := Option.some.inj h
            right
            refine ⟨?_, ?_, by rw [← heq]; exact hvalid, ?_⟩
            · rw [← heq, List.length_take, List.length_drop]
              omega
            · rw [← heq, hfirst]
              exact hkind
            · conv_lhs => rw [split_three script 1 65]
              rw [hpre, hpost, heq]
        · cases h
    · cases h

/-- The parity of a byte is one of two. -/
theorem parity_cases (b : Byte) : b &&& 1 = 0 ∨ b &&& 1 = 1 := by
  have h : ∀ c : Byte, c &&& 1 = 0 ∨ c &&& 1 = 1 := by decide
  exact h b

/-- A script with a key is read back from the 33 bytes. -/
theorem readScript_pubKey {K : KeyLibrary} {script pubkey compr : List Byte}
    (h : IsToPubKey K script = some pubkey) (rest : List Byte)
    (hc : compr = (if pubkey.getD 0 0 = 2 ∨ pubkey.getD 0 0 = 3 then pubkey.getD 0 0
      else 4 ||| (pubkey.getD 64 0 &&& 1)) :: (pubkey.drop 1).take 32) :
    readScript K (compr ++ rest) = some (script, rest) := by
  rcases pubKey_spec h with ⟨hlen, hkind, hscript⟩ | ⟨hlen, hkind, hvalid, hscript⟩
  · obtain ⟨b, x, rfl⟩ := List.exists_cons_of_ne_nil
      (show pubkey ≠ [] from List.ne_nil_of_length_pos (by omega))
    have hx : x.length = 32 := Nat.succ.inj hlen
    have htake : ((b :: x).drop 1).take 32 = x := List.take_of_length_le (Nat.le_of_eq hx)
    rw [if_pos hkind, htake] at hc
    rw [hc]
    rcases hkind with hb | hb
    · rw [hb]
      refine readScript_special (by decide) hx ?_ rest
      rw [hscript, show b = 2 from hb]
      rfl
    · rw [hb]
      refine readScript_special (by decide) hx ?_ rest
      rw [hscript, show b = 3 from hb]
      rfl
  · obtain ⟨b, xy, rfl⟩ := List.exists_cons_of_ne_nil
      (show pubkey ≠ [] from List.ne_nil_of_length_pos (by omega))
    have hxy : xy.length = 64 := Nat.succ.inj hlen
    obtain rfl : b = 4 := hkind
    have hx : (xy.take 32).length = 32 := by
      rw [List.length_take]
      omega
    have hy : (xy.drop 32).length = 32 := by
      rw [List.length_drop]
      omega
    have hlast : (xy.drop 32).getD 31 0 = (4 :: xy : List Byte).getD 64 0 := by
      rw [List.getD_eq_getElem?_getD, List.getElem?_drop]
      rfl
    have hsplit : xy.take 32 ++ xy.drop 32 = xy := List.take_append_drop 32 xy
    have hkey := K.decompress_of_valid (xy.take 32) (xy.drop 32) hx hy (by rw [hsplit]; exact hvalid)
    rw [hsplit, hlast] at hkey
    have hkind4 : ¬ ((4 :: xy : List Byte).getD 0 0 = 2 ∨ (4 :: xy : List Byte).getD 0 0 = 3) :=
      show ¬ ((4 : Byte) = 2 ∨ (4 : Byte) = 3) by decide
    rw [if_neg hkind4] at hc
    rw [hc]
    rcases parity_cases ((4 :: xy : List Byte).getD 64 0) with hp | hp
    · rw [hp] at hkey ⊢
      refine readScript_special (by decide) hx ?_ rest
      show (match K.Decompress (2 :: xy.take 32) with | none => none | some pubkey => _) = _
      rw [show (2 : Byte) = 2 + 0 from rfl, hkey, hscript]
    · rw [hp] at hkey ⊢
      refine readScript_special (by decide) hx ?_ rest
      show (match K.Decompress (3 :: xy.take 32) with | none => none | some pubkey => _) = _
      rw [show (3 : Byte) = 2 + 1 from rfl, hkey, hscript]

/-- **Every script is read back.** -/
theorem readScript_writeScript (K : KeyLibrary) {script : CScript} (hlen : script.length ≤ MAX_SIZE)
    (rest : List Byte) : readScript K (writeScript K script ++ rest) = some (script, rest) := by
  have hsix : nSpecialScripts = 6 := rfl
  have hmax : MAX_SIZE = 33554432 := rfl
  have hraw : readScript K (WriteVarInt ((script.length + nSpecialScripts) % 2 ^ 32) ++ script ++ rest)
      = some (script, rest) := by
    have hlt : script.length + nSpecialScripts < 2 ^ 32 := by omega
    simp only [readScript, List.append_assoc, Nat.mod_eq_of_lt hlt, ReadVarInt_WriteVarInt hlt,
      Option.bind_eq_bind, Option.bind_some]
    rw [if_neg (by omega), Nat.add_sub_cancel]
    exact readFlat_append script rest
  rw [writeScript, Compress]
  cases hkey : IsToKeyID script with
  | some keyID =>
      obtain ⟨h20, hscript⟩ := keyID_spec hkey
      exact readScript_special (b := 0) (by decide) h20 (congrArg some hscript.symm) rest
  | none =>
      simp only
      cases hid : IsToScriptID script with
      | some scriptID =>
          obtain ⟨h20, hscript⟩ := scriptID_spec hid
          exact readScript_special (b := 1) (by decide) h20 (congrArg some hscript.symm) rest
      | none =>
          simp only
          cases hpub : IsToPubKey K script with
          | none => exact hraw
          | some pubkey =>
              simp only
              by_cases hshort : pubkey.getD 0 0 = 2 ∨ pubkey.getD 0 0 = 3
              · rw [if_pos hshort]
                exact readScript_pubKey hpub rest (by rw [if_pos hshort])
              · rw [if_neg hshort]
                rcases pubKey_spec hpub with ⟨-, hkind, -⟩ | ⟨-, hkind, -⟩
                · exact absurd hkind hshort
                · rw [if_pos hkind]
                  exact readScript_pubKey hpub rest (by rw [if_neg hshort])

/-! ## Outputs and versions -/

/-- `CTxOutCompressor` -/
def writeTxOut (K : KeyLibrary) (txout : CTxOut) : List Byte :=
  WriteVarInt (CompressAmount txout.nValue.toNat) ++ writeScript K txout.scriptPubKey

/-- `CTxOutCompressor`, reading. -/
def readTxOut (K : KeyLibrary) (s : List Byte) : Option (CTxOut × List Byte) := do
  let (nVal, s) ← ReadVarInt 64 0 s
  let (scriptPubKey, s) ← readScript K s
  some (⟨BitVec.ofNat 64 (DecompressAmount nVal), scriptPubKey⟩, s)

/-- `WriteVarInt` of an `int`. -/
def writeVersion (nVersion : BitVec 32) : List Byte :=
  if nVersion.toInt < 0 then [(nVersion &&& 0x7f).setWidth 8] else WriteVarInt nVersion.toNat

/-- A version is read as the `int` that was written, its low 32 bits. -/
def readVersion (s : List Byte) : Option (BitVec 32 × List Byte) :=
  (ReadVarInt 32 0 s).map (fun p => (BitVec.ofNat 32 p.1, p.2))

/-- An output with an amount of money, as `CheckTransaction` lets them pass. -/
structure StorableOut (txout : CTxOut) : Prop where
  value : MoneyRange txout.value
  scriptPubKey : txout.scriptPubKey.length ≤ MAX_SIZE

/-- The value of an output in the range of money, as it is written. -/
theorem toNat_of_moneyRange {txout : CTxOut} (h : MoneyRange txout.value) :
    txout.nValue.toNat ≤ MAX_MONEY := by
  obtain ⟨h0, hmax⟩ := h
  have hmax : txout.value ≤ 2100000000000000 := hmax
  have hm : MAX_MONEY = 2100000000000000 := rfl
  have hlt := txout.nValue.isLt
  rw [CTxOut.value, BitVec.toInt_eq_toNat_cond] at h0 hmax
  split at h0
  · next hs =>
      rw [if_pos hs] at hmax
      omega
  · omega

/-- **An output is read back.** -/
theorem readTxOut_writeTxOut (K : KeyLibrary) {txout : CTxOut} (h : StorableOut txout)
    (rest : List Byte) : readTxOut K (writeTxOut K txout ++ rest) = some (txout, rest) := by
  have hn := toNat_of_moneyRange h.value
  have hamount := amount_roundtrip hn (writeScript K txout.scriptPubKey ++ rest)
  obtain ⟨⟨nVal, s⟩, hread, hp⟩ := Option.map_eq_some_iff.mp hamount
  obtain ⟨hval, rfl⟩ := Prod.mk.inj hp
  simp only [readTxOut, writeTxOut, List.append_assoc, hread, Option.bind_eq_bind, Option.bind_some,
    readScript_writeScript K h.scriptPubKey, hval, BitVec.ofNat_toNat, BitVec.setWidth_eq]

/-- A version is read back as the disk keeps it. -/
theorem readVersion_writeVersion (nVersion : BitVec 32) (rest : List Byte) :
    readVersion (writeVersion nVersion ++ rest) = some (diskVersion nVersion, rest) := by
  rw [readVersion, writeVersion, diskVersion]
  by_cases hneg : nVersion.toInt < 0
  · have hto : ((nVersion &&& 0x7f).setWidth 8).toNat = nVersion.toNat % 128 := by
      rw [BitVec.toNat_setWidth, BitVec.toNat_and]
      have hmask : nVersion.toNat &&& (0x7f#32).toNat = nVersion.toNat % 128 :=
        Nat.and_two_pow_sub_one_eq_mod nVersion.toNat 7
      rw [show (127 : BitVec 32).toNat = (0x7f#32).toNat from rfl, hmask]
      omega
    have hlow : BitVec.ofNat 32 (nVersion.toNat % 128) = nVersion &&& 0x7f := by
      apply BitVec.eq_of_toNat_eq
      rw [BitVec.toNat_ofNat, BitVec.toNat_and]
      have hmask : nVersion.toNat &&& (0x7f#32).toNat = nVersion.toNat % 128 :=
        Nat.and_two_pow_sub_one_eq_mod nVersion.toNat 7
      rw [show (127 : BitVec 32).toNat = (0x7f#32).toNat from rfl, hmask]
      omega
    rw [if_pos hneg, if_pos hneg, List.singleton_append,
      ReadVarInt_small (by rw [hto]; exact Nat.mod_lt _ (by decide)), Option.map_some, hto, hlow]
  · rw [if_neg hneg, if_neg hneg, ReadVarInt_WriteVarInt nVersion.isLt, Option.map_some,
      BitVec.ofNat_toNat, BitVec.setWidth_eq]

/-! ## Undo information -/

/-- `CTxInUndo::Serialize`: twice the height with the coinbase flag, the version if there is a
    height, the output. -/
def CTxInUndo.Serialize (K : KeyLibrary) (u : CTxInUndo) : List Byte :=
  WriteVarInt ((u.nHeight * 2 + if u.fCoinBase then 1 else 0) % 2 ^ 32)
    ++ ((if u.nHeight > 0 then writeVersion u.nVersion else []) ++ writeTxOut K u.txout)

/-- `CTxInUndo::Unserialize`: the version is zero where none was written. -/
def CTxInUndo.Unserialize (K : KeyLibrary) (s : List Byte) : Option (CTxInUndo × List Byte) := do
  let (nCode, s) ← ReadVarInt 32 0 s
  let (nVersion, s) ← if nCode / 2 > 0 then readVersion s else some (0, s)
  let (txout, s) ← readTxOut K s
  some (⟨txout, nCode % 2 = 1, nCode / 2, nVersion⟩, s)

/-- Undo information that the disk can hold. -/
structure StorableUndo (u : CTxInUndo) : Prop where
  txout : StorableOut u.txout
  nHeight : u.nHeight < 2 ^ 31
  nVersion : u.nHeight = 0 → u.nVersion = 0

/-- What is read back for it. -/
def diskUndo (u : CTxInUndo) : CTxInUndo := { u with nVersion := diskVersion u.nVersion }

/-- **Undo information of an input is read back**, up to its version. -/
theorem CTxInUndo.Unserialize_Serialize (K : KeyLibrary) {u : CTxInUndo} (h : StorableUndo u)
    (rest : List Byte) : CTxInUndo.Unserialize K (u.Serialize K ++ rest) = some (diskUndo u, rest) := by
  have hheight := h.nHeight
  have hcode : ∀ b : Bool, (u.nHeight * 2 + if b then 1 else 0) < 2 ^ 32
      ∧ (u.nHeight * 2 + if b then 1 else 0) / 2 = u.nHeight
      ∧ decide ((u.nHeight * 2 + if b then 1 else 0) % 2 = 1) = b := by
    intro b
    cases b with
    | false =>
        rw [if_neg Bool.false_ne_true]
        refine ⟨by omega, by omega, ?_⟩
        rw [decide_eq_false_iff_not]
        omega
    | true =>
        rw [if_pos rfl]
        refine ⟨by omega, by omega, ?_⟩
        rw [decide_eq_true_eq]
        omega
  obtain ⟨hlt, hdiv, hmod⟩ := hcode u.fCoinBase
  simp only [CTxInUndo.Unserialize, CTxInUndo.Serialize, List.append_assoc, Nat.mod_eq_of_lt hlt,
    ReadVarInt_WriteVarInt hlt, Option.bind_eq_bind, Option.bind_some, hdiv, hmod]
  by_cases hpos : u.nHeight > 0
  · simp only [if_pos hpos, readVersion_writeVersion, Option.bind_some, readTxOut_writeTxOut K h.txout]
    rfl
  · simp only [if_neg hpos, List.nil_append, Option.bind_some, readTxOut_writeTxOut K h.txout]
    have hzero := h.nVersion (by omega)
    rw [diskUndo, hzero]
    rfl

/-- The reader of a number of values. -/
def readMany {α : Type} (read : List Byte → Option (α × List Byte)) :
    Nat → List Byte → Option (List α × List Byte)
  | 0, s => some ([], s)
  | k + 1, s => do
      let (a, s) ← read s
      let (l, s) ← readMany read k s
      some (a :: l, s)

/-- Elements that are read back one by one are read back in a row. -/
theorem readMany_write {α : Type} {read : List Byte → Option (α × List Byte)} {write : α → List Byte}
    {disk : α → α} {l : List α} (h : ∀ a ∈ l, ∀ rest, read (write a ++ rest) = some (disk a, rest))
    (rest : List Byte) :
    readMany read l.length (l.flatMap write ++ rest) = some (l.map disk, rest) := by
  induction l with
  | nil => rfl
  | cons a l ih =>
      obtain ⟨ha, hl⟩ := List.forall_mem_cons.mp h
      simp only [List.length_cons, readMany, List.flatMap_cons, List.append_assoc, ha, ih hl,
        Option.bind_eq_bind, Option.bind_some, List.map_cons]

/-- `CTxUndo` is the vector `vprevout`. -/
abbrev CTxUndo := List CTxInUndo

/-- `CBlockUndo` is the vector `vtxundo`. -/
abbrev CBlockUndo := List CTxUndo

/-- A vector of values in a format. -/
def writeVector {α : Type} (write : α → List Byte) (l : List α) : List Byte :=
  WriteCompactSize l.length ++ l.flatMap write

/-- A vector behind its number of elements. -/
def readVector {α : Type} (read : List Byte → Option (α × List Byte)) (s : List Byte) :
    Option (List α × List Byte) := do
  let (k, s) ← ReadCompactSize s
  readMany read k s

/-- And so is a vector of them. -/
theorem readVector_writeVector {α : Type} {read : List Byte → Option (α × List Byte)}
    {write : α → List Byte} {disk : α → α} {l : List α} (hlen : l.length ≤ MAX_SIZE)
    (h : ∀ a ∈ l, ∀ rest, read (write a ++ rest) = some (disk a, rest)) (rest : List Byte) :
    readVector read (writeVector write l ++ rest) = some (l.map disk, rest) := by
  simp only [readVector, writeVector, List.append_assoc, ReadCompactSize_WriteCompactSize _ hlen,
    Option.bind_eq_bind, Option.bind_some, readMany_write h]

/-- The undo information of a block: a vector of vectors. -/
def CBlockUndo.Serialize (K : KeyLibrary) (vtxundo : CBlockUndo) : List Byte :=
  writeVector (writeVector (CTxInUndo.Serialize K)) vtxundo

/-- It is read from the front of a stream. -/
def CBlockUndo.Unserialize (K : KeyLibrary) (s : List Byte) : Option (CBlockUndo × List Byte) :=
  readVector (readVector (CTxInUndo.Unserialize K)) s

/-- Undo information of a block that the disk can hold. -/
structure StorableBlockUndo (vtxundo : CBlockUndo) : Prop where
  length : vtxundo.length ≤ MAX_SIZE
  txundo : ∀ txundo ∈ vtxundo, txundo.length ≤ MAX_SIZE ∧ ∀ u ∈ txundo, StorableUndo u

/-- What is read back for it. -/
def diskBlockUndo (vtxundo : CBlockUndo) : CBlockUndo := vtxundo.map (List.map diskUndo)

/-- **The undo information of a block is read back.** -/
theorem CBlockUndo.Unserialize_Serialize (K : KeyLibrary) {vtxundo : CBlockUndo}
    (h : StorableBlockUndo vtxundo) (rest : List Byte) :
    CBlockUndo.Unserialize K (CBlockUndo.Serialize K vtxundo ++ rest)
      = some (diskBlockUndo vtxundo, rest) := by
  apply readVector_writeVector h.length
  intro txundo htx rest
  obtain ⟨hlen, hu⟩ := h.txundo txundo htx
  apply readVector_writeVector hlen
  intro u hmem rest
  exact CTxInUndo.Unserialize_Serialize K (hu u hmem) rest

/-! ## Coins -/

/-- Whether an output of a byte of the mask is there. -/
def CCoins.maskBit (c : CCoins) (b i : Nat) : Bool := c.IsAvailable (2 + b * 8 + i)

/-- The loop of `CalcMaskSize`, from the byte `b` on for `k` bytes: the last byte used, and the
    number of those that are not zero. -/
def CCoins.calcMask (c : CCoins) : Nat → Nat → Nat × Nat → Nat × Nat
  | 0, _, s => s
  | k + 1, b, (nLastUsedByte, nNonzeroBytes) =>
      let fZero := ¬ (List.range 8).any (c.maskBit b)
      CCoins.calcMask c k (b + 1)
        (if fZero then (nLastUsedByte, nNonzeroBytes) else (b + 1, nNonzeroBytes + 1))

/-- `CCoins::CalcMaskSize`: the bytes of the mask up to the last one that is not zero, and how
    many are not. -/
def CCoins.CalcMaskSize (c : CCoins) : Nat × Nat := c.calcMask ((c.vout.length - 2 + 7) / 8) 0 (0, 0)

/-- The loop for `chAvail`, over the first `k` outputs of a byte. -/
def CCoins.chAvail (c : CCoins) (b k : Nat) : Byte :=
  (List.range k).foldl (fun ch i => if c.maskBit b i then ch ||| (1#8 <<< i) else ch) 0#8

/-- The header code of a record: the number of mask bytes with something in them, less
    one if neither of the first two outputs is left, over flags for these outputs and
    the coinbase. -/
def CCoins.nCode (c : CCoins) : Nat :=
  let nMaskCode := c.CalcMaskSize.2
  let fFirst := c.IsAvailable 0
  let fSecond := c.IsAvailable 1
  8 * (nMaskCode - if fFirst || fSecond then 0 else 1) + (if c.fCoinBase then 1 else 0)
    + (if fFirst then 2 else 0) + (if fSecond then 4 else 0)

/-- `none` is the failed assertion that an output is available. -/
def CCoins.Serialize (K : KeyLibrary) (c : CCoins) : Option (List Byte) :=
  if !(c.IsAvailable 0 || c.IsAvailable 1 || c.CalcMaskSize.2 ≠ 0) then none
  else some (writeVersion c.nVersion
    ++ (WriteVarInt (c.nCode % 2 ^ 32)
    ++ ((List.range c.CalcMaskSize.1).map (fun b => c.chAvail b 8)
    ++ ((List.range c.vout.length).flatMap (fun i =>
        if c.IsAvailable i then writeTxOut K (c.vout.getD i CTxOut.SetNull) else [])
    ++ WriteVarInt c.nHeight))))

/-- The loop of `Unserialize` over the mask. -/
def readMask : Nat → List Byte → Option (List Bool × List Byte)
  | 0, s => some ([], s)
  | _ + 1, [] => none
  | nMaskCode + 1, chAvail :: s => do
      let (vAvail, s) ← readMask (if chAvail ≠ 0#8 then nMaskCode else nMaskCode + 1) s
      some ((List.range 8).map (fun p => decide (chAvail &&& (1#8 <<< p) ≠ 0)) ++ vAvail, s)

/-- The loop of `Unserialize` over the outputs. -/
def readOuts (K : KeyLibrary) : List Bool → List Byte → Option (List CTxOut × List Byte)
  | [], s => some ([], s)
  | avail :: vAvail, s => do
      let (txout, s) ← if avail then readTxOut K s else some (CTxOut.SetNull, s)
      let (vout, s) ← readOuts K vAvail s
      some (txout :: vout, s)

/-- `CCoins::Unserialize`: version, code, mask, the outputs that the mask says are left, and
    the height. -/
def CCoins.Unserialize (K : KeyLibrary) (s : List Byte) : Option (CCoins × List Byte) := do
  let (nVersion, s) ← readVersion s
  let (nCode, s) ← ReadVarInt 32 0 s
  let fFirst := decide (nCode / 2 % 2 = 1)
  let fSecond := decide (nCode / 4 % 2 = 1)
  let nMaskCode := nCode / 8 + if fFirst || fSecond then 0 else 1
  let (vAvail, s) ← readMask nMaskCode s
  let (vout, s) ← readOuts K (fFirst :: fSecond :: vAvail) s
  let (nHeight, s) ← ReadVarInt 32 0 s
  some (CCoins.Cleanup ⟨nCode % 2 = 1, vout, nHeight, nVersion⟩, s)

/-- A bit of a mask byte says that its output is left. -/
theorem chAvail_getLsbD (c : CCoins) (b : Nat) {k : Nat} (hk : k ≤ 8) {p : Nat} (hp : p < 8) :
    (c.chAvail b k).getLsbD p = (decide (p < k) && c.maskBit b p) := by
  induction k with
  | zero => simp only [CCoins.chAvail, List.range_zero, List.foldl_nil, BitVec.getLsbD_zero,
      Nat.not_lt_zero, decide_false, Bool.false_and]
  | succ k ih =>
      have ih := ih (by omega)
      rw [CCoins.chAvail] at ih ⊢
      rw [List.range_succ, List.foldl_append, List.foldl_cons, List.foldl_nil]
      by_cases hkp : k = p
      · subst hkp
        cases hbit : c.maskBit b k with
        | false =>
            rw [if_neg Bool.false_ne_true, ih, hbit, Bool.and_false, Bool.and_false]
        | true =>
            rw [if_pos rfl, BitVec.getLsbD_or, ← BitVec.twoPow_eq, BitVec.getLsbD_twoPow]
            simp only [hp, decide_true, Bool.and_self, Bool.or_true, Nat.lt_succ_self]
      · have hlt : decide (p < k + 1) = decide (p < k) := by
          rw [decide_eq_decide]
          omega
        rw [hlt]
        split
        · rw [BitVec.getLsbD_or, ← BitVec.twoPow_eq, BitVec.getLsbD_twoPow, ih]
          simp only [hkp, decide_false, Bool.and_false, Bool.or_false]
        · exact ih

/-- A byte of the mask has the bits that it is made of. -/
theorem chAvail_bits (c : CCoins) (b : Nat) :
    (List.range 8).map (fun p => decide (c.chAvail b 8 &&& (1#8 <<< p) ≠ 0))
      = (List.range 8).map (c.maskBit b) := by
  apply List.map_congr_left
  intro p hp
  have hp := List.mem_range.mp hp
  rw [mask_ne_zero _ hp, chAvail_getLsbD c b (Nat.le_refl 8) hp, decide_eq_true hp, Bool.true_and]

/-- A mask byte is zero when none of its outputs is left. -/
theorem chAvail_eq_zero (c : CCoins) (b : Nat) :
    c.chAvail b 8 = 0#8 ↔ ¬ (List.range 8).any (c.maskBit b) = true := by
  rw [List.any_eq_true]
  constructor
  · rintro h ⟨p, hp, hbit⟩
    have hp := List.mem_range.mp hp
    have hlsb := chAvail_getLsbD c b (Nat.le_refl 8) hp
    rw [h, BitVec.getLsbD_zero, decide_eq_true hp, hbit] at hlsb
    cases hlsb
  · intro h
    apply BitVec.eq_of_getLsbD_eq
    intro p hp
    rw [chAvail_getLsbD c b (Nat.le_refl 8) hp, BitVec.getLsbD_zero, decide_eq_true hp, Bool.true_and,
      ← Bool.not_eq_true]
    intro hbit
    exact h ⟨p, List.mem_range.mpr hp, hbit⟩

/-- Whether a byte of the mask is not zero. -/
def CCoins.maskUsed (c : CCoins) (b : Nat) : Bool := (List.range 8).any (c.maskBit b)

/-- The loop counts the bytes that are not zero. -/
theorem calcMask_snd (c : CCoins) (k b : Nat) (s : Nat × Nat) :
    (c.calcMask k b s).2 = s.2 + (List.range' b k).countP c.maskUsed := by
  induction k generalizing b s with
  | zero => rfl
  | succ k ih =>
      rw [CCoins.calcMask, ih, List.range'_succ, List.countP_cons, CCoins.maskUsed]
      by_cases hused : (List.range 8).any (c.maskBit b) = true
      · rw [if_neg (not_not.mpr hused), if_pos hused]
        omega
      · rw [if_pos hused, if_neg hused]
        rfl

/-- The mask goes up to its last byte when that is used. -/
theorem calcMask_fst (c : CCoins) (k b : Nat) (s : Nat × Nat) (h : c.maskUsed (b + k) = true) :
    (c.calcMask (k + 1) b s).1 = b + k + 1 := by
  induction k generalizing b s with
  | zero =>
      have hused : (List.range 8).any (c.maskBit b) = true := h
      rw [CCoins.calcMask, CCoins.calcMask, if_neg (not_not.mpr hused)]
  | succ k ih =>
      rw [CCoins.calcMask, ih (b + 1) _ (by rw [Nat.add_right_comm]; exact h)]
      omega

/-- The bits of some bytes of the mask. -/
theorem maskBits_eq (c : CCoins) (b k : Nat) :
    (List.range' b k).flatMap (fun b => (List.range 8).map (c.maskBit b))
      = (List.range' (2 + b * 8) (k * 8)).map c.IsAvailable := by
  induction k generalizing b with
  | zero => rw [Nat.zero_mul]; rfl
  | succ k ih =>
      have hbyte : (List.range 8).map (c.maskBit b) = (List.range' (2 + b * 8) 8).map c.IsAvailable := by
        rw [List.range'_eq_map_range, List.map_map]
        rfl
      rw [List.range'_succ, List.flatMap_cons, ih, hbyte, ← List.map_append, Nat.succ_mul, Nat.succ_mul,
        Nat.add_comm (k * 8), ← Nat.add_assoc, List.range'_append_1]

/-- **The mask is read back.** -/
theorem readMask_write (c : CCoins) (b k : Nat) (h : k = 0 ∨ c.maskUsed (b + k - 1) = true)
    (rest : List Byte) :
    readMask ((List.range' b k).countP c.maskUsed)
        ((List.range' b k).map (fun b => c.chAvail b 8) ++ rest)
      = some ((List.range' (2 + b * 8) (k * 8)).map c.IsAvailable, rest) := by
  rw [← maskBits_eq]
  induction k generalizing b with
  | zero =>
      simp only [List.range'_zero, List.countP_nil, List.map_nil, List.nil_append, readMask,
        List.flatMap_nil]
  | succ k ih =>
      have hend : c.maskUsed (b + k) = true := h.resolve_left (Nat.succ_ne_zero k)
      have hlast : k = 0 ∨ c.maskUsed (b + 1 + k - 1) = true := by
        right
        rwa [show b + 1 + k - 1 = b + k by omega]
      have ih := ih (b + 1) hlast
      rw [List.range'_succ, List.countP_cons, List.map_cons, List.cons_append, List.flatMap_cons]
      by_cases hused : c.maskUsed b = true
      · have hne : c.chAvail b 8 ≠ 0#8 := fun h0 => (chAvail_eq_zero c b).mp h0 hused
        rw [if_pos hused, readMask, if_pos hne, ih, chAvail_bits]
        rfl
      · have hzero : ¬ c.chAvail b 8 ≠ 0#8 := not_not.mpr ((chAvail_eq_zero c b).mpr hused)
        -- a byte that is used is still to come
        obtain ⟨m, hm⟩ : ∃ m, (List.range' (b + 1) k).countP c.maskUsed = m + 1 := by
          refine Nat.exists_eq_add_one.mpr (List.countP_pos_iff.mpr ⟨b + k, ?_, hend⟩)
          have hk : k ≠ 0 := by
            rintro rfl
            exact hused hend
          rw [List.mem_range'_1]
          omega
        rw [if_neg hused, Nat.add_zero, hm, readMask, if_neg hzero, ← hm, ih, chAvail_bits]
        rfl

/-- Coins that the disk can hold. -/
structure Storable (c : CCoins) : Prop where
  kept : Kept c
  length : c.vout.length ≤ MAX_SIZE
  out : ∀ i, c.IsAvailable i = true → StorableOut (c.vout.getD i CTxOut.SetNull)
  nHeight : c.nHeight < 2 ^ 31

/-- In well-formed coins an output that is not left is blank. -/
theorem getD_of_not_available {c : CCoins} (h : Kept c) {i : Nat} (hi : ¬ c.IsAvailable i = true) :
    c.vout.getD i CTxOut.SetNull = CTxOut.SetNull := by
  rcases Nat.lt_or_ge i c.vout.length with hlt | hge
  · rw [isAvailable_iff, not_not] at hi
    refine h.trimmed.blank_eq _ ?_ hi
    rw [getD_of_lt hlt]
    exact List.getElem_mem hlt
  · exact getD_of_le hge

/-- What `Serialize` writes for an output. -/
def CCoins.writeOut (K : KeyLibrary) (c : CCoins) (i : Nat) : List Byte :=
  if c.IsAvailable i then writeTxOut K (c.vout.getD i CTxOut.SetNull) else []

/-- **The outputs are read back.** -/
theorem readOuts_write (K : KeyLibrary) {c : CCoins} (h : Storable c) (l : List Nat) (rest : List Byte) :
    readOuts K (l.map c.IsAvailable) (l.flatMap (c.writeOut K) ++ rest)
      = some (l.map (fun i => c.vout.getD i CTxOut.SetNull), rest) := by
  induction l with
  | nil => rfl
  | cons i l ih =>
      rw [List.map_cons, List.flatMap_cons, List.append_assoc, CCoins.writeOut]
      by_cases hi : c.IsAvailable i = true
      · simp only [readOuts, if_pos hi, readTxOut_writeTxOut K (h.out i hi), Option.bind_eq_bind,
          Option.bind_some, ih, List.map_cons]
      · simp only [readOuts, if_neg hi, List.nil_append, Option.bind_eq_bind, Option.bind_some, ih,
          List.map_cons, getD_of_not_available h.kept hi]

/-- Outputs that are not there are not written. -/
theorem writeOuts_extend (K : KeyLibrary) (c : CCoins) {m : Nat} (hm : c.vout.length ≤ m) :
    (List.range c.vout.length).flatMap (c.writeOut K) = (List.range m).flatMap (c.writeOut K) := by
  obtain ⟨d, rfl⟩ := Nat.exists_eq_add_of_le hm
  rw [List.range_add, List.flatMap_append]
  have hnone : ((List.range d).map (c.vout.length + ·)).flatMap (c.writeOut K) = [] := by
    rw [List.flatMap_eq_nil_iff]
    intro i hi
    obtain ⟨j, -, rfl⟩ := List.mem_map.mp hi
    rw [CCoins.writeOut, if_neg]
    intro hav
    have := lt_of_isAvailable hav
    omega
  rw [hnone, List.append_nil]

/-- The last output of well-formed coins is left. -/
theorem last_available {c : CCoins} (h : Kept c) (hne : c.vout ≠ []) :
    c.IsAvailable (c.vout.length - 1) = true := by
  have hpos := List.length_pos_of_ne_nil hne
  have hlast := h.trimmed.last hne
  rw [List.getLast_eq_getElem] at hlast
  rw [isAvailable_iff, getD_of_lt (by omega)]
  exact hlast

/-- So the last byte of the mask is not zero. -/
theorem maskUsed_last {c : CCoins} (h : Kept c) {k : Nat} (hlow : 2 + k * 8 < c.vout.length)
    (hhigh : c.vout.length ≤ 2 + (k + 1) * 8) : c.maskUsed k = true := by
  have hne : c.vout ≠ [] := List.ne_nil_of_length_pos (by omega)
  rw [CCoins.maskUsed, List.any_eq_true]
  refine ⟨c.vout.length - 1 - (2 + k * 8), List.mem_range.mpr (by omega), ?_⟩
  rw [CCoins.maskBit, show 2 + k * 8 + (c.vout.length - 1 - (2 + k * 8)) = c.vout.length - 1 by omega]
  exact last_available h hne

/-- The mask of kept coins has a byte for every eight outputs after the second one. -/
theorem CalcMaskSize_eq {c : CCoins} (h : Kept c) :
    ∃ k, c.CalcMaskSize = (k, (List.range' 0 k).countP c.maskUsed)
      ∧ (k = 0 ∨ c.maskUsed (0 + k - 1) = true) ∧ c.vout.length ≤ 2 + k * 8
      ∧ k * 8 ≤ c.vout.length + 5 := by
  have hlast : ∀ k, (c.vout.length - 2 + 7) / 8 = k + 1 → c.maskUsed (0 + k) = true := by
    intro k hk
    rw [Nat.zero_add]
    exact maskUsed_last h (by omega) (by omega)
  refine ⟨(c.vout.length - 2 + 7) / 8, ?_, ?_, by omega, by omega⟩
  · rw [CCoins.CalcMaskSize]
    apply Prod.ext
    · cases hk : (c.vout.length - 2 + 7) / 8 with
      | zero => rfl
      | succ k => rw [calcMask_fst c k 0 _ (hlast k hk), Nat.zero_add]
    · rw [calcMask_snd, Nat.zero_add]
  · cases hk : (c.vout.length - 2 + 7) / 8 with
    | zero => exact Or.inl rfl
    | succ k => exact Or.inr (hlast k hk)

/-- The parts of the code before the mask. -/
theorem code_parts (m : Nat) (fCoinBase fFirst fSecond : Bool) :
    ∃ nCode, 8 * m + (if fCoinBase then 1 else 0) + (if fFirst then 2 else 0) + (if fSecond then 4 else 0)
        = nCode
      ∧ nCode < 8 * m + 8 ∧ decide (nCode % 2 = 1) = fCoinBase ∧ decide (nCode / 2 % 2 = 1) = fFirst
      ∧ decide (nCode / 4 % 2 = 1) = fSecond ∧ nCode / 8 = m := by
  refine ⟨_, rfl, ?_⟩
  cases fCoinBase <;> cases fFirst <;> cases fSecond <;>
    simp only [if_true, if_false, Bool.false_eq_true, decide_eq_true_eq, decide_eq_false_iff_not] <;> omega

/-- What is read back for coins. -/
def diskCoins (c : CCoins) : CCoins := { c with nVersion := diskVersion c.nVersion }

/-- Kept coins with an output have one of the first two, or a mask. -/
theorem some_available {c : CCoins} (h : Kept c) (hne : c.vout ≠ []) :
    (c.IsAvailable 0 || c.IsAvailable 1) = true ∨ c.CalcMaskSize.2 ≠ 0 := by
  have hlast := last_available h hne
  obtain ⟨k, hmask, hused, hlow, -⟩ := CalcMaskSize_eq h
  cases k with
  | zero =>
      left
      have hpos := List.length_pos_of_ne_nil hne
      rcases (show c.vout.length - 1 = 0 ∨ c.vout.length - 1 = 1 by omega) with h0 | h1
      · rw [h0] at hlast
        rw [hlast, Bool.true_or]
      · rw [h1] at hlast
        rw [hlast, Bool.or_true]
  | succ k =>
      right
      have hused := hused.resolve_left (Nat.succ_ne_zero k)
      rw [hmask]
      refine Nat.ne_of_gt (List.countP_pos_iff.mpr ⟨k, ?_, ?_⟩)
      · rw [List.mem_range'_1]
        omega
      · rwa [show 0 + (k + 1) - 1 = k by omega] at hused

/-- The outputs that were read, without the nulls at their end. -/
theorem cleanup_read {c : CCoins} (h : Kept c) {m : Nat} (hm : c.vout.length ≤ m) (nVersion : BitVec 32) :
    CCoins.Cleanup ⟨c.fCoinBase, (List.range m).map (fun i => c.vout.getD i CTxOut.SetNull), c.nHeight,
      nVersion⟩ = { c with nVersion := nVersion } := by
  have hblank : ∀ x ∈ (List.range m).map (fun i => c.vout.getD i CTxOut.SetNull),
      CTxOut.IsNull x = true → x = CTxOut.SetNull := by
    intro x hx hnull
    obtain ⟨i, -, rfl⟩ := List.mem_map.mp hx
    refine getD_of_not_available h ?_
    rw [isAvailable_iff]
    exact not_not.mpr hnull
  have hvout : ((List.range m).map (fun i => c.vout.getD i CTxOut.SetNull)).rdropWhile CTxOut.IsNull
      = c.vout := by
    refine Trimmed.ext isNull_SetNull (trim_trimmed hblank) h.trimmed ?_
    intro i
    rw [trim_getD hblank]
    rcases Nat.lt_or_ge i m with hlt | hge
    · rw [getD_of_lt (by rw [List.length_map, List.length_range]; exact hlt), List.getElem_map,
        List.getElem_range]
    · rw [getD_of_le (by rw [List.length_map, List.length_range]; exact hge), getD_of_le (by omega)]
  rw [CCoins.Cleanup, hvout]

/-- **Coins are read back** as `diskCoins` makes them, unless none of their outputs is left. -/
theorem CCoins.Unserialize_Serialize (K : KeyLibrary) {c : CCoins} (h : Storable c) (hne : c.vout ≠ [])
    (rest : List Byte) :
    ∃ s, c.Serialize K = some s ∧ CCoins.Unserialize K (s ++ rest) = some (diskCoins c, rest) := by
  obtain ⟨k, hmask, hused, hlow, hhigh⟩ := CalcMaskSize_eq h.kept
  have hlen := h.length
  have hmax : MAX_SIZE = 33554432 := rfl
  have hsome := some_available h.kept hne
  have hcount : (List.range' 0 k).countP c.maskUsed ≤ k := by
    have := List.countP_le_length (l := List.range' 0 k) (p := c.maskUsed)
    rwa [List.length_range'] at this
  have hbytes := fun rest => readMask_write c 0 k hused rest
  rw [hmask] at hsome
  rw [← List.range_eq_range'] at hcount hbytes hsome
  have hassert : (!(c.IsAvailable 0 || c.IsAvailable 1 || c.CalcMaskSize.2 ≠ 0)) = false := by
    rw [hmask, ← List.range_eq_range', Bool.not_eq_false']
    rcases hsome with h1 | h1
    · rw [h1, Bool.true_or]
    · rw [decide_eq_true h1, Bool.or_true]
  -- the mask code that is read is the number of bytes that are used
  have hmaskCode : (List.range k).countP c.maskUsed
        - (if c.IsAvailable 0 || c.IsAvailable 1 then 0 else 1)
      + (if c.IsAvailable 0 || c.IsAvailable 1 then 0 else 1) = (List.range k).countP c.maskUsed := by
    split
    · rfl
    · next h1 =>
        have := hsome.resolve_left h1
        omega
  obtain ⟨nCode, hcode, hcodelt, hbase, hfirst, hsecond, hdiv⟩ := code_parts
    ((List.range k).countP c.maskUsed - if c.IsAvailable 0 || c.IsAvailable 1 then 0 else 1)
    c.fCoinBase (c.IsAvailable 0) (c.IsAvailable 1)
  have hnCode : c.nCode = nCode := by
    rw [CCoins.nCode, hmask, ← List.range_eq_range']
    exact hcode
  have hlt : nCode < 2 ^ 32 := by omega
  have hheight : c.nHeight < 2 ^ 32 := Nat.lt_trans h.nHeight (by decide)
  have havail : c.IsAvailable 0 :: c.IsAvailable 1 :: (List.range' (2 + 0 * 8) (k * 8)).map c.IsAvailable
      = (List.range (2 + k * 8)).map c.IsAvailable := by
    rw [List.range_eq_range', Nat.add_comm 2 (k * 8), List.range'_succ, List.range'_succ]
    rfl
  refine ⟨_, by rw [CCoins.Serialize, hassert, if_neg Bool.false_ne_true], ?_⟩
  simp only [CCoins.Unserialize, List.append_assoc, readVersion_writeVersion, hnCode,
    Nat.mod_eq_of_lt hlt, ReadVarInt_WriteVarInt hlt, Option.bind_eq_bind, Option.bind_some, hbase, hfirst,
    hsecond, hdiv, hmaskCode, hmask, hbytes]
  have houts := readOuts_write K h (List.range (2 + k * 8)) (WriteVarInt c.nHeight ++ rest)
  rw [← writeOuts_extend K c hlow] at houts
  rw [havail]
  show Option.bind (readOuts K _ ((List.range c.vout.length).flatMap (c.writeOut K) ++ _)) _ = _
  rw [houts]
  simp only [Option.bind_some, ReadVarInt_WriteVarInt hheight, cleanup_read h.kept hlow]
  rfl

end Coins
