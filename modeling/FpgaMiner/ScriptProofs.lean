import FpgaMiner.SerializeProofs
import Mathlib.Data.Nat.Size

/-! # Scripts

    A script is bytes: an opcode, and behind the opcodes up to `OP_PUSHDATA4` the data that
    they push.  `operator<<` appends to a script, `GetOp` reads its next opcode.

    * **`GetOp2_length`** — an opcode that is read leaves less of the script, so the loops
      over its opcodes end. -/

namespace Script

open MinerDriver Codec

/-- A script. -/
abbrev CScript := List Byte

/-- The size of the data is in the next byte. -/
def OP_PUSHDATA1 : Nat := 0x4c

/-- The size of the data is in the next two bytes. -/
def OP_PUSHDATA2 : Nat := 0x4d

/-- The size of the data is in the next four bytes. -/
def OP_PUSHDATA4 : Nat := 0x4e

/-- Pushes 1; the opcodes up to `OP_16` push the numbers up to 16. -/
def OP_1 : Nat := 0x51

/-- Pushes 16. -/
def OP_16 : Nat := 0x60

/-- Ends a script without success. -/
def OP_RETURN : Nat := 0x6a

/-- Pushes the top of the stack again. -/
def OP_DUP : Nat := 0x76

/-- Compares two items. -/
def OP_EQUAL : Nat := 0x87

/-- Compares two items and fails if they differ. -/
def OP_EQUALVERIFY : Nat := 0x88

/-- Replaces the top of the stack by its hash. -/
def OP_HASH160 : Nat := 0xa9

/-- Checks one signature. -/
def OP_CHECKSIG : Nat := 0xac

/-- Checks one signature and fails if it is wrong. -/
def OP_CHECKSIGVERIFY : Nat := 0xad

/-- Checks signatures against up to 20 keys. -/
def OP_CHECKMULTISIG : Nat := 0xae

/-- Does so and fails if one is missing. -/
def OP_CHECKMULTISIGVERIFY : Nat := 0xaf

/-- No opcode. -/
def OP_INVALIDOPCODE : Nat := 0xff

/-! ## Writing -/

/-- What `operator<<` puts before the data. -/
def pushSize (size : Nat) : List Byte :=
  if size < OP_PUSHDATA1 then bytesLE 1 size
  else if size ≤ 0xff then BitVec.ofNat 8 OP_PUSHDATA1 :: bytesLE 1 size
  else if size ≤ 0xffff then BitVec.ofNat 8 OP_PUSHDATA2 :: bytesLE 2 size
  else BitVec.ofNat 8 OP_PUSHDATA4 :: bytesLE 4 size

/-- `operator<<` of a vector of bytes. -/
def pushData (b : List Byte) : List Byte := pushSize b.length ++ b

/-- `CBigNum::getvch` of a number without a sign: its bytes, the highest bit of the last one
    free. -/
def getvch (n : Nat) : List Byte := bytesLE (if n = 0 then 0 else n.size / 8 + 1) n

/-- `CScript::push_uint64`: a small number is an opcode, another one is pushed as data. -/
def push_uint64 (n : Nat) : List Byte :=
  if 1 ≤ n ∧ n ≤ 16 then bytesLE 1 (n + (OP_1 - 1)) else pushData (getvch n)

/-! ## Reading -/

/-- A size of `k` bytes. -/
def operandSize (k : Nat) (pc : List Byte) : Option (Nat × List Byte) :=
  if pc.length < k then none else some (natLE (pc.take k), pc.drop k)

/-- The size of the data behind an opcode up to `OP_PUSHDATA4`. -/
def nSize (opcode : Nat) (pc : List Byte) : Option (Nat × List Byte) :=
  if opcode < OP_PUSHDATA1 then some (opcode, pc)
  else if opcode = OP_PUSHDATA1 then operandSize 1 pc
  else if opcode = OP_PUSHDATA2 then operandSize 2 pc
  else operandSize 4 pc

/-- The next opcode, the data that it pushes, and what follows. -/
def GetOp2 : List Byte → Option (Nat × List Byte × List Byte)
  | [] => none
  | b :: pc =>
      let opcode := b.toNat
      if opcode ≤ OP_PUSHDATA4 then
        match nSize opcode pc with
        | none => none
        | some (nSize, pc) =>
            if pc.length < nSize then none else some (opcode, pc.take nSize, pc.drop nSize)
      else some (opcode, [], pc)

/-- What follows a size is no longer than the script with it. -/
theorem operandSize_length {k n : Nat} {pc rest : List Byte} (h : operandSize k pc = some (n, rest)) :
    rest.length ≤ pc.length := by
  rw [operandSize] at h
  split at h
  · cases h
  · obtain ⟨-, rfl⟩ := Prod.mk.inj (Option.some.inj h)
    rw [List.length_drop]
    exact Nat.sub_le _ _

theorem nSize_length {opcode n : Nat} {pc rest : List Byte} (h : nSize opcode pc = some (n, rest)) :
    rest.length ≤ pc.length := by
  rw [nSize] at h
  split at h
  · obtain ⟨-, rfl⟩ := Prod.mk.inj (Option.some.inj h)
    exact Nat.le_refl _
  · split at h
    · exact operandSize_length h
    · split at h
      · exact operandSize_length h
      · exact operandSize_length h

/-- **An opcode is read from the front.** -/
theorem GetOp2_length {pc data rest : List Byte} {opcode : Nat}
    (h : GetOp2 pc = some (opcode, data, rest)) : rest.length < pc.length := by
  cases pc with
  | nil => cases h
  | cons b pc =>
      rw [GetOp2] at h
      split at h
      · split at h
        · cases h
        · next n pc' hn =>
            have hlen := nSize_length hn
            split at h
            · cases h
            · injection h with h
              injection h with _ h
              injection h with _ h
              rw [← h, List.length_drop, List.length_cons]
              omega
      · injection h with h
        injection h with _ h
        injection h with _ h
        rw [← h, List.length_cons]
        exact Nat.lt_succ_self _

/-- The number that an opcode from `OP_1` to `OP_16` pushes. -/
def DecodeOP_N (opcode : Nat) : Nat := opcode - (OP_1 - 1)

/-- The loop of `GetSigOpCount`. -/
def countSigOps (fAccurate : Bool) (pc : List Byte) (lastOpcode n : Nat) : Nat :=
  match h : GetOp2 pc with
  | none => n
  | some (opcode, _, rest) =>
      have : rest.length < pc.length := GetOp2_length h
      countSigOps fAccurate rest opcode
        (if opcode = OP_CHECKSIG ∨ opcode = OP_CHECKSIGVERIFY then n + 1
         else if opcode = OP_CHECKMULTISIG ∨ opcode = OP_CHECKMULTISIGVERIFY then
           if fAccurate ∧ OP_1 ≤ lastOpcode ∧ lastOpcode ≤ OP_16 then n + DecodeOP_N lastOpcode
           else n + 20
         else n)
termination_by pc.length

/-- The signature operations of a script; `fAccurate` counts the keys of a multiple signature
    where the script tells their number, and 20 otherwise. -/
def GetSigOpCount (script : CScript) (fAccurate : Bool) : Nat :=
  countSigOps fAccurate script OP_INVALIDOPCODE 0

/-- A script that begins with `OP_RETURN`. -/
def IsUnspendable (script : CScript) : Bool := script.head?.map BitVec.toNat = some OP_RETURN

end Script
