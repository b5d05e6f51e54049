import FpgaMiner.GetworkProofs
import FpgaMiner.CBufferProofs

/-! # What `write_segments` reads and writes

    The loop runs up to `DATA_SIZE`, the index it reads counts down from 95, the buffer
    has 96 bytes and the driver takes digits up to 96.

    * **`write_segments_reads_eq`** — so the indices 95, ..., 0, -1 and -2 are read;
    * **`written_once`** — the 96 bytes go where they belong;
    * **`never_exact`** — and the byte before the buffer goes to address 96. -/

namespace Getwork

open MinerDriver CBuffer

/-- The indices the loop of `write_segments` reads, up to the first call that fails. -/
def readLoop (segs : Int → Byte) : Dev → List Nat → List Int
  | _, [] => []
  | dev, i :: rest =>
      -- the read goes before the call
      (95 - i) :: match vga_led_ioctl dev .VGA_LED_WRITE_DIGIT
          { digit := BitVec.ofNat 8 i, segments := segs (95 - i) } with
      | some r => if r.ret ≠ 0 then [] else readLoop segs r.dev rest
      | none => []

/-- The indices of `segs` that `write_segments` reads. -/
def write_segments_reads (dev : Dev) (segs : Int → Byte) : List Int :=
  readLoop segs dev (List.range DATA_SIZE)

/-- A transfer of `segs[0..95]`: nothing else is read, the byte at `95 - k` is written
    once to each address `k` below 96, and nothing is written anywhere else. -/
structure TransfersExactly (dev : Dev) (segs : Int → Byte) : Prop where
  reads : ∀ k ∈ write_segments_reads dev segs, 0 ≤ k ∧ k ≤ 95
  once : ∀ k < 96, (write_segments dev segs).filter (fun w => w.1.toNat = k)
    = [(BitVec.ofNat 8 k, segs (95 - k))]
  no_other : ∀ w ∈ write_segments dev segs, w.1.toNat < 96

/-- The digits up to 96 are read and written, the next one is read. -/
theorem readLoop_eq (segs : Int → Byte) (is rest : List Nat) :
    ∀ dev : Dev, (∀ i ∈ is, i ≤ 96) → readLoop segs dev (is ++ 97 :: rest)
      = (is ++ [97]).map (fun i : Nat => 95 - (i : Int)) := by
  induction is with
  | nil =>
      intro dev _
      rw [List.nil_append, readLoop, write_rejected dev (show 96 < (97#8).toNat by decide)]
      rfl
  | cons i is ih =>
      intro dev his
      have hdigit := digit_le (his i List.mem_cons_self)
      rw [List.cons_append, readLoop, write_accepted dev hdigit]
      show (95 - (i : Int)) :: readLoop segs _ (is ++ 97 :: rest) = _
      rw [ih _ (fun j hj => his j (List.mem_cons_of_mem i hj))]
      rfl

theorem write_segments_reads_eq (dev : Dev) (segs : Int → Byte) :
    write_segments_reads dev segs = (List.range 98).map (fun i : Nat => 95 - (i : Int)) := by
  rw [write_segments_reads, range_DATA_SIZE, List.range_succ]
  exact readLoop_eq segs _ _ dev le_of_mem_range

/-- The write of the byte before the buffer. -/
theorem surplus_write (dev : Dev) (segs : Int → Byte) :
    (96#8, segs (-1)) ∈ write_segments dev segs := by
  rw [write_segments_writes]
  exact List.mem_map.mpr ⟨96, List.mem_range.mpr (by decide), rfl⟩

theorem not_below_96 : ¬ (96#8 : Byte).toNat < 96 := by decide

/-- Each address below 96 gets its byte once. -/
theorem written_once (dev : Dev) (segs : Int → Byte) {k : Nat} (hk : k < 96) :
    (write_segments dev segs).filter (fun w => w.1.toNat = k)
      = [(BitVec.ofNat 8 k, segs (95 - k))] := by
  have hall : ∀ k < 96, (List.range 97).filter (fun i => (BitVec.ofNat 8 i).toNat = k) = [k] := by
    decide +kernel
  rw [write_segments_writes, List.filter_map]
  exact congrArg _ (hall k hk)

/-- **The transfer is never exact**: two indices before the buffer are read, and an
    address behind the registers is written. -/
theorem never_exact (dev : Dev) (buffer : Buffer Byte 96) (around : Int → Byte) :
    -1 ∈ write_segments_reads dev (readMemory buffer.bytes around) ∧
    -2 ∈ write_segments_reads dev (readMemory buffer.bytes around) ∧
    (96#8, around (-1)) ∈ write_segments dev (readMemory buffer.bytes around) ∧
    ¬ TransfersExactly dev (readMemory buffer.bytes around) := by
  refine ⟨?_, ?_, surplus_write dev _, ?_⟩
  · rw [write_segments_reads_eq]
    exact List.mem_map.mpr ⟨96, List.mem_range.mpr (by decide), rfl⟩
  · rw [write_segments_reads_eq]
    exact List.mem_map.mpr ⟨97, List.mem_range.mpr (by decide), rfl⟩
  · intro h
    exact not_below_96 (h.no_other _ (surplus_write dev _))

/-- **The zero buffer, in a memory of ones.** -/
theorem zeros_not_exact :
    (96#8, 1#8) ∈ write_segments initialDev
      (readMemory (Buffer.const 96 0#8).bytes (fun _ => 1#8)) ∧
    ¬ TransfersExactly initialDev (readMemory (Buffer.const 96 0#8).bytes (fun _ => 1#8)) := by
  have hwrite := surplus_write initialDev
    (readMemory (Buffer.const 96 0#8).bytes (fun _ => 1#8))
  refine ⟨hwrite, ?_⟩
  intro h
  exact not_below_96 (h.no_other _ hwrite)

end Getwork
