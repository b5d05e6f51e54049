import FpgaMiner.Lab2Proofs
import FpgaMiner.PartialRunProofs

/-! # The receive region of the chat editor

    Messages go to the rows 0 to 44, from both threads: an Enter shows the message that
    was sent, in one, two or three rows, and the network thread what was received, in
    one.  The wrap to row 0 is checked after the last row of a message.

    * **`in_region_iff_fit`** — so in an interleaving of both all rows are in the region
      exactly when every sent message has its rows left when it is shown. -/

namespace Lab2

open CBuffer PartialRun

/-! ## The two threads -/

/-- A message as an Enter finds it in `msg`. -/
structure Typed where
  msg : Msg
  msglen : Int
  terminated : msg.Terminated
  nonneg : 0 ≤ msglen
  length : msglen ≤ 254

/-- The bytes of a successful `read(sockfd, recvBuf, BUFFER_SIZE - 1)`. -/
structure Received where
  bytes : List Byte
  nonempty : 0 < bytes.length
  length : bytes.length ≤ 127

/-- A step of either thread. -/
inductive Input where
  | enter (m : Typed)
  | received (m : Received)

/-- The calls of either thread. -/
inductive Output where
  | call (ev : Event)
  | recvBuf (s : List Byte) (row col : Int)

/-- The body of the loop of `network_thread_f`; `recvBuf` is drawn up to its first NUL. -/
def network_thread_f (e : Editor) (m : Received) : Editor × List Output :=
  ({ e with rcr := (nextRow e.rcr).1 },
    .recvBuf (string m.bytes) e.rcr e.rcc :: (nextRow e.rcr).2.map .call)

/-- One step, with `main` and the network thread on the same variables. -/
def threads (e : Editor) : Input → Option (Editor × List Output)
  | .enter m =>
      (enter { e with msg := m.msg, msglen := m.msglen }).map (fun r => (r.1, r.2.map .call))
  | .received m => some (network_thread_f e m)

/-! ## The property -/

/-- The row of a call of `fbputs` that shows a message. -/
def Event.messageRow : Event → Option Int
  | .fbputs .emptyLine _ _ => none
  | .fbputs _ row _ => some row
  | _ => none

/-- The row in which a part of a message is drawn. -/
def Output.messageRow : Output → Option Int
  | .call ev => ev.messageRow
  | .recvBuf _ row _ => some row

/-- The rows of the messages of a step and the row of the next one are in the region. -/
structure InRegion (e : Editor) (out : List Output) : Prop where
  rows : ∀ row ∈ out.filterMap Output.messageRow, 0 ≤ row ∧ row ≤ 44
  next : 0 ≤ e.rcr ∧ e.rcr ≤ 44

instance (e : Editor) (out : List Output) : Decidable (InRegion e out) :=
  have := List.decidableBAll (fun row : Int => 0 ≤ row ∧ row ≤ 44) (out.filterMap Output.messageRow)
  decidable_of_iff ((∀ row ∈ out.filterMap Output.messageRow, 0 ≤ row ∧ row ≤ 44) ∧
      0 ≤ e.rcr ∧ e.rcr ≤ 44)
    ⟨fun ⟨hrows, hnext⟩ => ⟨hrows, hnext⟩, fun h => ⟨h.rows, h.next⟩⟩

/-- A sent message has its rows left. -/
def RowsLeft (e : Editor) : Input → Prop
  | .enter m => (m.msglen ≤ 122 ∨ e.rcr ≤ 43) ∧ (m.msglen ≤ 249 ∨ e.rcr ≤ 42)
  | .received _ => True

/-! ## The steps -/

theorem nextRow_range {rcr : Int} (h : 0 ≤ rcr) : 0 ≤ (nextRow rcr).1 ∧ (nextRow rcr).1 ≤ 44 := by
  rw [nextRow]
  by_cases hwrap : 44 < rcr + 1
  · rw [if_pos hwrap]
    decide
  · rw [if_neg hwrap]
    simp only
    omega

/-- A clear of the screen shows no message. -/
theorem nextRow_rows (rcr : Int) : (nextRow rcr).2.filterMap Event.messageRow = [] := by
  rw [nextRow]
  by_cases hwrap : 44 < rcr + 1
  · rw [if_pos hwrap]
    refine List.filterMap_eq_nil_iff.mpr (fun ev hev => ?_)
    obtain ⟨row, -, rfl⟩ := List.mem_map.mp hev
    rfl
  · rw [if_neg hwrap]
    rfl

/-- The rows of a sent message after its first one. -/
def extraRows (msglen : Int) : Int := if msglen ≤ 122 then 0 else if msglen ≤ 249 then 1 else 2

theorem extraRows_range (msglen : Int) : 0 ≤ extraRows msglen ∧ extraRows msglen ≤ 2 := by
  rw [extraRows]
  split_ifs <;> decide

theorem shownMessage_rows (msglen rcr : Int) :
    (shownMessage msglen rcr).1 = rcr + extraRows msglen ∧
    ∀ row, row ∈ (shownMessage msglen rcr).2.filterMap Event.messageRow
      ↔ rcr ≤ row ∧ row ≤ rcr + extraRows msglen := by
  rw [shownMessage, extraRows]
  by_cases hfst : (FST_BOUND : Int) < msglen
  · have hfst' : ¬ msglen ≤ 122 := Int.not_le.mpr hfst
    rw [if_pos hfst, if_neg hfst']
    by_cases hsnd : (FST_BOUND : Int) + SND_BOUND < msglen
    · have hsnd' : ¬ msglen ≤ 249 := Int.not_le.mpr hsnd
      rw [if_pos hsnd, if_neg hsnd']
      refine ⟨rfl, fun row => ?_⟩
      show row ∈ [rcr, rcr + 1, rcr + 2] ↔ _
      simp only [List.mem_cons, List.not_mem_nil, or_false]
      omega
    · have hsnd' : msglen ≤ 249 := Int.not_lt.mp hsnd
      rw [if_neg hsnd, if_pos hsnd']
      refine ⟨rfl, fun row => ?_⟩
      show row ∈ [rcr, rcr + 1] ↔ _
      simp only [List.mem_cons, List.not_mem_nil, or_false]
      omega
  · have hfst' : msglen ≤ 122 := Int.not_lt.mp hfst
    rw [if_neg hfst, if_pos hfst']
    refine ⟨(Int.add_zero rcr).symm, fun row => ?_⟩
    show row ∈ [rcr] ↔ _
    simp only [List.mem_cons, List.not_mem_nil, or_false]
    omega

/-- The rows of an Enter. -/
theorem enterEvents_rows (e : Editor) (text : List Byte) (row : Int) :
    row ∈ (enterEvents e text).filterMap Event.messageRow
      ↔ e.rcr ≤ row ∧ row ≤ e.rcr + extraRows e.msglen := by
  obtain ⟨-, hshown⟩ := shownMessage_rows e.msglen e.rcr
  rw [enterEvents, List.filterMap_append, List.filterMap_append, List.filterMap_append,
    nextRow_rows, List.append_nil]
  show row ∈ [e.rcr] ++ _ ++ [] ↔ _
  rw [List.append_nil, List.mem_append, hshown, List.mem_singleton]
  have hextra := extraRows_range e.msglen
  omega

/-- An Enter is in the region exactly when its last row is. -/
theorem enter_in_region {e : Editor} (h : 0 ≤ e.rcr ∧ e.rcr ≤ 44) (m : Typed) :
    PartialRun.Exact InRegion (fun e' => 0 ≤ e'.rcr ∧ e'.rcr ≤ 44) (threads e (.enter m))
      (RowsLeft e (.enter m)) := by
  have hextra := extraRows_range m.msglen
  obtain ⟨hlast, -⟩ := shownMessage_rows m.msglen e.rcr
  have henter := enter_total (e := { e with msg := m.msg, msglen := m.msglen }) m.terminated
    m.nonneg (Int.lt_of_le_of_lt m.length (by decide))
  have hrows := enterEvents_rows { e with msg := m.msg, msglen := m.msglen }
    (m.msg.bytes.take m.msglen.toNat)
  have hnext : 0 ≤ (nextRow (shownMessage m.msglen e.rcr).1).1 ∧
      (nextRow (shownMessage m.msglen e.rcr).1).1 ≤ 44 := by
    refine nextRow_range ?_
    rw [hlast]
    omega
  have hfits : RowsLeft e (.enter m) ↔ e.rcr + extraRows m.msglen ≤ 44 := by
    rw [RowsLeft, extraRows]
    split_ifs <;> omega
  refine .of_eq (by rw [threads, henter]; rfl) (fun hleft => ⟨⟨?_, hnext⟩, hnext⟩) (fun hin => ?_)
  · intro row hrow
    rw [List.filterMap_map] at hrow
    obtain ⟨hlo, hhi⟩ := (hrows row).mp hrow
    have hroom := hfits.mp hleft
    exact ⟨Int.le_trans h.1 hlo, Int.le_trans hhi hroom⟩
  · -- the last row of the message
    have hmem := (hrows (e.rcr + extraRows m.msglen)).mpr ⟨Int.le_add_of_nonneg_right hextra.1,
      Int.le_refl _⟩
    refine hfits.mpr (hin.rows (e.rcr + extraRows m.msglen) ?_).2
    rw [List.filterMap_map]
    exact hmem

/-- A received message always is. -/
theorem received_in_region {e : Editor} (h : 0 ≤ e.rcr ∧ e.rcr ≤ 44) (m : Received) :
    PartialRun.Exact InRegion (fun e' => 0 ≤ e'.rcr ∧ e'.rcr ≤ 44) (threads e (.received m))
      (RowsLeft e (.received m)) := by
  have hnext := nextRow_range h.1
  refine .of_good trivial rfl ⟨?_, hnext⟩ hnext
  intro row hrow
  have hmem : row ∈ e.rcr :: ((nextRow e.rcr).2.map Output.call).filterMap Output.messageRow := hrow
  rw [List.filterMap_map] at hmem
  rcases List.mem_cons.mp hmem with rfl | hclear
  · exact h
  · have hnone := nextRow_rows e.rcr ▸ hclear
    exact absurd hnone List.not_mem_nil

/-- **In an interleaving of the two threads all messages are in the region exactly when**
    every sent one has its rows left. -/
theorem in_region_iff_fit (steps : List Input) :
    AlwaysGood threads (fun _ => False) InRegion initial steps
      ↔ PartialRun.AllFit threads (fun _ => False) RowsLeft initial steps := by
  refine @alwaysGood_iff _ _ _ _ _ _ _ (fun e _ => 0 ≤ e.rcr ∧ e.rcr ≤ 44)
    (fun e i _ h _ => ?_) steps initial (by decide)
  cases i with
  | enter m => exact enter_in_region h m
  | received m => exact received_in_region h m

/-- A message of 123 characters. -/
def typed123 : Typed where
  msg := ⟨List.replicate 123 0x61 ++ List.replicate 132 0, by
    rw [List.length_append, List.length_replicate, List.length_replicate, MSG_BUFSIZE]⟩
  msglen := 123
  terminated := terminated_of_zeros (l := List.replicate 123 0x61) (k := 132) rfl (by decide)
  nonneg := by decide
  length := by decide

/-- 44 received messages, and one of 123 characters that is sent. -/
def fullRegion : List Input :=
  List.replicate 44 (.received ⟨[0x61], by decide, by decide⟩) ++ [.enter typed123]

/-- **The second row of the sent message is the separator.** -/
theorem full_region_left : ¬ AlwaysGood threads (fun _ => False) InRegion initial fullRegion := by
  decide +kernel

end Lab2
