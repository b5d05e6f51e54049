import Mathlib.Data.BitVec
import Mathlib.Logic.Function.Basic
import FpgaMiner.ClockedCircuitProofs

/-! # `lab1` — the memory editor

    The controller and the RAM of `lab1.sv`, wired together.  The keys are active low;
    the RAM returns the old byte when it is written and read in one cycle.

    * **`one_edit_per_press`** — the pair follows a machine that edits at once
      (`panel`).  Between a press and the next ready state the byte to be written is
      in `din` and not yet in the RAM, which is what `written` accounts for; a release
      sampled at once leaves `we` up for one more cycle, in which the same byte is
      written again. -/

namespace Lab1

open ClockedCircuit

/-- The states of the controller. -/
inductive State where
  | Idle
  | IncA
  | DecA
  | IncV
  | DecV
  deriving DecidableEq

/-- The registers of `controller`. -/
structure Controller where
  state : State
  done : Bool
  a : BitVec 4
  din : BitVec 8
  we : Bool

/-- The registers of `memory`. -/
structure Memory where
  mem : BitVec 4 → BitVec 8
  dout : BitVec 8

/-- A state other than `Idle`: one cycle that sets the outputs, then the wait for the
    release of the keys. -/
def act (c : Controller) (KEY : BitVec 4) (dout : BitVec 8) (a : BitVec 4) (we : Bool)
    (din : BitVec 8) : Controller :=
  if c.done = false then { c with we := we, a := a, din := din, done := true }
  else if KEY ≠ 0b1111#4 then { c with we := false, din := dout }
  else { c with state := .Idle }

/-- One clock edge of the controller; the keys are active low. -/
def controller (c : Controller) (KEY : BitVec 4) (dout : BitVec 8) : Controller :=
  match c.state with
  | .Idle =>
      { state := if KEY = 0b0111#4 then .IncA else if KEY = 0b1011#4 then .DecA
          else if KEY = 0b1101#4 then .IncV else if KEY = 0b1110#4 then .DecV else .Idle
        done := false
        a := c.a
        din := dout
        we := false }
  | .IncA => act c KEY dout (c.a + 1) false dout
  | .DecA => act c KEY dout (c.a - 1) false dout
  | .IncV => act c KEY dout c.a true (dout + 1)
  | .DecV => act c KEY dout c.a true (dout - 1)

/-- One clock edge of the memory; a write shows at the output one edge later. -/
def memory (m : Memory) (a : BitVec 4) (din : BitVec 8) (we : Bool) : Memory where
  mem := if we then Function.update m.mem a din else m.mem
  dout := m.mem a

/-- The module `lab1`, less its displays. -/
structure Board where
  c : Controller
  m : Memory

/-- One clock edge of the board. -/
def lab1 (s : Board) (KEY : BitVec 4) : Board where
  c := controller s.c KEY s.m.dout
  m := memory s.m s.c.a s.c.din s.c.we

/-- Power-up in `Idle`, with any contents of the RAM and of its output register. -/
def powerUp (mem : BitVec 4 → BitVec 8) (dout : BitVec 8) : Board where
  c := { state := .Idle, done := false, a := 0, din := 0, we := false }
  m := { mem := mem, dout := dout }

/-! ## The abstract machine -/

/-- What a press of one of the four keys asks for. -/
inductive Op where
  | incA
  | decA
  | incV
  | decV

/-- The edit asked for by exactly one key down. -/
def pressed (KEY : BitVec 4) : Option Op :=
  if KEY = 0b0111#4 then some .incA
  else if KEY = 0b1011#4 then some .decA
  else if KEY = 0b1101#4 then some .incV
  else if KEY = 0b1110#4 then some .decV
  else none

/-- Ready for a press, in the clock after one, or waiting for the release. -/
inductive Phase where
  | ready
  | taken
  | waiting
  deriving DecidableEq

/-- What a user of the board sees: an address, a memory, and how far the press of a key has
    been handled. -/
structure Panel where
  phase : Phase
  address : BitVec 4
  mem : BitVec 4 → BitVec 8

/-- What a key does to it. -/
def Panel.edit (p : Panel) : Op → Panel
  | .incA => { p with address := p.address + 1 }
  | .decA => { p with address := p.address - 1 }
  | .incV => { p with mem := Function.update p.mem p.address (p.mem p.address + 1) }
  | .decV => { p with mem := Function.update p.mem p.address (p.mem p.address - 1) }

/-- A press edits at once; then the keys are ignored for a clock, and until all of them
    are sampled up. -/
def panel (p : Panel) (KEY : BitVec 4) : Panel :=
  match p.phase with
  | .ready =>
      match pressed KEY with
      | some op => { p.edit op with phase := .taken }
      | none => p
  | .taken => { p with phase := .waiting }
  | .waiting => if KEY = 0b1111#4 then { p with phase := .ready } else p

/-! ## The refinement -/

/-- The RAM after the write that is pending. -/
def Board.written (s : Board) : BitVec 4 → BitVec 8 :=
  if s.c.we then Function.update s.m.mem s.c.a s.c.din else s.m.mem

/-- The state in which the controller carries out an edit. -/
def Op.state : Op → State
  | .incA => .IncA
  | .decA => .DecA
  | .incV => .IncV
  | .decV => .DecV

/-- How the circuit and the abstract machine correspond. -/
inductive Follows (s : Board) (p : Panel) : Prop where
  /-- what is still being written is already in the RAM -/
  | ready : s.c.state = .Idle → p.phase = .ready → s.c.a = p.address → s.m.mem = p.mem →
      s.written = s.m.mem → Follows s p
  /-- the RAM output is fresh, and the edit has yet to be made -/
  | taken (op : Op) (q : Panel) : s.c.state = op.state → s.c.done = false → s.c.we = false →
      s.m.dout = s.m.mem s.c.a → q.address = s.c.a → q.mem = s.m.mem →
      p = { q.edit op with phase := .taken } → Follows s p
  | waiting (op : Op) : s.c.state = op.state → s.c.done = true → p.phase = .waiting →
      s.c.a = p.address → s.written = p.mem → Follows s p

theorem follows_powerUp (mem : BitVec 4 → BitVec 8) (dout : BitVec 8) :
    Follows (powerUp mem dout) ⟨.ready, 0, mem⟩ :=
  .ready rfl rfl rfl rfl rfl

/-- The memory of the next cycle. -/
theorem lab1_mem (s : Board) (KEY : BitVec 4) : (lab1 s KEY).m.mem = s.written := rfl

/-- In `Idle` the controller takes the press, if there is one. -/
theorem controller_idle {c : Controller} (h : c.state = .Idle) (KEY : BitVec 4)
    (dout : BitVec 8) :
    controller c KEY dout =
      { state := (pressed KEY).elim .Idle Op.state, done := false, a := c.a, din := dout,
        we := false } := by
  rw [controller, h, pressed]
  by_cases h1 : KEY = 0b0111#4
  · rw [if_pos h1, if_pos h1]
    rfl
  by_cases h2 : KEY = 0b1011#4
  · rw [if_neg h1, if_neg h1, if_pos h2, if_pos h2]
    rfl
  by_cases h3 : KEY = 0b1101#4
  · rw [if_neg h1, if_neg h1, if_neg h2, if_neg h2, if_pos h3, if_pos h3]
    rfl
  rw [if_neg h1, if_neg h1, if_neg h2, if_neg h2, if_neg h3, if_neg h3]
  by_cases h4 : KEY = 0b1110#4
  · rw [if_pos h4, if_pos h4]
    rfl
  · rw [if_neg h4, if_neg h4]
    rfl

/-- The outputs that the state of an edit sets: the address, `we` and `din`. -/
def Op.sets (op : Op) (a : BitVec 4) (dout : BitVec 8) : BitVec 4 × Bool × BitVec 8 :=
  match op with
  | .incA => (a + 1, false, dout)
  | .decA => (a - 1, false, dout)
  | .incV => (a, true, dout + 1)
  | .decV => (a, true, dout - 1)

theorem controller_act {c : Controller} {op : Op} (h : c.state = op.state) (KEY : BitVec 4)
    (dout : BitVec 8) :
    controller c KEY dout = act c KEY dout (op.sets c.a dout).1 (op.sets c.a dout).2.1
      (op.sets c.a dout).2.2 := by
  rw [controller, h]
  cases op <;> rfl

/-- Once these outputs have been written, the edit has been made. -/
theorem edit_eq (p : Panel) (op : Op) :
    (p.edit op).address = (op.sets p.address (p.mem p.address)).1 ∧
    (p.edit op).mem = if (op.sets p.address (p.mem p.address)).2.1 then
      Function.update p.mem (op.sets p.address (p.mem p.address)).1
        (op.sets p.address (p.mem p.address)).2.2 else p.mem := by
  cases op <;> exact ⟨rfl, rfl⟩

theorem ready_step {s : Board} {p : Panel} (hs : s.c.state = .Idle) (hp : p.phase = .ready)
    (ha : s.c.a = p.address) (hm : s.m.mem = p.mem) (hw : s.written = s.m.mem)
    (KEY : BitVec 4) : Follows (lab1 s KEY) (panel p KEY) := by
  have hc : (lab1 s KEY).c = _ := controller_idle hs KEY s.m.dout
  have hmem : (lab1 s KEY).m.mem = s.m.mem := hw
  rw [panel, hp]
  cases hop : pressed KEY with
  | none =>
      rw [hop] at hc
      refine .ready ?_ hp ?_ (hmem.trans hm) ?_
      · rw [hc]
        rfl
      · rw [hc]
        exact ha
      · rw [Board.written, hc]
        rfl
  | some op =>
      -- the RAM output of the next cycle is the byte at the address
      rw [hop] at hc
      refine .taken op p ?_ ?_ ?_ ?_ ?_ ?_ rfl
      · rw [hc]
        rfl
      · rw [hc]
      · rw [hc]
      · rw [hmem, hc]
        rfl
      · rw [hc]
        exact ha.symm
      · exact (hmem.trans hm).symm

theorem taken_step {s : Board} {q : Panel} {op : Op} (hs : s.c.state = op.state)
    (hdone : s.c.done = false) (hwe : s.c.we = false) (hdout : s.m.dout = s.m.mem s.c.a)
    (ha : q.address = s.c.a) (hm : q.mem = s.m.mem) (KEY : BitVec 4) :
    Follows (lab1 s KEY) (panel { q.edit op with phase := .taken } KEY) := by
  have hc : (lab1 s KEY).c = _ := controller_act hs KEY s.m.dout
  rw [act, if_pos hdone] at hc
  have hmem : (lab1 s KEY).m.mem = s.m.mem := by
    rw [lab1_mem, Board.written, hwe]
    rfl
  obtain ⟨haddress, hedit⟩ := edit_eq q op
  rw [ha, hm, ← hdout] at haddress hedit
  refine .waiting op ?_ ?_ rfl ?_ ?_
  · rw [hc]
    exact hs
  · rw [hc]
  · rw [hc]
    exact haddress.symm
  · rw [Board.written, hc, hmem]
    exact hedit.symm

theorem waiting_step {s : Board} {p : Panel} {op : Op} (hs : s.c.state = op.state)
    (hdone : s.c.done = true) (hp : p.phase = .waiting) (ha : s.c.a = p.address)
    (hw : s.written = p.mem) (KEY : BitVec 4) : Follows (lab1 s KEY) (panel p KEY) := by
  have hc : (lab1 s KEY).c = _ := controller_act hs KEY s.m.dout
  rw [act, hdone, if_neg (by decide)] at hc
  rw [panel, hp]
  by_cases hkey : KEY = 0b1111#4
  · -- released: a pending write is made, and made again in the first idle cycle
    rw [if_neg (not_not_intro hkey)] at hc
    show Follows _ (if KEY = 0b1111#4 then _ else _)
    rw [if_pos hkey]
    refine .ready ?_ rfl ?_ hw ?_
    · rw [hc]
    · rw [hc]
      exact ha
    · rw [Board.written, hc, lab1_mem, Board.written]
      cases s.c.we with
      | false => rfl
      | true => exact Function.update_idem _ _ _
  · rw [if_pos hkey] at hc
    show Follows _ (if KEY = 0b1111#4 then _ else _)
    rw [if_neg hkey]
    refine .waiting op ?_ ?_ hp ?_ ?_
    · rw [hc]
      exact hs
    · rw [hc]
    · rw [hc]
      exact ha
    · rw [Board.written, hc]
      exact hw

/-- One clock keeps the correspondence. -/
theorem follows_step (s : Board) (p : Panel) (KEY : BitVec 4) (h : Follows s p) :
    Follows (lab1 s KEY) (panel p KEY) := by
  cases h with
  | ready hs hp ha hm hw => exact ready_step hs hp ha hm hw KEY
  | taken op q hs hdone hwe hdout ha hm hp =>
      rw [hp]
      exact taken_step hs hdone hwe hdout ha hm KEY
  | waiting op hs hdone hp ha hw => exact waiting_step hs hdone hp ha hw KEY

/-- **One edit per press**: at every clock the circuit is idle exactly when the abstract
    machine is ready, and then its address and RAM are those of that machine. -/
theorem one_edit_per_press (mem : BitVec 4 → BitVec 8) (dout : BitVec 8)
    (KEY : Nat → BitVec 4) (t : Nat) :
    ((run lab1 (powerUp mem dout) KEY t).c.state = .Idle ↔
      (run panel ⟨.ready, 0, mem⟩ KEY t).phase = .ready) ∧
    ((run lab1 (powerUp mem dout) KEY t).c.state = .Idle →
      (run lab1 (powerUp mem dout) KEY t).c.a = (run panel ⟨.ready, 0, mem⟩ KEY t).address ∧
      (run lab1 (powerUp mem dout) KEY t).m.mem = (run panel ⟨.ready, 0, mem⟩ KEY t).mem) := by
  have hbusy : ∀ op : Op, op.state ≠ .Idle := by
    rintro (_ | _ | _ | _) <;> exact nofun
  cases run_simulation (follows_powerUp mem dout) follows_step KEY t with
  | ready hs hp ha hm _ => exact ⟨iff_of_true hs hp, fun _ => ⟨ha, hm⟩⟩
  | taken op q hs _ _ _ _ _ hp =>
      have hne := hs ▸ hbusy op
      rw [hp]
      exact ⟨iff_of_false hne nofun, fun h => absurd h hne⟩
  | waiting op hs _ hp _ _ =>
      have hne := hs ▸ hbusy op
      rw [hp]
      exact ⟨iff_of_false hne nofun, fun h => absurd h hne⟩

-- two one-clock presses of the increment key, the second one in the first idle clock
example : (run lab1 (powerUp (fun _ => 7) 0)
    (fun t => if t = 0 ∨ t = 3 then 0b1101 else 0b1111) 6).m.mem 0 = 9 := by
  decide

end Lab1
