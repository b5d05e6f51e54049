import FpgaMiner.LoadProofs
import FpgaMiner.MinerDriverProofs

/-! # The driver on the bus

    The kernel driver is the only master of the bus: what `miner_top` sees of a
    sequence of `ioctl` calls is a write for each `iowrite8`, among idle cycles.

    * **`never_loads`** — no sequence of calls loads a work item.  Every byte the
      driver writes goes to a digit up to 96 (`iowrites_digit`), the start register
      is at address 102, and without a start write the machine stays `Waiting`. -/

namespace DriverLoad

open ClockedCircuit MinerTop MinerDriver
open Load (header_kept start_step load_done_step)

variable {l : Fin 6}

/-- The bytes a sequence of calls puts on the bus, in order. -/
def iowrites (dev : Dev) : List Call → List (MinerDriver.Byte × MinerDriver.Byte)
  | [] => []
  | c :: calls =>
      match vga_led_ioctl dev c.cmd c.vla with
      | some r => r.iowrite8.toList ++ iowrites r.dev calls
      | none => iowrites dev calls

/-- The bus cycles of these bytes: one write each, and any idle cycles around them. -/
inductive Carries : List (MinerDriver.Byte × MinerDriver.Byte) → List Bus → Prop where
  | nil : Carries [] []
  | idle {ws trace} (i : Bus) : busWrite i = false → busRead i = false →
      Carries ws trace → Carries ws (i :: trace)
  | write {ws trace} (d v : MinerDriver.Byte) :
      Carries ws trace → Carries ((d, v) :: ws) (put d v :: trace)

/-- `item` has been loaded after a trace. -/
structure Loaded (l : Fin 6) (s : Miner l) (trace : List Bus) (item : BitVec 768) : Prop where
  header_buffer : (trace.foldl (miner_top l) s).header_buffer = item
  loading : (trace.foldl (miner_top l) s).loading = false
  load_done : ∃ pre, pre <+: trace ∧ (pre.foldl (miner_top l) s).load_done = true

/-- Some calls of the driver load `item`. -/
def CanLoad (l : Fin 6) (s : Miner l) (dev : Dev) (item : BitVec 768) : Prop :=
  ∃ calls trace, Carries (iowrites dev calls) trace ∧ Loaded l s trace item

/-- The driver writes only to digits up to 96. -/
theorem iowrites_digit (dev : Dev) (calls : List Call) :
    ∀ w ∈ iowrites dev calls, w.1.toNat ≤ 96 := by
  induction calls generalizing dev with
  | nil => exact fun _ hw => absurd hw List.not_mem_nil
  | cons c calls ih =>
      intro w hw
      by_cases hc : c.PastEnd
      · -- the read past the end returns no reply
        have hnone : vga_led_ioctl dev c.cmd c.vla = none := by
          obtain ⟨hcmd, h100⟩ := hc
          rw [hcmd, vga_led_ioctl, h100, if_neg (by decide), List.getElem?_eq_none]
          · rfl
          · exact Nat.le_of_eq dev.size
        rw [iowrites, hnone] at hw
        exact ih dev w hw
      · obtain ⟨r, hr, hanswers⟩ := ioctl_answers dev hc
        rw [iowrites, hr] at hw
        rcases List.mem_append.mp hw with hbyte | hrest
        · by_cases hret : r.ret = 0
          · cases hcmd : c.cmd with
            | VGA_LED_WRITE_DIGIT =>
                have hle := (hanswers.write_ret hcmd).mp hret
                rw [(hanswers.written hcmd hret).2] at hbyte
                obtain rfl := List.mem_singleton.mp hbyte
                exact hle
            | VGA_LED_READ_DIGIT =>
                rw [(hanswers.read_value hcmd hret).2.2] at hbyte
                exact absurd hbyte List.not_mem_nil
            | other =>
                rw [hcmd] at hr
                obtain rfl := Option.some.inj hr
                exact absurd hbyte List.not_mem_nil
          · rw [(hanswers.error_kept hret).2] at hbyte
            exact absurd hbyte List.not_mem_nil
        · exact ih r.dev w hrest

/-- No cycle that carries these bytes is a start write. -/
theorem Carries.no_start {ws : List (MinerDriver.Byte × MinerDriver.Byte)} {trace : List Bus}
    (h : Carries ws trace) (hws : ∀ w ∈ ws, w.1.toNat ≤ 96) :
    ∀ i ∈ trace, startWrite i = false := by
  induction h with
  | nil => exact fun _ hi => absurd hi List.not_mem_nil
  | idle i hw _ _ ih =>
      intro j hj
      rcases List.mem_cons.mp hj with rfl | hj
      · rw [startWrite, hw]
        rfl
      · exact ih hws j hj
  | write d v _ ih =>
      intro j hj
      rcases List.mem_cons.mp hj with rfl | hj
      · have h102 : d ≠ 102#8 := by
          rintro rfl
          have hle : (102#8 : BitVec 8).toNat ≤ 96 := hws (102#8, v) List.mem_cons_self
          exact absurd hle (by decide)
        rw [startWrite, put, decide_eq_false h102, Bool.and_false]
        rfl
      · exact ih (fun w hw => hws w (List.mem_cons_of_mem _ hw)) j hj

/-- No load has been asked for. -/
structure Waiting (s : Miner l) : Prop where
  flags : Flags s
  start : s.start = false
  loading : s.loading = false
  load_done : s.load_done = false

/-- Only a start write ends the wait. -/
theorem waiting_step {s : Miner l} {i : Bus} (h : Waiting s) (hi : startWrite i = false) :
    Waiting (miner_top l s i) := by
  obtain ⟨hflags, hs, hl, hd⟩ := h
  have hc : completes s i = false := by
    rw [completes, hl, Bool.and_false, Bool.false_and]
  refine ⟨flags_step s i hflags, ?_, (header_kept i hs hl).2, ?_⟩
  · rw [start_step hs hl, hi]
  · rw [load_done_step hflags hc, hd]
    rfl

theorem waiting_foldl {s : Miner l} {trace : List Bus} (h : Waiting s)
    (htrace : ∀ i ∈ trace, startWrite i = false) : Waiting (trace.foldl (miner_top l) s) := by
  induction trace generalizing s with
  | nil => exact h
  | cons i trace ih =>
      exact ih (waiting_step h (htrace i List.mem_cons_self))
        (fun j hj => htrace j (List.mem_cons_of_mem i hj))

/-- Whatever the driver does, `load_done` stays low. -/
theorem not_loaded {s : Miner l} (hp : MinerTop.PowerUp s) (dev : Dev) (calls : List Call)
    {trace : List Bus} (hc : Carries (iowrites dev calls) trace) (item : BitVec 768) :
    ¬ Loaded l s trace item := by
  intro hloaded
  obtain ⟨pre, hpre, hdone⟩ := hloaded.load_done
  have hwait : Waiting s := ⟨hp.flags, hp.start, hp.loading, hp.load_done⟩
  have hno := hc.no_start (iowrites_digit dev calls)
  have hlow := (waiting_foldl hwait (fun i hi => hno i (hpre.subset hi))).load_done
  cases hlow.symm.trans hdone

/-- **No work item can be loaded through the driver.** -/
theorem never_loads (l : Fin 6) (s : Miner l) (hp : MinerTop.PowerUp s) (dev : Dev)
    (item : BitVec 768) : ¬ CanLoad l s dev item := by
  rintro ⟨calls, trace, hc, hloaded⟩
  exact not_loaded hp dev calls hc item hloaded

theorem never_loads_powered : ¬ CanLoad 5 (poweredMiner 5) initialDev 0 :=
  never_loads 5 (poweredMiner 5) (powerUp_poweredMiner 5) initialDev 0

/-- **One item that is not loaded**: a header whose only set bit is bit 0. -/
theorem one_not_loaded : ¬ CanLoad 5 (poweredMiner 5) initialDev 1 := by
  rintro ⟨calls, trace, hc, hloaded⟩
  exact not_loaded (powerUp_poweredMiner 5) initialDev calls hc 1 hloaded

end DriverLoad
