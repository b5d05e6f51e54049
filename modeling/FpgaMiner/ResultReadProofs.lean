import FpgaMiner.ResultProofs
import Mathlib.Data.Fintype.Lattice

/-! # Reading a result byte by byte

    A host sees `stop` in the status register and then reads a 33-bit entry of
    `result_ram` in five accesses.  Accesses keep the entry, but every cycle without
    one copies the output of the core again.

    * **`latched_run`** — in a stop state each entry is an output its core had since
      the last start;
    * **`read_whole`** — five reads return one such output, if the idle cycles among
      them copy what is already there;
    * **`read_torn`** — a run from power-up in which an idle cycle after the first
      read copies something else. -/

namespace ResultRead

open ClockedCircuit BitSlice FpgaminerTop MinerTop Load Result

variable {l : Fin 6}

/-! ## Five reads -/

/-- The addresses of an entry: four nonce bytes and the ticket. -/
def resultAddress (i : Fin 4) (j : Fin 5) : BitVec 8 := BitVec.ofNat 8 (148 + 5 * i + j)

/-- The 33-bit value a host puts together from the five bytes. -/
def assemble (d : Fin 5 → BitVec 8) : BitVec 33 :=
  (d 4).extractLsb' 0 1 ++ (d 3 ++ (d 2 ++ (d 1 ++ d 0)))

/-- The host reads the status in cycle `r0` and finds the stop bit set, then reads
    byte `j` of the entry of core `i` in cycle `r j`, with no start write from the
    status read to the last of them. -/
structure ReadsResult (inp : Nat → Bus) (x : Nat → Miner l) (i : Fin 4) (r0 : Nat)
    (r : Fin 5 → Nat) : Prop where
  status : busWrite (inp r0) = false ∧ busRead (inp r0) = true ∧ (inp r0).address = 102#8 ∧
    (x r0).start = false ∧ (x r0).loading = false
  stopped : (x (r0 + 1)).readdata.getLsbD 1 = true
  after : ∀ j, r0 < r j
  bytes : ∀ j, busWrite (inp (r j)) = false ∧ busRead (inp (r j)) = true ∧
    (inp (r j)).address = resultAddress i j
  noStart : ∀ u j, r0 < u → u ≤ r j → startWrite (inp u) = false

/-- The five bytes are an output that core `i` had in one cycle since the last start. -/
def Whole (x : Nat → Miner l) (i : Fin 4) (r : Fin 5 → Nat) : Prop :=
  ∃ u, (∃ j, u < r j) ∧ (∀ v j, u ≤ v → v ≤ r j → (x v).start = false) ∧
    nonce_out_a (x u) i = assemble (fun j => (x (r j + 1)).readdata)

/-- The idle cycles between two of the reads find in the entry what they copy. -/
def Unchanged (inp : Nat → Bus) (x : Nat → Miner l) (i : Fin 4) (r : Fin 5 → Nat) : Prop :=
  ∀ u j k, r j ≤ u → u < r k → busWrite (inp u) = false → busRead (inp u) = false →
    nonce_out_a (x u) i = (x u).result_ram i

/-! ## The read table -/

/-- What the five addresses of an entry return. -/
def resultByte (v : BitVec 33) (j : Fin 5) : BitVec 8 :=
  if j = 4 then 0#7 ++ v.extractLsb' 32 1 else v.extractLsb' (8 * j) 8

/-- A read of an entry returns one of its five bytes. -/
theorem busReadData_result (s : Miner l) (i : Fin 4) (j : Fin 5) :
    busReadData s (resultAddress i j) = resultByte (s.result_ram i) j := by
  match i, j with
  | 0, 0 | 0, 1 | 0, 2 | 0, 3 | 0, 4 => rfl
  | 1, 0 | 1, 1 | 1, 2 | 1, 3 | 1, 4 => rfl
  | 2, 0 | 2, 1 | 2, 2 | 2, 3 | 2, 4 => rfl
  | 3, 0 | 3, 1 | 3, 2 | 3, 3 | 3, 4 => rfl

/-- Bit 1 of the status register is the stop bit. -/
theorem status_stop {s : Miner l} {i : Bus} (hs : s.start = false) (hl : s.loading = false)
    (hw : busWrite i = false) (hr : busRead i = true) (haddr : i.address = 102#8) :
    (miner_top l s i).readdata.getLsbD 1 = s.stop := by
  rw [read_step hs hl hw hr, haddr]
  show (0#6 ++ BitVec.ofBool s.stop ++ BitVec.ofBool s.start).getLsbD 1 = s.stop
  cases s.stop <;> cases s.start <;> rfl

/-- **The five bytes of an entry are the entry.** -/
theorem assemble_resultByte (v : BitVec 33) : assemble (resultByte v) = v := by
  show (0#7 ++ v.extractLsb' 32 1).extractLsb' 0 1 ++ (v.extractLsb' 24 8 ++
    (v.extractLsb' 16 8 ++ (v.extractLsb' 8 8 ++ v.extractLsb' 0 8))) = v
  have h16 : v.extractLsb' 8 8 ++ v.extractLsb' 0 8 = v.extractLsb' 0 16 :=
    BitVec.extractLsb'_append_extractLsb'_eq_extractLsb' rfl
  have h24 : v.extractLsb' 16 8 ++ v.extractLsb' 0 16 = v.extractLsb' 0 24 :=
    BitVec.extractLsb'_append_extractLsb'_eq_extractLsb' rfl
  have h32 : v.extractLsb' 24 8 ++ v.extractLsb' 0 24 = v.extractLsb' 0 32 :=
    BitVec.extractLsb'_append_extractLsb'_eq_extractLsb' rfl
  rw [BitVec.extractLsb'_append_eq_right, h16, h24, h32]
  exact BitVec.extractLsb'_append_extractLsb'

/-! ## Runs in the stop state -/

/-- A stop state lasts until a start write. -/
theorem stop_kept {s : Miner l} {i : Bus} (hf : Flags s) (hs : s.start = false)
    (hstop : s.stop = true) (hno : startWrite i = false) :
    (miner_top l s i).stop = true ∧ (miner_top l s i).start = false := by
  have hl : s.loading = false := hf.loading_of_stop hstop
  refine ⟨?_, (start_step hs hl).trans hno⟩
  rcases miner_top_cases s i with ⟨hs', -⟩ | ⟨-, -, -, heq⟩ | ⟨hl', -⟩ | ⟨-, -, -, -, heq⟩ |
    ⟨-, -, -, -, heq⟩ | ⟨-, -, -, -, -, -, -, heq⟩ | ⟨-, -, -, -, -, heq⟩
  · cases hs.symm.trans hs'
  case inr.inr.inl => cases hl.symm.trans hl'
  case inr.inr.inr.inr.inr.inl => rw [heq]
  all_goals
    rw [heq]
    exact hstop

section Run

variable {inp : Nat → Bus} {x : Nat → Miner l}

/-- In a stop state a start is pending only from a start write in the cycle before. -/
theorem start_of_stop (hx : IsRun (miner_top l) inp x) (h0 : MinerTop.PowerUp (x 0)) {t : Nat}
    (h : (x (t + 1)).stop = true) : (x (t + 1)).start = startWrite (inp t) := by
  rw [hx t] at h ⊢
  obtain ⟨hs, hl, -⟩ := stop_step (flags_run hx h0 t) h
  exact start_step hs hl

/-- **In a stop state `result_ram` holds what the cores put out in one cycle since
    the last start.** -/
theorem latched_run (hx : IsRun (miner_top l) inp x) (h0 : MinerTop.PowerUp (x 0)) :
    ∀ t, (x t).stop = true →
      ∃ u, u < t ∧ (∀ v, u ≤ v → v < t → (x v).start = false) ∧
        (x t).result_ram = nonce_out_a (x u) := by
  intro t
  induction t with
  | zero =>
      intro h
      cases h.symm.trans h0.stop
  | succ t ih =>
      intro h
      rw [hx t] at h
      obtain ⟨hs, -, hstep⟩ := stop_step (flags_run hx h0 t) h
      rw [← hx t] at hstep
      rcases hstep with ⟨-, -, hram⟩ | ⟨-, hwas, hram⟩
      · refine ⟨t, Nat.lt_succ_self t, fun v h1 h2 => ?_, hram⟩
        rw [show v = t by omega]
        exact hs
      · obtain ⟨u, hu, hno, hlatched⟩ := ih hwas
        refine ⟨u, Nat.lt_succ_of_lt hu, fun v h1 h2 => ?_, hram.trans hlatched⟩
        rcases Nat.lt_succ_iff_lt_or_eq.mp h2 with hlt | rfl
        · exact hno v h1 hlt
        · exact hs

/-- From the status read to the last byte the machine stays in the stop state. -/
theorem ReadsResult.stop_run (hx : IsRun (miner_top l) inp x) (h0 : MinerTop.PowerUp (x 0))
    {i : Fin 4} {r0 : Nat} {r : Fin 5 → Nat} (hr : ReadsResult inp x i r0 r) {j : Fin 5} :
    ∀ u, r0 ≤ u → u ≤ r j → (x u).stop = true ∧ (x u).start = false := by
  intro u hu
  induction hu with
  | refl =>
      intro _
      obtain ⟨hw, hread, haddr, hs, hl⟩ := hr.status
      have hstop := hr.stopped
      rw [hx r0, status_stop hs hl hw hread haddr] at hstop
      exact ⟨hstop, hs⟩
  | @step u hu ih =>
      intro hle
      obtain ⟨hstop, hs⟩ := ih (Nat.le_of_succ_le hle)
      have hno : startWrite (inp u) = false := by
        rcases Nat.eq_or_lt_of_le hu with heq | hlt
        · rw [← heq, startWrite, hr.status.1]
          rfl
        · exact hr.noStart u j hlt (Nat.le_of_succ_le hle)
      rw [hx u]
      exact stop_kept (flags_run hx h0 u) hs hstop hno

/-- The entry does not change from one read to a later one. -/
theorem entry_held (hx : IsRun (miner_top l) inp x) (h0 : MinerTop.PowerUp (x 0))
    {i : Fin 4} {r0 : Nat} {r : Fin 5 → Nat} (hr : ReadsResult inp x i r0 r)
    (hu : Unchanged inp x i r) {j k : Fin 5} (hjk : r j ≤ r k) :
    (x (r k)).result_ram i = (x (r j)).result_ram i := by
  refine held (f := fun t => (x t).result_ram i) hjk (fun t h1 h2 => ?_)
  show (x (t + 1)).result_ram i = (x t).result_ram i
  have hafter := hr.after j
  obtain ⟨hstop, -⟩ := hr.stop_run hx h0 (j := k) (t + 1) (by omega) h2
  rw [hx t] at hstop
  obtain ⟨-, -, hstep⟩ := stop_step (flags_run hx h0 t) hstop
  rw [← hx t] at hstep
  rcases hstep with ⟨hcopy, -, hram⟩ | ⟨-, -, hram⟩
  · have hidle : busWrite (inp t) = false ∧ busRead (inp t) = false := by
      simp only [copies, Bool.and_eq_true, Bool.not_eq_true'] at hcopy
      exact hcopy.1.1.1
    rw [hram]
    exact hu t j k h1 h2 hidle.1 hidle.2
  · rw [hram]

end Run

/-- **A result is read whole** if no idle cycle among the reads changes it. -/
theorem read_whole (l : Fin 6) (s : Miner l) (hp : MinerTop.PowerUp s) (inp : Nat → Bus)
    (i : Fin 4) (r0 : Nat) (r : Fin 5 → Nat)
    (hr : ReadsResult inp (run (miner_top l) s inp) i r0 r)
    (hu : Unchanged inp (run (miner_top l) s inp) i r) :
    Whole (run (miner_top l) s inp) i r := by
  have hx := isRun_run (miner_top l) s inp
  generalize hrun : run (miner_top l) s inp = x at hx hr hu ⊢
  have h0 : MinerTop.PowerUp (x 0) := by
    rw [← hrun]
    exact hp
  obtain ⟨first, hfirst⟩ := Finite.exists_min r
  have hafter := hr.after first
  obtain ⟨hstop, -⟩ := hr.stop_run hx h0 (j := first) (r first) (by omega) (Nat.le_refl _)
  obtain ⟨u, hlt, hno, hlatched⟩ := latched_run hx h0 (r first) hstop
  refine ⟨u, ⟨first, hlt⟩, fun v j h1 h2 => ?_, ?_⟩
  · rcases Nat.lt_or_ge v (r first) with hv | hv
    · exact hno v h1 hv
    · exact (hr.stop_run hx h0 (j := j) v (by omega) h2).2
  · -- every read returns its byte of the entry as it was at the first read
    have hbyte : (fun j => (x (r j + 1)).readdata) = resultByte (nonce_out_a (x u) i) := by
      funext j
      obtain ⟨hstopj, hsj⟩ :=
        hr.stop_run hx h0 (j := j) (r j) (Nat.le_of_lt (hr.after j)) (Nat.le_refl _)
      have hlj : (x (r j)).loading = false := (flags_run hx h0 (r j)).loading_of_stop hstopj
      obtain ⟨hw, hrd, haddr⟩ := hr.bytes j
      rw [hx (r j), read_step hsj hlj hw hrd, haddr, busReadData_result,
        entry_held hx h0 hr hu (hfirst j), hlatched]
    rw [hbyte, assemble_resultByte]

/-- After the search the status and core 0's result are read, with an idle cycle between the
    second and the third byte. -/
def pausedInput (t : Nat) : Bus :=
  (searchTrace ++ [idle, get 102, get 148, get 149, idle, get 150, get 151, get 152]).getD t
    (get 200)

/-- The cycles of the five reads. -/
def pausedReads (j : Fin 5) : Nat := if j < 2 then 230 + j else 231 + j

/-- The search has stopped, and the idle cycle copies what is there. -/
theorem pausedInput_facts :
    (run (miner_top 5) (poweredMiner 5) pausedInput 229).stop = true ∧
    nonce_out_a (run (miner_top 5) (poweredMiner 5) pausedInput 232) 0
      = (run (miner_top 5) (poweredMiner 5) pausedInput 232).result_ram 0 := by
  decide +kernel

/-- There is no write after the status, and one idle cycle. -/
theorem pausedInput_bus (u : Nat) (h1 : 229 ≤ u) (h2 : u ≤ 235) :
    busWrite (pausedInput u) = false ∧ (u ≠ 232 → busRead (pausedInput u) = true) := by
  have hall : ∀ v, v < 7 → busWrite (pausedInput (229 + v)) = false
      ∧ (229 + v ≠ 232 → busRead (pausedInput (229 + v)) = true) := by
    decide +kernel
  rw [show u = 229 + (u - 229) by omega]
  exact hall (u - 229) (by omega)

/-- The reads are behind the status. -/
theorem pausedReads_bounds (j : Fin 5) : 230 ≤ pausedReads j ∧ pausedReads j ≤ 235 := by
  revert j
  decide

theorem read_whole_pausedInput :
    Whole (run (miner_top 5) (poweredMiner 5) pausedInput) 0 pausedReads := by
  have hx := isRun_run (miner_top 5) (poweredMiner 5) pausedInput
  have h0 : MinerTop.PowerUp (run (miner_top 5) (poweredMiner 5) pausedInput 0) :=
    powerUp_poweredMiner 5
  obtain ⟨hstop, hsame⟩ := pausedInput_facts
  have hl := (flags_run hx h0 229).loading_of_stop hstop
  have hidle : startWrite (pausedInput 228) = false := by decide +kernel
  have hs := (start_of_stop hx h0 hstop).trans hidle
  have hw := (pausedInput_bus 229 (by decide) (by decide)).1
  have hr := (pausedInput_bus 229 (by decide) (by decide)).2 (by decide)
  have haddr : (pausedInput 229).address = 102#8 := by decide +kernel
  have hbytes : ∀ j : Fin 5, busWrite (pausedInput (pausedReads j)) = false ∧
      busRead (pausedInput (pausedReads j)) = true ∧
      (pausedInput (pausedReads j)).address = resultAddress 0 j := by
    decide +kernel
  refine read_whole 5 (poweredMiner 5) (powerUp_poweredMiner 5) pausedInput 0 229 pausedReads
    ⟨⟨hw, hr, haddr, hs, hl⟩, ?_, fun j => ?_, hbytes, fun u j h1 h2 => ?_⟩ ?_
  · rw [hx 229, status_stop hs hl hw hr haddr, hstop]
  · exact (pausedReads_bounds j).1
  · have hj := (pausedReads_bounds j).2
    rw [startWrite, (pausedInput_bus u (by omega) (by omega)).1]
    rfl
  · intro u j k h1 h2 _ hnoread
    have hj := (pausedReads_bounds j).1
    have hk := (pausedReads_bounds k).2
    obtain rfl : u = 232 := by
      by_contra hne
      rw [(pausedInput_bus u (by omega) (by omega)).2 hne] at hnoread
      exact nomatch hnoread
    exact hsame

/-- The stale result of `staleTrace` is read while the restarted core withdraws it:
    an idle cycle follows the read of the lowest byte. -/
def tornTrace : Nat → Bus :=
  stream (searchTrace ++ [put 102 1, idle, put 95 0, idle, get 102, get 148, idle,
    get 149, get 150, get 151, get 152])

/-- The cycles of the five reads. -/
def tornReads (j : Fin 5) : Nat := if j = 0 then 233 else 234 + j

/-- **A torn result**: the low byte of the old nonce with the zeros that follow it. -/
theorem read_torn :
    MinerTop.PowerUp (poweredMiner 5) ∧
    ReadsResult tornTrace (run (miner_top 5) (poweredMiner 5) tornTrace) 0 232 tornReads ∧
    ¬ Whole (run (miner_top 5) (poweredMiner 5) tornTrace) 0 tornReads := by
  have hfacts : (run (miner_top 5) (poweredMiner 5) tornTrace 232).start = false ∧
      (run (miner_top 5) (poweredMiner 5) tornTrace 232).loading = false ∧
      (run (miner_top 5) (poweredMiner 5) tornTrace 233).readdata.getLsbD 1 = true ∧
      (run (miner_top 5) (poweredMiner 5) tornTrace 229).start = true ∧
      ∀ u, u < 238 → 229 < u → nonce_out_a (run (miner_top 5) (poweredMiner 5) tornTrace u) 0
        ≠ assemble (fun j =>
            (run (miner_top 5) (poweredMiner 5) tornTrace (tornReads j + 1)).readdata) := by
    decide +kernel
  obtain ⟨hs, hl, hstop, hpending, hnever⟩ := hfacts
  have hno : ∀ u, u < 239 → 232 < u → startWrite (tornTrace u) = false := by decide +kernel
  have hlast : ∀ j, tornReads j ≤ 238 := by decide
  refine ⟨powerUp_poweredMiner 5,
    ⟨⟨by decide +kernel, by decide +kernel, by decide +kernel, hs, hl⟩, hstop, by decide,
      by decide +kernel, fun u j h1 h2 => hno u (Nat.lt_succ_of_le (Nat.le_trans h2 (hlast j))) h1⟩, ?_⟩
  rintro ⟨u, ⟨j, hj⟩, hstart, hwhole⟩
  -- the last start was pending in cycle 229
  have hge : 229 < u := by
    rcases Nat.lt_or_ge 229 u with hlt | hle
    · exact hlt
    · cases hpending.symm.trans (hstart 229 0 hle (by decide))
  exact hnever u (Nat.lt_of_lt_of_le hj (hlast j)) hge hwhole

end ResultRead
