import FpgaMiner.LoadProofs
import FpgaMiner.FlushProofs

/-! # The reported result

    The stop state copies `{ticket, nonce}` of every core to `result_ram`, in the
    cycle it is entered and in every cycle without an access while it lasts.  The
    ticket bit of a core rises a cycle before its nonce and falls only when the
    core starts again, two cycles after a load has completed.

    * **`stop_step`** — how an edge can lead to a stop state;
    * **`golden_solves`** and **`settled_solves`** — what the ticket bit of a core
      says about its nonce registers, in a run whose tickets are not about older work;
    * **`linked_run`** — when a core works on the header held in `header_buffer`;
    * **`reports_solve`** puts them together: every stop state reports solutions, if
      no copy happens at one of the three wrong moments (`CleanReports`);
    * **`stale_report`** — a run from power-up in which one does. -/

namespace Result

open ClockedCircuit BitSlice Transform FpgaminerTop MinerTop Load

variable {l : Fin 6}

/-! ## Steps into a stop state -/

/-- The edge copies the outputs of the cores to `result_ram`: it enters the stop
    state, or it is in it and there is no access. -/
def copies (s : Miner l) (i : Bus) : Bool :=
  !busWrite i && !busRead i && !s.start && !s.loading
    && (s.stop || s.read_gold_nonce && anyTicket s)

/-- **A step into a stop state** copies the outputs of the cores, or comes from a
    stop state and keeps `result_ram`. -/
theorem stop_step {s : Miner l} {i : Bus} (hf : Flags s) (h : (miner_top l s i).stop = true) :
    s.start = false ∧ s.loading = false ∧
    ((copies s i = true ∧ (s.stop = true ∨ anyTicket s = true) ∧
        (miner_top l s i).result_ram = nonce_out_a s) ∨
      (copies s i = false ∧ s.stop = true ∧
        (miner_top l s i).result_ram = s.result_ram)) := by
  rcases miner_top_cases s i with ⟨-, -, heq⟩ | ⟨hs, hl, hw, heq⟩ | ⟨hl, -, heq⟩ |
    ⟨hs, hl, hw, hr, heq⟩ | ⟨hs, hw, hr, hstop, heq⟩ | ⟨hs, hl, hw, hr, -, hg, ht, heq⟩ |
    ⟨-, -, -, hstop, -, heq⟩
  · rw [heq] at h
    exact nomatch h
  · rw [heq] at h ⊢
    refine ⟨hs, hl, .inr ⟨?_, h, rfl⟩⟩
    rw [copies, hw]
    rfl
  · -- no stop state is loading
    rw [heq] at h
    cases h.symm.trans (hf.loading_stop hl)
  · rw [heq] at h ⊢
    refine ⟨hs, hl, .inr ⟨?_, h, rfl⟩⟩
    rw [copies, hw, hr]
    rfl
  · have hl : s.loading = false := hf.loading_of_stop hstop
    rw [hl] at hs hr
    obtain hs | hs := hs
    · obtain hr | hr := hr
      · rw [heq]
        refine ⟨hs, hl, .inl ⟨?_, .inl hstop, rfl⟩⟩
        rw [copies, hw, hr, hs, hl, hstop]
        rfl
      · exact nomatch hr
    · exact nomatch hs
  · rw [heq]
    refine ⟨hs, hl, .inl ⟨?_, .inr ht, rfl⟩⟩
    rw [copies, hw, hr, hs, hl, hg, ht, Bool.and_true, Bool.or_true]
    rfl
  · rw [heq] at h
    cases h.symm.trans hstop

theorem anyTicket_iff (s : Miner l) :
    anyTicket s = true ↔ ∃ i, ticketBit (nonce_out_a s i) = true := by
  rw [anyTicket, Bool.or_eq_true, Bool.or_eq_true, Bool.or_eq_true]
  constructor
  · rintro (((h | h) | h) | h)
    · exact ⟨0, h⟩
    · exact ⟨1, h⟩
    · exact ⟨2, h⟩
    · exact ⟨3, h⟩
  · rintro ⟨i, h⟩
    match i with
    | 0 => exact .inl (.inl (.inl h))
    | 1 => exact .inl (.inl (.inr h))
    | 2 => exact .inl (.inr h)
    | 3 => exact .inr h

/-! ## The ticket bit of a core -/

/-- `n` solves the work a core has latched. -/
def WorkSolved (c : Core l) (n : BitVec 32) : Prop :=
  Solves c.midstate_buf (c.data_buf.extractLsb' 0 96) n

/-- Every ticket of the core comes after a whole drain of its pipelines without a
    start, the cycle of the ticket included. -/
def Drained (c : Nat → Core l) : Prop :=
  ∀ t, (c t).is_golden_ticket = true →
    ∃ u, t = u + 131 + LOOP l ∧ ∀ v, u ≤ v → v ≤ t → (c v).start = false

section CoreRun

variable {inp : Nat → CoreIn} {c : Nat → Core l}

/-- The ticket bit is set by a ticket and cleared by a start. -/
theorem ticketBit_succ (hc : IsRun (fpgaminer_top l) inp c) (t : Nat) :
    ticketBit (c (t + 1)).nonce_out
      = ((c t).is_golden_ticket || (!(c t).start && ticketBit (c t).nonce_out)) := by
  rw [hc t]
  show ((if (c t).is_golden_ticket then 1#1 else if (c t).start then 0#1
    else (c t).nonce_out.extractLsb' 32 1) ++ (c t).golden_nonce).getLsbD 32 = _
  rw [BitVec.getLsbD_append, if_neg (by decide)]
  cases (c t).is_golden_ticket with
  | true => simp
  | false =>
      cases (c t).start with
      | true => simp
      | false =>
          show ((c t).nonce_out.extractLsb' 32 1).getLsbD 0 = ticketBit (c t).nonce_out
          rw [BitVec.getLsbD_extractLsb']
          rfl

/-- The nonce below it is a cycle behind. -/
theorem nonce_out_succ (hc : IsRun (fpgaminer_top l) inp c) (t : Nat) :
    (c (t + 1)).nonce_out.extractLsb' 0 32 = (c t).golden_nonce := by
  rw [hc t]
  exact BitVec.extractLsb'_append_eq_right

/-- Without a start a solution of the latched work stays one. -/
theorem workSolved_succ (hc : IsRun (fpgaminer_top l) inp c) {t : Nat}
    (hs : (c t).start = false) {n : BitVec 32} (h : WorkSolved (c t) n) :
    WorkSolved (c (t + 1)) n := by
  obtain ⟨hmid, hdata⟩ := work_held hc (Nat.le_succ t)
    (fun v h1 h2 => (show v = t by omega) ▸ hs)
  rw [WorkSolved, hmid, hdata]
  exact h

/-- **While the ticket bit is up, `golden_nonce` solves the latched work.** -/
theorem golden_solves (hc : IsRun (fpgaminer_top l) inp c) (hp : FpgaminerTop.PowerUp (c 0))
    (hd : Drained c) :
    ∀ t, ticketBit (c t).nonce_out = true → WorkSolved (c t) (c t).golden_nonce := by
  intro t
  induction t with
  | zero =>
      intro h
      rw [hp.nonce_out] at h
      exact nomatch h
  | succ t ih =>
      intro h
      rw [ticketBit_succ hc] at h
      cases hgold : (c t).is_golden_ticket with
      | true =>
          -- the pipelines have drained, so the ticket is about the latched work
          obtain ⟨u, rfl, hno⟩ := hd t hgold
          have hsolved := Flush.ticket_solves hc hp.phase
            (fun v h1 h2 => hno v h1 (Nat.le_of_lt h2)) hgold
          rw [show u + 132 + LOOP l = u + 131 + LOOP l + 1 by omega] at hsolved
          exact workSolved_succ hc (hno _ (by omega) (Nat.le_refl _)) hsolved
      | false =>
          rw [hgold, Bool.false_or] at h
          obtain ⟨hs, hbit⟩ := (Bool.and_eq_true _ _).mp h
          have hs' : (c t).start = false := (Bool.not_eq_true' _).mp hs
          have hkept : (c (t + 1)).golden_nonce = (c t).golden_nonce := by
            rw [hc t, golden_nonce_kept (inp t) hgold hs']
          rw [hkept]
          exact workSolved_succ hc hs' (ih hbit)

/-- **A ticket bit that has been up for a cycle stands beside a solution.** -/
theorem settled_solves (hc : IsRun (fpgaminer_top l) inp c) (hp : FpgaminerTop.PowerUp (c 0))
    (hd : Drained c) {t : Nat} (hbit : ticketBit (c t).nonce_out = true)
    (hbit' : ticketBit (c (t + 1)).nonce_out = true) :
    WorkSolved (c (t + 1)) ((c (t + 1)).nonce_out.extractLsb' 0 32) := by
  rw [nonce_out_succ hc]
  have hs : (c t).start = false := by
    rw [ticketBit_succ hc] at hbit'
    cases hgold : (c t).is_golden_ticket with
    | true =>
        obtain ⟨u, hu, hno⟩ := hd t hgold
        exact hno t (by omega) (Nat.le_refl t)
    | false =>
        rw [hgold, Bool.false_or] at hbit'
        exact (Bool.not_eq_true' _).mp ((Bool.and_eq_true _ _).mp hbit').1
  exact workSolved_succ hc hs (golden_solves hc hp hd t hbit)

end CoreRun

/-! ## The header a core works on -/

/-- `n` as the nonce word of the header `h` solves it. -/
def HeaderSolved (h : BitVec 768) (n : BitVec 32) : Prop :=
  Solves (h.extractLsb' 0 256) (h.extractLsb' 256 96) n

instance (h : BitVec 768) (n : BitVec 32) : Decidable (HeaderSolved h n) :=
  inferInstanceAs (Decidable (Solves _ _ _))

/-- Core `i` has latched the header register. -/
structure Linked (s : Miner l) (i : Fin 4) : Prop where
  midstate_buf : (s.miner i).midstate_buf = s.header_buffer.extractLsb' 0 256
  data_buf : (s.miner i).data_buf = s.header_buffer.extractLsb' 256 256

theorem Linked.solved {s : Miner l} {i : Fin 4} (h : Linked s i) {n : BitVec 32}
    (hn : WorkSolved (s.miner i) n) : HeaderSolved s.header_buffer n := by
  rw [WorkSolved, h.midstate_buf, h.data_buf, extract_extract _ (by decide)] at hn
  exact hn

section Run

variable {inp : Nat → Bus} {x : Nat → Miner l}

/-- **Outside a load and the two cycles after it each core works on the header in
    `header_buffer`.** -/
theorem linked_run (hx : IsRun (miner_top l) inp x) (h0 : MinerTop.PowerUp (x 0)) (i : Fin 4) :
    ∀ t, (x t).loading = false → (x t).load_done = false → ((x t).miner i).start = false →
      Linked (x t) i := by
  intro t
  induction t with
  | zero =>
      intro _ _ _
      constructor
      · rw [(h0.miner i).midstate_buf, h0.header_buffer]
        exact BitVec.extractLsb'_zero.symm
      · rw [(h0.miner i).data_buf, h0.header_buffer]
        exact BitVec.extractLsb'_zero.symm
  | succ t ih =>
      intro hl hd hs
      have hcore : (x (t + 1)).miner i = fpgaminer_top l ((x t).miner i) (coreIn (x t)) :=
        isRun_core hx i t
      have hbefore : (x t).start = false ∧ (x t).loading = false := by
        rw [hx t] at hl hd
        rcases miner_top_cases (x t) (inp t) with ⟨-, -, heq⟩ | ⟨hs, hl', -⟩ | ⟨-, -, heq⟩ |
          ⟨hs, hl', -⟩ | ⟨hs, -, -, -, heq⟩ | ⟨hs, hl', -⟩ | ⟨hs, -, -, -, -, heq⟩
        case inl =>
          rw [heq] at hl
          exact nomatch hl
        case inr.inr.inl =>
          -- a byte of the header: the load goes on or is just completed
          rw [heq] at hl hd
          have h95 : (inp t).address = 95#8 := Decidable.not_not.mp (of_decide_eq_false hl)
          have hor := (Bool.or_eq_false_iff.mp hd).1
          exact absurd h95 (of_decide_eq_false hor)
        case inr.inr.inr.inr.inl | inr.inr.inr.inr.inr.inr =>
          rw [heq] at hl
          have hl' : (x t).loading = false := hl
          rcases hs with hs | hs
          · exact ⟨hs, hl'⟩
          · cases hs.symm.trans hl'
        all_goals exact ⟨hs, hl'⟩
      have hheader := (header_kept (inp t) hbefore.1 hbefore.2).1
      rw [← hx t] at hheader
      cases hstart : ((x t).miner i).start with
      | true =>
          -- the core latches the header now
          obtain ⟨hmid, hdata, -⟩ := edge_of_start (coreIn (x t)) hstart
          constructor
          · rw [hcore, hheader, hmid]
            rfl
          · rw [hcore, hheader, hdata]
            rfl
      | false =>
          have hdone : (x t).load_done = false := by
            rw [core_start_succ hx, hstart] at hs
            exact hs
          have hprev := ih hbefore.2 hdone hstart
          have hheld := work_held (isRun_core hx i) (Nat.le_succ t)
            (fun v h1 h2 => (show v = t by omega) ▸ hstart)
          exact ⟨hheld.1.trans (hprev.midstate_buf.trans (by rw [hheader])),
            hheld.2.trans (hprev.data_buf.trans (by rw [hheader]))⟩

end Run

/-! ## Stop states -/

/-- In a stop state some core has reported a ticket, and every nonce with a ticket
    solves the header in `header_buffer`. -/
def ReportsSolve (s : Miner l) : Prop :=
  s.stop = true → (∃ i, ticketBit (s.result_ram i) = true) ∧
    ∀ i, ticketBit (s.result_ram i) = true →
      HeaderSolved s.header_buffer ((s.result_ram i).extractLsb' 0 32)

/-- No copy to `result_ram` at a wrong moment. -/
structure CleanReports (inp : Nat → Bus) (x : Nat → Miner l) : Prop where
  /-- No core sees a ticket before its pipelines have drained. -/
  drained : ∀ i, Drained (fun t => (x t).miner i)
  /-- No copy between a load and the restart of the cores. -/
  restarted : ∀ t, copies (x t) (inp t) = true →
    (x t).load_done = false ∧ ∀ i, ((x t).miner i).start = false
  /-- No copy in the cycle in which a ticket bit rises. -/
  settled : ∀ t, copies (x (t + 1)) (inp (t + 1)) = true → ∀ i,
    ticketBit (nonce_out_a (x (t + 1)) i) = true → ticketBit (nonce_out_a (x t) i) = true

/-- What stays true in a stop state: the cores are past their restart, one of them
    holds its ticket, and the reports are solutions. -/
structure StopState (s : Miner l) : Prop where
  core_start : ∀ i, (s.miner i).start = false
  reported : ∃ i, ticketBit (nonce_out_a s i) = true ∧ ticketBit (s.result_ram i) = true
  solved : ∀ i, ticketBit (s.result_ram i) = true →
    HeaderSolved s.header_buffer ((s.result_ram i).extractLsb' 0 32)

section Run

variable {inp : Nat → Bus} {x : Nat → Miner l}

/-- Without a start the ticket bit of a core stays. -/
theorem ticketBit_kept (hx : IsRun (miner_top l) inp x) {i : Fin 4} {t : Nat}
    (hs : ((x t).miner i).start = false) (h : ticketBit (nonce_out_a (x t) i) = true) :
    ticketBit (nonce_out_a (x (t + 1)) i) = true := by
  have hsucc : ticketBit (nonce_out_a (x (t + 1)) i)
      = (((x t).miner i).is_golden_ticket
        || (!((x t).miner i).start && ticketBit (nonce_out_a (x t) i))) :=
    ticketBit_succ (isRun_core hx i) t
  rw [hsucc, hs, h, Bool.not_false, Bool.and_true, Bool.or_true]

/-- A copy outside the wrong moments copies solutions. -/
theorem copied_solved (hx : IsRun (miner_top l) inp x) (h0 : MinerTop.PowerUp (x 0))
    (hclean : CleanReports inp x) {t : Nat} (hl : (x t).loading = false)
    (hcopy : copies (x t) (inp t) = true) {i : Fin 4}
    (hbit : ticketBit (nonce_out_a (x t) i) = true) :
    HeaderSolved (x t).header_buffer ((nonce_out_a (x t) i).extractLsb' 0 32) := by
  obtain ⟨hd, hs⟩ := hclean.restarted t hcopy
  cases t with
  | zero =>
      rw [nonce_out_a, (h0.miner i).nonce_out] at hbit
      exact nomatch hbit
  | succ t =>
      refine (linked_run hx h0 i (t + 1) hl hd (hs i)).solved ?_
      exact settled_solves (isRun_core hx i) (h0.miner i) (hclean.drained i)
        (hclean.settled t hcopy i hbit) hbit

theorem stopState_run (hx : IsRun (miner_top l) inp x) (h0 : MinerTop.PowerUp (x 0))
    (hclean : CleanReports inp x) : ∀ t, (x t).stop = true → StopState (x t) := by
  intro t
  induction t with
  | zero =>
      intro h
      cases h.symm.trans h0.stop
  | succ t ih =>
      intro h
      rw [hx t] at h
      obtain ⟨hs, hl, hstep⟩ := stop_step (flags_run hx h0 t) h
      have hheader := (header_kept (inp t) hs hl).1
      rw [← hx t] at hheader hstep
      rcases hstep with ⟨hcopy, hwas, hram⟩ | ⟨-, hwas, hram⟩
      · -- the outputs are copied; the core with a ticket keeps it
        obtain ⟨hd, hcs⟩ := hclean.restarted t hcopy
        have hticket : ∃ i, ticketBit (nonce_out_a (x t) i) = true := by
          rcases hwas with hstop | hany
          · obtain ⟨i, hi, -⟩ := (ih hstop).reported
            exact ⟨i, hi⟩
          · exact (anyTicket_iff (x t)).mp hany
        obtain ⟨i, hi⟩ := hticket
        refine ⟨fun j => ?_, ⟨i, ticketBit_kept hx (hcs i) hi, ?_⟩, fun j hj => ?_⟩
        · rw [core_start_succ hx, hd, Bool.and_false]
        · rw [hram]
          exact hi
        · rw [hram] at hj ⊢
          rw [hheader]
          exact copied_solved hx h0 hclean hl hcopy hj
      · obtain ⟨hcs, ⟨i, hi, hri⟩, hsolved⟩ := ih hwas
        have hd : (x t).load_done = false := (flags_run hx h0 t).done_of_stop hwas
        refine ⟨fun j => ?_, ⟨i, ticketBit_kept hx (hcs i) hi, ?_⟩, fun j hj => ?_⟩
        · rw [core_start_succ hx, hd, Bool.and_false]
        · rw [hram]
          exact hri
        · rw [hram] at hj ⊢
          rw [hheader]
          exact hsolved j hj

end Run

/-- **A reported result solves the work now loaded** in every run that copies no
    result at a wrong moment. -/
theorem reports_solve (l : Fin 6) (s : Miner l) (hp : MinerTop.PowerUp s) (inp : Nat → Bus)
    (hclean : CleanReports inp (run (miner_top l) s inp)) :
    ∀ t, ReportsSolve (run (miner_top l) s inp t) := by
  intro t hstop
  obtain ⟨-, ⟨i, -, hi⟩, hsolved⟩ :=
    stopState_run (isRun_run (miner_top l) s inp) hp hclean t hstop
  exact ⟨⟨i, hi⟩, hsolved⟩

/-! ## Two runs from power-up -/

/-- The writes that load the known header; the bytes left out are zero. -/
def knownLoad : List Bus :=
  (List.range 48 ++ [95]).map
    (fun k : Nat => put (BitVec.ofNat 8 k) (byte (knownHeader 0x0e333379) k))

/-- The known header is loaded and its solution found, without an idle cycle after
    the load. -/
def searchTrace : List Bus :=
  [put 102 1, idle] ++ knownLoad ++ [idle] ++ List.replicate 176 (get 200)

/-- Then the all-zero header is loaded, and an idle cycle follows. -/
def staleTrace : Nat → Bus := stream (searchTrace ++ [put 102 1, idle, put 95 0, idle])

/-- **The solution of the old header is reported for the new one.** -/
theorem stale_report :
    MinerTop.PowerUp (poweredMiner 5) ∧
    ¬ ReportsSolve (run (miner_top 5) (poweredMiner 5) staleTrace 232) := by
  have hfacts : (run (miner_top 5) (poweredMiner 5) staleTrace 232).stop = true ∧
      (run (miner_top 5) (poweredMiner 5) staleTrace 232).header_buffer = 0 ∧
      (run (miner_top 5) (poweredMiner 5) staleTrace 232).result_ram 0 = 1#1 ++ 0x0e33337a#32 := by
    decide +kernel
  obtain ⟨hstop, hheader, hram⟩ := hfacts
  refine ⟨powerUp_poweredMiner 5, fun h => ?_⟩
  have hsolved := (h hstop).2 0 (by rw [hram]; decide)
  rw [hheader, hram] at hsolved
  revert hsolved
  decide +kernel

/-- After the search one idle cycle, the reads of the status and of core 0's result,
    and reads that change nothing. -/
def reportInput (t : Nat) : Bus :=
  (searchTrace ++ [idle, get 102, get 148, get 149, get 150, get 151, get 152]).getD t (get 200)

theorem reportInput_facts :
    (∀ u, u < 216 →
      ((run (miner_top 5) (poweredMiner 5) reportInput u).miner 0).is_golden_ticket = false) ∧
    ((run (miner_top 5) (poweredMiner 5) reportInput 53).miner 0).start = false ∧
    (run (miner_top 5) (poweredMiner 5) reportInput 53).load_done = false ∧
    (∀ u, u < 228 →
      copies (run (miner_top 5) (poweredMiner 5) reportInput u) (reportInput u) = false) ∧
    ticketBit (nonce_out_a (run (miner_top 5) (poweredMiner 5) reportInput 227) 0) = true ∧
    (run (miner_top 5) (poweredMiner 5) reportInput 229).stop = true := by
  decide +kernel

/-- After the load there is no write, and after cycle 228 no idle cycle. -/
theorem reportInput_busy (t : Nat) :
    (52 ≤ t → busWrite (reportInput t) = false) ∧ (229 ≤ t → busRead (reportInput t) = true) := by
  rcases Nat.lt_or_ge t 235 with hlt | hge
  · have hall : ∀ u, u < 235 → (52 ≤ u → busWrite (reportInput u) = false) ∧
        (229 ≤ u → busRead (reportInput u) = true) := by
      decide +kernel
    exact hall t hlt
  · have hlate : reportInput t = get 200 := by
      rw [reportInput, List.getD_eq_getElem?_getD, List.getElem?_eq_none hge]
      rfl
    rw [hlate]
    exact ⟨fun _ => rfl, fun _ => rfl⟩

/-- Cores that are equal stay equal: their ports are. -/
theorem cores_equal {inp : Nat → Bus} {x : Nat → Miner l} (hx : IsRun (miner_top l) inp x)
    (h0 : ∀ i, (x 0).miner i = (x 0).miner 0) (t : Nat) (i : Fin 4) :
    (x t).miner i = (x t).miner 0 := by
  induction t with
  | zero => exact h0 i
  | succ t ih =>
      have hi := isRun_core hx i t
      have h0 := isRun_core hx 0 t
      calc (x (t + 1)).miner i
          = fpgaminer_top l ((x t).miner i) (coreIn (x t)) := hi
        _ = fpgaminer_top l ((x t).miner 0) (coreIn (x t)) := by rw [ih]
        _ = (x (t + 1)).miner 0 := h0.symm

theorem cleanReports_reportInput :
    CleanReports reportInput (run (miner_top 5) (poweredMiner 5) reportInput) := by
  obtain ⟨hgold, hs53, hd53, hcopy, hbit, -⟩ := reportInput_facts
  have hx := isRun_run (miner_top 5) (poweredMiner 5) reportInput
  have hequal := cores_equal hx (fun _ => rfl)
  -- the only start of the cores is in cycle 52
  have hafter : ∀ t, 53 ≤ t → (run (miner_top 5) (poweredMiner 5) reportInput t).load_done = false ∧
      ((run (miner_top 5) (poweredMiner 5) reportInput t).miner 0).start = false :=
    fun t ht => no_restart hx (powerUp_poweredMiner 5) 0 hd53 hs53
      (fun u hu _ => by rw [completes, (reportInput_busy u).1 (by omega)]; rfl) t ht (Nat.le_refl t)
  have honly : ∀ t,
      copies (run (miner_top 5) (poweredMiner 5) reportInput t) (reportInput t) = true →
        t = 228 := by
    intro t h
    rcases Nat.lt_trichotomy t 228 with hlt | heq | hgt
    · rw [hcopy t hlt] at h
      cases h
    · exact heq
    · rw [copies, (reportInput_busy t).2 hgt, Bool.not_true, Bool.and_false] at h
      cases h
  constructor
  · intro i t hg
    change ((run (miner_top 5) (poweredMiner 5) reportInput t).miner i).is_golden_ticket
      = true at hg
    rw [hequal] at hg
    have ht : 216 ≤ t := by
      rcases Nat.lt_or_ge t 216 with hlt | hge
      · rw [hgold t hlt] at hg
        cases hg
      · exact hge
    refine ⟨t - 163, ?_, fun v hv _ => ?_⟩
    · show t = t - 163 + 131 + 32
      omega
    · show ((run (miner_top 5) (poweredMiner 5) reportInput v).miner i).start = false
      rw [hequal]
      exact (hafter v (by omega)).2
  · intro t h
    obtain rfl := honly t h
    refine ⟨(hafter 228 (by decide)).1, fun i => ?_⟩
    rw [hequal]
    exact (hafter 228 (by decide)).2
  · intro t h i _
    obtain rfl : t = 227 := Nat.succ.inj (honly (t + 1) h)
    rw [nonce_out_a, hequal]
    exact hbit

theorem reports_solve_reportInput :
    (run (miner_top 5) (poweredMiner 5) reportInput 229).stop = true ∧
    ReportsSolve (run (miner_top 5) (poweredMiner 5) reportInput 229) :=
  ⟨reportInput_facts.2.2.2.2.2,
    reports_solve 5 (poweredMiner 5) (powerUp_poweredMiner 5) reportInput
      cleanReports_reportInput 229⟩

end Result
