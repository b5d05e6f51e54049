import FpgaMiner.FpgaminerTopProofs

/-! # Reloading a core — what the pipelines still hold

    A start replaces the latched work and the nonce register at once, but up to
    `130 + LOOP` cycles of blocks of the old work are still in the two pipelines,
    and the resets of `is_golden_ticket` and of the ticket bit in the start branch
    are overridden by the assignments after it.

    * **`ticket_solves`** — a ticket with no start in the `131 + LOOP` cycles
      before it is about the latched work, and the nonce written for it solves it;
    * **`flushes_of_drained`** — hence every ticket does, in a run in which none
      comes before the pipelines have drained;
    * **`reload_ticket_is_stale`** — a run from power-up in which one does: the
      known solution is seen in the cycle after a reload with the all-zero header,
      and a nonce that solves nothing is written for it. -/

namespace Flush

open ClockedCircuit Sha256 Transform FpgaminerTop

variable {l : Fin 6}

/-- `t` is later than `S`, the most recent cycle with `start = 1`. -/
def LastStart (c : Nat → Core l) (S t : Nat) : Prop :=
  S < t ∧ (c S).start = true ∧ ∀ u, S < u → u ≤ t → (c u).start = false

/-- Every ticket after a start is about the work that start has latched. -/
def FlushesOldWork (c : Nat → Core l) : Prop :=
  ∀ S t, LastStart c S t → (c t).is_golden_ticket = true →
    Solves (c t).midstate_buf ((c t).data_buf.extractLsb' 0 96) (c (t + 1)).golden_nonce

/-- No ticket is up while blocks sampled before the start can still come out. -/
def DrainedBeforeTicket (c : Nat → Core l) : Prop :=
  ∀ S t, LastStart c S t → t < S + 132 + LOOP l → (c t).is_golden_ticket = false

section Run

variable {inp : Nat → CoreIn} {c : Nat → Core l}

/-- A ticket with no start in the `131 + LOOP` cycles before it reports a solution
    of the latched work. -/
theorem ticket_solves (hc : IsRun (fpgaminer_top l) inp c) (h0 : Phase (c 0)) {u : Nat}
    (hno : ∀ v, u ≤ v → v < u + 131 + LOOP l → (c v).start = false)
    (hgold : (c (u + 131 + LOOP l)).is_golden_ticket = true) :
    Solves (c (u + 131 + LOOP l)).midstate_buf
      ((c (u + 131 + LOOP l)).data_buf.extractLsb' 0 96)
      (c (u + 132 + LOOP l)).golden_nonce := by
  have hz : (c (u + 1)).cnt = 0 :=
    ticket_entry hc h0 (by rw [show u + 1 + 130 + LOOP l = u + 131 + LOOP l by omega]; exact hgold)
  obtain ⟨hiff, hnonce⟩ := golden_window hc h0 hz hno
  obtain ⟨hmid, hdata⟩ := work_held hc (show u + 1 ≤ u + 131 + LOOP l by omega)
    (fun v h1 h2 => hno v (by omega) h2)
  rw [hmid, hdata, hnonce hgold]
  exact hiff.mp hgold

end Run

/-- **Loading new work flushes the old** in every run in which no ticket comes
    before the pipelines have drained. -/
theorem flushes_of_drained (l : Fin 6) (s : Core l) (hp : PowerUp s) (inp : Nat → CoreIn)
    (hd : DrainedBeforeTicket (run (fpgaminer_top l) s inp)) :
    FlushesOldWork (run (fpgaminer_top l) s inp) := by
  intro S t hlast hgold
  obtain ⟨hSt, -, hno⟩ := id hlast
  have hlate : S + 132 + LOOP l ≤ t := by
    rcases Nat.lt_or_ge t (S + 132 + LOOP l) with hlt | hge
    · rw [hd S t hlast hlt] at hgold
      exact nomatch hgold
    · exact hge
  obtain ⟨u, rfl⟩ : ∃ u, t = u + 131 + LOOP l := ⟨t - (131 + LOOP l), by omega⟩
  have h := ticket_solves (isRun_run (fpgaminer_top l) s inp) hp.phase
    (fun v h1 h2 => hno v (by omega) (by omega)) hgold
  rw [show u + 131 + LOOP l + 1 = u + 132 + LOOP l by omega]
  exact h

/-- The known header is loaded at cycle 0, the all-zero header at cycle 192. -/
def reloadInput (t : Nat) : CoreIn where
  header_data_input := if t < 192 then knownHeader 0x0e333379 else 0
  load_done := t == 0 || t == 192

/-- **Old work makes a ticket for the new header**: the reload starts at cycle 193,
    the ticket of the known solution is up at cycle 194, and `0 - 5` is written. -/
theorem reload_ticket_is_stale :
    PowerUp (poweredCore 5) ∧
    ¬ FlushesOldWork (run (fpgaminer_top 5) (poweredCore 5) reloadInput) := by
  refine ⟨powerUp_poweredCore 5, fun h => ?_⟩
  have hlast : LastStart (run (fpgaminer_top 5) (poweredCore 5) reloadInput) 193 194 := by
    refine ⟨by decide, by decide +kernel, fun u h1 h2 => ?_⟩
    rw [show u = 194 by omega]
    decide +kernel
  have hsolves := h 193 194 hlast (by decide +kernel)
  revert hsolves
  decide +kernel

/-- The known header is loaded at cycle 0, and again at cycle 200, after its ticket. -/
def lateReloadInput (t : Nat) : CoreIn where
  header_data_input := knownHeader 0x0e333379
  load_done := t == 0 || t == 200

/-- The ticket of the first load is the only one before the pipelines have drained again. -/
theorem lateReload_tickets :
    (∀ u, u < 365 →
      (run (fpgaminer_top 5) (poweredCore 5) lateReloadInput u).is_golden_ticket = true → u = 194) ∧
    (run (fpgaminer_top 5) (poweredCore 5) lateReloadInput 194).is_golden_ticket = true := by
  decide +kernel

/-- In that run no ticket comes too early. -/
theorem drained_lateReload :
    DrainedBeforeTicket (run (fpgaminer_top 5) (poweredCore 5) lateReloadInput) := by
  intro S t hlast hwin
  obtain ⟨hSt, hstart, -⟩ := hlast
  have hc := isRun_run (fpgaminer_top 5) (poweredCore 5) lateReloadInput
  -- the core starts at the cycles 1 and 201 only
  have hfirst := start_low hc (a := 1) (b := 200) (fun u h1 h2 => by
    simp only [lateReloadInput, Bool.or_eq_false_iff, beq_eq_false_iff_ne]
    omega)
  have hsecond := start_low hc (a := 201) (b := S) (fun u h1 h2 => by
    simp only [lateReloadInput, Bool.or_eq_false_iff, beq_eq_false_iff_ne]
    omega)
  have hS : S ≤ 1 ∨ S = 201 := by
    by_contra hS
    rcases Nat.lt_or_ge 200 S with h | h
    · rw [hsecond S (by omega) (Nat.le_refl S)] at hstart
      exact nomatch hstart
    · rw [hfirst S (by omega) h] at hstart
      exact nomatch hstart
  have h32 : LOOP 5 = 32 := rfl
  by_contra hgold
  have ht := lateReload_tickets.1 t (by omega) (Bool.not_eq_false _ |>.mp hgold)
  omega

theorem flushes_of_drained_lateReload :
    (run (fpgaminer_top 5) (poweredCore 5) lateReloadInput 194).is_golden_ticket = true ∧
    FlushesOldWork (run (fpgaminer_top 5) (poweredCore 5) lateReloadInput) :=
  ⟨lateReload_tickets.2,
    flushes_of_drained 5 (poweredCore 5) (powerUp_poweredCore 5) lateReloadInput
      drained_lateReload⟩

end Flush
