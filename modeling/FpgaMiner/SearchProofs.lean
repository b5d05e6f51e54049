import Mathlib.Data.Nat.Nth
import FpgaMiner.FpgaminerTopProofs

/-! # The order of the search

    The blocks a core samples after its last start.  The nonce register is loaded in
    the cycle of the start and counts the phase-0 cycles, and a block takes the
    value it has after the count of its own cycle.

    * **`first_nonce_skipped`** — so the search starts one behind the nonce of the
      header, whatever the phase of the start and the unrolling, and goes on from there
      without a gap. -/

namespace Search

open ClockedCircuit FpgaminerTop

variable {l : Fin 6}

/-- After the start at `S`, cycle `S + 2 + m` samples a block, the `k`-th one. -/
structure Samples (c : Nat → Core l) (S k m : Nat) : Prop where
  zero : (c (S + 2 + m)).cnt = 0
  index : Nat.count (fun u => (c (S + 2 + u)).cnt = 0) m = k

/-- The `k`-th block after the start at `S` is the work of `header` with nonce `n + k`. -/
def SearchesFrom (c : Nat → Core l) (S : Nat) (header : BitVec 768) (n : BitVec 32) : Prop :=
  ∀ k m, Samples c S k m →
    (c (S + 2 + m)).state = header.extractLsb' 0 256 ∧
    (c (S + 2 + m)).data
      = headerPadding ++ (n + BitVec.ofNat 32 k) ++ header.extractLsb' 256 96

section Run

variable {inp : Nat → CoreIn} {c : Nat → Core l}

/-- There is a block of every index. -/
theorem samples_exist (hc : IsRun (fpgaminer_top l) inp c) (h0 : Phase (c 0)) (S k : Nat) :
    ∃ m, Samples c S k m := by
  have hinf : {u | (c (S + 2 + u)).cnt = 0}.Infinite := by
    refine Set.infinite_of_forall_exists_gt (fun a => ?_)
    obtain ⟨m, hm⟩ := cnt_zero_soon hc h0 (S + 2 + (a + 1))
    refine ⟨a + 1 + m, ?_, by omega⟩
    show (c (S + 2 + (a + 1 + m))).cnt = 0
    rw [← Nat.add_assoc]
    exact hm
  exact ⟨Nat.nth _ k, Nat.nth_mem_of_infinite hinf k, Nat.count_nth_of_infinite hinf k⟩

/-- From the start on the nonce register is ahead of the header by the phase-0 cycles. -/
theorem nonce_after_start (hc : IsRun (fpgaminer_top l) inp c) {S : Nat}
    (hstart : (c S).start = true) (hno : ∀ t, S < t → (c t).start = false) (m : Nat) :
    (c (S + 1 + m)).nonce = (inp S).header_data_input.extractLsb' 352 32
      + BitVec.ofNat 32 (Nat.count (fun u => (c (S + 2 + u)).cnt = 0) m) := by
  induction m with
  | zero =>
      rw [Nat.add_zero, hc S, (edge_of_start (inp S) hstart).2.2, Nat.count_zero]
      exact (BitVec.add_zero _).symm
  | succ m ih =>
      have hstep := nonce_step hc (hno (S + 1 + m) (by omega))
      rw [show S + 1 + m + 1 = S + 2 + m by omega] at hstep
      rw [show S + 1 + (m + 1) = S + 2 + m by omega, hstep, ih, Nat.count_succ]
      by_cases hz : (c (S + 2 + m)).cnt = 0
      · rw [if_pos hz, if_pos hz, BitVec.ofNat_add, ← BitVec.add_assoc]
        rfl
      · rw [if_neg hz, if_neg hz]
        rfl

/-- **The block of a phase-0 cycle**, from the number of those before it. -/
theorem searches_next (hc : IsRun (fpgaminer_top l) inp c) {S : Nat}
    (hstart : (c S).start = true) (hno : ∀ t, S < t → (c t).start = false) :
    SearchesFrom c S (inp S).header_data_input
      ((inp S).header_data_input.extractLsb' 352 32 + 1) := by
  rintro k m ⟨hz, rfl⟩
  have hnow : S + 1 + m + 1 = S + 2 + m := by omega
  obtain ⟨hstate, hdata⟩ := presented_block hc (hno (S + 1 + m) (by omega))
  have hnonce := nonce_step hc (hno (S + 1 + m) (by omega))
  rw [hnow] at hstate hdata hnonce
  rw [if_pos hz, nonce_after_start hc hstart hno] at hnonce
  obtain ⟨hmid, hbuf⟩ := work_held hc (a := S + 1) (b := S + 2 + m) (by omega)
    (fun u h1 _ => hno u h1)
  obtain ⟨hmid0, hbuf0, -⟩ := edge_of_start (inp S) hstart
  rw [hc S, hmid0] at hmid
  rw [hc S, hbuf0] at hbuf
  have hslice : ((inp S).header_data_input.extractLsb' 256 256).extractLsb' 0 96
      = (inp S).header_data_input.extractLsb' 256 96 :=
    BitSlice.extract_extract _ (by decide)
  refine ⟨hstate.trans hmid, ?_⟩
  rw [hdata, hnonce, hbuf, hslice, BitVec.add_assoc, BitVec.add_assoc, BitVec.add_comm 1]

end Run

/-- **The search skips its first nonce**: after every last start the blocks are those of
    the nonces from `h + 1` on, so they are not those from `h` on. -/
theorem first_nonce_skipped (l : Fin 6) (s : Core l) (hs : Phase s) (inp : Nat → CoreIn)
    (S : Nat) (hstart : (run (fpgaminer_top l) s inp S).start = true)
    (hno : ∀ t, S < t → (run (fpgaminer_top l) s inp t).start = false) :
    SearchesFrom (run (fpgaminer_top l) s inp) S (inp S).header_data_input
      ((inp S).header_data_input.extractLsb' 352 32 + 1) ∧
    ¬ SearchesFrom (run (fpgaminer_top l) s inp) S (inp S).header_data_input
      ((inp S).header_data_input.extractLsb' 352 32) := by
  have hc := isRun_run (fpgaminer_top l) s inp
  have hnext := searches_next hc hstart hno
  refine ⟨hnext, fun h => ?_⟩
  obtain ⟨m, hm⟩ := samples_exist hc hs S 0
  have hdata := (hnext 0 m hm).2.symm.trans (h 0 m hm).2
  have hnonce := congrArg (fun d : BitVec 512 => d.extractLsb' 96 32) hdata
  simp only [nonce_of_block] at hnonce
  rw [BitVec.add_assoc, BitVec.add_right_inj] at hnonce
  exact absurd hnonce (by decide)

/-- A load of the known header from its solution. -/
def solutionInput (t : Nat) : CoreIn where
  header_data_input := knownHeader 0x0e33337a
  load_done := t == 0

theorem solution_starts :
    (run (fpgaminer_top 5) (poweredCore 5) solutionInput 1).start = true ∧
    ∀ t, 1 < t → (run (fpgaminer_top 5) (poweredCore 5) solutionInput t).start = false := by
  refine ⟨by decide, fun t ht => ?_⟩
  refine start_low (isRun_run _ _ _) (a := 1) (b := t) (fun u hu _ => ?_) t ht (Nat.le_refl t)
  exact beq_eq_false_iff_ne.mpr (by omega)

/-- **A search from the solution misses it**: the first block has the next nonce. -/
theorem solution_missed :
    Solves knownMidstate knownData 0x0e33337a ∧
    ¬ SearchesFrom (run (fpgaminer_top 5) (poweredCore 5) solutionInput) 1
      (knownHeader 0x0e33337a) 0x0e33337a := by
  refine ⟨known_solves, fun h => ?_⟩
  -- the first phase-0 cycle after the start is cycle 32
  have hdata := (h 0 29 ⟨by decide +kernel, by decide +kernel⟩).2
  revert hdata
  decide +kernel

theorem first_nonce_skipped_solution :
    SearchesFrom (run (fpgaminer_top 5) (poweredCore 5) solutionInput) 1
      (knownHeader 0x0e33337a) 0x0e33337b := by
  obtain ⟨hnext, -⟩ := first_nonce_skipped 5 (poweredCore 5) (powerUp_poweredCore 5).phase
    solutionInput 1 solution_starts.1 solution_starts.2
  have hn : (solutionInput 1).header_data_input.extractLsb' 352 32 + 1 = 0x0e33337b#32 := by
    decide +kernel
  rw [hn] at hnext
  exact hnext

end Search
