/-! # Folded pipelines — one value, many stages, several rounds a stage

    A pipeline of `N` stages computes `L * N` rounds of a function on a value.
    Stage `i` is one register that executes rounds `L * i, …, L * i + L - 1` in
    `L` successive cycles, feeding its own output back; in the cycle where the
    common phase counter is 0 it takes the value of stage `i - 1` instead (stage
    0 takes the input).  `L = 1` is the fully unrolled pipeline, `N = 1` the
    iterated single stage.

    **`stage_rounds`**: the value sampled at a phase-0 cycle `t0` has, `n + 1`
    cycles later, been through rounds `0, …, n` and sits in stage `n / L`; what
    the other stages hold does not matter. -/

namespace FoldedPipeline

variable {α : Type}

/-- The value after the rounds `0, …, n - 1`. -/
def rounds (f : Nat → α → α) : Nat → α → α
  | 0, a => a
  | n + 1, a => f n (rounds f n a)

@[simp] theorem rounds_zero (f : Nat → α → α) (a : α) : rounds f 0 a = a := rfl

theorem rounds_succ (f : Nat → α → α) (n : Nat) (a : α) :
    rounds f (n + 1) a = f n (rounds f n a) := rfl

/-- What the `N` stage registers `r` do, cycle by cycle, under the phase counter
    `c` and the input stream `x`. -/
structure Folded (L N : Nat) (f : Nat → α → α) (c : Nat → Nat) (x : Nat → α)
    (r : Nat → Fin N → α) : Prop where
  phase_lt : ∀ t, c t < L
  phase_succ : ∀ t, c (t + 1) = (c t + 1) % L
  feedback : ∀ t (i : Fin N), c t ≠ 0 → r (t + 1) i = f (L * i + c t) (r t i)
  entry : ∀ t (h : 0 < N), c t = 0 → r (t + 1) ⟨0, h⟩ = f 0 (x t)
  pass : ∀ t i (h : i + 1 < N), c t = 0 →
    r (t + 1) ⟨i + 1, h⟩ = f (L * (i + 1)) (r t ⟨i, Nat.lt_of_succ_lt h⟩)

/-- From a phase-0 cycle on the counter is the elapsed time modulo `L`. -/
theorem phase_add {L : Nat} (c : Nat → Nat) (hsucc : ∀ t, c (t + 1) = (c t + 1) % L)
    {t0 : Nat} (h0 : c t0 = 0) : ∀ k, c (t0 + k) = k % L := by
  intro k
  induction k with
  | zero => rw [Nat.add_zero, h0, Nat.zero_mod]
  | succ k ih => rw [← Nat.add_assoc, hsucc, ih, Nat.mod_add_mod]

/-- The counter is 0 exactly at the multiples of `L` after a phase-0 cycle. -/
theorem phase_zero_iff {L : Nat} (c : Nat → Nat)
    (hsucc : ∀ t, c (t + 1) = (c t + 1) % L) {t0 : Nat} (h0 : c t0 = 0) (k : Nat) :
    c (t0 + k) = 0 ↔ L ∣ k := by
  rw [phase_add c hsucc h0, Nat.dvd_iff_mod_eq_zero]

namespace Folded

variable {L N : Nat} {f : Nat → α → α} {c : Nat → Nat} {x : Nat → α}
  {r : Nat → Fin N → α}

/-- **The stage theorem**: `n + 1` cycles after it was sampled the value has been
    through `n + 1` rounds and sits in stage `n / L`. -/
theorem stage_rounds (h : Folded L N f c x r) {t0 : Nat} (h0 : c t0 = 0) :
    ∀ n (hn : n < L * N),
      r (t0 + n + 1) ⟨n / L, Nat.div_lt_of_lt_mul hn⟩ = rounds f (n + 1) (x t0) := by
  have hL : 0 < L := Nat.lt_of_le_of_lt (Nat.zero_le _) (h.phase_lt 0)
  intro n
  induction n with
  | zero =>
      intro hn
      have hN : 0 < N := Nat.pos_of_mul_pos_left (by omega : 0 < L * N)
      rw [rounds_succ, rounds_zero]
      rw [show (⟨0 / L, Nat.div_lt_of_lt_mul hn⟩ : Fin N) = ⟨0, hN⟩ from
        Fin.ext (Nat.zero_div L)]
      exact h.entry t0 hN h0
  | succ n ih =>
      intro hn
      have hprev := ih (by omega)
      have hphase : c (t0 + n + 1) = (n + 1) % L := by
        have := phase_add c h.phase_succ h0 (n + 1)
        rwa [← Nat.add_assoc] at this
      have hround : L * ((n + 1) / L) + (n + 1) % L = n + 1 := Nat.div_add_mod (n + 1) L
      rw [rounds_succ, ← hprev]
      by_cases hc : (n + 1) % L = 0
      · -- the value moves on to the next stage
        have hdiv : (n + 1) / L = n / L + 1 :=
          Nat.succ_div_of_dvd (Nat.dvd_of_mod_eq_zero hc)
        have hlt : n / L + 1 < N := by
          rw [← hdiv]
          exact Nat.div_lt_of_lt_mul hn
        have hpass := h.pass (t0 + n + 1) (n / L) hlt (hphase.trans hc)
        rw [show L * (n / L + 1) = n + 1 by rw [← hdiv]; omega] at hpass
        rw [show (⟨(n + 1) / L, Nat.div_lt_of_lt_mul hn⟩ : Fin N) = ⟨n / L + 1, hlt⟩ from
          Fin.ext hdiv]
        exact hpass
      · -- the value stays in its stage for one more round
        have hdiv : (n + 1) / L = n / L :=
          Nat.succ_div_of_not_dvd (fun hd => hc (Nat.mod_eq_zero_of_dvd hd))
        have hback := h.feedback (t0 + n + 1) ⟨(n + 1) / L, Nat.div_lt_of_lt_mul hn⟩
          (by rw [hphase]; exact hc)
        rw [hphase, hround] at hback
        rw [show t0 + (n + 1) + 1 = t0 + n + 1 + 1 by omega, hback]
        congr 2
        exact Fin.ext hdiv

/-- The last stage at the next phase-0 cycle at which the value leaves it. -/
theorem last_stage (h : Folded L N f c x r) {t0 : Nat} (h0 : c t0 = 0) (hN : 0 < N) :
    r (t0 + L * N) ⟨N - 1, Nat.sub_lt hN Nat.one_pos⟩ = rounds f (L * N) (x t0) := by
  have hL : 0 < L := Nat.lt_of_le_of_lt (Nat.zero_le _) (h.phase_lt 0)
  have hLN : 0 < L * N := Nat.mul_pos hL hN
  have hstage := h.stage_rounds h0 (L * N - 1) (by omega)
  rw [show t0 + (L * N - 1) + 1 = t0 + L * N by omega,
    show L * N - 1 + 1 = L * N by omega] at hstage
  rw [← hstage]
  congr 1
  apply Fin.ext
  show N - 1 = (L * N - 1) / L
  have hsplit : L * N - 1 = L * (N - 1) + (L - 1) := by
    obtain ⟨m, rfl⟩ : ∃ m, N = m + 1 := ⟨N - 1, by omega⟩
    rw [Nat.mul_add, Nat.mul_one, Nat.add_sub_cancel]
    omega
  rw [hsplit, Nat.mul_add_div hL, Nat.div_eq_of_lt (by omega), Nat.add_zero]

end Folded

end FoldedPipeline
