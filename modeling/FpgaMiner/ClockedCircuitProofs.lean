/-! # Clocked circuits — runs, wired components, reachable states

    A synchronous circuit is a next-state function `step : σ → ι → σ`: every
    register takes its new value at the clock edge, from the register contents
    and the input pins of the cycle that ends there.  This file has what every
    later argument about such a circuit needs and nothing about any one circuit:

    * **`run`** and **`IsRun`** — the register contents at every cycle, as a
      function of the input stream, and the same as a relation (a part of a
      bigger circuit satisfies the relation without being started by `run`);
    * **`IsRun.component`** — a submodule runs as itself on the stream it is
      wired to;
    * **`run_simulation`** — a circuit follows another one cycle by cycle;
    * **`Reachable`** with its invariant rule;
    * **`held`** — a register nothing writes keeps its value. -/

namespace ClockedCircuit

variable {σ ι τ κ α : Type}

/-- The register contents at every cycle, from the contents at cycle 0 and the
    stream of input pins. -/
def run (step : σ → ι → σ) (s : σ) (inp : Nat → ι) : Nat → σ
  | 0 => s
  | t + 1 => step (run step s inp t) (inp t)

@[simp] theorem run_zero (step : σ → ι → σ) (s : σ) (inp : Nat → ι) :
    run step s inp 0 = s := rfl

theorem run_succ (step : σ → ι → σ) (s : σ) (inp : Nat → ι) (t : Nat) :
    run step s inp (t + 1) = step (run step s inp t) (inp t) := rfl

/-- `x` is a run of the circuit on the input stream `inp`. -/
def IsRun (step : σ → ι → σ) (inp : Nat → ι) (x : Nat → σ) : Prop :=
  ∀ t, x (t + 1) = step (x t) (inp t)

theorem isRun_run (step : σ → ι → σ) (s : σ) (inp : Nat → ι) :
    IsRun step inp (run step s inp) :=
  fun _ => rfl

/-- **A submodule runs as itself** on the stream its ports are wired to. -/
theorem IsRun.component {step : σ → ι → σ} {part : τ → κ → τ} {inp : Nat → ι}
    {x : Nat → σ} (proj : σ → τ) (wire : σ → ι → κ)
    (hwire : ∀ s i, proj (step s i) = part (proj s) (wire s i))
    (h : IsRun step inp x) :
    IsRun part (fun t => wire (x t) (inp t)) (fun t => proj (x t)) := by
  intro t
  show proj (x (t + 1)) = part (proj (x t)) (wire (x t) (inp t))
  rw [h t, hwire]

/-- The invariant rule along a run. -/
theorem IsRun.invariant {step : σ → ι → σ} {inp : Nat → ι} {x : Nat → σ}
    (h : IsRun step inp x) {P : σ → Prop} (h0 : P (x 0))
    (hstep : ∀ s i, P s → P (step s i)) : ∀ t, P (x t) := by
  intro t
  induction t with
  | zero => exact h0
  | succ t ih =>
      rw [h t]
      exact hstep (x t) (inp t) ih

/-- Two circuits on one input stream stay related when every cycle keeps the relation. -/
theorem run_simulation {step : σ → ι → σ} {spec : τ → ι → τ} {R : σ → τ → Prop} {s : σ} {m : τ}
    (h0 : R s m) (hstep : ∀ s m i, R s m → R (step s i) (spec m i)) (inp : Nat → ι) :
    ∀ t, R (run step s inp t) (run spec m inp t) := by
  intro t
  induction t with
  | zero => exact h0
  | succ t ih => exact hstep _ _ (inp t) ih

/-! ## Reachable states -/

/-- The states a circuit can be in, from the states `init` it powers up in and
    under every input. -/
inductive Reachable (init : σ → Prop) (step : σ → ι → σ) : σ → Prop where
  | init {s : σ} : init s → Reachable init step s
  | step {s : σ} (i : ι) : Reachable init step s → Reachable init step (step s i)

/-- The invariant rule over reachable states. -/
theorem Reachable.invariant {init : σ → Prop} {step : σ → ι → σ} {P : σ → Prop}
    (h0 : ∀ s, init s → P s) (hstep : ∀ s i, P s → P (step s i)) {s : σ}
    (h : Reachable init step s) : P s := by
  induction h with
  | init hi => exact h0 _ hi
  | step i _ ih => exact hstep _ i ih

/-! ## Registers between events -/

/-- A register that no cycle from `a` to `b` changes has at `b` the value it
    had at `a`. -/
theorem held {f : Nat → α} {a b : Nat} (hab : a ≤ b)
    (h : ∀ t, a ≤ t → t < b → f (t + 1) = f t) : f b = f a := by
  induction b with
  | zero => rw [Nat.le_zero.mp hab]
  | succ b ih =>
      rcases Nat.lt_or_ge b a with hlt | hge
      · rw [show b + 1 = a by omega]
      · rw [h b hge (Nat.lt_succ_self b)]
        exact ih hge (fun t hat htb => h t hat (Nat.lt_succ_of_lt htb))

end ClockedCircuit
