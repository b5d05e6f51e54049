import FpgaMiner.MinerTopProofs

/-! # The control flags under any cores

    `miner_top` sees of its cores only the four `nonce_out`.  Here they are inputs of
    the clock edge, next to the bus, so that nothing is assumed about a core.

    * **`miner_top_eq_open`** — the circuit with its own cores is one such run;
    * **`control_step`** — the invariant of the flags together with the memory they
      guard: outside the stop state `result_ram` is zero;
    * **`control_flags`** — the six facts in every reachable state. -/

namespace Control

open ClockedCircuit FpgaminerTop MinerTop

variable {l : Fin 6}

/-- The state in which the cores put out `out`. -/
def withOutputs (s : Miner l) (out : Fin 4 → BitVec 33) : Miner l :=
  { s with miner := fun i => { s.miner i with nonce_out := out i } }

/-- The clock edge of `miner_top` on a bus cycle and four outputs of the cores. -/
def openStep (l : Fin 6) (s : Miner l) (e : Bus × (Fin 4 → BitVec 33)) : Miner l :=
  miner_top l (withOutputs s e.2) e.1

/-- **With the outputs of its own cores the step is that of `miner_top`.** -/
theorem miner_top_eq_open (s : Miner l) (i : Bus) :
    miner_top l s i = openStep l s (i, nonce_out_a s) := rfl

/-- A miner at power-up whose `result_ram` is zero. -/
def ClearedPowerUp (s : Miner l) : Prop := PowerUp s ∧ ∀ i, s.result_ram i = 0

/-- The flags, and what `stop` says about `result_ram`. -/
structure Guarded (s : Miner l) : Prop where
  flags : Flags s
  cleared : s.stop = false → ∀ i, s.result_ram i = 0

theorem ClearedPowerUp.guarded {s : Miner l} (h : ClearedPowerUp s) : Guarded s :=
  ⟨h.1.flags, fun _ => h.2⟩

/-- Other outputs leave the flags and `result_ram` as they are. -/
theorem Guarded.withOutputs {s : Miner l} (h : Guarded s) (out : Fin 4 → BitVec 33) :
    Guarded (withOutputs s out) :=
  ⟨⟨h.flags.start_loading, h.flags.loading_done, h.flags.loading_stop, h.flags.done_stop,
    h.flags.stop_read⟩, h.cleared⟩

/-- **Every edge keeps the flags and the memory they guard.** -/
theorem control_step (s : Miner l) (i : Bus) (h : Guarded s) : Guarded (miner_top l s i) := by
  refine ⟨flags_step s i h.flags, ?_⟩
  rcases miner_top_cases s i with ⟨-, -, heq⟩ | ⟨-, -, -, heq⟩ | ⟨-, -, heq⟩ |
    ⟨-, -, -, -, heq⟩ | ⟨-, -, -, hstop, heq⟩ | ⟨-, -, -, -, -, -, -, heq⟩ |
    ⟨-, -, -, -, -, heq⟩
  · -- a start clears the memory
    intro _ j
    rw [heq]
  · rw [heq]
    exact h.cleared
  · rw [heq]
    exact h.cleared
  · rw [heq]
    exact h.cleared
  · -- the copies are made in the stop state only
    intro hlow
    rw [heq] at hlow
    cases hstop.symm.trans hlow
  · intro hlow
    rw [heq] at hlow
    cases hlow
  · intro _ j
    rw [heq]

theorem reachable_guarded {s : Miner l} (h : Reachable ClearedPowerUp (openStep l) s) :
    Guarded s :=
  h.invariant (fun _ => ClearedPowerUp.guarded)
    (fun s e hs => control_step (withOutputs s e.2) e.1 (hs.withOutputs e.2))

/-- **The control flags in every reachable state**, whatever the bus and the cores do. -/
theorem control_flags (l : Fin 6) (s : Miner l)
    (h : Reachable ClearedPowerUp (openStep l) s) :
    ¬ (s.start = true ∧ s.loading = true) ∧
    ¬ (s.loading = true ∧ s.load_done = true) ∧
    ¬ (s.loading = true ∧ s.stop = true) ∧
    ¬ (s.load_done = true ∧ s.stop = true) ∧
    (s.stop = true ↔ s.read_gold_nonce = false) ∧
    (s.stop = false → ∀ i, s.result_ram i = 0) := by
  obtain ⟨hflags, hcleared⟩ := reachable_guarded h
  refine ⟨?_, ?_, ?_, ?_, ?_, hcleared⟩
  · rintro ⟨hs, hl⟩
    cases hl.symm.trans (hflags.start_loading hs)
  · rintro ⟨hl, hd⟩
    cases hd.symm.trans (hflags.loading_done hl)
  · rintro ⟨hl, hstop⟩
    cases hstop.symm.trans (hflags.loading_stop hl)
  · rintro ⟨hd, hstop⟩
    cases hstop.symm.trans (hflags.done_stop hd)
  · rw [hflags.stop_read]
    cases s.read_gold_nonce with
    | false => exact ⟨fun _ => rfl, fun _ => rfl⟩
    | true => exact ⟨nofun, nofun⟩

/-- Outputs of four cores that all report a solution, and an idle cycle. -/
def allTickets : Bus × (Fin 4 → BitVec 33) := (idle, fun _ => 1#1 ++ 7#32)

/-- The stop state entered on them. -/
theorem control_flags_stopped :
    (openStep 5 (poweredMiner 5) allTickets).stop = true ∧
    ((openStep 5 (poweredMiner 5) allTickets).stop = true ↔
      (openStep 5 (poweredMiner 5) allTickets).read_gold_nonce = false) := by
  have hreach : Reachable ClearedPowerUp (openStep 5) (openStep 5 (poweredMiner 5) allTickets) :=
    .step allTickets (.init ⟨powerUp_poweredMiner 5, fun _ => rfl⟩)
  obtain ⟨-, -, -, -, hiff, -⟩ := control_flags 5 _ hreach
  exact ⟨by decide +kernel, hiff⟩

end Control
