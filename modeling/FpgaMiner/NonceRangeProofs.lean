import FpgaMiner.LoadProofs

/-! # The nonces of the four cores

    `miner_top` computes a start nonce for each core in `nonce_ram`, but connects
    `header_buffer` itself to all of them, so that every core starts from the nonce
    of the header.

    * **`sameWork_run`** — the four cores run in lockstep: whatever decides which
      block is presented is equal in all of them in every cycle;
    * **`nonce_after_load`** — after a completed load each nonce register is the
      nonce of the header;
    * **`nonces_not_divided`** — so no load divides the nonce space, and the cores
      hash the same nonces in the same cycles. -/

namespace NonceRange

open ClockedCircuit FpgaminerTop MinerTop Load

variable {l : Fin 6}

/-! ## What the cores should do -/

/-- The nonces a core samples into its pipeline in the cycles from `a` to `b`. -/
def hashed (c : Nat → Core l) (a b : Nat) : List (BitVec 32) :=
  ((List.range' a (b - a)).filter (fun t => (c t).cnt = 0)).map
    (fun t => (c t).data.extractLsb' 96 32)

/-- After a load completed at `T`, core `i` starts from `nonce_ram[i]`, the nonce of
    the header plus `i` ranges. -/
def StartsFromRam (x : Nat → Miner l) (T : Nat) : Prop :=
  ∀ i : Fin 4, ((x (T + 3)).miner i).nonce = (x (T + 2)).nonce_ram i ∧
    (x (T + 2)).nonce_ram i = NONCEIDX (x (T + 1)).header_buffer + BitVec.ofNat 32 i * range

/-- The first `range` nonces of any two cores are different ones.  The block of the
    new header is first presented in cycle `T + 4`. -/
def DisjointNonces (x : Nat → Miner l) (T N : Nat) : Prop :=
  ∀ i j : Fin 4, i ≠ j → ∀ a b : Nat, a < range.toNat → b < range.toNat → ∀ m n : BitVec 32,
    (hashed (fun t => (x t).miner i) (T + 4) N)[a]? = some m →
    (hashed (fun t => (x t).miner j) (T + 4) N)[b]? = some n → m ≠ n

/-! ## Lockstep -/

/-- The registers that decide which blocks a core presents and when it samples them. -/
structure SameWork (c c' : Core l) : Prop where
  cnt : c.cnt = c'.cnt
  start : c.start = c'.start
  nonce : c.nonce = c'.nonce
  data : c.data = c'.data
  data_buf : c.data_buf = c'.data_buf
  state : c.state = c'.state
  midstate_buf : c.midstate_buf = c'.midstate_buf

theorem SameWork.of_powerUp {c c' : Core l} (h : FpgaminerTop.PowerUp c)
    (h' : FpgaminerTop.PowerUp c') : SameWork c c' :=
  ⟨h.cnt.trans h'.cnt.symm, h.start.trans h'.start.symm, h.nonce.trans h'.nonce.symm,
    h.data.trans h'.data.symm, h.data_buf.trans h'.data_buf.symm, h.state.trans h'.state.symm,
    h.midstate_buf.trans h'.midstate_buf.symm⟩

/-- **Equal ports keep two cores in lockstep.** -/
theorem sameWork_step {c c' : Core l} (i : CoreIn) (h : SameWork c c') :
    SameWork (fpgaminer_top l c i) (fpgaminer_top l c' i) := by
  have hcnt : cnt_next c = cnt_next c' := by rw [cnt_next, cnt_next, h.cnt]
  have hnonce : nonce_next c = nonce_next c' := by
    rw [nonce_next, nonce_next, feedback_next, feedback_next, hcnt, h.nonce]
  constructor
  · exact hcnt
  · show (if c.start then _ else _) = if c'.start then _ else _
    rw [h.start]
  · show (if c.start then _ else nonce_next c) = if c'.start then _ else nonce_next c'
    rw [h.start, hnonce]
  · show headerPadding ++ nonce_next c ++ _ = headerPadding ++ nonce_next c' ++ _
    rw [hnonce, h.data_buf]
  · show (if c.start then _ else c.data_buf) = if c'.start then _ else c'.data_buf
    rw [h.start, h.data_buf]
  · exact h.midstate_buf
  · show (if c.start then _ else c.midstate_buf) = if c'.start then _ else c'.midstate_buf
    rw [h.start, h.midstate_buf]

section Run

variable {inp : Nat → Bus} {x : Nat → Miner l}

/-- **The four cores run in lockstep.** -/
theorem sameWork_run (hx : IsRun (miner_top l) inp x) (h0 : MinerTop.PowerUp (x 0))
    (i j : Fin 4) (t : Nat) : SameWork ((x t).miner i) ((x t).miner j) := by
  induction t with
  | zero => exact SameWork.of_powerUp (h0.miner i) (h0.miner j)
  | succ t ih =>
      have hi := isRun_core hx i t
      have hj := isRun_core hx j t
      show SameWork ((fun t => (x t).miner i) (t + 1)) ((fun t => (x t).miner j) (t + 1))
      rw [hi, hj]
      exact sameWork_step _ ih

theorem hashed_eq (hx : IsRun (miner_top l) inp x) (h0 : MinerTop.PowerUp (x 0))
    (i j : Fin 4) (a b : Nat) :
    hashed (fun t => (x t).miner i) a b = hashed (fun t => (x t).miner j) a b := by
  have hcnt : (fun t => ((x t).miner i).cnt) = fun t => ((x t).miner j).cnt :=
    funext (fun t => (sameWork_run hx h0 i j t).cnt)
  have hdata : (fun t => ((x t).miner i).data) = fun t => ((x t).miner j).data :=
    funext (fun t => (sameWork_run hx h0 i j t).data)
  simp only [hashed, funext_iff] at hcnt hdata ⊢
  simp only [hcnt, hdata]

/-- **Every core starts from the nonce of the header.** -/
theorem nonce_after_load (hx : IsRun (miner_top l) inp x) (h0 : MinerTop.PowerUp (x 0)) {T : Nat}
    (hT : completes (x T) (inp T) = true) (i : Fin 4) :
    ((x (T + 3)).miner i).nonce = NONCEIDX (x (T + 1)).header_buffer := by
  obtain ⟨-, hstart, -, -, -, hheader⟩ := restarting hx h0 hT i
  have hcore : (x (T + 3)).miner i
      = fpgaminer_top l ((x (T + 2)).miner i) (coreIn (x (T + 2))) := isRun_core hx i (T + 2)
  rw [hcore, (edge_of_start _ hstart).2.2, ← hheader]
  rfl

end Run

/-- **No load divides the nonce space**: the cores do not start from `nonce_ram`, and
    as soon as one nonce has been hashed all four cores have hashed it. -/
theorem nonces_not_divided (l : Fin 6) (s : Miner l) (hp : MinerTop.PowerUp s)
    (inp : Nat → Bus) (T N : Nat)
    (hT : completes (run (miner_top l) s inp T) (inp T) = true) :
    ¬ StartsFromRam (run (miner_top l) s inp) T ∧
    (hashed (fun t => (run (miner_top l) s inp t).miner 0) (T + 4) N ≠ [] →
      ¬ DisjointNonces (run (miner_top l) s inp) T N) := by
  have hx := isRun_run (miner_top l) s inp
  have h0 : MinerTop.PowerUp (run (miner_top l) s inp 0) := hp
  constructor
  · intro hstarts
    obtain ⟨hram, hrange⟩ := hstarts 1
    rw [hrange, nonce_after_load hx h0 hT, BitVec.self_eq_add_right] at hram
    exact absurd hram (by decide)
  · intro hne hdisjoint
    obtain ⟨n, rest, hn⟩ := List.exists_cons_of_ne_nil hne
    have hfirst : (hashed (fun t => (run (miner_top l) s inp t).miner 0) (T + 4) N)[0]?
        = some n := by
      rw [hn]
      rfl
    exact hdisjoint 0 1 (by decide) 0 0 (by decide) (by decide) n n hfirst
      (by rw [hashed_eq hx h0 1 0]; exact hfirst) rfl

theorem oneByte_completes :
    completes (run (miner_top 5) (poweredMiner 5) quietTrace 2) (quietTrace 2) = true ∧
    ∀ u, 2 < u → u < 40 →
      completes (run (miner_top 5) (poweredMiner 5) quietTrace u) (quietTrace u) = false := by
  have hlate : ∀ u, u < 40 → 2 < u →
      completes (run (miner_top 5) (poweredMiner 5) quietTrace u) (quietTrace u) = false := by
    decide +kernel
  exact ⟨by decide +kernel, fun u h1 h2 => hlate u h2 h1⟩

/-- A load of the all-zero header up to its last byte: the cores start from nonce 0
    and have hashed nonce 1 by cycle 40. -/
theorem nonces_duplicated :
    MinerTop.PowerUp (poweredMiner 5) ∧
    completes (run (miner_top 5) (poweredMiner 5) quietTrace 2) (quietTrace 2) = true ∧
    (∀ u, 2 < u → u < 40 →
      completes (run (miner_top 5) (poweredMiner 5) quietTrace u) (quietTrace u) = false) ∧
    ¬ StartsFromRam (run (miner_top 5) (poweredMiner 5) quietTrace) 2 ∧
    ¬ DisjointNonces (run (miner_top 5) (poweredMiner 5) quietTrace) 2 40 := by
  obtain ⟨hT, hnext⟩ := oneByte_completes
  refine ⟨powerUp_poweredMiner 5, hT, hnext, fun h => ?_, fun h => ?_⟩
  · have hram := (h 1).1
    revert hram
    decide +kernel
  · exact h 0 1 (by decide) 0 0 (by decide) (by decide) 1 1 (by decide +kernel)
      (by decide +kernel) rfl

theorem nonces_not_divided_oneByte :
    ¬ DisjointNonces (run (miner_top 5) (poweredMiner 5) quietTrace) 2 40 :=
  (nonces_not_divided 5 (poweredMiner 5) (powerUp_poweredMiner 5) quietTrace 2 40
    oneByte_completes.1).2 (by decide +kernel)

end NonceRange
