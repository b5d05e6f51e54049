import FpgaMiner.ClockedCircuitProofs
import FpgaMiner.ShaFunctionsProofs
import Mathlib.Tactic.IntervalCases

/-! # `sha256_transform` — the pipelined compression function

    The module of `sha256_transform.v`: `64 / LOOP` digesters, each one register
    pair `(tx_w, tx_state)`, executing `LOOP` rounds on a block before it moves
    on.  Up to `64 / LOOP` blocks are in flight; the round constant is picked from
    a table in reverse order and the message schedule travels with the block as a
    sliding window of sixteen words.

    * **`sha256_digester`** is one FIPS 180-4 round on the state and one schedule
      step on the window (`digester_state`, `digester_window`);
    * the registers are a folded pipeline of that round (`folded_hashers`);
    * **`tx_hash_eq_compress`** — whatever the other blocks in flight are, `tx_hash`
      is the compression of the block sampled 65 cycles before. -/

namespace Transform

open ClockedCircuit FoldedPipeline BitSlice Sha256 ShaFunctions

/-- The macro `IDX(i)`: word `i` of a wide register, word 0 in the low bits. -/
def IDX {n : Nat} (x : BitVec n) (i : Nat) : Word := x.extractLsb' (32 * i) 32

/-- The lowest word is the last one appended. -/
theorem IDX_append_zero {m : Nat} (x : BitVec m) (y : Word) : IDX (x ++ y) 0 = y :=
  BitVec.extractLsb'_append_eq_right

/-- The others move up by one. -/
theorem IDX_append_succ {m : Nat} (x : BitVec m) (y : Word) (i : Nat) :
    IDX (x ++ y) (i + 1) = IDX x i := by
  unfold IDX
  rw [BitVec.extractLsb'_append_eq_of_le (by omega), show 32 * (i + 1) - 32 = 32 * i by omega]

/-- A single word. -/
theorem IDX_self (y : Word) : IDX y 0 = y := BitVec.extractLsb'_eq_self

/-- `LOOP = 1 << LOOP_LOG2`, with `LOOP_LOG2` in its valid range 0..5. -/
def LOOP (LOOP_LOG2 : Fin 6) : Nat := 1 <<< LOOP_LOG2.val

/-- The folding as a power of two. -/
theorem LOOP_eq (l : Fin 6) : LOOP l = 2 ^ l.val := Nat.one_shiftLeft l.val

/-- A stage runs at least once. -/
theorem LOOP_pos (l : Fin 6) : 0 < LOOP l := by
  rw [LOOP_eq]
  exact Nat.two_pow_pos l.val

/-- And at most 32 times. -/
theorem LOOP_le (l : Fin 6) : LOOP l ≤ 32 := by
  revert l
  decide

/-- The digesters of one instance execute 64 rounds together. -/
theorem LOOP_mul_stages (l : Fin 6) : LOOP l * (64 / LOOP l) = 64 := by
  revert l
  decide

/-- The rounds are shared evenly. -/
theorem LOOP_dvd_64 (l : Fin 6) : LOOP l ∣ 64 := ⟨64 / LOOP l, (LOOP_mul_stages l).symm⟩

/-- There is a stage. -/
theorem stages_pos (l : Fin 6) : 0 < 64 / LOOP l := by
  revert l
  decide

/-! ## The digester -/

/-- The register pair of one digester. -/
structure Digester where
  tx_w : BitVec 512
  tx_state : BitVec 256

/-- What `sha256_digester` latches at the clock edge. -/
def sha256_digester (k : Word) (rx_w : BitVec 512) (rx_state : BitVec 256) : Digester :=
  let e0_w := e0 (IDX rx_state 0)
  let e1_w := e1 (IDX rx_state 4)
  let ch_w := ch (IDX rx_state 4) (IDX rx_state 5) (IDX rx_state 6)
  let maj_w := maj (IDX rx_state 0) (IDX rx_state 1) (IDX rx_state 2)
  let s0_w := s0 (rx_w.extractLsb' 32 32)
  let s1_w := s1 (rx_w.extractLsb' 448 32)
  let t1 := IDX rx_state 7 + e1_w + ch_w + rx_w.extractLsb' 0 32 + k
  let t2 := e0_w + maj_w
  let new_w := s1_w + rx_w.extractLsb' 288 32 + s0_w + rx_w.extractLsb' 0 32
  { tx_w := new_w ++ rx_w.extractLsb' 32 480
    tx_state := IDX rx_state 6 ++ IDX rx_state 5 ++ IDX rx_state 4 ++ (IDX rx_state 3 + t1)
      ++ IDX rx_state 2 ++ IDX rx_state 1 ++ IDX rx_state 0 ++ (t1 + t2) }

/-- A 256-bit register read as eight words. -/
def unpack (x : BitVec 256) : Vars :=
  ⟨IDX x 0, IDX x 1, IDX x 2, IDX x 3, IDX x 4, IDX x 5, IDX x 6, IDX x 7⟩

/-- Eight words as a 256-bit register, word 0 in the low bits. -/
def pack (v : Vars) : BitVec 256 := v.h ++ v.g ++ v.f ++ v.e ++ v.d ++ v.c ++ v.b ++ v.a

/-- What is packed is unpacked. -/
@[simp] theorem unpack_pack (v : Vars) : unpack (pack v) = v := by
  unfold unpack pack
  repeat rw [IDX_append_succ]
  repeat rw [IDX_append_zero]
  rw [IDX_self]

/-- Nothing is lost by it. -/
theorem unpack_injective {x y : BitVec 256} (h : unpack x = unpack y) : x = y := by
  simp only [unpack, Vars.mk.injEq] at h
  obtain ⟨h0, h1, h2, h3, h4, h5, h6, h7⟩ := h
  refine eq_of_slices (by decide : 0 < 32) (fun k hk => ?_)
  have hk8 : k < 8 := by omega
  interval_cases k
  · exact h0
  · exact h1
  · exact h2
  · exact h3
  · exact h4
  · exact h5
  · exact h6
  · exact h7

/-- **One digester is one round** on the working variables. -/
theorem digester_state (k : Word) (w : BitVec 512) (s : BitVec 256) :
    unpack (sha256_digester k w s).tx_state = Sha256.round k (IDX w 0) (unpack s) := by
  have hpack : (sha256_digester k w s).tx_state = pack (Sha256.round k (IDX w 0) (unpack s)) := by
    simp only [sha256_digester, pack, Sha256.round, unpack, e0_eq, e1_eq, ch_eq, maj_eq, IDX]
    rw [add_right_comm _ _ k]
  rw [hpack, unpack_pack]

/-- **One digester is one schedule step**: the window moves up by a word, and the
    word that enters at the top is the FIPS recurrence on it. -/
theorem digester_window (k : Word) (w : BitVec 512) (s : BitVec 256) :
    (∀ j, j < 15 → IDX (sha256_digester k w s).tx_w j = IDX w (j + 1)) ∧
    IDX (sha256_digester k w s).tx_w 15
      = smallSigma1 (IDX w 14) + IDX w 9 + smallSigma0 (IDX w 1) + IDX w 0 := by
  constructor
  · intro j hj
    simp only [sha256_digester, IDX]
    rw [BitVec.extractLsb'_append_eq_of_add_le (by omega), extract_extract w (by omega),
      show 32 + 32 * j = 32 * (j + 1) by omega]
  · simp only [sha256_digester, IDX, s0_eq, s1_eq]
    rw [BitVec.extractLsb'_append_eq_of_le (by decide)]
    exact BitVec.extractLsb'_eq_self

/-! ## The round constants -/

/-- The concatenation `Ks`, first constant in the top bits. -/
def Ks : BitVec 2048 :=
  ([
  0x428a2f98, 0x71374491, 0xb5c0fbcf, 0xe9b5dba5,
  0x3956c25b, 0x59f111f1, 0x923f82a4, 0xab1c5ed5,
  0xd807aa98, 0x12835b01, 0x243185be, 0x550c7dc3,
  0x72be5d74, 0x80deb1fe, 0x9bdc06a7, 0xc19bf174,
  0xe49b69c1, 0xefbe4786, 0x0fc19dc6, 0x240ca1cc,
  0x2de92c6f, 0x4a7484aa, 0x5cb0a9dc, 0x76f988da,
  0x983e5152, 0xa831c66d, 0xb00327c8, 0xbf597fc7,
  0xc6e00bf3, 0xd5a79147, 0x06ca6351, 0x14292967,
  0x27b70a85, 0x2e1b2138, 0x4d2c6dfc, 0x53380d13,
  0x650a7354, 0x766a0abb, 0x81c2c92e, 0x92722c85,
  0xa2bfe8a1, 0xa81a664b, 0xc24b8b70, 0xc76c51a3,
  0xd192e819, 0xd6990624, 0xf40e3585, 0x106aa070,
  0x19a4c116, 0x1e376c08, 0x2748774c, 0x34b0bcb5,
  0x391c0cb3, 0x4ed8aa4a, 0x5b9cca4f, 0x682e6ff3,
  0x748f82ee, 0x78a5636f, 0x84c87814, 0x8cc70208,
  0x90befffa, 0xa4506ceb, 0xbef9a3f7, 0xc67178f2] : List Word).foldl
    (fun acc k => (acc <<< 32) ||| k.setWidth 2048) 0

/-- The part-select `Ks[32*(63-j) +: 32]` is the constant of round `j`. -/
theorem Ks_slice {j : Nat} (hj : j < 64) : Ks.extractLsb' (32 * (63 - j)) 32 = K j := by
  have hall : ∀ i : Fin 64, Ks.extractLsb' (32 * (63 - i.val)) 32 = K i.val := by
    decide +kernel
  exact hall ⟨j, hj⟩

/-! ## The transform -/

/-- The registers of one `sha256_transform` instance. -/
structure Sha256Transform (l : Fin 6) where
  HASHERS : Fin (64 / LOOP l) → Digester
  tx_hash : BitVec 256

/-- The input ports of `sha256_transform`. -/
structure TransformIn where
  feedback : Bool
  cnt : BitVec 6
  rx_state : BitVec 256
  rx_input : BitVec 512

/-- The clock edge of `sha256_transform`. -/
def sha256_transform (l : Fin 6) (s : Sha256Transform l) (i : TransformIn) :
    Sha256Transform l where
  HASHERS j :=
    if j.val = 0 then
      sha256_digester (Ks.extractLsb' (32 * (63 - i.cnt.toNat)) 32)
        (if i.feedback then (s.HASHERS j).tx_w else i.rx_input)
        (if i.feedback then (s.HASHERS j).tx_state else i.rx_state)
    else
      let prev := s.HASHERS ⟨j.val - 1, Nat.lt_of_le_of_lt (Nat.sub_le j.val 1) j.isLt⟩
      sha256_digester (Ks.extractLsb' (32 * (63 - LOOP l * j.val - i.cnt.toNat)) 32)
        (if i.feedback then (s.HASHERS j).tx_w else prev.tx_w)
        (if i.feedback then (s.HASHERS j).tx_state else prev.tx_state)
  tx_hash :=
    if i.feedback then s.tx_hash
    else
      let state := (s.HASHERS ⟨64 / LOOP l - 1, Nat.sub_lt (stages_pos l) Nat.one_pos⟩).tx_state
      (IDX i.rx_state 7 + IDX state 7) ++ (IDX i.rx_state 6 + IDX state 6)
        ++ (IDX i.rx_state 5 + IDX state 5) ++ (IDX i.rx_state 4 + IDX state 4)
        ++ (IDX i.rx_state 3 + IDX state 3) ++ (IDX i.rx_state 2 + IDX state 2)
        ++ (IDX i.rx_state 1 + IDX state 1) ++ (IDX i.rx_state 0 + IDX state 0)

/-- The control inputs as `fpgaminer_top` drives them: `cnt` counts modulo `LOOP`
    and `feedback` is `cnt != 0`. -/
structure Driven (l : Fin 6) (inp : Nat → TransformIn) : Prop where
  cnt_lt : ∀ t, (inp t).cnt.toNat < LOOP l
  cnt_succ : ∀ t, (inp (t + 1)).cnt.toNat = ((inp t).cnt.toNat + 1) % LOOP l
  feedback_eq : ∀ t, (inp t).feedback = decide ((inp t).cnt ≠ 0)

/-- Round `n` of the RTL as a function on the register pair. -/
def digest (n : Nat) (r : Digester) : Digester :=
  sha256_digester (Ks.extractLsb' (32 * (63 - n)) 32) r.tx_w r.tx_state

/-- **The RTL rounds are the FIPS rounds**: after `n` of them the state holds the
    working variables and the window the schedule words `W_n, …, W_{n+15}`. -/
theorem rounds_digest (x : BitVec 512) (s : BitVec 256) :
    ∀ n, n ≤ 64 →
      unpack (rounds digest n ⟨x, s⟩).tx_state = working (unpack s) (IDX x) n ∧
      ∀ j, j < 16 → IDX (rounds digest n ⟨x, s⟩).tx_w j = schedule (IDX x) (n + j) := by
  intro n
  induction n with
  | zero =>
      intro _
      refine ⟨rfl, fun j hj => ?_⟩
      rw [Nat.zero_add, schedule_lt _ hj]
      rfl
  | succ n ih =>
      intro hn
      obtain ⟨hstate, hwin⟩ := ih (by omega)
      have hwin0 := hwin 0 (by decide)
      rw [Nat.add_zero] at hwin0
      rw [rounds_succ, digest, Ks_slice (by omega : n < 64)]
      constructor
      · rw [digester_state, hstate, hwin0, working_succ]
      · intro j hj
        obtain ⟨hshift, htop⟩ := digester_window (K n) (rounds digest n ⟨x, s⟩).tx_w
          (rounds digest n ⟨x, s⟩).tx_state
        by_cases hj15 : j < 15
        · rw [hshift j hj15, hwin (j + 1) (by omega), show n + (j + 1) = n + 1 + j by omega]
        · rw [show j = 15 by omega, htop, hwin 14 (by decide), hwin 9 (by decide),
            hwin 1 (by decide), hwin0, show n + 1 + 15 = n + 16 by omega, schedule_succ16]

/-- The function one instance computes on a block and a chaining value. -/
def transformHash (s : BitVec 256) (x : BitVec 512) : BitVec 256 :=
  pack ((unpack s).add (unpack (rounds digest 64 ⟨x, s⟩).tx_state))

/-- The pipeline computes the compression function. -/
theorem transformHash_eq (s : BitVec 256) (x : BitVec 512) :
    transformHash s x = pack (compress (unpack s) (IDX x)) := by
  rw [transformHash, (rounds_digest x s 64 (Nat.le_refl _)).1]
  rfl

section Pipeline

variable {l : Fin 6} {inp : Nat → TransformIn} {x : Nat → Sha256Transform l}

/-- **The digester registers are a folded pipeline** of the RTL round. -/
theorem folded_hashers (hd : Driven l inp) (hx : IsRun (sha256_transform l) inp x) :
    Folded (LOOP l) (64 / LOOP l) digest (fun t => (inp t).cnt.toNat)
      (fun t => ⟨(inp t).rx_input, (inp t).rx_state⟩) (fun t => (x t).HASHERS) where
  phase_lt := hd.cnt_lt
  phase_succ := hd.cnt_succ
  feedback t i hc := by
    have hfb : (inp t).feedback = true := by
      rw [hd.feedback_eq t]
      exact decide_eq_true (fun h => hc (by rw [h]; rfl))
    rw [hx t]
    simp only [sha256_transform, hfb, if_true, digest]
    by_cases hi : i.val = 0
    · simp [hi]
    · rw [if_neg hi, Nat.sub_sub]
  entry t h hc := by
    have hcnt : (inp t).cnt = 0 := BitVec.eq_of_toNat_eq hc
    have hfb : (inp t).feedback = false := by
      rw [hd.feedback_eq t, hcnt]
      rfl
    rw [hx t]
    simp [sha256_transform, hfb, digest, hcnt]
  pass t i h hc := by
    have hcnt : (inp t).cnt = 0 := BitVec.eq_of_toNat_eq hc
    have hfb : (inp t).feedback = false := by
      rw [hd.feedback_eq t, hcnt]
      rfl
    rw [hx t]
    simp [sha256_transform, hfb, digest, hcnt]

/-- A phase-0 cycle comes round every 64 cycles. -/
theorem Driven.cnt_add_64 (hd : Driven l inp) {t0 : Nat} (h0 : (inp t0).cnt = 0) :
    (inp (t0 + 64)).cnt = 0 := by
  apply BitVec.eq_of_toNat_eq
  have hzero : (inp t0).cnt.toNat = 0 := by rw [h0]; rfl
  exact (phase_zero_iff (fun t => (inp t).cnt.toNat) hd.cnt_succ hzero 64).mpr (LOOP_dvd_64 l)

/-- The cycle after the value has left the last digester: `tx_hash` is the sum of
    the rounds' result with the chaining value present **at that time**. -/
theorem tx_hash_latched (hd : Driven l inp) (hx : IsRun (sha256_transform l) inp x)
    {t0 : Nat} (h0 : (inp t0).cnt = 0) :
    unpack (x (t0 + 65)).tx_hash
      = (unpack (inp (t0 + 64)).rx_state).add
          (working (unpack (inp t0).rx_state) (IDX (inp t0).rx_input) 64) := by
  have hzero : (inp t0).cnt.toNat = 0 := by rw [h0]; rfl
  have hlast := (folded_hashers hd hx).last_stage hzero (stages_pos l)
  rw [LOOP_mul_stages] at hlast
  have hstate := congrArg (fun r => unpack r.tx_state) hlast
  simp only [(rounds_digest (inp t0).rx_input (inp t0).rx_state 64 (Nat.le_refl _)).1] at hstate
  have hfb : (inp (t0 + 64)).feedback = false := by
    rw [hd.feedback_eq, hd.cnt_add_64 h0]
    rfl
  rw [← hstate, show t0 + 65 = t0 + 64 + 1 from rfl, hx (t0 + 64)]
  simp only [sha256_transform, hfb]
  exact unpack_pack ⟨_, _, _, _, _, _, _, _⟩

/-- Between two phase-0 cycles `tx_hash` does not change. -/
theorem tx_hash_held (hd : Driven l inp) (hx : IsRun (sha256_transform l) inp x)
    {t0 t : Nat} (h0 : (inp t0).cnt = 0) (hlo : t0 + 65 ≤ t) (hhi : t ≤ t0 + 64 + LOOP l) :
    (x t).tx_hash = (x (t0 + 65)).tx_hash := by
  refine held (f := fun u => (x u).tx_hash) hlo (fun u hu hut => ?_)
  obtain ⟨k, rfl⟩ : ∃ k, u = t0 + 64 + k := ⟨u - (t0 + 64), by omega⟩
  have hzero : (inp (t0 + 64)).cnt.toNat = 0 := by rw [hd.cnt_add_64 h0]; rfl
  have hphase : (inp (t0 + 64 + k)).cnt.toNat = k := by
    exact (phase_add (fun t => (inp t).cnt.toNat) hd.cnt_succ hzero k).trans
      (Nat.mod_eq_of_lt (by omega))
  have hfb : (inp (t0 + 64 + k)).feedback = true := by
    rw [hd.feedback_eq]
    refine decide_eq_true (fun h => ?_)
    rw [h] at hphase
    have : k = 0 := hphase.symm
    omega
  show (x (t0 + 64 + k + 1)).tx_hash = (x (t0 + 64 + k)).tx_hash
  rw [hx (t0 + 64 + k)]
  simp [sha256_transform, hfb]

/-- The two facts together, on a chaining value that is held for 64 cycles. -/
theorem tx_hash_of_held_state (hd : Driven l inp) (hx : IsRun (sha256_transform l) inp x)
    {t0 t : Nat} (h0 : (inp t0).cnt = 0)
    (hst : (inp t0).rx_state = (inp (t0 + 64)).rx_state)
    (hlo : t0 + 65 ≤ t) (hhi : t ≤ t0 + 64 + LOOP l) :
    (x t).tx_hash = pack (compress (unpack (inp t0).rx_state) (IDX (inp t0).rx_input)) := by
  apply unpack_injective
  rw [unpack_pack, tx_hash_held hd hx h0 hlo hhi, tx_hash_latched hd hx h0, ← hst]
  rfl

end Pipeline

/-- **`sha256_transform` is a pipelined SHA-256 compression function**, for every
    unrolling, every initial register contents and every input stream. -/
theorem tx_hash_eq_compress (l : Fin 6) (s : Sha256Transform l) (inp : Nat → TransformIn)
    (hd : Driven l inp) (t0 : Nat) (h0 : (inp t0).cnt = 0)
    (hst : (inp t0).rx_state = (inp (t0 + 64)).rx_state) (t : Nat)
    (hlo : t0 + 65 ≤ t) (hhi : t ≤ t0 + 64 + LOOP l) :
    unpack (run (sha256_transform l) s inp t).tx_hash
      = compress (unpack (inp t0).rx_state) (IDX (inp t0).rx_input) := by
  rw [tx_hash_of_held_state hd (isRun_run _ s inp) h0 hst hlo hhi, unpack_pack]

/-- A stream of distinct blocks under one chaining value. -/
def countingBlocks (l : Fin 6) (t : Nat) : TransformIn where
  feedback := decide (BitVec.ofNat 6 (t % LOOP l) ≠ 0)
  cnt := BitVec.ofNat 6 (t % LOOP l)
  rx_state := 0
  rx_input := BitVec.ofNat 512 t

theorem driven_countingBlocks (l : Fin 6) : Driven l (countingBlocks l) := by
  have hlt : ∀ t, (countingBlocks l t).cnt.toNat = t % LOOP l := by
    intro t
    have h1 : t % LOOP l < LOOP l := Nat.mod_lt t (LOOP_pos l)
    have h2 := LOOP_le l
    exact (BitVec.toNat_ofNat _ _).trans (Nat.mod_eq_of_lt (by omega))
  refine ⟨fun t => ?_, fun t => ?_, fun t => rfl⟩
  · rw [hlt]
    exact Nat.mod_lt t (LOOP_pos l)
  · rw [hlt, hlt, Nat.mod_add_mod]

/-- The block sampled at cycle 32 of a fully folded instance, at the last cycle
    its hash is present. -/
theorem tx_hash_eq_compress_counting :
    unpack (run (sha256_transform 5) ⟨fun _ => ⟨0, 0⟩, 0⟩ (countingBlocks 5) 128).tx_hash
      = compress (unpack 0) (IDX (BitVec.ofNat 512 32)) :=
  tx_hash_eq_compress 5 ⟨fun _ => ⟨0, 0⟩, 0⟩ (countingBlocks 5) (driven_countingBlocks 5) 32
    (by decide) rfl 128 (by decide) (by decide)

end Transform
