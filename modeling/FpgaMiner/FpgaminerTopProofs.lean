import FpgaMiner.TransformProofs

/-! # `fpgaminer_top` — one mining core

    The module of `fpgaminer_top.v`, outside its `SIM` branches: a phase counter
    shared by two `sha256_transform` instances in series, a free-running nonce
    register, and the registers that turn the top word of the second hash into a
    ticket.  A nonce that was hashed is reported some 130 cycles later, by
    subtracting a constant from the nonce register of that moment.

    * the wires of both instances drive them as they must be driven
      (`driven_uut`, `driven_uut2`);
    * **`ticket_of_block`** — the ticket bit follows the block sampled
      `130 + LOOP` cycles before, through both pipelines;
    * **`nonce_count`** and `goldenOffset_eq` — what the nonce register has
      counted meanwhile is the constant of each unrolling;
    * **`golden_window`** puts the two together for one block and no restart while
      it is in flight, **`core_reports_exactly`** for every block after a start. -/

namespace FpgaminerTop

open ClockedCircuit FoldedPipeline BitSlice Sha256 Transform

/-! ## The module -/

/-- The registers of `fpgaminer_top`, with those of its two instances. -/
structure Core (l : Fin 6) where
  nonce_out : BitVec 33
  state : BitVec 256
  data : BitVec 512
  nonce : BitVec 32
  cnt : BitVec 6
  feedback : Bool
  uut : Sha256Transform l
  uut2 : Sha256Transform l
  midstate_buf : BitVec 256
  data_buf : BitVec 256
  golden_nonce : BitVec 32
  start : Bool
  is_golden_ticket : Bool
  feedback_d1 : Bool

/-- The input ports of `fpgaminer_top`. -/
structure CoreIn where
  header_data_input : BitVec 768
  load_done : Bool

/-- By how much the nonce is ahead of the header whose hash is seen. -/
def GOLDEN_NONCE_OFFSET (l : Fin 6) : BitVec 32 := (1#32 <<< (7 - l.val)) + 1#32

variable {l : Fin 6}

/-- The counter of the turns of one block, back at zero after the last one. -/
def cnt_next (c : Core l) : BitVec 6 :=
  if LOOP l = 1 then 0 else (c.cnt + 1) &&& (BitVec.ofNat 6 (LOOP l) - 1)

/-- The hashers take their own output again, until the next block is due. -/
def feedback_next (c : Core l) : Bool :=
  if LOOP l = 1 then false else decide (cnt_next c ≠ 0)

/-- The nonce, one further with every block. -/
def nonce_next (c : Core l) : BitVec 32 :=
  if feedback_next c then c.nonce else c.nonce + 1

/-- The padding of an 80-byte message in the second block. -/
def headerPadding : BitVec 384 :=
  0x000002800000000000000000000000000000000000000000000000000000000000000000000000000000000080000000#384

/-- The padding of a 32-byte message. -/
def hashPadding : BitVec 256 :=
  0x0000010000000000000000000000000000000000000000000000000080000000#256

/-- `H7,...,H0` -/
def initialState : BitVec 256 :=
  0x5be0cd191f83d9ab9b05688c510e527fa54ff53a3c6ef372bb67ae856a09e667#256

/-- The ports of `uut`. -/
def uutIn (c : Core l) : TransformIn where
  feedback := c.feedback
  cnt := c.cnt
  rx_state := c.state
  rx_input := c.data

/-- The ports of `uut2`, which hashes the hash of `uut`. -/
def uut2In (c : Core l) : TransformIn where
  feedback := c.feedback
  cnt := c.cnt
  rx_state := initialState
  rx_input := hashPadding ++ c.uut.tx_hash

/-- What is subtracted from the nonce register when a ticket is seen. -/
def goldenOffset (l : Fin 6) : BitVec 32 :=
  if LOOP l = 1 then 131 else if LOOP l = 2 then 66 else GOLDEN_NONCE_OFFSET l

/-- The clock edge of `fpgaminer_top`.  Where the source assigns a register more
    than once in the block, the last assignment that is executed wins. -/
def fpgaminer_top (l : Fin 6) (c : Core l) (i : CoreIn) : Core l where
  -- the ticket bit overrides the reset on `start`; the low bits are always written
  nonce_out :=
    (if c.is_golden_ticket then 1#1 else if c.start then 0#1 else c.nonce_out.extractLsb' 32 1)
      ++ c.golden_nonce
  state := c.midstate_buf
  data := headerPadding ++ nonce_next c ++ c.data_buf.extractLsb' 0 96
  nonce := if c.start then i.header_data_input.extractLsb' 352 32 else nonce_next c
  cnt := cnt_next c
  feedback := feedback_next c
  uut := sha256_transform l c.uut (uutIn c)
  uut2 := sha256_transform l c.uut2 (uut2In c)
  midstate_buf := if c.start then i.header_data_input.extractLsb' 0 256 else c.midstate_buf
  -- `header_data_input[767:256]` truncated to the width of the register
  data_buf := if c.start then i.header_data_input.extractLsb' 256 256 else c.data_buf
  golden_nonce :=
    if c.is_golden_ticket then c.nonce - goldenOffset l else if c.start then 0 else c.golden_nonce
  -- `start <= 1'b0` comes after `start <= 1'b1`
  start := if c.start then false else if i.load_done then true else c.start
  is_golden_ticket := decide (c.uut2.tx_hash.extractLsb' 224 32 = 0) && !c.feedback_d1
  feedback_d1 := c.feedback

/-- Without a start the latched work is kept and the nonce register goes on. -/
theorem edge_of_not_start {c : Core l} (i : CoreIn) (hs : c.start = false) :
    (fpgaminer_top l c i).midstate_buf = c.midstate_buf ∧
    (fpgaminer_top l c i).data_buf = c.data_buf ∧
    (fpgaminer_top l c i).nonce = nonce_next c := by
  simp [fpgaminer_top, hs]

/-- A start latches the header and its nonce. -/
theorem edge_of_start {c : Core l} (i : CoreIn) (hs : c.start = true) :
    (fpgaminer_top l c i).midstate_buf = i.header_data_input.extractLsb' 0 256 ∧
    (fpgaminer_top l c i).data_buf = i.header_data_input.extractLsb' 256 256 ∧
    (fpgaminer_top l c i).nonce = i.header_data_input.extractLsb' 352 32 := by
  simp [fpgaminer_top, hs]

/-- A core starts in the cycle after `load_done`, unless it has just started. -/
theorem start_edge (c : Core l) (i : CoreIn) :
    (fpgaminer_top l c i).start = (!c.start && i.load_done) := by
  show (if c.start then false else if i.load_done then true else c.start) = _
  cases c.start <;> cases i.load_done <;> rfl

/-- A ticket copies the nonce less the offset. -/
theorem golden_nonce_of_ticket {c : Core l} (i : CoreIn) (hg : c.is_golden_ticket = true) :
    (fpgaminer_top l c i).golden_nonce = c.nonce - goldenOffset l := by
  simp [fpgaminer_top, hg]

/-- Without a ticket or a start the golden nonce stays. -/
theorem golden_nonce_kept {c : Core l} (i : CoreIn) (hg : c.is_golden_ticket = false)
    (hs : c.start = false) : (fpgaminer_top l c i).golden_nonce = c.golden_nonce := by
  simp [fpgaminer_top, hg, hs]

/-- The declared initial values; the registers of the two instances have none. -/
structure PowerUp (c : Core l) : Prop where
  nonce_out : c.nonce_out = 0
  state : c.state = 0
  data : c.data = 0
  nonce : c.nonce = 0
  cnt : c.cnt = 0
  feedback : c.feedback = false
  midstate_buf : c.midstate_buf = 0
  data_buf : c.data_buf = 0
  golden_nonce : c.golden_nonce = 0
  start : c.start = false
  is_golden_ticket : c.is_golden_ticket = false
  feedback_d1 : c.feedback_d1 = true

/-- A core at power-up, with cleared pipelines. -/
def poweredCore (l : Fin 6) : Core l where
  nonce_out := 0
  state := 0
  data := 0
  nonce := 0
  cnt := 0
  feedback := false
  uut := ⟨fun _ => ⟨0, 0⟩, 0⟩
  uut2 := ⟨fun _ => ⟨0, 0⟩, 0⟩
  midstate_buf := 0
  data_buf := 0
  golden_nonce := 0
  start := false
  is_golden_ticket := false
  feedback_d1 := true

/-- The core is powered up. -/
theorem powerUp_poweredCore (l : Fin 6) : PowerUp (poweredCore l) :=
  ⟨rfl, rfl, rfl, rfl, rfl, rfl, rfl, rfl, rfl, rfl, rfl, rfl⟩

/-! ## The phase of the counter -/

/-- The relation of `cnt` and `feedback` in every reachable state. -/
def Phase (c : Core l) : Prop :=
  c.cnt.toNat < LOOP l ∧ c.feedback = decide (c.cnt ≠ 0)

/-- The counter goes round in the turns of a block. -/
theorem cnt_next_toNat {c : Core l} (h : Phase c) :
    (cnt_next c).toNat = (c.cnt.toNat + 1) % LOOP l := by
  obtain ⟨hlt, -⟩ := h
  unfold cnt_next
  by_cases h1 : LOOP l = 1
  · rw [if_pos h1, h1, Nat.mod_one]
    rfl
  · rw [if_neg h1]
    have hle := LOOP_le l
    have hpos := LOOP_pos l
    have hadd : (c.cnt + 1).toNat = c.cnt.toNat + 1 := by
      rw [BitVec.toNat_add]
      exact Nat.mod_eq_of_lt (by show c.cnt.toNat + 1 < 2 ^ 6; omega)
    have hmask : (BitVec.ofNat 6 (LOOP l) - 1).toNat = LOOP l - 1 := by
      rw [BitVec.toNat_sub, BitVec.toNat_ofNat, Nat.mod_eq_of_lt (by omega : LOOP l < 2 ^ 6)]
      show (2 ^ 6 - 1 + LOOP l) % 2 ^ 6 = LOOP l - 1
      omega
    rw [BitVec.toNat_and, hadd, hmask, LOOP_eq, Nat.and_two_pow_sub_one_eq_mod]

/-- There is feedback except at the start of a block. -/
theorem feedback_next_eq (c : Core l) : feedback_next c = decide (cnt_next c ≠ 0) := by
  unfold feedback_next
  by_cases h1 : LOOP l = 1
  · rw [if_pos h1, cnt_next, if_pos h1]
    rfl
  · rw [if_neg h1]

/-- An edge keeps the phase. -/
theorem phase_step {c : Core l} (i : CoreIn) (h : Phase c) : Phase (fpgaminer_top l c i) := by
  refine ⟨?_, feedback_next_eq c⟩
  show (cnt_next c).toNat < LOOP l
  rw [cnt_next_toNat h]
  exact Nat.mod_lt _ (LOOP_pos l)

/-- After power-up the counter is in phase. -/
theorem PowerUp.phase {c : Core l} (h : PowerUp c) : Phase c := by
  constructor
  · rw [h.cnt]
    exact LOOP_pos l
  · rw [h.feedback, h.cnt]
    rfl

/-! ## The specification -/

/-- The double SHA-256 of a header whose first block has been compressed to
    `midstate`, from the last three words `d` before the nonce and the nonce. -/
def doubleCompress (midstate : BitVec 256) (d : BitVec 96) (nonce : BitVec 32) : BitVec 256 :=
  let first := compress (unpack midstate) (IDX (headerPadding ++ nonce ++ d))
  pack (compress initial (IDX (hashPadding ++ pack first)))

/-- `nonce` solves the work: bits 255:224 of the double compression are zero. -/
def Solves (midstate : BitVec 256) (d : BitVec 96) (nonce : BitVec 32) : Prop :=
  (doubleCompress midstate d nonce).extractLsb' 224 32 = 0

/-- The state of the second hash is the standard's initial value. -/
theorem unpack_initialState : unpack initialState = initial := by
  decide +kernel

/-- The two instances in series compute the specification. -/
theorem doubleCompress_eq (midstate : BitVec 256) (d : BitVec 96) (nonce : BitVec 32) :
    doubleCompress midstate d nonce
      = transformHash initialState
          (hashPadding ++ transformHash midstate (headerPadding ++ nonce ++ d)) := by
  rw [transformHash_eq, transformHash_eq, unpack_initialState]
  rfl

instance (midstate : BitVec 256) (d : BitVec 96) (nonce : BitVec 32) :
    Decidable (Solves midstate d nonce) :=
  decidable_of_iff ((transformHash initialState (hashPadding ++ transformHash midstate
    (headerPadding ++ nonce ++ d))).extractLsb' 224 32 = 0) (by rw [Solves, doubleCompress_eq])

/-- The midstate of the header with a known solution. -/
def knownMidstate : BitVec 256 :=
  0x228ea4732a3c9ba860c009cda7252b9161a5e75ec8c582a5f106abb3af41f790#256

/-- Its last three words before the nonce. -/
def knownData : BitVec 96 := 0x2194261a9395e64dbed17115#96

/-- The 768-bit header as the simulation scripts load it. -/
def knownHeader (nonce : BitVec 32) : BitVec 768 :=
  headerPadding ++ nonce ++ knownData ++ knownMidstate

/-- The solution noted in the test bench. -/
theorem known_solves : Solves knownMidstate knownData 0x0e33337a#32 := by
  decide +kernel

section Run

variable {inp : Nat → CoreIn} {c : Nat → Core l}

/-- The phase is kept in a run. -/
theorem phase_run (hc : IsRun (fpgaminer_top l) inp c) (h0 : Phase (c 0)) (t : Nat) :
    Phase (c t) :=
  hc.invariant h0 (fun _ i h => phase_step i h) t

/-- The counter in a run. -/
theorem cnt_succ (hc : IsRun (fpgaminer_top l) inp c) (h0 : Phase (c 0)) (t : Nat) :
    (c (t + 1)).cnt.toNat = ((c t).cnt.toNat + 1) % LOOP l := by
  rw [hc t]
  exact cnt_next_toNat (phase_run hc h0 t)

/-- The first hasher is driven as its specification asks. -/
theorem driven_uut (hc : IsRun (fpgaminer_top l) inp c) (h0 : Phase (c 0)) :
    Driven l (fun t => uutIn (c t)) :=
  ⟨fun t => (phase_run hc h0 t).1, cnt_succ hc h0, fun t => (phase_run hc h0 t).2⟩

/-- And so is the second. -/
theorem driven_uut2 (hc : IsRun (fpgaminer_top l) inp c) (h0 : Phase (c 0)) :
    Driven l (fun t => uut2In (c t)) :=
  ⟨fun t => (phase_run hc h0 t).1, cnt_succ hc h0, fun t => (phase_run hc h0 t).2⟩

/-- The first hasher runs inside the core. -/
theorem isRun_uut (hc : IsRun (fpgaminer_top l) inp c) :
    IsRun (sha256_transform l) (fun t => uutIn (c t)) (fun t => (c t).uut) :=
  hc.component Core.uut (fun s _ => uutIn s) (fun _ _ => rfl)

/-- And so does the second. -/
theorem isRun_uut2 (hc : IsRun (fpgaminer_top l) inp c) :
    IsRun (sha256_transform l) (fun t => uut2In (c t)) (fun t => (c t).uut2) :=
  hc.component Core.uut2 (fun s _ => uut2In s) (fun _ _ => rfl)

/-- Only a load raises `start`. -/
theorem start_low (hc : IsRun (fpgaminer_top l) inp c) {a b : Nat}
    (hload : ∀ t, a ≤ t → t < b → (inp t).load_done = false) :
    ∀ t, a < t → t ≤ b → (c t).start = false := by
  intro t hat htb
  obtain ⟨v, rfl⟩ : ∃ v, t = v + 1 := ⟨t - 1, by omega⟩
  rw [hc v, start_edge, hload v (by omega) (by omega), Bool.and_false]

/-- Blocks start every `LOOP` edges. -/
theorem cnt_zero_iff (hc : IsRun (fpgaminer_top l) inp c) (h0 : Phase (c 0)) {t0 : Nat}
    (hz : (c t0).cnt = 0) (k : Nat) : (c (t0 + k)).cnt = 0 ↔ LOOP l ∣ k := by
  have hzero : (c t0).cnt.toNat = 0 := by rw [hz]; rfl
  rw [← phase_zero_iff (fun t => (c t).cnt.toNat) (cnt_succ hc h0) hzero k]
  exact ⟨fun h => by rw [h]; rfl, fun h => BitVec.eq_of_toNat_eq h⟩

/-- One way of it. -/
theorem cnt_zero_add (hc : IsRun (fpgaminer_top l) inp c) (h0 : Phase (c 0)) {t0 : Nat}
    (hz : (c t0).cnt = 0) {k : Nat} (hk : LOOP l ∣ k) : (c (t0 + k)).cnt = 0 :=
  (cnt_zero_iff hc h0 hz k).mpr hk

/-- The counter after some edges. -/
theorem cnt_add (hc : IsRun (fpgaminer_top l) inp c) (h0 : Phase (c 0)) (t m : Nat) :
    (c (t + m)).cnt.toNat = ((c t).cnt.toNat + m) % LOOP l := by
  induction m with
  | zero => exact (Nat.mod_eq_of_lt (phase_run hc h0 t).1).symm
  | succ m ih => rw [← Nat.add_assoc, cnt_succ hc h0, ih, Nat.mod_add_mod, Nat.add_assoc]

/-- The phase is the same a multiple of `LOOP` cycles earlier. -/
theorem cnt_zero_of_add (hc : IsRun (fpgaminer_top l) inp c) (h0 : Phase (c 0)) {t0 k : Nat}
    (hk : LOOP l ∣ k) (hz : (c (t0 + k)).cnt = 0) : (c t0).cnt = 0 := by
  have hm := cnt_add hc h0 t0 k
  rw [hz, Nat.add_mod, Nat.mod_eq_zero_of_dvd hk, Nat.add_zero, Nat.mod_mod,
    Nat.mod_eq_of_lt (phase_run hc h0 t0).1] at hm
  exact BitVec.eq_of_toNat_eq hm.symm

/-- A phase-0 cycle is never more than `LOOP` cycles away. -/
theorem cnt_zero_soon (hc : IsRun (fpgaminer_top l) inp c) (h0 : Phase (c 0)) (t : Nat) :
    ∃ m, (c (t + m)).cnt = 0 := by
  refine ⟨LOOP l - (c t).cnt.toNat, BitVec.eq_of_toNat_eq ?_⟩
  rw [cnt_add hc h0, Nat.add_sub_cancel' (Nat.le_of_lt (phase_run hc h0 t).1), Nat.mod_self]
  rfl

/-! ## From block to ticket -/

/-- **The ticket follows the block** through both pipelines: the hash register of
    the first instance is sampled by the second in its next phase-0 cycle. -/
theorem ticket_of_block (hc : IsRun (fpgaminer_top l) inp c) (h0 : Phase (c 0)) {t0 : Nat}
    (hz : (c t0).cnt = 0) (hst : (c t0).state = (c (t0 + 64)).state) :
    (c (t0 + 129 + LOOP l)).uut2.tx_hash
      = pack (compress initial (IDX (hashPadding
          ++ pack (compress (unpack (c t0).state) (IDX (c t0).data))))) ∧
    (c (t0 + 130 + LOOP l)).is_golden_ticket
      = decide ((c (t0 + 129 + LOOP l)).uut2.tx_hash.extractLsb' 224 32 = 0) := by
  have hpos := LOOP_pos l
  have h1 : (c (t0 + 64 + LOOP l)).cnt = 0 := by
    rw [Nat.add_assoc]
    exact cnt_zero_add hc h0 hz (Nat.dvd_add (LOOP_dvd_64 l) (Nat.dvd_refl _))
  have hfirst : (c (t0 + 64 + LOOP l)).uut.tx_hash
      = pack (compress (unpack (c t0).state) (IDX (c t0).data)) :=
    tx_hash_of_held_state (driven_uut hc h0) (isRun_uut hc) hz hst (by omega)
      (Nat.le_refl _)
  have hsecond : (c (t0 + 64 + LOOP l + 65)).uut2.tx_hash
      = pack (compress (unpack initialState)
          (IDX (hashPadding ++ (c (t0 + 64 + LOOP l)).uut.tx_hash))) :=
    tx_hash_of_held_state (driven_uut2 hc h0) (isRun_uut2 hc) h1 rfl (Nat.le_refl _)
      (by omega)
  rw [hfirst, unpack_initialState] at hsecond
  rw [show t0 + 129 + LOOP l = t0 + 64 + LOOP l + 65 by omega,
    show t0 + 130 + LOOP l = t0 + 64 + LOOP l + 65 + 1 by omega]
  refine ⟨hsecond, ?_⟩
  -- the extra register on `feedback` lets exactly this cycle through
  have hfb : (c (t0 + 64 + LOOP l + 65)).feedback_d1 = false := by
    rw [show t0 + 64 + LOOP l + 65 = t0 + 64 + LOOP l + 64 + 1 from rfl,
      hc (t0 + 64 + LOOP l + 64)]
    show (c (t0 + 64 + LOOP l + 64)).feedback = false
    rw [(phase_run hc h0 _).2, cnt_zero_add hc h0 h1 (LOOP_dvd_64 l)]
    rfl
  rw [hc (t0 + 64 + LOOP l + 65)]
  show (decide _ && !(c (t0 + 64 + LOOP l + 65)).feedback_d1) = decide _
  rw [hfb, Bool.not_false, Bool.and_true]

/-- A ticket comes two cycles after a phase-0 cycle. -/
theorem ticket_phase (hc : IsRun (fpgaminer_top l) inp c) (h0 : Phase (c 0)) {t : Nat}
    (h : (c (t + 2)).is_golden_ticket = true) : (c t).cnt = 0 := by
  rw [hc (t + 1)] at h
  have hfb : (c (t + 1)).feedback_d1 = false := by
    have hand := (Bool.and_eq_true _ _).mp h
    exact Bool.not_eq_true' _ ▸ hand.2
  rw [hc t] at hfb
  have hdec : decide ((c t).cnt ≠ 0) = false := (phase_run hc h0 t).2 ▸ hfb
  exact Decidable.not_not.mp (of_decide_eq_false hdec)

/-- The block behind a ticket was sampled `130 + LOOP` cycles before. -/
theorem ticket_entry (hc : IsRun (fpgaminer_top l) inp c) (h0 : Phase (c 0)) {t0 : Nat}
    (h : (c (t0 + 130 + LOOP l)).is_golden_ticket = true) : (c t0).cnt = 0 := by
  have hz : (c (t0 + (128 + LOOP l))).cnt = 0 :=
    ticket_phase hc h0 (by rw [show t0 + (128 + LOOP l) + 2 = t0 + 130 + LOOP l by omega]; exact h)
  refine cnt_zero_of_add hc h0 (Nat.dvd_add ?_ (Nat.dvd_refl _)) hz
  exact Nat.dvd_trans (LOOP_dvd_64 l) (by decide)

/-! ## The nonce register -/

/-- The nonce goes on when a block starts. -/
theorem nonce_step (hc : IsRun (fpgaminer_top l) inp c) {t : Nat}
    (hs : (c t).start = false) :
    (c (t + 1)).nonce = if (c (t + 1)).cnt = 0 then (c t).nonce + 1 else (c t).nonce := by
  obtain ⟨-, -, hnonce⟩ := edge_of_not_start (inp t) hs
  rw [hc t, hnonce]
  show nonce_next (c t) = if cnt_next (c t) = 0 then (c t).nonce + 1 else (c t).nonce
  rw [nonce_next, feedback_next_eq]
  by_cases hz : cnt_next (c t) = 0 <;> simp [hz]

/-- **The nonce register counts the phase-0 cycles**, modulo 2^32, as long as no
    start reloads it. -/
theorem nonce_count (hc : IsRun (fpgaminer_top l) inp c) (h0 : Phase (c 0)) {t0 : Nat}
    (hz : (c t0).cnt = 0) :
    ∀ k, (∀ u, t0 ≤ u → u < t0 + k → (c u).start = false) →
      (c (t0 + k)).nonce = (c t0).nonce + BitVec.ofNat 32 (k / LOOP l) := by
  intro k
  induction k with
  | zero =>
      intro _
      rw [Nat.zero_div, Nat.add_zero]
      exact (BitVec.add_zero _).symm
  | succ k ih =>
      intro hno
      have hprev := ih (fun u h1 h2 => hno u h1 (by omega))
      rw [← Nat.add_assoc, nonce_step hc (hno (t0 + k) (by omega) (by omega)), hprev]
      have hphase := cnt_zero_iff hc h0 hz (k + 1)
      rw [← Nat.add_assoc] at hphase
      by_cases hd : LOOP l ∣ k + 1
      · rw [if_pos (hphase.mpr hd), Nat.succ_div_of_dvd hd, BitVec.ofNat_add,
          ← BitVec.add_assoc]
        rfl
      · rw [if_neg (fun h => hd (hphase.mp h)), Nat.succ_div_of_not_dvd hd]

/-- **All three offset constants are the phase-0 cycles of `130 + LOOP` cycles.** -/
theorem goldenOffset_eq (l : Fin 6) :
    goldenOffset l = BitVec.ofNat 32 ((130 + LOOP l) / LOOP l) := by
  revert l
  decide

/-! ## The latched work -/

/-- Without a start the latched work is kept. -/
theorem work_held (hc : IsRun (fpgaminer_top l) inp c) {a b : Nat} (hab : a ≤ b)
    (hno : ∀ u, a ≤ u → u < b → (c u).start = false) :
    (c b).midstate_buf = (c a).midstate_buf ∧ (c b).data_buf = (c a).data_buf := by
  constructor
  · refine held (f := fun t => (c t).midstate_buf) hab (fun t h1 h2 => ?_)
    show (c (t + 1)).midstate_buf = (c t).midstate_buf
    rw [hc t, (edge_of_not_start (inp t) (hno t h1 h2)).1]
  · refine held (f := fun t => (c t).data_buf) hab (fun t h1 h2 => ?_)
    show (c (t + 1)).data_buf = (c t).data_buf
    rw [hc t, (edge_of_not_start (inp t) (hno t h1 h2)).2.1]

/-- The block presented in the cycle after one without a start: the latched work
    and the nonce register. -/
theorem presented_block (hc : IsRun (fpgaminer_top l) inp c) {u : Nat}
    (hs : (c u).start = false) :
    (c (u + 1)).state = (c (u + 1)).midstate_buf ∧
    (c (u + 1)).data = headerPadding ++ (c (u + 1)).nonce
      ++ (c (u + 1)).data_buf.extractLsb' 0 96 := by
  obtain ⟨hmid, hdata, hnonce⟩ := edge_of_not_start (inp u) hs
  rw [hc u, hmid, hdata, hnonce]
  exact ⟨rfl, rfl⟩

/-- The nonce word of a presented block. -/
theorem nonce_of_block (n : BitVec 32) (d : BitVec 96) :
    (headerPadding ++ n ++ d).extractLsb' 96 32 = n := by
  rw [BitVec.extractLsb'_append_eq_of_le (by decide)]
  exact BitVec.extractLsb'_append_eq_right

/-- **One block, no restart while it is in flight**: the ticket that comes
    `130 + LOOP` cycles later says whether the block's nonce solves the latched
    work, and then the nonce is reported. -/
theorem golden_window (hc : IsRun (fpgaminer_top l) inp c) (h0 : Phase (c 0)) {u : Nat}
    (hz : (c (u + 1)).cnt = 0)
    (hno : ∀ v, u ≤ v → v < u + 131 + LOOP l → (c v).start = false) :
    ((c (u + 131 + LOOP l)).is_golden_ticket = true ↔
      Solves (c (u + 1)).midstate_buf ((c (u + 1)).data_buf.extractLsb' 0 96)
        (c (u + 1)).nonce) ∧
    ((c (u + 131 + LOOP l)).is_golden_ticket = true →
      (c (u + 132 + LOOP l)).golden_nonce = (c (u + 1)).nonce) := by
  obtain ⟨hstate, hdata⟩ := presented_block hc (hno u (by omega) (by omega))
  constructor
  · have hst : (c (u + 1)).state = (c (u + 1 + 64)).state := by
      obtain ⟨hstate64, -⟩ := presented_block hc (hno (u + 64) (by omega) (by omega))
      rw [hstate, show u + 1 + 64 = u + 64 + 1 by omega, hstate64]
      exact (work_held hc (by omega) (fun v h1 h2 => hno v (by omega) (by omega))).1.symm
    obtain ⟨hhash, hticket⟩ := ticket_of_block hc h0 hz hst
    rw [show u + 131 + LOOP l = u + 1 + 130 + LOOP l by omega, hticket, hhash, hstate, hdata,
      decide_eq_true_iff]
    exact Iff.rfl
  · intro hgold
    have hcount := nonce_count hc h0 hz (130 + LOOP l)
      (fun v h1 h2 => hno v (by omega) (by omega))
    rw [show u + 1 + (130 + LOOP l) = u + 131 + LOOP l by omega, ← goldenOffset_eq] at hcount
    rw [show u + 132 + LOOP l = u + 131 + LOOP l + 1 by omega, hc (u + 131 + LOOP l),
      golden_nonce_of_ticket _ hgold, hcount, BitVec.add_sub_cancel]

end Run

/-- **The core reports exactly the right nonces, at every unrolling.**  From any
    register contents at the cycle `S` of the last start: the ticket of the block
    sampled at a phase-0 cycle `t0` comes at `t0 + 130 + LOOP`, its nonce is
    reported in the next cycle, and no other ticket comes. -/
theorem core_reports_exactly (l : Fin 6) (s : Core l) (hs : Phase s) (inp : Nat → CoreIn)
    (S : Nat) (hno : ∀ t, S < t → (run (fpgaminer_top l) s inp t).start = false) :
    (∀ t0, S + 2 ≤ t0 → (run (fpgaminer_top l) s inp t0).cnt = 0 →
      ((run (fpgaminer_top l) s inp (t0 + 130 + LOOP l)).is_golden_ticket = true ↔
        (doubleCompress (run (fpgaminer_top l) s inp t0).midstate_buf
          ((run (fpgaminer_top l) s inp t0).data_buf.extractLsb' 0 96)
          ((run (fpgaminer_top l) s inp t0).data.extractLsb' 96 32)).extractLsb' 224 32 = 0) ∧
      ((run (fpgaminer_top l) s inp (t0 + 130 + LOOP l)).is_golden_ticket = true →
        (run (fpgaminer_top l) s inp (t0 + 131 + LOOP l)).golden_nonce
          = (run (fpgaminer_top l) s inp t0).data.extractLsb' 96 32)) ∧
    (∀ t, S + 132 + LOOP l ≤ t → (run (fpgaminer_top l) s inp t).is_golden_ticket = true →
      ∃ t0, S + 2 ≤ t0 ∧ (run (fpgaminer_top l) s inp t0).cnt = 0 ∧ t = t0 + 130 + LOOP l) := by
  have hc := isRun_run (fpgaminer_top l) s inp
  generalize hrun : run (fpgaminer_top l) s inp = c at hc hno ⊢
  have h0 : Phase (c 0) := by rw [← hrun]; exact hs
  constructor
  · intro t0 ht0 hz
    obtain ⟨u, rfl⟩ : ∃ u, t0 = u + 1 := ⟨t0 - 1, by omega⟩
    obtain ⟨hiff, hnonce⟩ := golden_window hc h0 hz (fun v h1 _ => hno v (by omega))
    obtain ⟨-, hdata⟩ := presented_block hc (hno u (by omega))
    have hn : (c (u + 1)).data.extractLsb' 96 32 = (c (u + 1)).nonce := by
      rw [hdata, nonce_of_block]
    rw [hn, show u + 1 + 130 + LOOP l = u + 131 + LOOP l by omega,
      show u + 1 + 131 + LOOP l = u + 132 + LOOP l by omega]
    exact ⟨hiff, hnonce⟩
  · intro t ht hgold
    obtain ⟨t0, rfl⟩ : ∃ t0, t = t0 + 130 + LOOP l := ⟨t - (130 + LOOP l), by omega⟩
    exact ⟨t0, by omega, ticket_entry hc h0 hgold, rfl⟩

/-- A core with a cleared pipeline in the cycle of its start. -/
def startingCore : Core 5 where
  nonce_out := 0
  state := 0
  data := 0
  nonce := 0
  cnt := 0
  feedback := false
  uut := ⟨fun _ => ⟨0, 0⟩, 0⟩
  uut2 := ⟨fun _ => ⟨0, 0⟩, 0⟩
  midstate_buf := 0
  data_buf := 0
  golden_nonce := 0
  start := true
  is_golden_ticket := false
  feedback_d1 := true

/-- The known header, one nonce before its solution. -/
def knownInput (_ : Nat) : CoreIn where
  header_data_input := knownHeader 0x0e333379
  load_done := false

/-- The known solution is hashed at cycle 32, seen at cycle 194 and reported at
    cycle 195. -/
theorem core_reports_exactly_known :
    (run (fpgaminer_top 5) startingCore knownInput 194).is_golden_ticket = true ∧
    (run (fpgaminer_top 5) startingCore knownInput 195).golden_nonce = 0x0e33337a := by
  have hlow : ∀ t, 0 < t → (run (fpgaminer_top 5) startingCore knownInput t).start = false :=
    fun t ht => start_low (isRun_run _ _ _) (fun _ _ _ => rfl) t ht (Nat.le_refl t)
  have h := (core_reports_exactly 5 startingCore ⟨by decide, rfl⟩ knownInput 0 hlow).1 32
    (by decide) (by decide +kernel)
  have hn : (run (fpgaminer_top 5) startingCore knownInput 32).data.extractLsb' 96 32
      = 0x0e33337a := by decide +kernel
  have hm : (run (fpgaminer_top 5) startingCore knownInput 32).midstate_buf
      = knownMidstate := by decide +kernel
  have hd : (run (fpgaminer_top 5) startingCore knownInput 32).data_buf.extractLsb' 0 96
      = knownData := by decide +kernel
  rw [hn, hm, hd] at h
  have hgold := h.1.mpr known_solves
  exact ⟨hgold, h.2 hgold⟩

end FpgaminerTop
