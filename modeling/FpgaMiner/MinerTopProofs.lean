import FpgaMiner.FpgaminerTopProofs
import Mathlib.Data.Fin.VecNotation

/-! # `miner_top` — the bus-facing state machine over four cores

    The module of `miner_top.v`: a byte-wide slave that collects a 768-bit header,
    hands it to four `fpgaminer_top` cores, and copies their nonces into a result
    memory once one of them has a ticket.  One clocked block decides everything by
    a priority chain: a pending start, a control write, a header write, a read, the
    stop state, the idle state.

    * **`miner_top`** is the clock edge, branch by branch as in the source, with
      the two `case` tables transcribed row by row (`writeTable`, `readTable`);
    * **`miner_top_cases`** says once what an edge can do; every later argument
      goes through it;
    * **`Flags`** is the invariant of the five flags (`flags_step`). -/

namespace MinerTop

open ClockedCircuit BitSlice Sha256 Transform FpgaminerTop

/-! ## The module -/

/-- The registers of `miner_top`, with its four cores. -/
structure Miner (l : Fin 6) where
  header_buffer : BitVec 768
  loading : Bool
  load_done : Bool
  start : Bool
  stop : Bool
  read_gold_nonce : Bool
  ticket : Bool
  nonce_ram : Fin 4 → BitVec 32
  result_ram : Fin 4 → BitVec 33
  readdata : BitVec 8
  miner : Fin 4 → Core l

/-- The bus pins of one cycle (`reset` is not read by the module). -/
structure Bus where
  write : Bool
  read : Bool
  chipselect : Bool
  writedata : BitVec 8
  address : BitVec 8
  deriving DecidableEq

/-- The range of nonce values for each miner. -/
def range : BitVec 32 := 1000000000

/-- The slice `NONCEIDX` of a header. -/
def NONCEIDX (h : BitVec 768) : BitVec 32 := h.extractLsb' 352 32

/-- The rows `(address, hi, lo)` of the write table: `header_buffer[hi:lo] <= writedata`. -/
def writeTable : List (Nat × Nat × Nat) := [
  (0, 7, 0), (1, 15, 8), (2, 23, 16), (3, 31, 24), (4, 39, 32), (5, 47, 40),
  (6, 55, 48), (7, 63, 56), (8, 71, 64), (9, 79, 72), (10, 87, 80), (11, 95, 88),
  (12, 103, 96), (13, 111, 104), (14, 119, 112), (15, 127, 120), (16, 135, 128), (17, 143, 136),
  (18, 151, 144), (19, 159, 152), (20, 167, 160), (21, 175, 168), (22, 183, 176), (23, 191, 184),
  (24, 199, 192), (25, 207, 200), (26, 215, 208), (27, 223, 216), (28, 231, 224), (29, 239, 232),
  (30, 247, 240), (31, 255, 248), (32, 263, 256), (33, 271, 264), (34, 279, 272), (35, 287, 280),
  (36, 295, 288), (37, 303, 296), (38, 311, 304), (39, 319, 312), (40, 327, 320), (41, 335, 328),
  (42, 343, 336), (43, 351, 344), (44, 359, 352), (45, 367, 360), (46, 375, 368), (47, 383, 376),
  (48, 391, 384), (49, 399, 392), (50, 407, 400), (51, 415, 408), (52, 423, 416), (53, 431, 424),
  (54, 439, 432), (55, 447, 440), (56, 455, 448), (57, 463, 456), (58, 471, 464), (59, 479, 472),
  (60, 487, 480), (61, 495, 488), (62, 503, 496), (63, 511, 504), (64, 519, 512), (65, 527, 520),
  (66, 535, 528), (67, 543, 536), (68, 551, 544), (69, 559, 552), (70, 567, 560), (71, 575, 568),
  (72, 583, 576), (73, 591, 584), (74, 599, 592), (75, 607, 600), (76, 615, 608), (77, 623, 616),
  (78, 631, 624), (79, 639, 632), (80, 647, 640), (81, 655, 648), (82, 663, 656), (83, 671, 664),
  (84, 679, 672), (85, 687, 680), (86, 695, 688), (87, 703, 696), (88, 711, 704), (89, 719, 712),
  (90, 727, 720), (91, 735, 728), (92, 743, 736), (93, 751, 744), (94, 759, 752), (95, 767, 760)]

/-- The right-hand sides of the read table. -/
inductive ReadCase where
  | header (hi lo : Nat)
  | loadState
  | startState
  | readGoldNonce
  | nonceRam (i : Fin 4) (x : Nat)
  | resultRam (i : Fin 4) (x : Nat)
  | resultTicket (i : Fin 4)
  deriving DecidableEq

/-- The rows of the read table. -/
def readTable : List (Nat × ReadCase) := [
  (0, .header 7 0), (1, .header 15 8), (2, .header 23 16), (3, .header 31 24),
  (4, .header 39 32), (5, .header 47 40), (6, .header 55 48), (7, .header 63 56),
  (8, .header 71 64), (9, .header 79 72), (10, .header 87 80), (11, .header 95 88),
  (12, .header 103 96), (13, .header 111 104), (14, .header 119 112), (15, .header 127 120),
  (16, .header 135 128), (17, .header 143 136), (18, .header 151 144), (19, .header 159 152),
  (20, .header 167 160), (21, .header 175 168), (22, .header 183 176), (23, .header 191 184),
  (24, .header 199 192), (25, .header 207 200), (26, .header 215 208), (27, .header 223 216),
  (28, .header 231 224), (29, .header 239 232), (30, .header 247 240), (31, .header 255 248),
  (32, .header 263 256), (33, .header 271 264), (34, .header 279 272), (35, .header 287 280),
  (36, .header 295 288), (37, .header 303 296), (38, .header 311 304), (39, .header 319 312),
  (40, .header 327 320), (41, .header 335 328), (42, .header 343 336), (43, .header 351 344),
  (44, .header 359 352), (45, .header 367 360), (46, .header 375 368), (47, .header 383 376),
  (48, .header 391 384), (49, .header 399 392), (50, .header 407 400), (51, .header 415 408),
  (52, .header 423 416), (53, .header 431 424), (54, .header 439 432), (55, .header 447 440),
  (56, .header 455 448), (57, .header 463 456), (58, .header 471 464), (59, .header 479 472),
  (60, .header 487 480), (61, .header 495 488), (62, .header 503 496), (63, .header 511 504),
  (64, .header 519 512), (65, .header 527 520), (66, .header 535 528), (67, .header 543 536),
  (68, .header 551 544), (69, .header 559 552), (70, .header 567 560), (71, .header 575 568),
  (72, .header 583 576), (73, .header 591 584), (74, .header 599 592), (75, .header 607 600),
  (76, .header 615 608), (77, .header 623 616), (78, .header 631 624), (79, .header 639 632),
  (80, .header 647 640), (81, .header 655 648), (82, .header 663 656), (83, .header 671 664),
  (84, .header 679 672), (85, .header 687 680), (86, .header 695 688), (87, .header 703 696),
  (88, .header 711 704), (89, .header 719 712), (90, .header 727 720), (91, .header 735 728),
  (92, .header 743 736), (93, .header 751 744), (94, .header 759 752), (95, .header 767 760),
  (101, .loadState), (102, .startState), (103, .readGoldNonce),
  (104, .nonceRam 0 0), (105, .nonceRam 0 1), (106, .nonceRam 0 2), (107, .nonceRam 0 3),
  (108, .nonceRam 1 0), (109, .nonceRam 1 1), (110, .nonceRam 1 2), (111, .nonceRam 1 3),
  (112, .nonceRam 2 0), (113, .nonceRam 2 1), (114, .nonceRam 2 2), (115, .nonceRam 2 3),
  (116, .nonceRam 3 0), (117, .nonceRam 3 1), (118, .nonceRam 3 2), (119, .nonceRam 3 3),
  (148, .resultRam 0 0), (149, .resultRam 0 1), (150, .resultRam 0 2), (151, .resultRam 0 3),
  (152, .resultTicket 0),
  (153, .resultRam 1 0), (154, .resultRam 1 1), (155, .resultRam 1 2), (156, .resultRam 1 3),
  (157, .resultTicket 1),
  (158, .resultRam 2 0), (159, .resultRam 2 1), (160, .resultRam 2 2), (161, .resultRam 2 3),
  (162, .resultTicket 2),
  (163, .resultRam 3 0), (164, .resultRam 3 1), (165, .resultRam 3 2), (166, .resultRam 3 3),
  (167, .resultTicket 3)]

/-- The `case` of a header write; an address without a row changes nothing. -/
def headerWrite (h : BitVec 768) (address writedata : BitVec 8) : BitVec 768 :=
  match writeTable.lookup address.toNat with
  | some (hi, lo) => putSlice h lo (writedata.setWidth (hi - lo + 1))
  | none => h

variable {l : Fin 6}

/-- What a row of the read table leaves in `readdata`. -/
def readValue (s : Miner l) : ReadCase → BitVec 8
  | .header hi lo => (s.header_buffer.extractLsb' lo (hi - lo + 1)).setWidth 8
  | .loadState => 0#6 ++ BitVec.ofBool s.load_done ++ BitVec.ofBool s.loading
  | .startState => 0#6 ++ BitVec.ofBool s.stop ++ BitVec.ofBool s.start
  -- only `readdata[0]` is assigned
  | .readGoldNonce => s.readdata.extractLsb' 1 7 ++ BitVec.ofBool s.read_gold_nonce
  | .nonceRam i x => (s.nonce_ram i).extractLsb' (8 * x) 8
  | .resultRam i x => (s.result_ram i).extractLsb' (8 * x) 8
  | .resultTicket i => 0#7 ++ (s.result_ram i).extractLsb' 32 1

/-- The `case` of a read; an address without a row keeps `readdata`. -/
def busReadData (s : Miner l) (address : BitVec 8) : BitVec 8 :=
  match readTable.lookup address.toNat with
  | some e => readValue s e
  | none => s.readdata

/-- The wires `nonce_out_a0`, ..., `nonce_out_a3`. -/
def nonce_out_a (s : Miner l) (i : Fin 4) : BitVec 33 := (s.miner i).nonce_out

/-- Bit 32 of a core's output. -/
def ticketBit (n : BitVec 33) : Bool := n.getLsbD 32

/-- The ports of each core. -/
def coreIn (s : Miner l) : CoreIn where
  header_data_input := s.header_buffer
  load_done := s.load_done

/-- What every clock edge does, whichever branch is taken: the cores run and the
    nonce offsets are recomputed. -/
def advance (s : Miner l) : Miner l :=
  { s with
    nonce_ram := ![NONCEIDX s.header_buffer, NONCEIDX s.header_buffer + range,
      NONCEIDX s.header_buffer + 2 * range, NONCEIDX s.header_buffer + 3 * range]
    miner := fun i => fpgaminer_top l (s.miner i) (coreIn s) }

/-- `ticket` as the idle branch computes it. -/
def anyTicket (s : Miner l) : Bool :=
  ticketBit (nonce_out_a s 0) || ticketBit (nonce_out_a s 1)
    || ticketBit (nonce_out_a s 2) || ticketBit (nonce_out_a s 3)

/-- The clock edge of `miner_top`. -/
def miner_top (l : Fin 6) (s : Miner l) (i : Bus) : Miner l :=
  if s.start && !s.loading then
    { advance s with
      loading := true
      load_done := false
      start := false
      header_buffer := 0
      result_ram := fun _ => 0
      nonce_ram := fun _ => 0
      read_gold_nonce := true
      stop := false }
  else if i.write && !s.loading && i.chipselect then
    if i.address = 102#8 then { advance s with start := i.writedata.getLsbD 0 }
    else advance s
  else if i.write && s.loading && i.chipselect then
    if i.address = 95#8 then
      { advance s with
        header_buffer := headerWrite s.header_buffer i.address i.writedata
        loading := false
        load_done := true }
    else
      { advance s with
        header_buffer := headerWrite s.header_buffer i.address i.writedata }
  else if i.read && i.chipselect && !s.loading then
    { advance s with readdata := busReadData s i.address }
  else if s.stop then
    { advance s with result_ram := nonce_out_a s }
  else if s.read_gold_nonce && anyTicket s && !s.loading then
    { advance s with
      load_done := false
      ticket := anyTicket s
      result_ram := nonce_out_a s
      read_gold_nonce := false
      stop := true }
  else
    { advance s with
      load_done := false
      ticket := anyTicket s
      result_ram := fun _ => 0 }

/-- The declared initial values; the two memories and `readdata` have none. -/
structure PowerUp (s : Miner l) : Prop where
  header_buffer : s.header_buffer = 0
  loading : s.loading = false
  load_done : s.load_done = false
  start : s.start = false
  stop : s.stop = false
  read_gold_nonce : s.read_gold_nonce = true
  ticket : s.ticket = false
  miner : ∀ i, FpgaminerTop.PowerUp (s.miner i)

/-- A miner at power-up, with cleared memories and pipelines. -/
def poweredMiner (l : Fin 6) : Miner l where
  header_buffer := 0
  loading := false
  load_done := false
  start := false
  stop := false
  read_gold_nonce := true
  ticket := false
  nonce_ram := fun _ => 0
  result_ram := fun _ => 0
  readdata := 0
  miner := fun _ => poweredCore l

theorem powerUp_poweredMiner (l : Fin 6) : PowerUp (poweredMiner l) :=
  ⟨rfl, rfl, rfl, rfl, rfl, rfl, rfl, fun _ => powerUp_poweredCore l⟩

/-! ## Bus cycles -/

/-- A cycle without an access. -/
def idle : Bus where
  write := false
  read := false
  chipselect := false
  writedata := 0
  address := 0

/-- A write of `v` to `address`. -/
def put (address v : BitVec 8) : Bus where
  write := true
  read := false
  chipselect := true
  writedata := v
  address := address

/-- A read of `address`. -/
def get (address : BitVec 8) : Bus where
  write := false
  read := true
  chipselect := true
  writedata := 0
  address := address

/-- A finite trace, with idle cycles after it. -/
def stream (trace : List Bus) (t : Nat) : Bus := trace.getD t idle

/-! ## What an edge can do -/

/-- A bus write. -/
def busWrite (i : Bus) : Bool := i.write && i.chipselect

/-- A bus read; a write in the same cycle goes first. -/
def busRead (i : Bus) : Bool := i.read && i.chipselect

/-- A write of an odd value to the start register. -/
def startWrite (i : Bus) : Bool :=
  busWrite i && decide (i.address = 102#8) && i.writedata.getLsbD 0

/-- A header byte write that completes a load. -/
def completes (s : Miner l) (i : Bus) : Bool :=
  busWrite i && s.loading && decide (i.address = 95#8)

/-- **Everything a clock edge can do**, with the guards under which it does it. -/
theorem miner_top_cases (s : Miner l) (i : Bus) :
    -- a pending start
    (s.start = true ∧ s.loading = false ∧
      miner_top l s i = { advance s with
        loading := true, load_done := false, start := false, header_buffer := 0,
        result_ram := fun _ => 0, nonce_ram := fun _ => 0,
        read_gold_nonce := true, stop := false }) ∨
    -- a control write
    (s.start = false ∧ s.loading = false ∧ busWrite i = true ∧
      miner_top l s i = { advance s with
        start := if i.address = 102#8 then i.writedata.getLsbD 0 else s.start }) ∨
    -- a header write
    (s.loading = true ∧ busWrite i = true ∧
      miner_top l s i = { advance s with
        header_buffer := headerWrite s.header_buffer i.address i.writedata
        loading := decide (i.address ≠ 95#8)
        load_done := decide (i.address = 95#8) || s.load_done }) ∨
    -- a read
    (s.start = false ∧ s.loading = false ∧ busWrite i = false ∧ busRead i = true ∧
      miner_top l s i = { advance s with readdata := busReadData s i.address }) ∨
    -- the stop state
    ((s.start = false ∨ s.loading = true) ∧ busWrite i = false ∧
      (busRead i = false ∨ s.loading = true) ∧ s.stop = true ∧
      miner_top l s i = { advance s with result_ram := nonce_out_a s }) ∨
    -- entry into the stop state
    (s.start = false ∧ s.loading = false ∧ busWrite i = false ∧ busRead i = false ∧
      s.stop = false ∧ s.read_gold_nonce = true ∧ anyTicket s = true ∧
      miner_top l s i = { advance s with
        load_done := false, ticket := anyTicket s, result_ram := nonce_out_a s,
        read_gold_nonce := false, stop := true }) ∨
    -- the idle state
    ((s.start = false ∨ s.loading = true) ∧ busWrite i = false ∧
      (busRead i = false ∨ s.loading = true) ∧ s.stop = false ∧
      (s.read_gold_nonce = false ∨ anyTicket s = false ∨ s.loading = true) ∧
      miner_top l s i = { advance s with
        load_done := false, ticket := anyTicket s, result_ram := fun _ => 0 }) := by
  cases hl : s.loading with
  | true =>
      cases hw : busWrite i with
      | true =>
          refine .inr (.inr (.inl ⟨rfl, rfl, ?_⟩))
          obtain ⟨hw1, hw2⟩ := (Bool.and_eq_true _ _).mp hw
          by_cases h95 : i.address = 95#8
          · simp [miner_top, hl, hw1, hw2, h95]
          · simp [miner_top, hl, hw1, hw2, h95, advance]
      | false =>
          have hw' : (i.write && i.chipselect) = false := hw
          cases hstop : s.stop with
          | true =>
              refine .inr (.inr (.inr (.inr (.inl ⟨.inr rfl, rfl, .inr rfl, rfl, ?_⟩))))
              simp [miner_top, hl, hw', hstop]
          | false =>
              refine .inr (.inr (.inr (.inr (.inr (.inr
                ⟨.inr rfl, rfl, .inr rfl, rfl, .inr (.inr rfl), ?_⟩)))))
              simp [miner_top, hl, hw', hstop]
  | false =>
      cases hs : s.start with
      | true =>
          refine .inl ⟨rfl, rfl, ?_⟩
          simp [miner_top, hl, hs]
      | false =>
          cases hw : busWrite i with
          | true =>
              refine .inr (.inl ⟨rfl, rfl, rfl, ?_⟩)
              obtain ⟨hw1, hw2⟩ := (Bool.and_eq_true _ _).mp hw
              by_cases h102 : i.address = 102#8
              · simp [miner_top, hl, hs, hw1, hw2, h102]
              · simp [miner_top, hl, hs, hw1, hw2, h102, advance]
          | false =>
              have hw' : (i.write && i.chipselect) = false := hw
              cases hr : busRead i with
              | true =>
                  refine .inr (.inr (.inr (.inl ⟨rfl, rfl, rfl, rfl, ?_⟩)))
                  have hr' : (i.read && i.chipselect) = true := hr
                  simp [miner_top, hl, hs, hw', hr']
              | false =>
                  have hr' : (i.read && i.chipselect) = false := hr
                  cases hstop : s.stop with
                  | true =>
                      refine .inr (.inr (.inr (.inr (.inl
                        ⟨.inl rfl, rfl, .inl rfl, rfl, ?_⟩))))
                      simp [miner_top, hl, hs, hw', hr', hstop]
                  | false =>
                      cases hg : s.read_gold_nonce with
                      | false =>
                          refine .inr (.inr (.inr (.inr (.inr (.inr
                            ⟨.inl rfl, rfl, .inl rfl, rfl, .inl rfl, ?_⟩)))))
                          simp [miner_top, hl, hs, hw', hr', hstop, hg]
                      | true =>
                          cases ht : anyTicket s with
                          | false =>
                              refine .inr (.inr (.inr (.inr (.inr (.inr
                                ⟨.inl rfl, rfl, .inl rfl, rfl, .inr (.inl rfl), ?_⟩)))))
                              simp [miner_top, hl, hs, hw', hr', hstop, hg, ht]
                          | true =>
                              refine .inr (.inr (.inr (.inr (.inr (.inl
                                ⟨rfl, rfl, rfl, rfl, rfl, rfl, rfl, ?_⟩)))))
                              simp [miner_top, hl, hs, hw', hr', hstop, hg, ht]

/-! ## The flags -/

/-- The invariant of the five flags. -/
structure Flags (s : Miner l) : Prop where
  start_loading : s.start = true → s.loading = false
  loading_done : s.loading = true → s.load_done = false
  loading_stop : s.loading = true → s.stop = false
  done_stop : s.load_done = true → s.stop = false
  stop_read : s.stop = !s.read_gold_nonce

theorem PowerUp.flags {s : Miner l} (h : PowerUp s) : Flags s := by
  constructor
  · intro _
    exact h.loading
  · intro _
    exact h.load_done
  · intro _
    exact h.stop
  · intro _
    exact h.stop
  · rw [h.stop, h.read_gold_nonce]
    rfl

theorem Flags.start_of_loading {s : Miner l} (h : Flags s) (hl : s.loading = true) :
    s.start = false := by
  cases hs : s.start with
  | false => rfl
  | true => cases hl.symm.trans (h.start_loading hs)

theorem Flags.loading_of_stop {s : Miner l} (h : Flags s) (hstop : s.stop = true) :
    s.loading = false := by
  cases hl : s.loading with
  | false => rfl
  | true => cases hstop.symm.trans (h.loading_stop hl)

theorem Flags.done_of_stop {s : Miner l} (h : Flags s) (hstop : s.stop = true) :
    s.load_done = false := by
  cases hd : s.load_done with
  | false => rfl
  | true => cases hstop.symm.trans (h.done_stop hd)

/-- **The flag invariant is kept** by every edge under every bus input. -/
theorem flags_step (s : Miner l) (i : Bus) (h : Flags s) : Flags (miner_top l s i) := by
  rcases miner_top_cases s i with ⟨-, -, heq⟩ | ⟨-, hl, -, heq⟩ | ⟨hl, -, heq⟩ |
    ⟨hs, hl, -, -, heq⟩ | ⟨-, -, -, -, heq⟩ | ⟨hs, hl, -, -, -, -, -, heq⟩ |
    ⟨-, -, -, hstop, -, heq⟩
  · -- a pending start leaves only `loading` set
    rw [heq]
    exact ⟨nofun, fun _ => rfl, fun _ => rfl, nofun, rfl⟩
  · rw [heq]
    refine ⟨fun _ => hl, fun hl' => ?_, fun hl' => ?_, h.done_stop, h.stop_read⟩
    · cases hl'.symm.trans hl
    · cases hl'.symm.trans hl
  · -- `stop` and `start` were low while loading
    have hstop : s.stop = false := h.loading_stop hl
    have hstart : s.start = false := h.start_of_loading hl
    rw [heq]
    refine ⟨fun hs => ?_, fun hne => ?_, fun _ => hstop, fun _ => hstop, h.stop_read⟩
    · cases hs.symm.trans hstart
    · have h95 : i.address ≠ 95#8 := of_decide_eq_true hne
      show (decide (i.address = 95#8) || s.load_done) = false
      rw [h.loading_done hl, decide_eq_false h95]
      rfl
  · rw [heq]
    exact ⟨h.start_loading, h.loading_done, h.loading_stop, h.done_stop, h.stop_read⟩
  · rw [heq]
    exact ⟨h.start_loading, h.loading_done, h.loading_stop, h.done_stop, h.stop_read⟩
  · -- entry into the stop state: neither loading nor about to load
    rw [heq]
    refine ⟨fun _ => hl, fun hl' => ?_, fun hl' => ?_, nofun, rfl⟩
    · cases hl'.symm.trans hl
    · cases hl'.symm.trans hl
  · rw [heq]
    exact ⟨h.start_loading, fun _ => rfl, h.loading_stop, nofun, h.stop_read⟩

theorem reachable_flags {s : Miner l} (h : Reachable PowerUp (miner_top l) s) : Flags s :=
  h.invariant (fun _ => PowerUp.flags) (fun s i => flags_step s i)

theorem flags_run {inp : Nat → Bus} {x : Nat → Miner l} (hx : IsRun (miner_top l) inp x)
    (h0 : PowerUp (x 0)) (t : Nat) : Flags (x t) :=
  hx.invariant h0.flags (fun s i => flags_step s i) t

/-- Each core runs as itself on the header register and the load flag. -/
theorem isRun_core {inp : Nat → Bus} {x : Nat → Miner l} (hx : IsRun (miner_top l) inp x)
    (i : Fin 4) :
    IsRun (fpgaminer_top l) (fun t => coreIn (x t)) (fun t => (x t).miner i) := by
  refine hx.component (fun s => s.miner i) (fun s _ => coreIn s) (fun s b => ?_)
  rcases miner_top_cases s b with ⟨-, -, heq⟩ | ⟨-, -, -, heq⟩ | ⟨-, -, heq⟩ |
    ⟨-, -, -, -, heq⟩ | ⟨-, -, -, -, heq⟩ | ⟨-, -, -, -, -, -, -, heq⟩ | ⟨-, -, -, -, -, heq⟩
  all_goals
    rw [heq]
    rfl

/-! ## The case tables -/

/-- Byte `k` of a header. -/
def byte (h : BitVec 768) (k : Nat) : BitVec 8 := h.extractLsb' (8 * k) 8

/-- **The write table row by row**: address `k` is byte `k`. -/
theorem writeTable_lookup {k : Nat} (hk : k < 96) :
    writeTable.lookup k = some (8 * k + 7, 8 * k) := by
  have hall : ∀ k : Fin 96, writeTable.lookup k.val = some (8 * k.val + 7, 8 * k.val) := by
    decide +kernel
  exact hall ⟨k, hk⟩

/-- **The read table row by row**: the header addresses read the same bytes. -/
theorem readTable_lookup {k : Nat} (hk : k < 96) :
    readTable.lookup k = some (.header (8 * k + 7) (8 * k)) := by
  have hall : ∀ k : Fin 96,
      readTable.lookup k.val = some (.header (8 * k.val + 7) (8 * k.val)) := by
    decide +kernel
  exact hall ⟨k, hk⟩

theorem writeTable_lookup_none {a : BitVec 8} (ha : 96 ≤ a.toNat) :
    writeTable.lookup a.toNat = none := by
  have hall : ∀ k : Fin 256, 96 ≤ k.val → writeTable.lookup k.val = none := by
    decide +kernel
  exact hall ⟨a.toNat, a.isLt⟩ ha

private theorem setWidth_eight (v : BitVec 8) (h : BitVec 768) (lo : Nat) :
    ∀ w, w = 8 → putSlice h lo (v.setWidth w) = putSlice h lo v := by
  rintro w rfl
  rw [BitVec.setWidth_eq]

theorem headerWrite_eq (h : BitVec 768) {a : BitVec 8} (v : BitVec 8) (ha : a.toNat < 96) :
    headerWrite h a v = putSlice h (8 * a.toNat) v := by
  rw [headerWrite, writeTable_lookup ha]
  exact setWidth_eight v h _ _ (by omega)

/-- A header write sets its byte. -/
theorem byte_headerWrite_same (h : BitVec 768) {a : BitVec 8} (v : BitVec 8)
    (ha : a.toNat < 96) : byte (headerWrite h a v) a.toNat = v := by
  rw [headerWrite_eq h v ha]
  exact extract_putSlice_same h v (by omega)

/-- A header write leaves every other byte alone. -/
theorem byte_headerWrite_other (h : BitVec 768) (a v : BitVec 8) {k : Nat}
    (hne : a.toNat ≠ k) : byte (headerWrite h a v) k = byte h k := by
  rcases Nat.lt_or_ge a.toNat 96 with ha | ha
  · rw [headerWrite_eq h v ha]
    exact extract_putSlice_disjoint h v (by omega)
  · rw [headerWrite, writeTable_lookup_none ha]

/-- A read of a header address returns its byte. -/
theorem busReadData_header (s : Miner l) {a : BitVec 8} (ha : a.toNat < 96) :
    busReadData s a = byte s.header_buffer a.toNat := by
  rw [busReadData, readTable_lookup ha]
  have hw : ∀ w, w = 8 → (s.header_buffer.extractLsb' (8 * a.toNat) w).setWidth 8
      = s.header_buffer.extractLsb' (8 * a.toNat) 8 := by
    rintro w rfl
    rw [BitVec.setWidth_eq]
  exact hw _ (by omega)

end MinerTop
