import FpgaMiner.MinerTopProofs

/-! # What a bus read depends on

    `readdata` is a register.  A read that leaves some of its bits unassigned, or that is
    not carried out, shows the host what an earlier read left there.

    * **`reachable_withReaddata`** — beside the same other registers, any byte can be in
      `readdata`;
    * **`read_forgets_iff`** — so the byte of a read is independent of earlier reads
      exactly at the addresses other than 103 and with no start pending. -/

namespace BusRead

open ClockedCircuit MinerTop

variable {l : Fin 6}

/-- The state with another byte in `readdata`. -/
def withReaddata (s : Miner l) (r : BitVec 8) : Miner l := { s with readdata := r }

/-- Two states that agree on all registers except `readdata`. -/
def SameButReaddata (s s' : Miner l) : Prop := s' = withReaddata s s'.readdata

/-- Another byte in each of two copies of a state. -/
theorem sameButReaddata_copies (s : Miner l) (r r' : BitVec 8) :
    SameButReaddata (withReaddata s r) (withReaddata s r') := rfl

/-- The bus cycle with any read at an address without an entry. -/
def unread (i : Bus) : Bus := if busWrite i then i else { i with address := 200#8 }

/-- Nothing but a read sees `readdata`, and nothing but a read assigns it. -/
theorem step_unread (s : Miner l) (r : BitVec 8) (i : Bus) :
    miner_top l (withReaddata s r) (unread i) = withReaddata (miner_top l s i) r := by
  have hstart : (withReaddata s r).start = s.start := rfl
  have hloading : (withReaddata s r).loading = s.loading := rfl
  have hstop : (withReaddata s r).stop = s.stop := rfl
  have hgold : (withReaddata s r).read_gold_nonce = s.read_gold_nonce := rfl
  have hticket : anyTicket (withReaddata s r) = anyTicket s := rfl
  cases hw : busWrite i with
  | true =>
      -- a cycle with a write carries out no read
      obtain ⟨hwrite, hselect⟩ := (Bool.and_eq_true _ _).mp hw
      rw [unread, if_pos hw]
      cases hl : s.loading with
      | true =>
          simp only [miner_top, hstart, hloading, hl, hwrite, hselect]
          split_ifs <;> first | rfl | contradiction
      | false =>
          simp only [miner_top, hstart, hloading, hl, hwrite, hselect]
          split_ifs <;> first | rfl | contradiction
  | false =>
      have hguard : ∀ b, (i.write && b && i.chipselect) = false := by
        intro b
        rw [Bool.and_right_comm]
        show (busWrite i && b) = false
        rw [hw, Bool.false_and]
      rw [unread, if_neg (by rw [hw]; decide)]
      simp only [miner_top, hstart, hloading, hstop, hgold, hticket, hguard]
      split_ifs <;> first | rfl | contradiction

/-- **Beside the same other registers any byte can be in `readdata`.** -/
theorem reachable_withReaddata {s : Miner l} (h : Reachable PowerUp (miner_top l) s)
    (r : BitVec 8) : Reachable PowerUp (miner_top l) (withReaddata s r) := by
  induction h with
  | init hp =>
      exact .init ⟨hp.header_buffer, hp.loading, hp.load_done, hp.start, hp.stop,
        hp.read_gold_nonce, hp.ticket, hp.miner⟩
  | step i _ ih =>
      rw [← step_unread]
      exact .step (unread i) ih

/-! ## What a read assigns -/

/-- A read is carried out in a cycle without a write, without a pending start and
    outside the loading state. -/
def carriedOut (s : Miner l) (i : Bus) : Bool :=
  !s.start && !s.loading && !busWrite i && busRead i

theorem carriedOut_iff {s : Miner l} {i : Bus} :
    carriedOut s i = true ↔
      s.start = false ∧ s.loading = false ∧ busWrite i = false ∧ busRead i = true := by
  simp only [carriedOut, Bool.and_eq_true, Bool.not_eq_true', and_assoc]

theorem not_carriedOut {s : Miner l} {i : Bus} (h : busRead i = false ∨ s.loading = true) :
    carriedOut s i = false := by
  rcases h with hr | hl
  · rw [carriedOut, hr, Bool.and_false]
  · rw [carriedOut, hl, Bool.not_true, Bool.and_false, Bool.false_and, Bool.false_and]

theorem readdata_step (s : Miner l) (i : Bus) :
    (miner_top l s i).readdata = if carriedOut s i then busReadData s i.address else s.readdata := by
  rcases miner_top_cases s i with ⟨hs, -, heq⟩ | ⟨-, -, hw, heq⟩ | ⟨hl, -, heq⟩ |
    ⟨hs, hl, hw, hr, heq⟩ | ⟨-, -, hno, -, heq⟩ | ⟨-, -, -, hr, -, -, -, heq⟩ |
    ⟨-, -, hno, -, -, heq⟩
  · rw [heq, carriedOut, hs]
    rfl
  · rw [heq, carriedOut, hw, Bool.not_true, Bool.and_false]
    rfl
  · rw [heq, carriedOut, hl, Bool.not_true, Bool.and_false]
    rfl
  · rw [heq, carriedOut, hs, hl, hw, hr]
    rfl
  · rw [heq, not_carriedOut hno]
    rfl
  · rw [heq, carriedOut, hr, Bool.and_false]
    rfl
  · rw [heq, not_carriedOut hno]
    rfl

/-- Only the entry of address 103 leaves bits of `readdata` as they are. -/
theorem readTable_gold {a : BitVec 8} (h : readTable.lookup a.toNat = some .readGoldNonce) :
    a = 103#8 := by
  have hall : ∀ a : Fin 256, readTable.lookup a.val = some .readGoldNonce → a.val = 103 := by
    decide +kernel
  exact BitVec.eq_of_toNat_eq (hall ⟨a.toNat, a.isLt⟩ h)

/-- Every other entry assigns all eight bits. -/
theorem busReadData_withReaddata (s : Miner l) (r : BitVec 8) {a : BitVec 8}
    (hentry : readTable.lookup a.toNat ≠ none) (ha : a ≠ 103#8) :
    busReadData (withReaddata s r) a = busReadData s a := by
  rw [busReadData, busReadData]
  cases he : readTable.lookup a.toNat with
  | none => exact absurd he hentry
  | some e =>
      cases e with
      | readGoldNonce => exact absurd (readTable_gold he) ha
      | _ => rfl

/-- A read at address 103 shows bit 1 of the byte before it. -/
theorem busReadData_gold (s : Miner l) :
    (busReadData s 103#8).getLsbD 1 = s.readdata.getLsbD 1 := by
  show (s.readdata.extractLsb' 1 7 ++ BitVec.ofBool s.read_gold_nonce).getLsbD 1 = _
  rw [BitVec.getLsbD_append, if_neg (by decide), BitVec.getLsbD_extractLsb']
  rfl

/-- A byte and its complement differ in bit 1. -/
theorem getLsbD_complement (r : BitVec 8) : (~~~r).getLsbD 1 ≠ r.getLsbD 1 := by
  rw [BitVec.getLsbD_not]
  cases r.getLsbD 1 with
  | false => decide
  | true => decide

/-! ## Two runs -/

/-- A read in state `s` gives the same byte in every run whose state is `s` but for
    `readdata`. -/
def Forgets (s : Miner l) (i : Bus) : Prop :=
  ∀ s', Reachable PowerUp (miner_top l) s' → SameButReaddata s s' →
    (miner_top l s' i).readdata = (miner_top l s i).readdata

/-- **A read has no memory exactly when** it is carried out and its address is not 103. -/
theorem read_forgets_iff (l : Fin 6) (s : Miner l) (hs : Reachable PowerUp (miner_top l) s)
    (hl : s.loading = false) (i : Bus) (hread : busRead i = true)
    (hentry : readTable.lookup i.address.toNat ≠ none) :
    Forgets s i ↔ s.start = false ∧ busWrite i = false ∧ i.address ≠ 103#8 := by
  constructor
  · intro h
    -- the same state after reads that left the complement
    have hany := h _ (reachable_withReaddata hs (~~~s.readdata)) rfl
    have hcarried : carriedOut (withReaddata s (~~~s.readdata)) i = carriedOut s i := rfl
    rw [readdata_step, readdata_step, hcarried] at hany
    cases hc : carriedOut s i with
    | false =>
        rw [hc] at hany
        exact absurd (congrArg (fun r => r.getLsbD 1) hany) (getLsbD_complement s.readdata)
    | true =>
        obtain ⟨hstart, -, hw, -⟩ := carriedOut_iff.mp hc
        rw [if_pos hc, if_pos hc] at hany
        refine ⟨hstart, hw, ?_⟩
        intro h103
        rw [h103] at hany
        have hbit := congrArg (fun r => r.getLsbD 1) hany
        simp only [busReadData_gold] at hbit
        exact getLsbD_complement s.readdata hbit
  · rintro ⟨hstart, hw, haddr⟩ s' - hsame
    have hc : carriedOut s i = true := carriedOut_iff.mpr ⟨hstart, hl, hw, hread⟩
    have hc' : carriedOut (withReaddata s s'.readdata) i = true := hc
    rw [hsame, readdata_step, readdata_step, if_pos hc, if_pos hc']
    exact busReadData_withReaddata s _ hentry haddr

/-- A header with 0xfe in its first byte has been loaded. -/
def loadedMiner (l : Fin 6) : Miner l :=
  [put 102 1, idle, put 0 0xfe, put 95 0].foldl (miner_top l) (poweredMiner l)

theorem reachable_loadedMiner (l : Fin 6) : Reachable PowerUp (miner_top l) (loadedMiner l) :=
  .step (put 95 0) (.step (put 0 0xfe) (.step idle (.step (put 102 1)
    (.init (powerUp_poweredMiner l)))))

/-- After two reads of that header. -/
def readMiner (l : Fin 6) : Miner l := miner_top l (miner_top l (loadedMiner l) (get 0)) (get 1)

/-- The next read, of the start register, forgets both. -/
theorem read_forgets_status : Forgets (readMiner 5) (get 102) := by
  have hs : Reachable PowerUp (miner_top 5) (readMiner 5) :=
    .step (get 1) (.step (get 0) (reachable_loadedMiner 5))
  have hl : (readMiner 5).loading = false := by decide +kernel
  have hstart : (readMiner 5).start = false := by decide +kernel
  exact (read_forgets_iff 5 (readMiner 5) hs hl (get 102) rfl (by decide)).mpr
    ⟨hstart, rfl, by decide⟩

/-- A read that is carried out changes `readdata` only, as far as a later read can tell. -/
theorem miner_top_read {s : Miner l} {i : Bus} (h : carriedOut s i = true) :
    miner_top l s i = withReaddata (advance s) (busReadData s i.address) := by
  obtain ⟨hs, hl, hw, hr⟩ := carriedOut_iff.mp h
  have hw' : (i.write && i.chipselect) = false := hw
  have hr' : (i.read && i.chipselect) = true := hr
  simp [miner_top, hs, hl, hw', hr', withReaddata]

/-- **The read of 103 shows which header byte was read before it**: 0xff or 0x01. -/
theorem gold_remembers :
    ∃ s s' : Miner 5, Reachable PowerUp (miner_top 5) s ∧ Reachable PowerUp (miner_top 5) s' ∧
      SameButReaddata s s' ∧ s.loading = false ∧
      (miner_top 5 s (get 103)).readdata = 0xff#8 ∧
      (miner_top 5 s' (get 103)).readdata = 0x01#8 := by
  have hloaded := reachable_loadedMiner 5
  refine ⟨miner_top 5 (loadedMiner 5) (get 0), miner_top 5 (loadedMiner 5) (get 1),
    .step _ hloaded, .step _ hloaded, ?_, ?_, ?_, ?_⟩
  · have h0 : carriedOut (loadedMiner 5) (get 0) = true := by decide +kernel
    have h1 : carriedOut (loadedMiner 5) (get 1) = true := by decide +kernel
    rw [miner_top_read h0, miner_top_read h1]
    exact sameButReaddata_copies _ _ _
  · decide +kernel
  · decide +kernel
  · decide +kernel

end BusRead
