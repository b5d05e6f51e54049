import FpgaMiner.MinerTopProofs

/-! # Loading a header

    A load is a write of an odd value to the start register, a cycle for the
    machine to enter the loading state, and byte writes of which the one to
    address 95 ends it.

    * **`load_succeeds`** — from every state such a trace leaves exactly the header
      it carries, and the header reads back until the next start.  The
      trace is followed in three parts: `loading_of_start` enters the loading
      state, `loading_bytes` (an induction over the writes) says what each byte
      holds in it, and `header_kept` what a started search leaves alone;
    * **`restarted_once_iff`** — a completed load restarts the cores once, unless
      the two cycles after it are both accesses: the branches of a read and of a
      control write do not clear `load_done`. -/

namespace Load

open ClockedCircuit MinerTop
open FpgaminerTop (fpgaminer_top start_edge)

variable {l : Fin 6}

/-! ## The steps of a load -/

/-- A start write leaves the machine loading or about to. -/
theorem start_of_startWrite {s : Miner l} {i : Bus} (hi : startWrite i = true) :
    (miner_top l s i).loading = true ∨ (miner_top l s i).start = true := by
  obtain ⟨haddr, hodd⟩ := (Bool.and_eq_true _ _).mp hi
  obtain ⟨hw, h102⟩ := (Bool.and_eq_true _ _).mp haddr
  have h102' : i.address = 102#8 := of_decide_eq_true h102
  rcases miner_top_cases s i with ⟨-, -, heq⟩ | ⟨-, -, -, heq⟩ | ⟨-, -, heq⟩ |
    ⟨-, -, hw', -⟩ | ⟨-, hw', -⟩ | ⟨-, -, hw', -⟩ | ⟨-, hw', -⟩
  · rw [heq]
    exact .inl rfl
  · rw [heq]
    refine .inr ?_
    show (if i.address = 102#8 then i.writedata.getLsbD 0 else s.start) = true
    rw [if_pos h102', hodd]
  · rw [heq]
    refine .inl ?_
    show decide (i.address ≠ 95#8) = true
    rw [h102']
    rfl
  all_goals cases hw.symm.trans hw'

/-- While loading, a write to an address other than 95 updates its byte and every
    other cycle leaves the header alone. -/
theorem loading_step {s : Miner l} {i : Bus} (hl : s.loading = true)
    (hi : busWrite i = true → i.address ≠ 95#8) :
    (miner_top l s i).loading = true ∧
    (miner_top l s i).header_buffer
      = if busWrite i then headerWrite s.header_buffer i.address i.writedata
        else s.header_buffer := by
  rcases miner_top_cases s i with ⟨-, hl', -⟩ | ⟨-, hl', -⟩ | ⟨-, hw, heq⟩ |
    ⟨-, hl', -⟩ | ⟨-, hw, -, -, heq⟩ | ⟨-, hl', -⟩ | ⟨-, hw, -, -, -, heq⟩
  case inr.inr.inl =>
    rw [heq, hw]
    exact ⟨decide_eq_true (hi hw), rfl⟩
  case inr.inr.inr.inr.inl =>
    rw [heq, hw]
    exact ⟨hl, rfl⟩
  case inr.inr.inr.inr.inr.inr =>
    rw [heq, hw]
    exact ⟨hl, rfl⟩
  all_goals cases hl.symm.trans hl'

/-- A cycle without a write turns a pending start into the loading state. -/
theorem loading_of_start {s : Miner l} {i : Bus}
    (hs : s.loading = true ∨ s.start = true) (hi : busWrite i = false) :
    (miner_top l s i).loading = true := by
  cases hl : s.loading with
  | true => exact (loading_step hl (fun hw => absurd (hw.symm.trans hi) (by decide))).1
  | false =>
      have hstart : s.start = true := by
        rcases hs with h | h
        · cases h.symm.trans hl
        · exact h
      rcases miner_top_cases s i with ⟨-, -, heq⟩ | ⟨hn, -⟩ | ⟨hn, -⟩ | ⟨hn, -⟩ |
        ⟨hn | hn, -⟩ | ⟨hn, -⟩ | ⟨hn | hn, -⟩
      · rw [heq]
      all_goals first
        | cases hstart.symm.trans hn
        | cases hn.symm.trans hl

/-- The write to address 95 ends the load. -/
theorem load_last {s : Miner l} {i : Bus} (hl : s.loading = true) (hw : busWrite i = true)
    (h95 : i.address = 95#8) :
    (miner_top l s i).loading = false ∧ (miner_top l s i).load_done = true ∧
    (miner_top l s i).header_buffer = headerWrite s.header_buffer i.address i.writedata ∧
    (miner_top l s i).start = s.start := by
  rcases miner_top_cases s i with ⟨-, hl', -⟩ | ⟨-, hl', -⟩ | ⟨-, -, heq⟩ |
    ⟨-, hl', -⟩ | ⟨-, hw', -⟩ | ⟨-, hl', -⟩ | ⟨-, hw', -⟩
  case inr.inr.inl =>
    rw [heq, h95]
    exact ⟨rfl, rfl, rfl, rfl⟩
  all_goals first
    | cases hl.symm.trans hl'
    | cases hw.symm.trans hw'

/-- Outside the loading state and without a pending start the header is kept. -/
theorem header_kept {s : Miner l} (i : Bus) (hs : s.start = false) (hl : s.loading = false) :
    (miner_top l s i).header_buffer = s.header_buffer ∧ (miner_top l s i).loading = false := by
  rcases miner_top_cases s i with ⟨hs', -⟩ | ⟨-, -, -, heq⟩ | ⟨hl', -⟩ |
    ⟨-, -, -, -, heq⟩ | ⟨-, -, -, -, heq⟩ | ⟨-, -, -, -, -, -, -, heq⟩ | ⟨-, -, -, -, -, heq⟩
  · cases hs.symm.trans hs'
  case inr.inr.inl => cases hl.symm.trans hl'
  all_goals
    rw [heq]
    exact ⟨rfl, hl⟩

/-- A read that is not blocked by a pending start or a load. -/
theorem read_step {s : Miner l} {i : Bus} (hs : s.start = false) (hl : s.loading = false)
    (hw : busWrite i = false) (hr : busRead i = true) :
    (miner_top l s i).readdata = busReadData s i.address := by
  rcases miner_top_cases s i with ⟨hs', -⟩ | ⟨-, -, hw', -⟩ | ⟨hl', -⟩ |
    ⟨-, -, -, -, heq⟩ | ⟨-, -, hr' | hl', -⟩ | ⟨-, -, -, hr', -⟩ | ⟨-, -, hr' | hl', -⟩
  case inr.inr.inr.inl => rw [heq]
  all_goals first
    | cases hs.symm.trans hs'
    | cases hw.symm.trans hw'
    | cases hr.symm.trans hr'
    | cases hl.symm.trans hl'

/-! ## A whole load -/

/-- What the last write to address `k` in a bus trace carries. -/
def lastWrite (k : Nat) : List Bus → Option (BitVec 8)
  | [] => none
  | i :: rest =>
      (lastWrite k rest).or
        (if busWrite i = true ∧ i.address.toNat = k then some i.writedata else none)

theorem flags_foldl {s : Miner l} (hf : Flags s) (trace : List Bus) :
    Flags (trace.foldl (miner_top l) s) := by
  induction trace generalizing s with
  | nil => exact hf
  | cons i trace ih => exact ih (flags_step s i hf)

/-- Quiet cycles keep a machine that is loading or about to; one is enough. -/
theorem loading_of_gap {s : Miner l} (hs : s.loading = true ∨ s.start = true)
    {gap : List Bus} (hne : gap ≠ []) (hquiet : ∀ i ∈ gap, busWrite i = false) :
    (gap.foldl (miner_top l) s).loading = true := by
  induction gap generalizing s with
  | nil => exact absurd rfl hne
  | cons i gap ih =>
      have hl := loading_of_start hs (hquiet i List.mem_cons_self)
      cases gap with
      | nil => exact hl
      | cons j gap =>
          exact ih (.inl hl) (List.cons_ne_nil j gap)
            (fun k hk => hquiet k (List.mem_cons_of_mem i hk))

/-- **Every byte holds the last value written to it** since the load began, by
    induction over the cycles of the load. -/
theorem loading_bytes {s : Miner l} (hl : s.loading = true) {body : List Bus}
    (hbody : ∀ i ∈ body, busWrite i = true → i.address ≠ 95#8) :
    (body.foldl (miner_top l) s).loading = true ∧
    ∀ k, k < 96 → byte (body.foldl (miner_top l) s).header_buffer k
      = (lastWrite k body).getD (byte s.header_buffer k) := by
  induction body generalizing s with
  | nil => exact ⟨hl, fun _ _ => rfl⟩
  | cons i body ih =>
      obtain ⟨hl', hheader⟩ := loading_step hl (hbody i List.mem_cons_self)
      obtain ⟨hlast, hbytes⟩ := ih hl' (fun j hj => hbody j (List.mem_cons_of_mem i hj))
      refine ⟨hlast, fun k hk => ?_⟩
      rw [List.foldl_cons, hbytes k hk, hheader]
      cases hlw : lastWrite k body with
      | some v => simp only [lastWrite, hlw, Option.some_or, Option.getD_some]
      | none =>
          by_cases hsame : busWrite i = true ∧ i.address.toNat = k
          · obtain ⟨hw, rfl⟩ := hsame
            simp only [lastWrite, hlw, hw, if_true, and_self, Option.none_or,
              Option.getD_some, Option.getD_none]
            exact byte_headerWrite_same _ _ hk
          · simp only [lastWrite, hlw, if_neg hsame, Option.none_or, Option.getD_none]
            cases hw : busWrite i with
            | true => exact byte_headerWrite_other _ _ _ (fun h => hsame ⟨hw, h⟩)
            | false => rfl

/-- **The bytes of a whole load**: in the loading state, writes to the addresses below
    95 and then the one to address 95. -/
theorem load_completed {s : Miner l} (hl : s.loading = true) {b : Nat → BitVec 8}
    {body : List Bus} (hbody : ∀ i ∈ body, busWrite i = true → i.address ≠ 95#8)
    (hbytes : ∀ k, k < 95 → lastWrite k body = some (b k)) (last : Bus)
    (hlast : busWrite last = true ∧ last.address = 95#8 ∧ last.writedata = b 95) :
    (∀ k, k < 96 →
      byte (miner_top l (body.foldl (miner_top l) s) last).header_buffer k = b k) ∧
    (miner_top l (body.foldl (miner_top l) s) last).loading = false ∧
    (miner_top l (body.foldl (miner_top l) s) last).load_done = true ∧
    (miner_top l (body.foldl (miner_top l) s) last).start
      = (body.foldl (miner_top l) s).start := by
  obtain ⟨hw, h95, hdata⟩ := hlast
  obtain ⟨hloading, hbody'⟩ := loading_bytes hl hbody
  obtain ⟨hlow, hdone, hheader, hstart⟩ := load_last hloading hw h95
  refine ⟨fun k hk => ?_, hlow, hdone, hstart⟩
  rw [hheader]
  rcases Nat.lt_or_ge k 95 with hlt | hge
  · rw [byte_headerWrite_other _ _ _ (by rw [h95]; exact Nat.ne_of_gt hlt), hbody' k hk,
      hbytes k hlt]
    rfl
  · have hk95 : k = last.address.toNat := by
      rw [h95]
      exact Nat.le_antisymm (Nat.le_of_lt_succ hk) hge
    subst hk95
    rw [byte_headerWrite_same _ _ hk, hdata, h95]
    rfl

/-- While no start is pending, the header stays and its bytes read back. -/
theorem header_run {inp : Nat → Bus} {x : Nat → Miner l} (hx : IsRun (miner_top l) inp x)
    (hl : (x 0).loading = false) {t : Nat} (hno : ∀ u, u < t → (x u).start = false) :
    (x t).header_buffer = (x 0).header_buffer ∧ (x t).loading = false := by
  induction t with
  | zero => exact ⟨rfl, hl⟩
  | succ t ih =>
      obtain ⟨hheader, hl'⟩ := ih (fun u hu => hno u (Nat.lt_succ_of_lt hu))
      obtain ⟨hkept, hlow⟩ := header_kept (inp t) (hno t (Nat.lt_succ_self t)) hl'
      rw [hx t]
      exact ⟨hkept.trans hheader, hlow⟩

/-- **A load succeeds from every register contents**, hence from every reachable
    state, and the header reads back until the next start. -/
theorem load_succeeds (l : Fin 6) (s : Miner l)
    (b : Nat → BitVec 8) (odd : Bus) (gap body : List Bus) (last : Bus)
    (hodd : startWrite odd = true)
    (hne : gap ≠ []) (hquiet : ∀ i ∈ gap, busWrite i = false)
    (hbody : ∀ i ∈ body, busWrite i = true → i.address ≠ 95#8)
    (hbytes : ∀ k, k < 95 → lastWrite k body = some (b k))
    (hlast : busWrite last = true ∧ last.address = 95#8 ∧ last.writedata = b 95) :
    (∀ k, k < 96 →
      byte ((odd :: gap ++ body ++ [last]).foldl (miner_top l) s).header_buffer k = b k) ∧
    ((odd :: gap ++ body ++ [last]).foldl (miner_top l) s).loading = false ∧
    ((odd :: gap ++ body ++ [last]).foldl (miner_top l) s).load_done = true ∧
    ∀ (rest : Nat → Bus) (t k : Nat), k < 96 →
      (∀ u, u ≤ t → (run (miner_top l)
        ((odd :: gap ++ body ++ [last]).foldl (miner_top l) s) rest u).start = false) →
      (rest t).read = true → (rest t).chipselect = true → (rest t).write = false →
      (rest t).address.toNat = k →
      (run (miner_top l)
        ((odd :: gap ++ body ++ [last]).foldl (miner_top l) s) rest (t + 1)).readdata = b k := by
  -- the loading state is entered
  have hentered : ((odd :: gap).foldl (miner_top l) s).loading = true :=
    loading_of_gap (start_of_startWrite hodd) hne hquiet
  -- the bytes are written, and the load ends
  obtain ⟨hloaded, hlow, hdone, -⟩ := load_completed hentered hbody hbytes last hlast
  have hfold : ((odd :: gap ++ body ++ [last]).foldl (miner_top l) s)
      = miner_top l (body.foldl (miner_top l) ((odd :: gap).foldl (miner_top l) s)) last := by
    rw [List.foldl_append, List.foldl_append]
    rfl
  rw [hfold]
  refine ⟨hloaded, hlow, hdone, ?_⟩
  intro rest t k hk hno hread hcs hwrite haddr
  have hrun := isRun_run (miner_top l)
    (miner_top l (body.foldl (miner_top l) ((odd :: gap).foldl (miner_top l) s)) last) rest
  obtain ⟨hsame, hl'⟩ := header_run hrun hlow (fun u hu => hno u (Nat.le_of_lt hu))
  rw [run_succ, read_step (hno t (Nat.le_refl t)) hl' (by rw [busWrite, hwrite]; rfl)
    (by rw [busRead, hread, hcs]; rfl)]
  subst haddr
  rw [busReadData_header _ hk, hsame, run_zero, hloaded _ hk]

/-- The byte writes of a header, in the order of the addresses. -/
def countingBody : List Bus := (List.range 95).map (fun k => put k k)

theorem load_succeeds_counting :
    ((put 102 1 :: [idle] ++ countingBody ++ [put 95 95]).foldl (miner_top 5)
      (poweredMiner 5)).load_done = true ∧
    (run (miner_top 5) ((put 102 1 :: [idle] ++ countingBody ++ [put 95 95]).foldl
      (miner_top 5) (poweredMiner 5)) (fun _ => get 77) 1).readdata = 77 := by
  obtain ⟨-, -, hdone, hread⟩ := load_succeeds 5 (poweredMiner 5)
    (fun k => BitVec.ofNat 8 k) (put 102 1) [idle] countingBody (put 95 95) (by decide)
    (List.cons_ne_nil _ _) (by decide) (by decide +kernel) (by decide +kernel)
    ⟨rfl, rfl, rfl⟩
  refine ⟨hdone, hread (fun _ => get 77) 0 77 (by decide) ?_ rfl rfl rfl rfl⟩
  rintro u hu
  obtain rfl := Nat.le_zero.mp hu
  decide +kernel

/-! ## The restart of the cores -/

/-- An access of either kind. -/
def busy (i : Bus) : Bool := busWrite i || busRead i

/-- Core `i` restarts exactly once in the cycles `T + 1, ..., N`, and then it is on
    the header completed at `T`. -/
def RestartedOnce (x : Nat → Miner l) (i : Fin 4) (T N : Nat) : Prop :=
  ∃ t, T < t ∧ t ≤ N ∧ ((x t).miner i).start = true ∧
    (coreIn (x t)).header_data_input = (x (T + 1)).header_buffer ∧
    ∀ u, T < u → u ≤ N → ((x u).miner i).start = true → u = t

/-- `load_done` outlives a cycle only through an access, and only a completed load
    raises it. -/
theorem load_done_step {s : Miner l} {i : Bus} (hf : Flags s) (hc : completes s i = false) :
    (miner_top l s i).load_done = (s.load_done && !s.start && busy i) := by
  rcases miner_top_cases s i with ⟨hs, -, heq⟩ | ⟨hs, -, hw, heq⟩ | ⟨hl, hw, heq⟩ |
    ⟨hs, -, hw, hr, heq⟩ | ⟨-, -, -, hstop, heq⟩ | ⟨-, -, hw, hr, -, -, -, heq⟩ |
    ⟨-, hw, hr, -, -, heq⟩
  · rw [heq, hs, Bool.not_true, Bool.and_false, Bool.false_and]
  · rw [heq, hs, busy, hw, Bool.true_or, Bool.and_true]
    exact (Bool.and_true _).symm
  · -- a byte of a load: `load_done` is low and the write is not the last one
    have h95 : i.address ≠ 95#8 := by
      intro h
      rw [completes, hw, hl, h] at hc
      exact absurd hc (by decide)
    rw [heq, hf.loading_done hl, Bool.false_and, Bool.false_and]
    exact Bool.or_eq_false_iff.mpr ⟨decide_eq_false h95, rfl⟩
  · rw [heq, hs, busy, hw, hr, Bool.or_true, Bool.and_true]
    exact (Bool.and_true _).symm
  · -- the stop state keeps `load_done`, which is low
    rw [heq, hf.done_of_stop hstop]
    exact hf.done_of_stop hstop
  · rw [heq, busy, hw, hr]
    simp
  · rw [heq]
    rcases hr with hr | hl
    · rw [busy, hw, hr]
      simp
    · rw [hf.loading_done hl]
      rfl

/-- The start register of the bus follows the start writes. -/
theorem start_step {s : Miner l} {i : Bus} (hs : s.start = false) (hl : s.loading = false) :
    (miner_top l s i).start = startWrite i := by
  rcases miner_top_cases s i with ⟨hs', -⟩ | ⟨-, -, hw, heq⟩ | ⟨hl', -⟩ |
    ⟨-, -, hw, -, heq⟩ | ⟨-, hw, -, -, heq⟩ | ⟨-, -, hw, -, -, -, -, heq⟩ | ⟨-, hw, -, -, -, heq⟩
  · cases hs.symm.trans hs'
  · rw [heq, startWrite, hw]
    by_cases h102 : i.address = 102#8
    · simp [h102]
    · simp [h102, hs]
  case inr.inr.inl => cases hl.symm.trans hl'
  all_goals
    rw [heq, startWrite, hw]
    exact hs

section Run

variable {inp : Nat → Bus} {x : Nat → Miner l}

/-- A core starts in the cycle after `load_done`, unless it has just started. -/
theorem core_start_succ (hx : IsRun (miner_top l) inp x) (i : Fin 4) (t : Nat) :
    ((x (t + 1)).miner i).start = (!((x t).miner i).start && (x t).load_done) := by
  have hcore : (x (t + 1)).miner i = fpgaminer_top l ((x t).miner i) (coreIn (x t)) :=
    isRun_core hx i t
  rw [hcore, start_edge]
  rfl

/-- The four cycles after a completed load. -/
structure Restarting (x : Nat → Miner l) (i : Fin 4) (T : Nat) (again : Bool) : Prop where
  start_one : ((x (T + 1)).miner i).start = false
  start_two : ((x (T + 2)).miner i).start = true
  start_three : ((x (T + 3)).miner i).start = false
  start_four : ((x (T + 4)).miner i).start = again
  done_three : (x (T + 3)).load_done = again
  header_two : (x (T + 2)).header_buffer = (x (T + 1)).header_buffer

theorem restarting (hx : IsRun (miner_top l) inp x) (h0 : MinerTop.PowerUp (x 0)) {T : Nat}
    (hT : completes (x T) (inp T) = true) (i : Fin 4) :
    Restarting x i T
      (busy (inp (T + 1)) && !startWrite (inp (T + 1)) && busy (inp (T + 2))) := by
  have hand := (Bool.and_eq_true _ _).mp hT
  obtain ⟨hw, hl⟩ := (Bool.and_eq_true _ _).mp hand.1
  have hflags := flags_run hx h0 T
  obtain ⟨hl1, hd1, -, hs1⟩ := load_last hl hw (of_decide_eq_true hand.2)
  rw [← hx T] at hl1 hd1 hs1
  rw [hflags.start_of_loading hl] at hs1
  obtain ⟨hheader, hl2⟩ := header_kept (inp (T + 1)) hs1 hl1
  rw [← hx (T + 1)] at hheader hl2
  -- no load can be completed in the next two cycles
  have h1 : completes (x (T + 1)) (inp (T + 1)) = false := by
    rw [completes, hl1, Bool.and_false, Bool.false_and]
  have h2 : completes (x (T + 2)) (inp (T + 2)) = false := by
    rw [completes, hl2, Bool.and_false, Bool.false_and]
  -- the flags one and two cycles later
  have hd2 : (x (T + 2)).load_done = busy (inp (T + 1)) := by
    rw [hx (T + 1), load_done_step (flags_run hx h0 _) h1, hd1, hs1]
    rfl
  have hs2 : (x (T + 2)).start = startWrite (inp (T + 1)) := by
    rw [hx (T + 1), start_step hs1 hl1]
  have hd3 : (x (T + 3)).load_done
      = (busy (inp (T + 1)) && !startWrite (inp (T + 1)) && busy (inp (T + 2))) := by
    rw [hx (T + 2), load_done_step (flags_run hx h0 _) h2, hd2, hs2]
  -- the start register of the core
  have hc1 : ((x (T + 1)).miner i).start = false := by
    rw [core_start_succ hx, hflags.loading_done hl, Bool.and_false]
  have hc2 : ((x (T + 2)).miner i).start = true := by
    rw [core_start_succ hx, hc1, hd1]
    rfl
  have hc3 : ((x (T + 3)).miner i).start = false := by
    rw [core_start_succ hx, hc2]
    rfl
  refine ⟨hc1, hc2, hc3, ?_, hd3, hheader⟩
  rw [core_start_succ hx, hc3, hd3]
  rfl

/-- Without a completed load a core whose `load_done` is low does not start. -/
theorem no_restart (hx : IsRun (miner_top l) inp x) (h0 : MinerTop.PowerUp (x 0)) (i : Fin 4)
    {a b : Nat} (hd : (x a).load_done = false) (hs : ((x a).miner i).start = false)
    (hno : ∀ u, a ≤ u → u < b → completes (x u) (inp u) = false) :
    ∀ t, a ≤ t → t ≤ b → (x t).load_done = false ∧ ((x t).miner i).start = false := by
  intro t hat
  induction hat with
  | refl => exact fun _ => ⟨hd, hs⟩
  | @step t hat ih =>
      intro htb
      obtain ⟨hd', -⟩ := ih (Nat.le_of_succ_le htb)
      constructor
      · rw [hx t, load_done_step (flags_run hx h0 t) (hno t hat htb), hd']
        rfl
      · rw [core_start_succ hx, hd', Bool.and_false]

end Run

/-- **A completed load restarts each core exactly once, on the whole header,
    unless** a fourth cycle is observed and the two cycles after the load were both
    accesses, the first one not a start write. -/
theorem restarted_once_iff (l : Fin 6) (s : Miner l) (hp : MinerTop.PowerUp s)
    (inp : Nat → Bus) (T N : Nat)
    (hT : completes (run (miner_top l) s inp T) (inp T) = true) (hN : T + 3 ≤ N)
    (hnext : ∀ u, T < u → u < N → completes (run (miner_top l) s inp u) (inp u) = false)
    (i : Fin 4) :
    RestartedOnce (run (miner_top l) s inp) i T N ↔
      N = T + 3 ∨ busy (inp (T + 1)) = false ∨ startWrite (inp (T + 1)) = true ∨
        busy (inp (T + 2)) = false := by
  have hx := isRun_run (miner_top l) s inp
  generalize hrun : run (miner_top l) s inp = x at hx hT hnext ⊢
  have h0 : MinerTop.PowerUp (x 0) := by
    rw [← hrun]
    exact hp
  obtain ⟨hc1, hc2, hc3, hc4, hd3, hheader⟩ :=
    restarting hx h0 hT i
  constructor
  · rintro ⟨t, -, -, -, -, huniq⟩
    rcases Nat.eq_or_lt_of_le hN with rfl | hlt
    · exact .inl rfl
    · -- a fourth cycle: it is not a second start
      refine .inr ?_
      have h2 : T + 2 = t := huniq (T + 2) (by omega) (by omega) hc2
      cases hagain : ((x (T + 4)).miner i).start with
      | true =>
          have h4 : T + 4 = t := huniq (T + 4) (by omega) hlt hagain
          omega
      | false =>
          rw [hagain] at hc4
          cases hb1 : busy (inp (T + 1)) with
          | false => exact .inl rfl
          | true =>
              rw [hb1] at hc4
              cases hs1 : startWrite (inp (T + 1)) with
              | true => exact .inr (.inl rfl)
              | false =>
                  rw [hs1] at hc4
                  exact .inr (.inr hc4.symm)
  · intro hcond
    refine ⟨T + 2, by omega, by omega, hc2, hheader, fun u h1 h2 hu => ?_⟩
    rcases Nat.lt_or_ge u (T + 4) with hlt | hge
    · -- of the first three cycles only the second one is a start
      have hcases : u = T + 1 ∨ u = T + 2 ∨ u = T + 3 := by omega
      rcases hcases with rfl | rfl | rfl
      · cases hu.symm.trans hc1
      · rfl
      · cases hu.symm.trans hc3
    · have hd : (x (T + 3)).load_done = false := by
        rw [hd3]
        rcases hcond with hN3 | hb1 | hs1 | hb2
        · omega
        · rw [hb1]
          rfl
        · rw [hs1, Bool.not_true, Bool.and_false]
          rfl
        · rw [hb2, Bool.and_false]
      obtain ⟨-, hlow⟩ := no_restart hx h0 i hd hc3
        (fun v hv1 hv2 => hnext v (by omega) hv2) u (by omega) h2
      cases hu.symm.trans hlow

/-- A load of one byte, followed at once by two reads of it. -/
def readBackTrace : Nat → Bus := stream [put 102 1, idle, put 95 17, get 95, get 95]

/-- **Two reads after a load restart every core twice.** -/
theorem read_back_restarts_twice :
    MinerTop.PowerUp (poweredMiner 5) ∧
    completes (run (miner_top 5) (poweredMiner 5) readBackTrace 2) (readBackTrace 2) = true ∧
    (∀ u, 2 < u → u < 6 →
      completes (run (miner_top 5) (poweredMiner 5) readBackTrace u) (readBackTrace u) = false) ∧
    ¬ RestartedOnce (run (miner_top 5) (poweredMiner 5) readBackTrace) 0 2 6 := by
  have hlate : ∀ u, u < 6 → 2 < u →
      completes (run (miner_top 5) (poweredMiner 5) readBackTrace u) (readBackTrace u) = false := by
    decide +kernel
  refine ⟨powerUp_poweredMiner 5, by decide +kernel, fun u h1 h2 => hlate u h2 h1, ?_⟩
  rintro ⟨t, -, -, -, -, huniq⟩
  have h4 : 4 = t := huniq 4 (by decide) (by decide) (by decide +kernel)
  have h6 : 6 = t := huniq 6 (by decide) (by decide) (by decide +kernel)
  exact absurd (h4.trans h6.symm) (by decide)

/-- The same load with an idle cycle after it. -/
def quietTrace : Nat → Bus := stream [put 102 1, idle, put 95 17]

theorem restarted_once_quiet :
    RestartedOnce (run (miner_top 5) (poweredMiner 5) quietTrace) 3 2 20 := by
  have hlate : ∀ u, u < 20 → 2 < u →
      completes (run (miner_top 5) (poweredMiner 5) quietTrace u) (quietTrace u) = false := by
    decide +kernel
  exact (restarted_once_iff 5 (poweredMiner 5) (powerUp_poweredMiner 5) quietTrace 2 20
    (by decide +kernel) (by decide) (fun u h1 h2 => hlate u h2 h1) 3).mpr (.inr (.inl rfl))

end Load
