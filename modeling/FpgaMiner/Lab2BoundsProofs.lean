import FpgaMiner.Lab2Proofs
import FpgaMiner.PartialRunProofs

/-! # The buffers of the chat editor

    When the editor leaves its buffers.  As long as it does not, the screen cursor
    follows `msgcidx`, or stays one behind it after the last column was reached, and
    the last byte of `msg` is NUL (`Placed`).

    * **`within_iff_fit`** — a run stays inside the buffers exactly when every key
      fits: an Enter after at most 122 characters, an insertion into a text of less
      than 126 characters with room behind what is moved, a deletion inside the
      text that neither redraws both rows nor finds the cursor at the first column. -/

namespace Lab2

open CBuffer

variable {e : Editor} {k : Packet}

/-! ## The property -/

/-- What must hold after every key, and of what the key did. -/
structure Good (e : Editor) (out : List Event) : Prop where
  arrays : AllInBounds out
  nonneg : 0 ≤ e.msgcidx
  inside : e.msgcidx ≤ e.msglen
  length : e.msglen ≤ MSG_BUFSIZE - 1
  column : 0 ≤ e.cc

instance (e : Editor) (out : List Event) : Decidable (Good e out) :=
  decidable_of_iff (AllInBounds out ∧ 0 ≤ e.msgcidx ∧ e.msgcidx ≤ e.msglen ∧
      e.msglen ≤ MSG_BUFSIZE - 1 ∧ 0 ≤ e.cc)
    ⟨fun ⟨h1, h2, h3, h4, h5⟩ => ⟨h1, h2, h3, h4, h5⟩,
      fun ⟨h1, h2, h3, h4, h5⟩ => ⟨h1, h2, h3, h4, h5⟩⟩

/-- A zero with two more bytes behind it, at the cursor or after it. -/
def Room (e : Editor) : Prop := ∃ j, e.msgcidx ≤ j ∧ j ≤ 252 ∧ e.msg.read j = some 0

/-- A key that keeps the editor inside its buffers: the condition on the key and the
    state before it. -/
def Fits (e : Editor) (k : Packet) : Prop :=
  if k.keycode = 0x2a#8 then
    0 < e.msgcidx → e.msgcidx < e.msglen →
      ¬ (e.cr = 46 ∧ e.cc = 0) ∧
      ¬ (127 < e.msglen ∧ e.msgcidx ≤ 127 ∧ ¬ (e.cr = 47 ∧ e.cc = 0))
  else if k.keycode = 0x28#8 then e.msglen ≤ 122
  else if 0x04#8 ≤ k.keycode ∧ k.keycode ≤ 0x38#8 then
    e.msgcidx < e.msglen → e.msglen < 254 → e.msglen < 126 ∧ Room e
  else True

/-! ## The invariant -/

/-- The cursor on the screen, the indices and the end of the buffer. -/
structure Placed (e : Editor) : Prop where
  row : e.cr = 46 ∨ e.cr = 47
  column : 0 ≤ e.cc ∧ e.cc ≤ 126
  behind : e.msgcidx = 127 * (e.cr - 46) + e.cc ∨ e.msgcidx = 127 * (e.cr - 46) + e.cc + 1
  inside : e.msgcidx ≤ e.msglen
  length : e.msglen ≤ 254
  terminated : e.msg.Terminated

/-- The index is not negative. -/
theorem Placed.nonneg (h : Placed e) : 0 ≤ e.msgcidx := by
  have hrow := h.row
  have hcol := h.column
  have hbehind := h.behind
  omega

/-- The index is in the buffer. -/
theorem Placed.inBuffer (h : Placed e) : e.msgcidx < MSG_BUFSIZE :=
  Int.lt_of_le_of_lt (Int.le_trans h.inside h.length) (by decide)

/-- A placed state after a key that stays inside the arrays. -/
theorem Placed.good (h : Placed e) {out : List Event} (hout : AllInBounds out) : Good e out :=
  ⟨hout, h.nonneg, h.inside, h.length, h.column.1⟩

/-- A cleared editor is placed. -/
theorem placed_cleared (e : Editor) (rcr : Int) : Placed (cleared e rcr) where
  row := .inl rfl
  column := (by decide : (0 : Int) ≤ 0 ∧ (0 : Int) ≤ 126)
  behind := .inl rfl
  inside := Int.le_refl 0
  length := (by decide : (0 : Int) ≤ 254)
  terminated := terminated_of_zeros (l := []) (k := MSG_BUFSIZE) rfl (by decide)

/-- A key with a result, good exactly when it fits. -/
theorem exact_of_run {r : Result} {e' : Editor} {out : List Event} {fits : Prop}
    (hr : r = some (e', out)) (hgood : fits → AllInBounds out ∧ Placed e')
    (hbad : Good e' out → fits) : PartialRun.Exact Good Placed r fits := by
  refine .of_eq hr (fun hfits => ?_) hbad
  obtain ⟨hout, hplaced⟩ := hgood hfits
  exact ⟨hplaced.good hout, hplaced⟩

/-- A key that always fits. -/
theorem exact_of_fits {r : Result} {e' : Editor} {out : List Event} {fits : Prop} (hf : fits)
    (hr : r = some (e', out)) (hout : AllInBounds out) (h : Placed e') :
    PartialRun.Exact Good Placed r fits :=
  exact_of_run hr (fun _ => ⟨hout, h⟩) (fun _ => hf)

/-- A key that stays inside the arrays does so in memory. -/
theorem exact_inMemory {r : Result} {fits : Prop} (h : PartialRun.Exact Good Placed r fits) :
    PartialRun.Exact Good Placed (inMemory r) fits := by
  refine ⟨fun hfits => ?_, fun hno e' out hr => ?_⟩
  · obtain ⟨e', out, rfl, hgood, hplaced⟩ := h.sound hfits
    exact ⟨e', out, inMemory_of_contained hgood.arrays.contained, hgood, hplaced⟩
  · exact h.tight hno e' out (inMemory_eq_some.mp hr).1

/-! ## The keys -/

/-- Moving left keeps the place. -/
theorem placed_moveLeft (h : Placed e) : Placed (moveLeft e) := by
  have hrow := h.row
  have hcol := h.column
  have hbehind := h.behind
  have hinside := h.inside
  have hlen := h.length
  rw [moveLeft]
  by_cases hsecond : e.cc = 0 ∧ e.cr = 47
  · rw [if_pos hsecond]
    refine ⟨.inl rfl, ?_, ?_, ?_, hlen, h.terminated⟩ <;> simp only <;> omega
  · rw [if_neg hsecond]
    by_cases hfirst : e.cc = 0 ∧ e.cr = 46
    · rw [if_pos hfirst]
      exact h
    · rw [if_neg hfirst]
      refine ⟨hrow, ?_, ?_, ?_, hlen, h.terminated⟩ <;> simp only <;> omega

/-- A Left always fits. -/
theorem left_exact (h : Placed e) : PartialRun.Exact Good Placed (leftArrow e) True := by
  obtain ⟨c, hleft⟩ := leftArrow_at h.nonneg h.inBuffer
  exact exact_of_fits trivial hleft (by simp) (placed_moveLeft h)

/-- Moving right inside the text keeps the place. -/
theorem placed_moveRight (h : Placed e) (hin : e.msgcidx < e.msglen) : Placed (moveRight e) := by
  have hrow := h.row
  have hcol := h.column
  have hbehind := h.behind
  have hlen := h.length
  rw [moveRight]
  by_cases hfirst : e.cr = 46 ∧ e.cc = 126
  · rw [if_pos hfirst]
    refine ⟨.inr rfl, ?_, ?_, ?_, hlen, h.terminated⟩ <;> simp only <;> omega
  · rw [if_neg hfirst]
    by_cases hsecond : e.cr = 47 ∧ e.cc = 126
    · rw [if_pos hsecond]
      exact h
    · rw [if_neg hsecond]
      refine ⟨hrow, ?_, ?_, ?_, hlen, h.terminated⟩ <;> simp only <;> omega

/-- A Right always fits. -/
theorem right_exact (h : Placed e) : PartialRun.Exact Good Placed (rightArrow e) True := by
  by_cases hin : e.msgcidx < e.msglen
  · obtain ⟨c, hright⟩ := rightArrow_at h.nonneg h.inBuffer hin
    exact exact_of_fits trivial hright (by simp) (placed_moveRight h hin)
  · have hstay : rightArrow e = some (e, []) := by rw [rightArrow, if_neg hin]
    exact exact_of_fits trivial hstay allInBounds_nil h

/-- An Enter succeeds. -/
theorem enter_placed (h : Placed e) :
    ∃ rcr out, enter e = some (cleared e rcr, out) ∧ AllContained out ∧
      (AllInBounds out ↔ e.msglen ≤ 122) :=
  ⟨_, _, enter_total h.terminated (Int.le_trans h.nonneg h.inside)
    (Int.lt_of_le_of_lt h.length (by decide)), (enterEvents_at e _).2⟩

/-- An Enter fits with a text of one row. -/
theorem enter_exact (h : Placed e) : PartialRun.Exact Good Placed (enter e) (e.msglen ≤ 122) := by
  obtain ⟨rcr, out, henter, -, hin⟩ := enter_placed h
  exact exact_of_run henter (fun hfits => ⟨hin.mpr hfits, placed_cleared e rcr⟩)
    (fun hgood => hin.mp hgood.arrays)

/-- Where a deletion inside the text redraws both rows. -/
theorem splits_deleted (msg : Msg) : Splits (deleted e msg) ↔
    127 < e.msglen ∧ e.msgcidx ≤ 127 ∧ ¬ (e.cr = 47 ∧ e.cc = 0) := by
  show 126 < e.msglen - 1 ∧ e.msgcidx - 1 < 127 ∧ ¬ (e.cr = 47 ∧ e.cc = 0) ↔ _
  omega

/-- Behind the first column, a deletion inside the text leaves the cursor in its rows. -/
theorem placed_deleted (h : Placed e) {msg : Msg} (hterm : msg.Terminated)
    (hin : e.msgcidx < e.msglen) (hfirst : ¬ (e.cr = 46 ∧ e.cc = 0)) :
    Placed (retreat (deleted e msg)) := by
  have hrow := h.row
  have hcol := h.column
  have hbehind := h.behind
  have hlen := h.length
  rw [retreat]
  by_cases hsecond : e.cr = 47 ∧ e.cc = 0
  · rw [if_pos (show (deleted e msg).cr = 47 ∧ (deleted e msg).cc = 0 from hsecond)]
    refine ⟨.inl rfl, ?_, ?_, ?_, ?_, hterm⟩ <;> simp only [deleted] <;> omega
  · rw [if_neg (show ¬ ((deleted e msg).cr = 47 ∧ (deleted e msg).cc = 0) from hsecond)]
    refine ⟨hrow, ?_, ?_, ?_, ?_, hterm⟩ <;> simp only [deleted] <;> omega

/-- A deletion inside the text succeeds. -/
theorem backspaceInside_placed (h : Placed e) (hpos : 0 < e.msgcidx) :
    ∃ msg out, backspaceInside e = some (retreat (deleted e msg), out) ∧ msg.Terminated ∧
      AllContained out ∧ (AllInBounds out ↔ ¬ Splits (deleted e msg)) := by
  obtain ⟨l', s, r, hsplit, hs, hl'⟩ := h.terminated.split h.nonneg h.inBuffer
  obtain ⟨l, x, rfl⟩ : ∃ l x, l' = l ++ [x] := by
    refine ⟨l'.dropLast, l'.getLast ?_, (List.dropLast_append_getLast _).symm⟩
    rintro rfl
    exact absurd hl' (Int.ne_of_gt hpos)
  rw [← List.append_cons] at hsplit
  obtain ⟨msg, out, hdel, -, hterm, -, hcontained, harrays⟩ := backspaceInside_at hsplit hs
    (by rw [hl', List.length_append]; rfl) h.terminated
  exact ⟨msg, out, hdel, hterm, hcontained, harrays⟩

/-- A deletion inside the text fits unless it redraws both rows or the cursor is at the
    first column. -/
theorem backspaceInside_exact (h : Placed e) (hpos : 0 < e.msgcidx) (hin : e.msgcidx < e.msglen) :
    PartialRun.Exact Good Placed (backspaceInside e) (¬ (e.cr = 46 ∧ e.cc = 0) ∧
      ¬ (127 < e.msglen ∧ e.msgcidx ≤ 127 ∧ ¬ (e.cr = 47 ∧ e.cc = 0))) := by
  obtain ⟨msg, out, hdel, hterm, -, harrays⟩ := backspaceInside_placed h hpos
  rw [splits_deleted] at harrays
  refine exact_of_run hdel ?_ ?_
  · rintro ⟨hfirst, hsplits⟩
    exact ⟨harrays.mpr hsplits, placed_deleted h hterm hin hfirst⟩
  · intro hgood
    refine ⟨fun hfirst => ?_, harrays.mp hgood.arrays⟩
    -- at the first column `cc` becomes negative
    have hcc := hgood.column
    rw [retreat, if_neg (by show ¬ (e.cr = 47 ∧ e.cc = 0); omega)] at hcc
    have hcc' : 0 ≤ e.cc - 1 := hcc
    omega

/-- A Backspace at either end of the text always fits. -/
theorem backspaceEnd_good (h : Placed e) :
    ∃ e' out, backspaceEnd e = (e', out) ∧ AllInBounds out ∧ Placed e' := by
  have hrow := h.row
  have hcol := h.column
  have hbehind := h.behind
  have hinside := h.inside
  have hlen := h.length
  have hterm := h.terminated
  by_cases hpos : 0 < e.msgcidx ∧ 0 < e.msglen
  · rw [backspaceEnd, if_pos hpos, stepBack]
    by_cases hsecond : e.cr = 47 ∧ e.cc = 0
    · rw [if_pos hsecond]
      refine ⟨_, _, rfl, by simp, .inl rfl, ?_, ?_, ?_, ?_, hterm⟩ <;> simp only <;> omega
    · rw [if_neg hsecond]
      by_cases hcc : 0 < e.cc
      · rw [if_pos hcc]
        refine ⟨_, _, rfl, by simp, hrow, ?_, ?_, ?_, ?_, hterm⟩ <;> simp only <;> omega
      · -- the cursor was one behind: it catches up
        rw [if_neg hcc]
        refine ⟨_, _, rfl, by simp, hrow, ?_, ?_, ?_, ?_, hterm⟩ <;> simp only <;> omega
  · rw [backspaceEnd, if_neg hpos, stepBack, if_neg (by omega), if_neg (by omega)]
    exact ⟨_, _, rfl, by simp, h⟩

/-- A Backspace, inside the text or at its ends. -/
theorem backspace_exact (h : Placed e) :
    PartialRun.Exact Good Placed (backspace e) (0 < e.msgcidx → e.msgcidx < e.msglen →
      ¬ (e.cr = 46 ∧ e.cc = 0) ∧
      ¬ (127 < e.msglen ∧ e.msgcidx ≤ 127 ∧ ¬ (e.cr = 47 ∧ e.cc = 0))) := by
  have h0 := h.nonneg
  rw [backspace]
  by_cases hin : e.msgcidx < e.msglen ∧ e.msgcidx ≠ 0
  · have hpos : 0 < e.msgcidx := by omega
    obtain ⟨hgood, hbad⟩ := backspaceInside_exact h hpos hin.1
    rw [if_pos hin]
    exact ⟨fun hfits => hgood (hfits hpos hin.1), fun hno => hbad (fun hc => hno fun _ _ => hc)⟩
  · obtain ⟨e', out, hend, hout, hplaced⟩ := backspaceEnd_good h
    rw [if_neg hin, hend]
    exact exact_of_fits (fun hpos hlt => absurd ⟨hlt, by omega⟩ hin) rfl hout hplaced

/-- Room is what the string at the cursor leaves. -/
theorem room_iff {l s r : List Byte} (h : e.msg.bytes = l ++ (s ++ 0 :: r)) (hs : 0 ∉ s)
    (hi : e.msgcidx = l.length) : Room e ↔ 2 ≤ r.length := by
  have hsize : (l ++ (s ++ 0 :: r)).length = 255 := e.msg.size_of h
  simp only [List.length_append, List.length_cons] at hsize
  constructor
  · rintro ⟨j, hle, hj, h0⟩
    have hfirst := first_zero h hs (hi ▸ hle) h0
    omega
  · intro hr
    rw [← List.append_assoc] at h
    refine ⟨(l ++ s).length, ?_, ?_, read_at h rfl⟩ <;> rw [List.length_append] <;> omega

/-- With room behind it, the string at the cursor is moved. -/
theorem makeRoom_room (h : Placed e) (hlt : e.msgcidx < 254) (hroom : Room e) :
    ∃ msg out, makeRoom e = some (inserted e msg, out) ∧ msg.Terminated ∧
      (AllContained out ↔ e.msglen ≤ 125 ∨ e.msgcidx ≤ 127) ∧
      (AllInBounds out ↔ e.msglen ≤ 125) := by
  have ht := h.terminated
  have h0 := h.nonneg
  obtain ⟨l, s, r, hsplit, hs, hl⟩ := ht.split h0 h.inBuffer
  have hr := (room_iff hsplit hs hl).mp hroom
  obtain ⟨y, z, r, rfl⟩ : ∃ y z r', r = y :: z :: r' := by
    match r, hr with
    | y :: z :: r, _ => exact ⟨y, z, r, rfl⟩
  have hnext : e.msgcidx + 1 < MSG_BUFSIZE := by
    show e.msgcidx + 1 < 255
    omega
  cases s with
  | nil =>
      -- a NUL at the cursor: nothing is moved
      have hread : e.msg.read e.msgcidx = some 0 := read_at hsplit hl
      obtain ⟨tmp2, hread'⟩ := read_total (b := e.msg) (i := e.msgcidx + 1) (by omega) hnext
      obtain ⟨out, hmake, -, harrays⟩ := makeRoom_at hread hread' (shiftUp_zero hread 255 0 tmp2) ht
        h0 hnext
      exact ⟨e.msg, out, hmake, ht, harrays⟩
  | cons a s =>
      have hsize := congrArg List.length hsplit
      rw [e.msg.size, MSG_BUFSIZE] at hsize
      simp only [List.length_append, List.length_cons] at hsize
      obtain ⟨tmp2, msg, hread, hread', hshift, hmsg⟩ := shiftUp_at hs hsplit hl
        (show _ < FUEL by rw [List.length_cons]; show _ < 256; omega)
      have hterm : msg.Terminated := by
        refine terminated_of_suffix (l := l ++ (a :: s ++ [0, y])) (m := l ++ a :: (a :: s ++ [0]))
          (r := z :: r) ?_ ?_ (List.cons_ne_nil z r) ht
        · rw [hsplit]
          simp
        · rw [hmsg]
          simp
      obtain ⟨out, hmake, -, harrays⟩ := makeRoom_at hread hread' hshift hterm h0 hnext
      exact ⟨msg, out, hmake, hterm, harrays⟩

/-- Without room the shift leaves the buffer. -/
theorem makeRoom_none (h : Placed e) (hlt : e.msgcidx < 253) (hroom : ¬ Room e) :
    makeRoom e = none := by
  obtain ⟨l, s, r, hsplit, hs, hl⟩ := h.terminated.split h.nonneg h.inBuffer
  rw [room_iff hsplit hs hl] at hroom
  cases s with
  | nil => exact absurd (hsplit ▸ e.msg.size) (by simp [MSG_BUFSIZE]; omega)
  | cons a s =>
      obtain ⟨tmp2, hread, hread', hshift⟩ := shiftUp_at_none hs hsplit (by omega) hl FUEL
      rw [makeRoom_eq hread hread', hshift]
      rfl

/-- A character put at the cursor, and the cursor after it. -/
theorem put_placed (h : Placed e) {c : Byte} (hc : k.char = some c) (hlt : e.msgcidx < 254) :
    ∃ msg out, putChar e k = some (stored e msg, out) ∧ AllInBounds out ∧
      Placed (advance (stored e msg)) := by
  have hrow := h.row
  have hcol := h.column
  have hbehind := h.behind
  have hinside := h.inside
  have hlength := h.length
  obtain ⟨l, s, r, hsplit, -, hl⟩ := h.terminated.split h.nonneg h.inBuffer
  obtain ⟨a, q, hq⟩ : ∃ a q, s ++ 0 :: r = a :: q := List.exists_cons_of_ne_nil (by simp)
  rw [hq] at hsplit
  obtain ⟨msg, hput, hmsg⟩ := putChar_at hsplit hl (by show e.msgcidx < 254; omega) hc
  have hsize : (l ++ a :: q).length = 255 := e.msg.size_of hsplit
  rw [List.length_append, List.length_cons] at hsize
  have hterm : msg.Terminated := by
    refine terminated_of_suffix (l := l ++ [a]) (m := l ++ [c]) (r := q) ?_ ?_ ?_ h.terminated
    · rw [hsplit, List.append_cons]
    · rw [hmsg, List.append_cons]
    · exact List.length_pos_iff.mp (by omega)
  have hmsglen : e.msgcidx + 1 ≤ (stored e msg).msglen ∧ (stored e msg).msglen ≤ 254 := by
    show e.msgcidx + 1 ≤ (if e.msgcidx + 1 = e.msglen + 1 then e.msglen + 1 else e.msglen) ∧
      (if e.msgcidx + 1 = e.msglen + 1 then e.msglen + 1 else e.msglen) ≤ 254
    split <;> omega
  refine ⟨msg, _, hput, by simp, ?_⟩
  rw [advance]
  by_cases hend : 126 < (stored e msg).cc + 1
  · have hend' : 126 < e.cc + 1 := hend
    rw [if_pos hend]
    by_cases hlast : (stored e msg).cr + 1 = 48
    · -- after the last column the cursor stays one behind
      have hlast' : e.cr + 1 = 48 := hlast
      rw [if_pos hlast]
      refine ⟨.inr rfl, ?_, ?_, hmsglen.1, hmsglen.2, hterm⟩ <;> simp only [stored] <;> omega
    · have hlast' : ¬ e.cr + 1 = 48 := hlast
      rw [if_neg hlast]
      refine ⟨?_, ?_, ?_, hmsglen.1, hmsglen.2, hterm⟩ <;> simp only [stored] <;> omega
  · have hend' : ¬ 126 < e.cc + 1 := hend
    rw [if_neg hend]
    refine ⟨hrow, ?_, ?_, hmsglen.1, hmsglen.2, hterm⟩ <;> simp only [stored] <;> omega

/-- An insertion fits with room in `msg` and in the first row; behind the text a character
    always fits. -/
theorem character_exact (h : Placed e) {c : Byte} (hc : k.char = some c) :
    PartialRun.Exact Good Placed (character e k)
      (e.msgcidx < e.msglen → e.msglen < 254 → e.msglen < 126 ∧ Room e) := by
  have h0 := h.nonneg
  have hinside := h.inside
  by_cases hfull : e.msglen < 254
  · by_cases hin : e.msgcidx < e.msglen
    · by_cases hroom : Room e
      · obtain ⟨msg, drawn, hmake, hterm, -, harrays⟩ := makeRoom_room h (by omega) hroom
        have hplaced : Placed (inserted e msg) := by
          refine ⟨h.row, h.column, h.behind, ?_, ?_, hterm⟩ <;> simp only [inserted] <;> omega
        obtain ⟨msg', out, hput, hout, hplaced'⟩ := put_placed hplaced hc
          (by simp only [inserted]; omega)
        have hchar := character_inside_at (k := k) hfull hin hmake hput
        refine exact_of_run hchar ?_ ?_
        · intro hfits
          have harray := harrays.mpr (Int.le_of_lt_add_one (hfits hin hfull).1)
          exact ⟨allInBounds_append.mpr ⟨harray, hout⟩, hplaced'⟩
        · intro hgood _ _
          have hle := harrays.mp (allInBounds_append.mp hgood.arrays).1
          exact ⟨Int.lt_add_one_of_le hle, hroom⟩
      · have hnone : character e k = none := by
          rw [character, if_pos (by exact hfull), if_pos hin,
            makeRoom_none h (by omega) hroom]
          rfl
        exact .of_none hnone (fun hfits => hroom (hfits hin hfull).2)
    · obtain ⟨msg, out, hput, hout, hplaced⟩ := put_placed h hc (by omega)
      exact exact_of_fits (fun hlt => absurd hlt hin) (character_end_at hfull hin hput) hout hplaced
  · -- a full buffer ignores the key
    have hstay : character e k = some (e, []) := by
      rw [character, if_neg (by exact hfull)]
    exact exact_of_fits (fun _ hlt => absurd hlt hfull) hstay allInBounds_nil h

/-! ## The runs -/

/-- **One key is good exactly when it fits.** -/
theorem handle_exact (h : Placed e) : PartialRun.Exact Good Placed (handle e k) (Fits e k) := by
  cases handle_turn e k with
  | backspace hback hturn =>
      rw [hturn, Fits, if_pos hback]
      exact backspace_exact h
  | left hleft hturn =>
      rw [hturn, Fits, hleft]
      exact left_exact h
  | right hright hturn =>
      rw [hturn, Fits, hright]
      exact right_exact h
  | enter henter hturn =>
      rw [hturn, Fits, henter]
      exact enter_exact h
  | char c hback henter hchar hc hturn =>
      rw [hturn, Fits, if_neg hback, if_neg henter, if_pos hchar]
      exact character_exact h hc
  | other hback _ hother hturn =>
      have henter : k.keycode ≠ 0x28#8 := fun heq => hother (by rw [heq]; decide)
      rw [hturn, Fits, if_neg hback, if_neg henter, if_neg hother]
      exact exact_of_fits trivial rfl allInBounds_nil h

/-- And in memory. -/
theorem turn_exact (h : Placed e) : PartialRun.Exact Good Placed (turn e k) (Fits e k) :=
  exact_inMemory (handle_exact h)

/-- The editor starts in its place. -/
theorem placed_initial : Placed initial := placed_cleared initial 0

/-- **A run stays inside the buffers exactly when every key of it fits**: every turn of
    the loop succeeds and is good, up to ESC. -/
theorem within_iff_fit (ks : List Packet) :
    PartialRun.AlwaysGood turn Packet.IsEsc Good initial ks
      ↔ PartialRun.AllFit turn Packet.IsEsc Fits initial ks :=
  @PartialRun.alwaysGood_iff _ _ _ _ _ _ _ (fun e _ => Placed e) (fun _ _ _ h _ => turn_exact h)
    ks initial placed_initial

-- characters in both shift states, a NUL key, an edit inside the text, Enter
example : PartialRun.AlwaysGood turn Packet.IsEsc Good initial [⟨0, 0x04⟩, ⟨2, 0x05⟩, ⟨0, 0x50⟩,
    ⟨0, 0x2b⟩, ⟨0, 0x2a⟩, ⟨0, 0x4f⟩, ⟨0, 0x28⟩] := by decide +kernel

/-- 123 characters and Enter. -/
def longLine : List Packet := List.replicate 123 ⟨0x00, 0x04⟩ ++ [⟨0x00, 0x28⟩]

/-- **The terminator of a line of 123 characters is written outside `firstlineBuf`.** -/
theorem long_line_leaves :
    ¬ PartialRun.AlwaysGood turn Packet.IsEsc Good initial longLine := by
  decide +kernel

end Lab2
