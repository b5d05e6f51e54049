import FpgaMiner.Lab2BoundsProofs

/-! # The cursor of the chat editor

    The cursor is drawn at position `msgcidx` of the two input rows, and at the last
    column for 253 and 254 alike.  Left and Backspace step back from there in both, so
    from 254 they leave the cursor one column before the place of the next edit.

    * **`drawn_iff_keeps`** — in a run the cursor is drawn where the next edit happens
      exactly when no Left or Backspace meets index 254 and every insertion has room in
      `msg` and, where it redraws both rows, in `end1`. -/

namespace Lab2

open CBuffer PartialRun

variable {e : Editor} {k : Packet}

/-- The cursor is where the next edit happens. -/
def Drawn (e : Editor) : Prop :=
  e.cr = 46 + min e.msgcidx 253 / 127 ∧ e.cc = min e.msgcidx 253 % 127

instance (e : Editor) : Decidable (Drawn e) := inferInstanceAs (Decidable (_ ∧ _))

/-- A key that keeps it there: the condition on the key and the state before it. -/
def KeepsCursor (e : Editor) (k : Packet) : Prop :=
  if k.keycode = 0x2a#8 ∨ k.keycode = 0x50#8 then e.msgcidx ≠ 254
  else if 0x04#8 ≤ k.keycode ∧ k.keycode ≤ 0x38#8 ∧ k.keycode ≠ 0x28#8 then
    e.msgcidx < e.msglen → e.msglen < 254 → Room e ∧ (e.msglen < 126 ∨ e.msgcidx ≤ 127)
  else True

/-- The screen position is the index, or the index is the last one. -/
def Level (e : Editor) : Prop := e.msgcidx = 127 * (e.cr - 46) + e.cc ∨ e.msgcidx = 254

theorem Placed.drawn_iff (h : Placed e) : Drawn e ↔ Level e := by
  have hrow := h.row
  have hcol := h.column
  have hbehind := h.behind
  have hinside := h.inside
  have hlen := h.length
  rw [Drawn, Level]
  omega

/-- What a run keeps as long as the cursor is drawn where it should be. -/
structure Aligned (e : Editor) : Prop where
  placed : Placed e
  level : Level e

theorem Aligned.drawn (h : Aligned e) : Drawn e := h.placed.drawn_iff.mpr h.level

/-- A key with a result in the two rows, whose copies stay inside their arrays. -/
theorem exact_of_placed {r : Result} {e' : Editor} {out : List Event} {fits : Prop}
    (hr : r = some (e', out)) (hout : AllContained out) (h : Placed e')
    (hlevel : Level e' ↔ fits) :
    PartialRun.Exact (fun e _ => Drawn e) Aligned (inMemory r) fits := by
  have hturn : inMemory r = some (e', out) := inMemory_eq_some.mpr ⟨hr, hout⟩
  refine .of_eq hturn (fun hfits => ?_) (fun hdrawn => hlevel.mp (h.drawn_iff.mp hdrawn))
  have haligned : Aligned e' := ⟨h, hlevel.mpr hfits⟩
  exact ⟨haligned.drawn, haligned⟩

/-! ## The keys -/

/-- From index 254 a Left moves the cursor from where 253 is drawn. -/
theorem level_moveLeft (h : Aligned e) : Level (moveLeft e) ↔ e.msgcidx ≠ 254 := by
  have hrow := h.placed.row
  have hcol := h.placed.column
  have hbehind := h.placed.behind
  have hlevel := h.level
  rw [Level] at hlevel
  rw [moveLeft]
  by_cases hsecond : e.cc = 0 ∧ e.cr = 47
  · rw [if_pos hsecond]
    simp only [Level]
    omega
  · rw [if_neg hsecond]
    by_cases hfirst : e.cc = 0 ∧ e.cr = 46
    · rw [if_pos hfirst, Level]
      omega
    · rw [if_neg hfirst]
      simp only [Level]
      omega

theorem level_moveRight (h : Aligned e) (hin : e.msgcidx < e.msglen) : Level (moveRight e) := by
  have hrow := h.placed.row
  have hcol := h.placed.column
  have hlen := h.placed.length
  have hlevel := h.level
  rw [Level] at hlevel
  rw [moveRight]
  by_cases hfirst : e.cr = 46 ∧ e.cc = 126
  · rw [if_pos hfirst]
    simp only [Level]
    omega
  · rw [if_neg hfirst]
    by_cases hsecond : e.cr = 47 ∧ e.cc = 126
    · rw [if_pos hsecond, Level]
      omega
    · rw [if_neg hsecond]
      simp only [Level]
      omega

theorem level_deleted (h : Aligned e) (msg : Msg) (hin : e.msgcidx < e.msglen) :
    Level (retreat (deleted e msg)) := by
  have hrow := h.placed.row
  have hcol := h.placed.column
  have hlen := h.placed.length
  have hlevel := h.level
  rw [Level] at hlevel
  rw [retreat]
  by_cases hsecond : e.cr = 47 ∧ e.cc = 0
  · rw [if_pos (show (deleted e msg).cr = 47 ∧ (deleted e msg).cc = 0 from hsecond)]
    simp only [Level, deleted]
    omega
  · rw [if_neg (show ¬ ((deleted e msg).cr = 47 ∧ (deleted e msg).cc = 0) from hsecond)]
    simp only [Level, deleted]
    omega

/-- Backspace at either end, likewise. -/
theorem level_backspaceEnd (h : Aligned e) : Level (backspaceEnd e).1 ↔ e.msgcidx ≠ 254 := by
  have hrow := h.placed.row
  have hcol := h.placed.column
  have hbehind := h.placed.behind
  have hinside := h.placed.inside
  have hlevel := h.level
  rw [Level] at hlevel
  by_cases hpos : 0 < e.msgcidx ∧ 0 < e.msglen
  · rw [backspaceEnd, if_pos hpos, stepBack]
    by_cases hsecond : e.cr = 47 ∧ e.cc = 0
    · rw [if_pos hsecond]
      simp only [Level]
      omega
    · rw [if_neg hsecond, if_pos (show 0 < e.cc by omega)]
      simp only [Level]
      omega
  · rw [backspaceEnd, if_neg hpos, stepBack, if_neg (by omega), if_neg (by omega)]
    simp only [Level]
    omega

theorem level_advance (h : Aligned e) (msg : Msg) (hlt : e.msgcidx < 254) :
    Level (advance (stored e msg)) := by
  have hrow := h.placed.row
  have hcol := h.placed.column
  have hlevel := h.level
  rw [Level] at hlevel
  rw [advance]
  by_cases hend : 126 < (stored e msg).cc + 1
  · have hend' : 126 < e.cc + 1 := hend
    rw [if_pos hend]
    by_cases hlast : (stored e msg).cr + 1 = 48
    · -- the last column is that of 253 and of 254
      have hlast' : e.cr + 1 = 48 := hlast
      rw [if_pos hlast]
      simp only [Level, stored]
      omega
    · have hlast' : ¬ e.cr + 1 = 48 := hlast
      rw [if_neg hlast]
      simp only [Level, stored]
      omega
  · rw [if_neg hend]
    simp only [Level, stored]
    omega

theorem backspace_keeps (h : Aligned e) :
    PartialRun.Exact (fun e _ => Drawn e) Aligned (inMemory (backspace e)) (e.msgcidx ≠ 254) := by
  have hrow := h.placed.row
  have hlen := h.placed.length
  have hlevel := h.level
  rw [Level] at hlevel
  rw [backspace]
  by_cases hin : e.msgcidx < e.msglen ∧ e.msgcidx ≠ 0
  · have hfirst : ¬ (e.cr = 46 ∧ e.cc = 0) := by omega
    have h0 := h.placed.nonneg
    obtain ⟨msg, out, hdel, hterm, hcontained, -⟩ := backspaceInside_placed h.placed (by omega)
    rw [if_pos hin]
    exact exact_of_placed hdel hcontained (placed_deleted h.placed hterm hin.1 hfirst)
      (iff_of_true (level_deleted h msg hin.1) (by omega))
  · obtain ⟨e', out, hend, hout, hplaced⟩ := backspaceEnd_good h.placed
    have hfst : (backspaceEnd e).1 = e' := congrArg Prod.fst hend
    rw [if_neg hin]
    exact exact_of_placed (congrArg some hend) hout.contained hplaced (hfst ▸ level_backspaceEnd h)

theorem left_keeps (h : Aligned e) :
    PartialRun.Exact (fun e _ => Drawn e) Aligned (inMemory (leftArrow e)) (e.msgcidx ≠ 254) := by
  obtain ⟨c, hleft⟩ := leftArrow_at h.placed.nonneg h.placed.inBuffer
  have hout : AllInBounds [.fbputchar c e.cr e.cc] := by simp
  exact exact_of_placed hleft hout.contained (placed_moveLeft h.placed) (level_moveLeft h)

theorem right_keeps (h : Aligned e) :
    PartialRun.Exact (fun e _ => Drawn e) Aligned (inMemory (rightArrow e)) True := by
  by_cases hin : e.msgcidx < e.msglen
  · obtain ⟨c, hright⟩ := rightArrow_at h.placed.nonneg h.placed.inBuffer hin
    have hout : AllInBounds [.fbputchar c e.cr e.cc] := by simp
    exact exact_of_placed hright hout.contained (placed_moveRight h.placed hin)
      (iff_of_true (level_moveRight h hin) trivial)
  · have hstay : rightArrow e = some (e, []) := by rw [rightArrow, if_neg hin]
    exact exact_of_placed hstay allInBounds_nil.contained h.placed (iff_of_true h.level trivial)

theorem enter_keeps (h : Aligned e) :
    PartialRun.Exact (fun e _ => Drawn e) Aligned (inMemory (enter e)) True := by
  obtain ⟨rcr, out, henter, hcontained, -⟩ := enter_placed h.placed
  exact exact_of_placed henter hcontained (placed_cleared e rcr) (iff_of_true (.inl rfl) trivial)

/-- An insertion with room in `msg`: in memory it has a result unless the copy into `end1`
    overruns it. -/
theorem insertion_keeps (h : Aligned e) {c : Byte} (hc : k.char = some c)
    (hfull : e.msglen < 254) (hin : e.msgcidx < e.msglen) (hroom : Room e) :
    PartialRun.Exact (fun e _ => Drawn e) Aligned (inMemory (character e k))
      (e.msglen < 126 ∨ e.msgcidx ≤ 127) := by
  have h0 := h.placed.nonneg
  obtain ⟨msg, drawn, hmake, hterm, hcontained, -⟩ := makeRoom_room h.placed (by omega) hroom
  have hplaced : Placed (inserted e msg) := by
    refine ⟨h.placed.row, h.placed.column, h.placed.behind, ?_, ?_, hterm⟩ <;>
      simp only [inserted] <;> omega
  obtain ⟨msg', out, hput, hout, hplaced'⟩ := put_placed hplaced hc
    (by simp only [inserted]; omega)
  have hchar := character_inside_at (k := k) hfull hin hmake hput
  have hall : AllContained (drawn ++ out) ↔ e.msglen < 126 ∨ e.msgcidx ≤ 127 := by
    rw [allContained_append, hcontained, and_iff_left hout.contained]
    omega
  by_cases hfits : e.msglen < 126 ∨ e.msgcidx ≤ 127
  · have hlevel : Level (advance (stored (inserted e msg) msg')) :=
      level_advance ⟨hplaced, h.level⟩ msg' (by simp only [inserted]; omega)
    exact exact_of_placed hchar (hall.mpr hfits) hplaced' (iff_of_true hlevel hfits)
  · refine .of_none ?_ hfits
    rw [hchar, inMemory_overrun (fun hcopies => hfits (hall.mp hcopies))]

theorem character_keeps (h : Aligned e) {c : Byte} (hc : k.char = some c) :
    PartialRun.Exact (fun e _ => Drawn e) Aligned (inMemory (character e k))
      (e.msgcidx < e.msglen → e.msglen < 254 → Room e ∧ (e.msglen < 126 ∨ e.msgcidx ≤ 127)) := by
  have hinside := h.placed.inside
  by_cases hfull : e.msglen < 254
  · by_cases hin : e.msgcidx < e.msglen
    · by_cases hroom : Room e
      · obtain ⟨hsound, htight⟩ := insertion_keeps h hc hfull hin hroom
        exact ⟨fun hfits => hsound (hfits hin hfull).2,
          fun hno => htight (fun hcopy => hno fun _ _ => ⟨hroom, hcopy⟩)⟩
      · have hnone : character e k = none := by
          rw [character, if_pos (by exact hfull), if_pos hin,
            makeRoom_none h.placed (by omega) hroom]
          rfl
        exact .of_none (congrArg inMemory hnone) (fun hfits => hroom (hfits hin hfull).1)
    · obtain ⟨msg, out, hput, hout, hplaced⟩ := put_placed h.placed hc (by omega)
      exact exact_of_placed (character_end_at hfull hin hput) hout.contained hplaced
        (iff_of_true (level_advance h msg (by omega)) (fun hlt => absurd hlt hin))
  · have hstay : character e k = some (e, []) := by
      rw [character, if_neg (by exact hfull)]
    exact exact_of_placed hstay allInBounds_nil.contained h.placed
      (iff_of_true h.level (fun _ hlt => absurd hlt hfull))

/-! ## The runs -/

/-- **One key keeps the cursor exactly under its condition.** -/
theorem turn_keeps (h : Aligned e) :
    PartialRun.Exact (fun e _ => Drawn e) Aligned (turn e k) (KeepsCursor e k) := by
  rw [turn]
  cases handle_turn e k with
  | backspace hback hturn =>
      rw [hturn, KeepsCursor, if_pos (.inl hback)]
      exact backspace_keeps h
  | left hleft hturn =>
      rw [hturn, KeepsCursor, if_pos (.inr hleft)]
      exact left_keeps h
  | right hright hturn =>
      rw [hturn, KeepsCursor, hright]
      exact right_keeps h
  | enter henter hturn =>
      rw [hturn, KeepsCursor, henter]
      exact enter_keeps h
  | char c hback henter hchar hc hturn =>
      have hleft : k.keycode ≠ 0x50#8 := fun heq => absurd (heq ▸ hchar.2) (by decide)
      rw [hturn, KeepsCursor, if_neg (not_or.mpr ⟨hback, hleft⟩),
        if_pos ⟨hchar.1, hchar.2, henter⟩]
      exact character_keeps h hc
  | other hback hleft hother hturn =>
      rw [hturn, KeepsCursor, if_neg (not_or.mpr ⟨hback, hleft⟩),
        if_neg (fun hall => hother ⟨hall.1, hall.2.1⟩)]
      exact exact_of_placed rfl allInBounds_nil.contained h.placed (iff_of_true h.level trivial)

theorem aligned_initial : Aligned initial := ⟨placed_initial, .inl rfl⟩

/-- **In a run the cursor is always drawn where the next edit happens exactly when** every
    key meets its condition. -/
theorem drawn_iff_keeps (ks : List Packet) :
    AlwaysGood turn Packet.IsEsc (fun e _ => Drawn e) initial ks
      ↔ PartialRun.AllFit turn Packet.IsEsc KeepsCursor initial ks :=
  @alwaysGood_iff _ _ _ _ _ _ _ (fun e _ => Aligned e) (fun _ _ _ h _ => turn_keeps h) ks initial
    aligned_initial

-- ten back from 200 characters, an insertion copies far more than `end1` holds
example : ¬ AlwaysGood turn Packet.IsEsc (fun e _ => Drawn e) initial
    (List.replicate 200 ⟨0, 0x04⟩ ++ List.replicate 10 ⟨0, 0x50⟩ ++ [⟨0, 0x04⟩]) := by
  decide +kernel

/-- A full buffer and a Left. -/
def fullLeft : List Packet := List.replicate 254 ⟨0x00, 0x04⟩ ++ [⟨0x00, 0x50⟩]

/-- **Behind 254 characters a Left moves to index 253 and column 125.** -/
theorem full_left_apart :
    (run initial fullLeft).map (fun r => (r.1.msgcidx, r.1.cr, r.1.cc)) = some (253, 47, 125) ∧
    ¬ AlwaysGood turn Packet.IsEsc (fun e _ => Drawn e) initial fullLeft := by
  constructor
  · decide +kernel
  · decide +kernel

end Lab2
