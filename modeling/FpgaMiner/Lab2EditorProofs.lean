import FpgaMiner.Lab2Proofs
import FpgaMiner.LineEditorProofs

/-! # The chat editor sends what was typed

    The handlers against a line editor.  The buffer holds the text of the line, the
    characters that a Backspace at its end left behind, and zeros; with at most 253
    characters typed since the last Enter two zeros always remain, which is what the
    shift of an insertion reads (`Refines`).

    * **`sends_typed`** — the messages sent are those of the line editor. -/

namespace Lab2

open CBuffer LineEditor

/-! ## The reference -/

/-- A key of the range of characters that is not Enter, ESC or Backspace. -/
def Packet.IsChar (k : Packet) : Prop :=
  0x04#8 ≤ k.keycode ∧ k.keycode ≤ 0x38#8 ∧ k.keycode ≠ 0x28#8 ∧ k.keycode ≠ 0x29#8 ∧
    k.keycode ≠ 0x2a#8

instance (k : Packet) : Decidable k.IsChar :=
  inferInstanceAs (Decidable (_ ∧ _))

/-- The keys of the editor; a character key has a character other than NUL. -/
inductive Editing (k : Packet) : Prop where
  | backspace : k.keycode = 0x2a#8 → Editing k
  | left : k.keycode = 0x50#8 → Editing k
  | right : k.keycode = 0x4f#8 → Editing k
  | enter : k.keycode = 0x28#8 → Editing k
  | char : k.IsChar → k.char ≠ some 0 → Editing k

/-- What a key does to the line. -/
def edit (L : Line Byte) (k : Packet) : Line Byte :=
  if k.keycode = 0x2a#8 then L.delete
  else if k.keycode = 0x50#8 then L.left
  else if k.keycode = 0x4f#8 then L.right
  else if k.keycode = 0x28#8 then Line.clear
  else
    match k.char with
    | some c => L.insert c
    | none => L

/-- The messages of a sequence of keys. -/
def messages (L : Line Byte) : List Packet → List (List Byte)
  | [] => []
  | k :: ks => (if k.keycode = 0x28#8 then [L.text] else []) ++ messages (edit L k) ks

/-- The character keys since the last Enter, `n` of them before `k`. -/
def count (n : Nat) (k : Packet) : Nat :=
  if k.keycode = 0x28#8 then 0 else if k.IsChar then n + 1 else n

/-- At most 253 character keys between two Enters. -/
def Budget (ks : List Packet) : Prop := ∀ pre, pre <+: ks → pre.foldl count 0 ≤ 253

/-! ## The cursor on the screen -/

/-- The cursor is where position `p` of the text is drawn. -/
structure At (e : Editor) (p : Nat) : Prop where
  row : e.cr = 46 + (p / 127 : Nat)
  col : e.cc = (p % 127 : Nat)

/-- The second row starts at position 127. -/
theorem At.start_of_row {e : Editor} {p : Nat} (h : At e p) :
    (e.cr = 47 ∧ e.cc = 0) ↔ p = 127 := by
  rw [h.row, h.col]
  omega

/-- A step back from a position. -/
theorem At.retreat {e : Editor} {p : Nat} (h : At e (p + 1)) (hp : p + 1 < 254) :
    At (retreat e) p := by
  have hstart := h.start_of_row
  rw [Lab2.retreat]
  by_cases hrow : e.cr = 47 ∧ e.cc = 0
  · rw [if_pos hrow]
    have h126 : p = 126 := Nat.succ.inj (hstart.mp hrow)
    subst h126
    exact ⟨rfl, rfl⟩
  · rw [if_neg hrow]
    have hne : p + 1 ≠ 127 := fun h127 => hrow (hstart.mpr h127)
    have hr := h.row
    have hc := h.col
    refine ⟨?_, ?_⟩
    · show e.cr = _
      omega
    · show e.cc - 1 = _
      omega

/-- Away from the first position a Backspace at the end moves the cursor back. -/
theorem At.stepBack {e : Editor} {p : Nat} (h : At e (p + 1)) (hp : p + 1 < 254) :
    ∃ out, Lab2.stepBack e = (Lab2.retreat e, out) ∧ writes out = [] := by
  have hr := h.row
  have hc := h.col
  rw [Lab2.stepBack, Lab2.retreat]
  by_cases hrow : e.cr = 47 ∧ e.cc = 0
  · rw [if_pos hrow, if_pos hrow]
    exact ⟨_, rfl, rfl⟩
  · rw [if_neg hrow, if_neg hrow, if_pos (by omega)]
    exact ⟨_, rfl, rfl⟩

/-- At the start there is none. -/
theorem At.stepBack_start {e : Editor} (h : At e 0) :
    ∃ out, Lab2.stepBack e = (e, out) ∧ writes out = [] := by
  have hr : e.cr = 46 := h.row
  have hc : e.cc = 0 := h.col
  rw [Lab2.stepBack, if_neg (by omega), if_neg (by omega)]
  exact ⟨_, rfl, rfl⟩

/-- A step forward, as far as there is a column for it. -/
theorem At.advance {e : Editor} {p : Nat} (h : At e p) (hp : p < 253) :
    At (advance e) (p + 1) := by
  have hr := h.row
  have hc := h.col
  rw [Lab2.advance]
  by_cases hend : 126 < e.cc + 1
  · rw [if_pos hend, if_neg (by omega)]
    refine ⟨?_, ?_⟩
    · show e.cr + 1 = _
      omega
    · show (0 : Int) = _
      omega
  · rw [if_neg hend]
    refine ⟨?_, ?_⟩
    · show e.cr = _
      omega
    · show e.cc + 1 = _
      omega

/-! ## The refinement -/

/-- The editor holds the line `L`, with `n` characters typed since the last Enter. -/
structure Refines (n : Nat) (e : Editor) (L : Line Byte) : Prop where
  cursor : e.msgcidx = L.cursor
  length : e.msglen = L.text.length
  screen : At e L.cursor
  chars : 0 ∉ L.text
  bytes : ∃ stale zeros, e.msg.bytes = L.text ++ (stale ++ List.replicate zeros 0) ∧
    0 ∉ stale ∧ L.text.length + stale.length ≤ n

variable {n : Nat} {e : Editor} {L : Line Byte} {k : Packet}

/-- The zeros are what the text and the stale characters leave. -/
theorem zeros_eq {msg : Msg} {t stale : List Byte} {zeros : Nat}
    (h : msg.bytes = t ++ (stale ++ List.replicate zeros 0)) :
    t.length + stale.length + zeros = MSG_BUFSIZE := by
  have hsize := msg.size_of h
  rw [List.length_append, List.length_append, List.length_replicate] at hsize
  omega

/-- The last byte of the buffer is zero. -/
theorem Refines.terminated (h : Refines n e L) (hn : n ≤ 253) : e.msg.Terminated := by
  obtain ⟨stale, zeros, hbytes, -, hlen⟩ := h.bytes
  have hzeros := zeros_eq hbytes
  rw [← List.append_assoc] at hbytes
  refine terminated_of_zeros hbytes ?_
  rw [MSG_BUFSIZE] at hzeros
  omega

/-- The text is no longer than what was typed. -/
theorem Refines.length_le (h : Refines n e L) : L.text.length ≤ n := by
  obtain ⟨stale, zeros, -, -, hlen⟩ := h.bytes
  omega

/-- The indices leave one place in the buffer. -/
theorem Refines.bounds (h : Refines n e L) (hn : n ≤ 253) :
    0 ≤ e.msgcidx ∧ e.msgcidx < MSG_BUFSIZE - 1 ∧ e.msglen < MSG_BUFSIZE - 1 := by
  have hle := h.length_le
  have hinside := L.inside
  rw [h.cursor, h.length]
  show 0 ≤ (L.cursor : Int) ∧ (L.cursor : Int) < 254 ∧ (L.text.length : Int) < 254
  omega

/-- The buffer around the cursor. -/
theorem Refines.split {stale : List Byte} {zeros : Nat}
    (h : e.msg.bytes = L.text ++ (stale ++ List.replicate zeros 0)) :
    e.msg.bytes = L.before ++ ((L.after ++ stale) ++ List.replicate zeros 0) := by
  rw [h, L.text_eq, List.append_assoc, List.append_assoc]

/-- An empty editor is an empty line. -/
theorem refines_initial : Refines 0 initial Line.clear where
  cursor := rfl
  length := rfl
  screen := ⟨rfl, rfl⟩
  chars := List.not_mem_nil
  bytes := ⟨[], MSG_BUFSIZE, rfl, List.not_mem_nil, Nat.le_refl 0⟩

/-- What follows the cursor up to the first zero. -/
theorem Refines.string (h : Refines n e L) {stale : List Byte} (hstale : 0 ∉ stale) :
    0 ∉ L.after ++ stale := by
  refine List.not_mem_append (fun hmem => h.chars ?_) hstale
  rw [L.text_eq]
  exact List.mem_append_right _ hmem

/-- A larger bound. -/
theorem Refines.mono {m : Nat} (h : Refines n e L) (hle : n ≤ m) : Refines m e L := by
  obtain ⟨stale, zeros, hbytes, hstale, hlen⟩ := h.bytes
  exact ⟨h.cursor, h.length, h.screen, h.chars, stale, zeros, hbytes, hstale,
    Nat.le_trans hlen hle⟩

/-- The text `t`, stale characters and zeros, at most `n` characters in all. -/
def Holds (n : Nat) (msg : Msg) (t : List Byte) : Prop :=
  ∃ stale zeros, msg.bytes = t ++ (stale ++ List.replicate zeros 0) ∧ 0 ∉ stale ∧
    t.length + stale.length ≤ n

/-- A character at the end of the text goes over a stale one, or over a zero. -/
theorem character_end (h : Refines n e L) (hn : n < 253) {c : Byte} (hc : k.char = some c)
    (hend : L.cursor = L.text.length) :
    ∃ msg out, character e k = some (advance (stored e msg), out) ∧
      (stored e msg).msglen = L.text.length + 1 ∧ Holds (n + 1) msg (L.insert c).text ∧
      writes out = [] := by
  obtain ⟨stale, zeros, hbytes, hstale, hlen⟩ := h.bytes
  have hzeros : _ = 255 := zeros_eq hbytes
  have hcursor := h.cursor
  have hlength := h.length
  obtain ⟨-, hcidx, hroom⟩ := h.bounds (Nat.le_of_lt hn)
  -- the byte under the cursor goes
  obtain ⟨a, stale', zeros', hsplit, hstale', hlen'⟩ : ∃ a stale' zeros',
      stale ++ List.replicate zeros 0 = a :: (stale' ++ List.replicate zeros' 0) ∧
      0 ∉ stale' ∧ stale'.length ≤ stale.length - 1 := by
    cases stale with
    | nil =>
        obtain ⟨z, rfl⟩ : ∃ z, zeros = z + 1 := ⟨zeros - 1, by simp at hzeros; omega⟩
        exact ⟨0, [], z, rfl, List.not_mem_nil, Nat.le_refl 0⟩
    | cons a stale =>
        exact ⟨a, stale, zeros, rfl, List.not_mem_of_not_mem_cons hstale, Nat.le_refl _⟩
  rw [hsplit] at hbytes
  obtain ⟨msg, hput, hmsg⟩ := putChar_at hbytes (by omega) hcidx hc
  refine ⟨msg, _, character_end_at hroom (by omega) hput, ?_, ⟨stale', zeros', ?_, hstale', ?_⟩,
    rfl⟩
  · show (if e.msgcidx + 1 = e.msglen + 1 then e.msglen + 1 else e.msglen) = _
    rw [if_pos (by omega), hlength]
  · rw [Line.text_insert_end hend, List.append_assoc]
    exact hmsg
  · rw [Line.length_insert]
    omega

/-- A character inside the text moves what follows, stale characters included. -/
theorem character_inside (h : Refines n e L) (hn : n < 253) {c : Byte} (hc : k.char = some c)
    (hin : L.cursor < L.text.length) :
    ∃ room msg out, character e k = some (advance (stored (inserted e room) msg), out) ∧
      (stored (inserted e room) msg).msglen = L.text.length + 1 ∧
      Holds (n + 1) msg (L.insert c).text ∧ writes out = [] := by
  obtain ⟨stale, zeros, hbytes, hstale, hlen⟩ := h.bytes
  have hzeros : _ = 255 := zeros_eq hbytes
  have hcursor := h.cursor
  have hlength := h.length
  have hbefore := L.length_before
  obtain ⟨hcidx0, hcidx, hlen'⟩ := h.bounds (Nat.le_of_lt hn)
  obtain ⟨a, after, hafter⟩ := Line.after_eq hin
  -- two zeros remain after the one that ends the string
  obtain ⟨z, rfl⟩ : ∃ z, zeros = z + 1 + 1 + 1 := ⟨zeros - 3, by omega⟩
  have hstring := h.string hstale
  have hat := Refines.split hbytes
  rw [hafter] at hat
  rw [hafter, List.cons_append] at hstring
  have hsize := congrArg List.length L.text_eq
  rw [List.length_append, hbefore, hafter, List.length_cons] at hsize
  obtain ⟨tmp2, msg, hread, hread', hshift, hmsg⟩ := shiftUp_at (y := 0) (z := 0)
    (r := List.replicate z 0) hstring hat (p := e.msgcidx) (by omega)
    (show _ < FUEL by rw [List.length_cons, List.length_append]; show _ < 256; omega)
  have hterm : msg.Terminated := by
    refine terminated_of_zeros (l := L.before ++ a :: (a :: (after ++ stale))) (k := z + 1 + 1)
      ?_ (by omega)
    rw [hmsg, List.append_assoc]
    rfl
  obtain ⟨drawn, hroom, hdrawn, -⟩ := makeRoom_at hread hread' hshift hterm hcidx0
    (Int.add_lt_of_lt_sub_right hcidx)
  obtain ⟨msg', hput, hmsg'⟩ := putChar_at (e := inserted e msg) hmsg (by show e.msgcidx = _; omega)
    hcidx hc
  refine ⟨msg, msg', _, character_inside_at hlen' (by omega) hroom hput, ?_,
    ⟨stale, z + 1 + 1, ?_, hstale, ?_⟩, ?_⟩
  · show (if e.msgcidx + 1 = e.msglen + 1 + 1 then _ else e.msglen + 1) = _
    rw [if_neg (by omega), hlength]
  · rw [Line.text_insert, hafter, hmsg']
    simp [List.replicate_succ]
  · rw [Line.length_insert]
    omega
  · rw [writes_append, hdrawn]
    rfl

/-- A character anywhere in the text. -/
theorem character_holds (h : Refines n e L) (hn : n < 253) {c : Byte} (hc : k.char = some c) :
    ∃ e1 msg out, character e k = some (advance (stored e1 msg), out) ∧
      e1.msgcidx = L.cursor ∧ At e1 L.cursor ∧ (stored e1 msg).msglen = L.text.length + 1 ∧
      Holds (n + 1) msg (L.insert c).text ∧ writes out = [] := by
  rcases Nat.lt_or_eq_of_le L.inside with hin | hend
  · obtain ⟨room, msg, out, hchar, hrest⟩ := character_inside h hn hc hin
    exact ⟨inserted e room, msg, out, hchar, h.cursor, ⟨h.screen.row, h.screen.col⟩, hrest⟩
  · obtain ⟨msg, out, hchar, hrest⟩ := character_end h hn hc hend
    exact ⟨e, msg, out, hchar, h.cursor, h.screen, hrest⟩

/-- **A character** is inserted at the cursor of the line. -/
theorem character_step (h : Refines n e L) (hn : n < 253) {c : Byte} (hc : k.char = some c)
    (h0 : c ≠ 0) :
    ∃ e' out, character e k = some (e', out) ∧ Refines (n + 1) e' (L.insert c) ∧
      writes out = [] := by
  obtain ⟨e1, msg, out, hchar, hcursor, hscreen, hlength, hholds, hw⟩ := character_holds h hn hc
  obtain ⟨hm, hi, hl⟩ := advance_text (stored e1 msg)
  have hinside := L.inside
  have hle := h.length_le
  have hat : At (stored e1 msg) L.cursor := ⟨hscreen.row, hscreen.col⟩
  refine ⟨advance (stored e1 msg), out, hchar, ⟨?_, ?_, ?_, ?_, hm ▸ hholds⟩, hw⟩
  · rw [hi, Line.cursor_insert]
    show e1.msgcidx + 1 = _
    omega
  · rw [hl, hlength, Line.length_insert]
    rfl
  · rw [Line.cursor_insert]
    exact hat.advance (by omega)
  · intro hmem
    rcases Line.mem_insert hmem with heq | hmem
    · exact h0 heq.symm
    · exact h.chars hmem

/-- The character before the cursor gone from the buffer. -/
theorem refines_delete {msg : Msg} {m : Nat} (h : Refines n e L) (hn : n ≤ 253)
    (hpos : 0 < L.cursor) (hholds : Holds m msg L.delete.text) :
    Refines m (retreat (deleted e msg)) L.delete := by
  obtain ⟨hm, hi, hl⟩ := retreat_text (deleted e msg)
  have hcursor := h.cursor
  have hlength := h.length
  have hinside := L.inside
  have hle := h.length_le
  have hdelete := Line.length_delete hpos
  obtain ⟨p, hp⟩ : ∃ p, L.cursor = p + 1 := ⟨L.cursor - 1, by omega⟩
  have hscreen : At (deleted e msg) (p + 1) := hp ▸ ⟨h.screen.row, h.screen.col⟩
  refine ⟨?_, ?_, ?_, fun hmem => h.chars (Line.mem_delete hmem), hm ▸ hholds⟩
  · rw [hi, Line.cursor_delete]
    show e.msgcidx - 1 = _
    omega
  · rw [hl]
    show e.msglen - 1 = _
    omega
  · rw [Line.cursor_delete, hp]
    exact hscreen.retreat (by omega)

/-- Backspace inside the text. -/
theorem backspace_inside (h : Refines n e L) (hn : n ≤ 253) (hpos : 0 < L.cursor)
    (hin : L.cursor < L.text.length) :
    ∃ e' out, backspace e = some (e', out) ∧ Refines (n - 1) e' L.delete ∧ writes out = [] := by
  obtain ⟨stale, zeros, hbytes, hstale, hlen⟩ := h.bytes
  have hzeros : _ = 255 := zeros_eq hbytes
  have hcursor := h.cursor
  have hlength := h.length
  have hdelete := Line.length_delete hpos
  obtain ⟨l, x, hbefore, hdrop, hl⟩ := Line.before_eq hpos
  obtain ⟨z, rfl⟩ : ∃ z, zeros = z + 1 := ⟨zeros - 1, by omega⟩
  have hat := Refines.split hbytes
  rw [hbefore, ← List.append_cons] at hat
  obtain ⟨msg, out, hdel, hmsg, -, hw, -⟩ := backspaceInside_at hat (h.string hstale) (by omega)
    (h.terminated hn)
  refine ⟨retreat (deleted e msg), out, ?_, ?_, hw⟩
  · rw [backspace, if_pos ⟨by omega, by omega⟩]
    exact hdel
  · refine refines_delete h hn hpos ⟨stale, z + 1 + 1, ?_, hstale, by omega⟩
    rw [Line.text_delete, hdrop, hmsg]
    simp [List.replicate_succ]

/-- Backspace at the end of the text. -/
theorem backspace_end_eq (h : Refines n e L) (hn : n ≤ 253) (hpos : 0 < L.cursor)
    (hend : L.cursor = L.text.length) :
    ∃ out, backspace e = some (retreat (deleted e e.msg), out) ∧ writes out = [] := by
  have hcursor := h.cursor
  have hlength := h.length
  have hle := h.length_le
  obtain ⟨p, hp⟩ : ∃ p, L.cursor = p + 1 := ⟨L.cursor - 1, by omega⟩
  have hscreen : At (deleted e e.msg) (p + 1) := hp ▸ ⟨h.screen.row, h.screen.col⟩
  obtain ⟨out, hback, hw⟩ := hscreen.stepBack (by omega)
  refine ⟨out, ?_, hw⟩
  rw [backspace, if_neg (by omega), backspaceEnd, if_pos (by omega)]
  exact congrArg some hback

/-- It leaves the deleted character behind the text. -/
theorem backspace_end (h : Refines n e L) (hn : n ≤ 253) (hpos : 0 < L.cursor)
    (hend : L.cursor = L.text.length) :
    ∃ e' out, backspace e = some (e', out) ∧ Refines n e' L.delete ∧ writes out = [] := by
  obtain ⟨stale, zeros, hbytes, hstale, hlen⟩ := h.bytes
  have hdelete := Line.length_delete hpos
  obtain ⟨out, hback, hw⟩ := backspace_end_eq h hn hpos hend
  have hne : L.text ≠ [] := List.length_pos_iff.mp (by omega)
  have hlast : 0 ∉ L.text.getLast hne :: stale := by
    refine List.not_mem_cons_of_ne_of_not_mem ?_ hstale
    exact fun heq => h.chars (heq ▸ List.getLast_mem hne)
  refine ⟨_, out, hback, refines_delete h hn hpos ⟨_, zeros, ?_, hlast, ?_⟩, hw⟩
  · rw [Line.text_delete_end hend, List.cons_append, List.append_cons,
      List.dropLast_append_getLast hne]
    exact hbytes
  · rw [List.length_cons]
    omega

/-- Backspace before the text does nothing. -/
theorem backspace_start (h : Refines n e L) (hzero : L.cursor = 0) :
    ∃ e' out, backspace e = some (e', out) ∧ Refines n e' L.delete ∧ writes out = [] := by
  have hcursor := h.cursor
  have hscreen : At e 0 := hzero ▸ h.screen
  obtain ⟨out, hback, hw⟩ := hscreen.stepBack_start
  have htext := Line.text_delete_start hzero
  have hsame : L.delete.cursor = L.cursor := by
    rw [Line.cursor_delete, hzero]
  refine ⟨e, out, ?_, ⟨hsame ▸ hcursor, htext ▸ h.length, hsame ▸ h.screen, htext ▸ h.chars,
    htext ▸ h.bytes⟩, hw⟩
  rw [backspace, if_neg (by omega), backspaceEnd, if_neg (by omega)]
  exact congrArg some hback

/-- **Backspace** deletes before the cursor of the line. -/
theorem backspace_step (h : Refines n e L) (hn : n ≤ 253) :
    ∃ e' out, backspace e = some (e', out) ∧ Refines n e' L.delete ∧ writes out = [] := by
  rcases Nat.eq_zero_or_pos L.cursor with hzero | hpos
  · exact backspace_start h hzero
  · rcases Nat.lt_or_eq_of_le L.inside with hin | hend
    · obtain ⟨e', out, hback, hrefines, hw⟩ := backspace_inside h hn hpos hin
      exact ⟨e', out, hback, hrefines.mono (Nat.sub_le n 1), hw⟩
    · exact backspace_end h hn hpos hend

/-- **Left** moves the cursor of the line. -/
theorem left_step (h : Refines n e L) (hn : n ≤ 253) :
    ∃ e' out, leftArrow e = some (e', out) ∧ Refines n e' L.left ∧ writes out = [] := by
  have hcursor := h.cursor
  have hinside := L.inside
  have hlen := h.length_le
  have hr := h.screen.row
  have hc := h.screen.col
  obtain ⟨hcidx0, hcidx, -⟩ := h.bounds hn
  obtain ⟨c, hleft⟩ := leftArrow_at hcidx0 (Int.lt_of_lt_of_le hcidx (by decide))
  refine ⟨_, _, hleft, ?_, rfl⟩
  rw [moveLeft]
  by_cases hrow : e.cc = 0 ∧ e.cr = 47
  · rw [if_pos hrow]
    refine ⟨?_, h.length, ⟨?_, ?_⟩, h.chars, h.bytes⟩ <;> simp only [Line.cursor_left] <;> omega
  · rw [if_neg hrow]
    by_cases hzero : e.cc = 0 ∧ e.cr = 46
    · -- at the start nothing moves
      have hstart : L.left.cursor = L.cursor := by
        rw [Line.cursor_left]
        omega
      rw [if_pos hzero]
      exact ⟨hstart ▸ hcursor, h.length, hstart ▸ h.screen, h.chars, h.bytes⟩
    · rw [if_neg hzero]
      refine ⟨?_, h.length, ⟨?_, ?_⟩, h.chars, h.bytes⟩ <;> simp only [Line.cursor_left] <;> omega

/-- **Right** moves it forward. -/
theorem right_step (h : Refines n e L) (hn : n ≤ 253) :
    ∃ e' out, rightArrow e = some (e', out) ∧ Refines n e' L.right ∧ writes out = [] := by
  have hcursor := h.cursor
  have hlength := h.length
  have hlen := h.length_le
  have hr := h.screen.row
  have hc := h.screen.col
  obtain ⟨hcidx0, hcidx, -⟩ := h.bounds hn
  rcases Nat.lt_or_eq_of_le L.inside with hin | hend
  · obtain ⟨c, hright⟩ := rightArrow_at hcidx0 (Int.lt_of_lt_of_le hcidx (by decide)) (by omega)
    refine ⟨_, _, hright, ?_, rfl⟩
    have hnext := Line.cursor_right_of_lt hin
    rw [moveRight]
    by_cases hrow : e.cr = 46 ∧ e.cc = 126
    · rw [if_pos hrow]
      refine ⟨?_, h.length, ⟨?_, ?_⟩, h.chars, h.bytes⟩ <;> simp only [hnext] <;> omega
    · -- with at most 253 characters the last column is not inside the text
      rw [if_neg hrow, if_neg (by omega)]
      refine ⟨?_, h.length, ⟨?_, ?_⟩, h.chars, h.bytes⟩ <;> simp only [hnext] <;> omega
  · have hstop := Line.right_of_end hend
    refine ⟨e, [], ?_, ⟨hstop ▸ hcursor, hlength, hstop ▸ h.screen, h.chars, h.bytes⟩, rfl⟩
    rw [rightArrow, if_neg (by omega)]

/-- **Enter** sends the line and clears it. -/
theorem enter_step (h : Refines n e L) (hn : n ≤ 253) :
    ∃ e' out, enter e = some (e', out) ∧ Refines 0 e' Line.clear ∧ writes out = [L.text] := by
  obtain ⟨stale, zeros, hbytes, -, hlen⟩ := h.bytes
  have henter := enter_eq hbytes h.length (by show _ < 255; omega) (h.terminated hn)
  exact ⟨_, _, henter, ⟨rfl, rfl, ⟨rfl, rfl⟩, List.not_mem_nil, refines_initial.bytes⟩,
    (enterEvents_at e L.text).1⟩

/-- The keys of the editor do not end its loop. -/
theorem Editing.not_esc (hk : Editing k) : k.keycode ≠ 0x29#8 := by
  cases hk with
  | backspace hk | left hk | right hk | enter hk =>
      rw [hk]
      decide
  | char hk => exact hk.2.2.2.1

/-- Enter starts the count again. -/
theorem count_enter (hk : k.keycode = 0x28#8) : count n k = 0 := by rw [count, if_pos hk]

/-- A character is counted. -/
theorem count_char (hk : k.IsChar) : count n k = n + 1 := by
  rw [count, if_neg hk.2.2.1, if_pos hk]

/-- No other key is. -/
theorem count_other (henter : k.keycode ≠ 0x28#8) (hk : ¬ k.IsChar) : count n k = n := by
  rw [count, if_neg henter, if_neg hk]

/-- Backspace in particular. -/
theorem count_backspace (hk : k.keycode = 0x2a#8) : count n k = n :=
  count_other (by rw [hk]; decide) (fun hchar => hchar.2.2.2.2 hk)

/-- The arrows are above the range of characters. -/
theorem count_arrow (hk : 0x38#8 < k.keycode) : count n k = n :=
  count_other (fun heq => absurd (heq ▸ hk) (by decide))
    (fun hchar => BitVec.not_le.mpr hk hchar.2.1)

/-- **One key refines one operation of the line.** -/
theorem handle_step (h : Refines n e L) (hk : Editing k) (hn : n ≤ 253)
    (hcount : count n k ≤ 253) :
    ∃ e' out, handle e k = some (e', out) ∧ Refines (count n k) e' (edit L k) ∧
      writes out = if k.keycode = 0x28#8 then [L.text] else [] := by
  cases hk with
  | backspace hk =>
      rw [count_backspace hk, handle, edit, hk, if_pos rfl, if_pos rfl]
      exact backspace_step h hn
  | left hk =>
      have hc : count n k = n := count_arrow (by rw [hk]; decide)
      rw [hc, handle, edit, hk]
      exact left_step h hn
  | right hk =>
      have hc : count n k = n := count_arrow (by rw [hk]; decide)
      rw [hc, handle, edit, hk]
      exact right_step h hn
  | enter hk =>
      rw [count_enter hk, handle, edit, hk]
      exact enter_step h hn
  | char hk h0 =>
      have hchar := hk
      obtain ⟨hlo, hhi, henter, -, hback⟩ := hk
      obtain ⟨c, hc⟩ := char_total hhi
      have hleft : k.keycode ≠ 0x50#8 := fun heq => absurd (heq ▸ hhi) (by decide)
      have hright : k.keycode ≠ 0x4f#8 := fun heq => absurd (heq ▸ hhi) (by decide)
      rw [count_char hchar] at hcount ⊢
      rw [handle, if_neg hback, if_neg hleft, if_neg hright, if_pos ⟨hlo, hhi⟩, if_neg henter,
        edit, if_neg hback, if_neg hleft, if_neg hright, if_neg henter, if_neg henter, hc]
      exact character_step h hcount hc (fun heq => h0 (heq ▸ hc))

/-- A run from a state that refines a line, by induction on the keys. -/
theorem run_refines {ks : List Packet} (h : Refines n e L) (hkeys : ∀ k ∈ ks, Editing k)
    (hbudget : ∀ pre, pre <+: ks → pre.foldl count n ≤ 253) :
    ∃ e' out, run e ks = some (e', out) ∧ Refines (ks.foldl count n) e' (ks.foldl edit L) ∧
      writes out = messages L ks := by
  induction ks generalizing n e L with
  | nil => exact ⟨e, [], rfl, h, rfl⟩
  | cons k ks ih =>
      have hk := hkeys k List.mem_cons_self
      have hn : n ≤ 253 := hbudget [] (List.nil_prefix)
      have hcount : count n k ≤ 253 := hbudget [k] (by simp)
      obtain ⟨e1, out1, hstep, h1, hw1⟩ := handle_step h hk hn hcount
      obtain ⟨e2, out2, hrest, h2, hw2⟩ := ih h1
        (fun k' hk' => hkeys k' (List.mem_cons_of_mem k hk'))
        (fun pre hpre => hbudget (k :: pre) (List.cons_prefix_cons.mpr ⟨rfl, hpre⟩))
      refine ⟨e2, out1 ++ out2, ?_, h2, ?_⟩
      · rw [run, if_neg hk.not_esc, hstep]
        show (run e1 ks).bind _ = _
        rw [hrest]
        rfl
      · rw [writes_append, hw1, hw2]
        rfl

/-- **The editor sends what was typed**: after every key of every sequence of keys with
    at most 253 character keys between two Enters, the buffer has been accessed inside its
    bounds only, the messages sent are those of the line editor, and `msgcidx` is its
    cursor. -/
theorem sends_typed (ks : List Packet) (hkeys : ∀ k ∈ ks, Editing k) (hbudget : Budget ks) :
    ∀ pre, pre <+: ks → ∃ e out, run initial pre = some (e, out) ∧
      writes out = messages Line.clear pre ∧
      e.msgcidx = (pre.foldl edit Line.clear).cursor := by
  intro pre hpre
  have hkeys' : ∀ k ∈ pre, Editing k := fun k hk => hkeys k (hpre.subset hk)
  obtain ⟨e, out, hrun, h, hw⟩ := run_refines refines_initial hkeys'
    (fun pre' hpre' => hbudget pre' (hpre'.trans hpre))
  exact ⟨e, out, hrun, hw, h.cursor⟩

/-- An "a" and a "B", of which the first one is deleted, and Enter. -/
def typeB : List Packet := [⟨0x00, 0x04⟩, ⟨0x02, 0x05⟩, ⟨0x00, 0x50⟩, ⟨0x00, 0x2a⟩, ⟨0x00, 0x28⟩]

theorem sends_typed_b :
    ∃ e out, run initial typeB = some (e, out) ∧ writes out = [[0x42]] ∧ e.msgcidx = 0 := by
  have hkeys : ∀ k ∈ typeB, Editing k := by
    simp only [typeB, List.forall_mem_cons]
    exact ⟨.char (by decide) (by decide), .char (by decide) (by decide), .left rfl,
      .backspace rfl, .enter rfl, nofun⟩
  have hbudget : ∀ pre ∈ typeB.inits, pre.foldl count 0 ≤ 253 := by decide
  obtain ⟨e, out, hrun, hw, hcursor⟩ := sends_typed typeB hkeys
    (fun pre hpre => hbudget pre ((List.mem_inits pre typeB).mpr hpre)) typeB List.prefix_rfl
  exact ⟨e, out, hrun, hw.trans (by decide), hcursor.trans (by decide)⟩

end Lab2
