import FpgaMiner.Lab2EditorProofs
import FpgaMiner.PartialRunProofs

/-! # The message buffer of the chat editor

    The loops over `msg` and the redraws take it for a string of `msglen` characters
    with NULs up to the end of the array.  It is one as long as nothing is left behind
    the text, which for `Refines` means no more characters than the text has.

    * **`represents_iff_keeps`** — in a run with less than 100 characters to a line this
      holds exactly when no Backspace deletes at the end of the text and no character
      key is one for NUL. -/

namespace Lab2

open CBuffer LineEditor PartialRun

variable {n : Nat} {e : Editor} {L : Line Byte} {k : Packet}

/-- `msg` is a string of `msglen` characters, and NUL behind it. -/
structure Represents (e : Editor) : Prop where
  text : ∀ i, 0 ≤ i → i < e.msglen → ∃ c, e.msg.read i = some c ∧ c ≠ 0
  tail : ∀ i, e.msglen ≤ i → i < MSG_BUFSIZE → e.msg.read i = some 0
  strlen : ∃ k : Nat, e.msg.strlen 0 = some k ∧ (k : Int) = e.msglen

/-- A key that keeps it so: the condition on the key and the state before it. -/
def KeepsText (e : Editor) (k : Packet) : Prop :=
  if k.keycode = 0x2a#8 then ¬ (0 < e.msglen ∧ e.msgcidx = e.msglen)
  else if k.IsChar then k.char ≠ some 0
  else True

instance (e : Editor) (k : Packet) : Decidable (KeepsText e k) :=
  inferInstanceAs (Decidable (if k.keycode = 0x2a#8 then ¬ (0 < e.msglen ∧ e.msgcidx = e.msglen)
    else if k.IsChar then k.char ≠ some 0 else True))

/-! ## The buffer of a line -/

/-- Without stale characters the buffer is the text and zeros. -/
theorem Refines.bytes_eq (h : Refines L.text.length e L) :
    ∃ zeros, e.msg.bytes = L.text ++ List.replicate zeros 0 := by
  obtain ⟨stale, zeros, hbytes, -, hlen⟩ := h.bytes
  obtain rfl : stale = [] := List.eq_nil_of_length_eq_zero (by omega)
  exact ⟨zeros, hbytes⟩

theorem Refines.represents (h : Refines L.text.length e L) (hlen : L.text.length ≤ 253) :
    Represents e := by
  obtain ⟨zeros, hbytes⟩ := h.bytes_eq
  have hlength := h.length
  have hsize : L.text.length + zeros = 255 := by
    have hsize := e.msg.size_of hbytes
    rwa [List.length_append, List.length_replicate] at hsize
  constructor
  · intro i h0 hi
    have hlt : i.toNat < L.text.length := by omega
    refine ⟨L.text[i.toNat], ?_, fun hzero => h.chars (hzero ▸ List.getElem_mem hlt)⟩
    rw [Buffer.read, if_pos h0, hbytes, List.getElem?_append_left hlt,
      List.getElem?_eq_getElem hlt]
  · intro i hi hlt
    have hlt' : i < 255 := hlt
    rw [Buffer.read, if_pos (by omega), hbytes, List.getElem?_append_right (by omega),
      List.getElem?_replicate_of_lt (by omega)]
  · obtain ⟨z, rfl⟩ : ∃ z, zeros = z + 1 := ⟨zeros - 1, by omega⟩
    have hstring : e.msg.bytes = [] ++ (L.text ++ 0 :: List.replicate z 0) := hbytes
    exact ⟨L.text.length, strlen_at hstring h.chars rfl, hlength.symm⟩

/-! ## The keys -/

/-- What a run keeps: the editor holds a line without stale characters, of at most as
    many as were typed, and the keys to come keep to the budget. -/
def Kept (e : Editor) (ks : List Packet) : Prop :=
  ∃ n L, Refines L.text.length e L ∧ L.text.length ≤ n ∧ ∀ pre, pre <+: ks → pre.foldl count n < 100

/-- A key with a line after it. -/
theorem exact_of_refines (L : Line Byte) {r : Result} {out : List Event} {ks : List Packet}
    {fits : Prop} (hfits : fits) (hr : r = some (e, out)) (h : Refines L.text.length e L)
    (hlen : L.text.length ≤ n) (hbudget : ∀ pre, pre <+: ks → pre.foldl count n < 100) :
    PartialRun.Exact (fun e _ => Represents e) (fun e => Kept e ks) r fits := by
  have hn : n < 100 := hbudget [] List.nil_prefix
  exact .of_good hfits hr (h.represents (by omega)) ⟨n, L, h, hlen, hbudget⟩

/-- Backspace leaves a character behind the text exactly at its end. -/
theorem backspace_text {ks : List Packet} (h : Refines L.text.length e L)
    (hlen : L.text.length ≤ n) (hbudget : ∀ pre, pre <+: ks → pre.foldl count n < 100) :
    PartialRun.Exact (fun e _ => Represents e) (fun e => Kept e ks) (backspace e)
      (¬ (0 < e.msglen ∧ e.msgcidx = e.msglen)) := by
  have hn : n < 100 := hbudget [] List.nil_prefix
  have hcursor := h.cursor
  have hlength := h.length
  have hinside := L.inside
  rcases Nat.eq_zero_or_pos L.cursor with hzero | hpos
  · obtain ⟨e', out, hback, hrefines, -⟩ := backspace_start h hzero
    have htext := Line.text_delete_start hzero
    exact exact_of_refines L.delete (by omega) hback (htext.symm ▸ hrefines) (htext.symm ▸ hlen) hbudget
  · have hdelete := Line.length_delete hpos
    rcases Nat.lt_or_eq_of_le L.inside with hin | hend
    · obtain ⟨e', out, hback, hrefines, -⟩ := backspace_inside h (by omega) hpos hin
      have hone : L.text.length - 1 = L.delete.text.length := by omega
      exact exact_of_refines L.delete (by omega) hback (hone ▸ hrefines) (by omega) hbudget
    · obtain ⟨out, hback, -⟩ := backspace_end_eq h (by omega) hpos hend
      refine .of_eq hback (fun hfits => absurd ⟨by omega, by omega⟩ hfits) (fun hgood => ?_)
      -- the last character is still there, behind the text
      obtain ⟨hm, -, hl⟩ := retreat_text (deleted e e.msg)
      obtain ⟨c, hread, hc⟩ := (h.represents (by omega)).text (e.msglen - 1) (by omega) (by omega)
      have htail := hgood.tail (e.msglen - 1) (by rw [hl]; exact Int.le_refl _)
        (by show e.msglen - 1 < 255; omega)
      rw [hm] at htail
      exact absurd (Option.some.inj (hread.symm.trans htail)) hc

/-- A character key stores its character, whatever it is. -/
theorem character_text {ks : List Packet} (h : Refines L.text.length e L)
    (hlen : L.text.length ≤ n) (hbudget : ∀ pre, pre <+: ks → pre.foldl count (n + 1) < 100)
    {c : Byte} (hc : k.char = some c) :
    PartialRun.Exact (fun e _ => Represents e) (fun e => Kept e ks) (character e k)
      (k.char ≠ some 0) := by
  have hn : n + 1 < 100 := hbudget [] List.nil_prefix
  have hinsert := Line.length_insert L c
  by_cases h0 : c = 0
  · subst h0
    obtain ⟨e1, msg, out, hchar, hcursor, -, hlength, ⟨stale, zeros, hbytes, -, -⟩, -⟩ :=
      character_holds h (by omega) hc
    obtain ⟨hm, -, hl⟩ := advance_text (stored e1 msg)
    refine .of_eq hchar (fun hfits => absurd hc hfits) (fun hgood => ?_)
    -- the NUL is inside the text
    have hinside := L.inside
    obtain ⟨c, hread, hne⟩ := hgood.text L.cursor (by omega) (by rw [hl, hlength]; omega)
    have hzero : msg.read L.cursor = some 0 := by
      rw [Line.text_insert, List.append_assoc] at hbytes
      exact read_at hbytes (by rw [Line.length_before])
    rw [hm] at hread
    exact absurd (Option.some.inj (hread.symm.trans hzero)) hne
  · obtain ⟨e', out, hchar, hrefines, -⟩ := character_step h (by omega) hc h0
    have hne : k.char ≠ some 0 := fun heq => h0 (Option.some.inj (hc.symm.trans heq))
    exact exact_of_refines (L.insert c) hne hchar (hinsert.symm ▸ hrefines) (by omega) hbudget

/-! ## The runs -/

/-- **One key keeps the text exactly under its condition.** -/
theorem handle_text {ks : List Packet} (h : Kept e (k :: ks)) (hesc : ¬ k.IsEsc) :
    PartialRun.Exact (fun e _ => Represents e) (fun e => Kept e ks) (handle e k) (KeepsText e k) := by
  obtain ⟨n, L, hrefines, hlen, hbudget⟩ := h
  have hn : n < 100 := hbudget [] List.nil_prefix
  have hrest : ∀ pre, pre <+: ks → pre.foldl count (count n k) < 100 :=
    fun pre hpre => hbudget (k :: pre) (List.cons_prefix_cons.mpr ⟨rfl, hpre⟩)
  cases handle_turn e k with
  | backspace hback hturn =>
      have hcount : count n k = n := count_backspace hback
      rw [hturn, KeepsText, if_pos hback]
      exact backspace_text hrefines hlen (hcount ▸ hrest)
  | left hleft hturn =>
      have hcount : count n k = n := count_arrow (by rw [hleft]; decide)
      have hother : ¬ k.IsChar := fun hchar => absurd (hleft ▸ hchar.2.1) (by decide)
      obtain ⟨e', out, hstep, hnext, -⟩ := left_step hrefines (by omega)
      rw [hturn, KeepsText, if_neg (by rw [hleft]; decide), if_neg hother]
      exact exact_of_refines L.left trivial hstep hnext hlen (hcount ▸ hrest)
  | right hright hturn =>
      have hcount : count n k = n := count_arrow (by rw [hright]; decide)
      have hother : ¬ k.IsChar := fun hchar => absurd (hright ▸ hchar.2.1) (by decide)
      obtain ⟨e', out, hstep, hnext, -⟩ := right_step hrefines (by omega)
      rw [hturn, KeepsText, if_neg (by rw [hright]; decide), if_neg hother]
      exact exact_of_refines L.right trivial hstep hnext hlen (hcount ▸ hrest)
  | enter henter hturn =>
      have hcount : count n k = 0 := count_enter henter
      have hother : ¬ k.IsChar := fun hchar => hchar.2.2.1 henter
      obtain ⟨e', out, hstep, hnext, -⟩ := enter_step hrefines (by omega)
      rw [hturn, KeepsText, if_neg (by rw [henter]; decide), if_neg hother]
      exact exact_of_refines Line.clear trivial hstep hnext (Nat.le_refl 0) (hcount ▸ hrest)
  | char c hback henter hrange hc hturn =>
      have hchar : k.IsChar := ⟨hrange.1, hrange.2, henter, hesc, hback⟩
      have hcount : count n k = n + 1 := count_char hchar
      rw [hturn, KeepsText, if_neg hback, if_pos hchar]
      exact character_text hrefines hlen (hcount ▸ hrest) hc
  | other hback _ hrange hturn =>
      have hother : ¬ k.IsChar := fun hchar => hrange ⟨hchar.1, hchar.2.1⟩
      have henter : k.keycode ≠ 0x28#8 := fun heq => hrange (by rw [heq]; decide)
      have hcount : count n k = n := count_other henter hother
      rw [hturn, KeepsText, if_neg hback, if_neg hother]
      exact exact_of_refines L trivial rfl hrefines hlen (hcount ▸ hrest)

/-- Runs from a state that keeps to the budget. -/
theorem Kept.represents_iff {ks : List Packet} (h : Kept e ks) :
    AlwaysGood handle Packet.IsEsc (fun e _ => Represents e) e ks
      ↔ PartialRun.AllFit handle Packet.IsEsc KeepsText e ks :=
  @alwaysGood_iff _ _ _ _ _ _ _ Kept (fun _ _ _ h hesc => handle_text h hesc) ks e h

theorem kept_initial {ks : List Packet} (hbudget : ∀ pre, pre <+: ks → pre.foldl count 0 < 100) :
    Kept initial ks :=
  ⟨0, Line.clear, refines_initial, Nat.le_refl 0, hbudget⟩

/-- **In a run with less than 100 characters to a line `msg` is always the text exactly
    when** every key meets its condition. -/
theorem represents_iff_keeps (ks : List Packet)
    (hbudget : ∀ pre, pre <+: ks → pre.foldl count 0 < 100) :
    AlwaysGood handle Packet.IsEsc (fun e _ => Represents e) initial ks
      ↔ PartialRun.AllFit handle Packet.IsEsc KeepsText initial ks :=
  (kept_initial hbudget).represents_iff

theorem represents_b :
    AlwaysGood handle Packet.IsEsc (fun e _ => Represents e) initial typeB := by
  have hbudget : ∀ pre ∈ typeB.inits, pre.foldl count 0 < 100 := by decide
  refine (represents_iff_keeps typeB ?_).mpr (by decide +kernel)
  exact fun pre hpre => hbudget pre ((List.mem_inits pre typeB).mpr hpre)

/-- An "a" that is deleted. -/
def deleteA : List Packet := [⟨0x00, 0x04⟩, ⟨0x00, 0x2a⟩]

/-- **A character deleted at the end of the text stays in the buffer.** -/
theorem deleted_a_stays :
    (run initial deleteA).map (fun r => (r.1.msglen, r.1.msg.read 0)) = some (0, some 0x61) ∧
    ¬ AlwaysGood handle Packet.IsEsc (fun e _ => Represents e) initial deleteA := by
  have hbudget : ∀ pre ∈ deleteA.inits, pre.foldl count 0 < 100 := by decide
  have hkept : Kept initial deleteA :=
    kept_initial fun pre hpre => hbudget pre ((List.mem_inits pre deleteA).mpr hpre)
  constructor
  · decide +kernel
  · intro h
    exact absurd (hkept.represents_iff.mp h) (by decide +kernel)

end Lab2
