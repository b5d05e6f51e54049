import Mathlib.Data.BitVec
import FpgaMiner.CBufferProofs

/-! # `lab2` — the chat editor

    The loop of `main` over key packets: the message buffer and its indices, the
    screen cursor and the row of the next message.  `fbputs`, `fbputchar` and the
    socket are not modelled; their calls are events, and so are the declarations of
    the local arrays and the writes into them.

    A handler is `none` when it accesses `msg` outside its bounds, and says nothing of
    the local arrays besides its events.  `turn` adds what these do to the memory: it is
    `none` also when an array has no positive size or a copy overruns its array.

    * **`shiftDown_at`**, **`shiftUp_at`** and **`shiftUp_at_none`** — what the two loops
      over `msg` do to a string and when the second one leaves the buffer. -/

namespace Lab2

open CBuffer

/-- A `char`. -/
abbrev Byte := BitVec 8

/-- The size of `msg`. -/
def MSG_BUFSIZE : Nat := 255

/-- The characters of a message behind the name in its first row. -/
def FST_BOUND : Nat := 122

/-- The characters in the second row. -/
def SND_BOUND : Nat := 127

/-- The array `msg`. -/
abbrev Msg := Buffer Byte MSG_BUFSIZE

/-- The fields of `struct usb_keyboard_packet` that decide anything. -/
structure Packet where
  modifiers : Byte
  keycode : Byte
  deriving DecidableEq

/-- The global variables of the editor. -/
structure Editor where
  cr : Int
  cc : Int
  msg : Msg
  msgcidx : Int
  msglen : Int
  rcr : Int
  rcc : Int
  deriving DecidableEq

/-- The variables as `main` enters its loop. -/
def initial : Editor where
  cr := 46
  cc := 0
  msg := Buffer.const MSG_BUFSIZE 0
  msgcidx := 0
  msglen := 0
  rcr := 0
  rcc := 0

/-- The local arrays. -/
inductive Local where
  | end1
  | firstlineBuf
  | secondlineBuf
  deriving DecidableEq

/-- What `fbputs` is given. -/
inductive Text where
  | emptyLine
  | me
  | msg (i : Int)
  | buf (a : Local)
  deriving DecidableEq

/-- The effects of a handler besides its variables. -/
inductive Event where
  | fbputchar (c : Byte) (row col : Int)
  | fbputs (s : Text) (row col : Int)
  | declare (a : Local) (size : Int)
  | strncpy (a : Local) (size : Int) (count : Nat)
  | store (a : Local) (size : Int) (index : Int)
  | write (sent : List Byte)
  deriving DecidableEq

/-- The result of a handler: the variables after it, as far as `msg` decides them, and
    what it did besides. -/
abbrev Result := Option (Editor × List Event)

/-- The conversion of an `int` argument to `size_t`. -/
def size_t (i : Int) : Nat := (i % 2 ^ 64).toNat

/-- `fbputs(msg + i, row, col)`: the string is read up to its end. -/
def putsMsg (msg : Msg) (i row col : Int) : Option Event :=
  (msg.strlen i).map (fun _ => .fbputs (.msg i) row col)

/-- What is drawn where a character was. -/
def blank : Byte := 0x20

/-- `for(row = 0; row < r; row++) fbputs(emptyLine, row, 0)` -/
def clearScreen (r : Nat) : List Event :=
  (List.range r).map (fun row => .fbputs .emptyLine row 0)

/-- The table `clookup`: the characters of the keys from 0x04 on, then those with shift. -/
def clookup : List Byte :=
  (['a', 'b', 'c', 'd', 'e', 'f', 'g', 'h', 'i', 'j', 'k', 'l', 'm', 'n', 'o', 'p', 'q', 'r', 's',
    't', 'u', 'v', 'w', 'x', 'y', 'z', '1', '2', '3', '4', '5', '6', '7', '8', '9', '0', '\x00',
    '\x00', '\x00', '\x00', ' ', '-', '=', '[', ']', '\x5c', '\x00', ';', '\x27', '\x60', ',',
    '.', '/',
    'A', 'B', 'C', 'D', 'E', 'F', 'G', 'H', 'I', 'J', 'K', 'L', 'M', 'N', 'O', 'P', 'Q', 'R', 'S',
    'T', 'U', 'V', 'W', 'X', 'Y', 'Z', '!', '@', '#', '$', '%', '^', '&', '*', '(', ')', '\x00',
    '\x00', '\x00', '\x00', ' ', '_', '+', '\x7b', '\x7d', '|', '\x00', ':', '\x22', '~', '<',
    '>', '?']).map (fun c => BitVec.ofNat 8 c.toNat)

/-- The character of a key, `clookup[packet.keycode[0] - 0x04 + shift]`. -/
def Packet.char (k : Packet) : Option Byte :=
  let shift := if k.modifiers = 0x02#8 ∨ k.modifiers = 0x20#8 then 0x35 else 0x00
  clookup[k.keycode.toNat - 0x04 + shift]?

/-! ## The handlers -/

/-- `while(*p) { *(p-1) = *p; ++p; } *(p-1) = '\0';` -/
def shiftDown : Nat → Msg → Int → Option Msg
  | 0, _, _ => none
  | fuel + 1, msg, p => do
      let c ← msg.read p
      if c = 0 then msg.store (p - 1) 0
      else shiftDown fuel (← msg.store (p - 1) c) (p + 1)

/-- `while(*p) { ++p; *p = tmp1; tmp1 = tmp2; tmp2 = *(p+1); }` -/
def shiftUp : Nat → Msg → Int → Byte → Byte → Option Msg
  | 0, _, _, _, _ => none
  | fuel + 1, msg, p, tmp1, tmp2 => do
      let c ← msg.read p
      if c = 0 then some msg
      else
        let msg ← msg.store (p + 1) tmp1
        shiftUp fuel msg (p + 1) tmp2 (← msg.read (p + 2))

/-- A loop over the buffer ends within these many turns. -/
def FUEL : Nat := MSG_BUFSIZE + 1

/-- The declaration of `end1` and the copy into it.  From index 128 on the size is not
    positive and the count wraps to almost 2⁶⁴; the events say so, and `turn` fails there. -/
def splitEnd (msg : Msg) (msgcidx : Int) : Option (List Event) := do
  let size1 := 128 - msgcidx
  let _ ← msg.strncpy msgcidx (size_t (size1 - 1))
  some [.declare .end1 size1, .strncpy .end1 size1 (size_t (size1 - 1)),
    .store .end1 size1 size1]

/-- The cursor and the redraw after a deletion inside the text. -/
def redrawDeleted (e : Editor) : Result :=
  if e.cr = 47 ∧ e.cc = 0 then do
    let rest ← putsMsg e.msg (e.msgcidx + 1) 47 0
    let len ← e.msg.strlen e.msgcidx
    some ({ e with cr := 46, cc := 126 }, [rest, .fbputchar blank 47 (len - 1)])
  else if 126 < e.msglen ∧ e.msgcidx < 127 then do
    let split ← splitEnd e.msg e.msgcidx
    let end2 ← putsMsg e.msg 127 47 0
    let len ← e.msg.strlen 127
    some ({ e with cc := e.cc - 1 },
      split ++ [.fbputs (.buf .end1) e.cr (e.cc - 1), end2, .fbputchar blank 47 len])
  else do
    let rest ← putsMsg e.msg e.msgcidx e.cr (e.cc - 1)
    let len ← e.msg.strlen e.msgcidx
    some ({ e with cc := e.cc - 1 }, [rest, .fbputchar blank e.cr (e.cc - 1 + len)])

/-- Backspace with the cursor inside the text. -/
def backspaceInside (e : Editor) : Result := do
  let msg ← shiftDown FUEL e.msg e.msgcidx
  redrawDeleted { e with msg := msg, msgcidx := e.msgcidx - 1, msglen := e.msglen - 1 }

/-- The cursor one step back, where it is not at the start of the first row. -/
def stepBack (e : Editor) : Editor × List Event :=
  if e.cr = 47 ∧ e.cc = 0 then
    ({ e with cr := 46, cc := 126 }, [.fbputchar blank 46 126])
  else if 0 < e.cc then
    ({ e with cc := e.cc - 1 }, [.fbputchar blank e.cr e.cc, .fbputchar blank e.cr (e.cc - 1)])
  else (e, [.fbputchar blank e.cr e.cc])

/-- Backspace at either end of the text. -/
def backspaceEnd (e : Editor) : Editor × List Event :=
  stepBack (if 0 < e.msgcidx ∧ 0 < e.msglen then
    { e with msgcidx := e.msgcidx - 1, msglen := e.msglen - 1 } else e)

/-- Backspace. -/
def backspace (e : Editor) : Result :=
  if e.msgcidx < e.msglen ∧ e.msgcidx ≠ 0 then backspaceInside e else some (backspaceEnd e)

/-- The character under the cursor, a blank behind the text. -/
def underCursor (e : Editor) : Option Byte :=
  if e.msgcidx = e.msglen then some blank else e.msg.read e.msgcidx

/-- The variables after a Left: the index goes back with the cursor, which stays at the start
    of the first row. -/
def moveLeft (e : Editor) : Editor :=
  if e.cc = 0 ∧ e.cr = 47 then { e with cc := 126, cr := 46, msgcidx := e.msgcidx - 1 }
  else if e.cc = 0 ∧ e.cr = 46 then e
  else { e with msgcidx := e.msgcidx - 1, cc := e.cc - 1 }

/-- Left, with the character under the cursor drawn again. -/
def leftArrow (e : Editor) : Result := do
  let c ← underCursor e
  some (moveLeft e, [.fbputchar c e.cr e.cc])

/-- The variables after a Right: the index goes on with the cursor, which stays at the end of
    the second row. -/
def moveRight (e : Editor) : Editor :=
  if e.cr = 46 ∧ e.cc = 126 then { e with cc := 0, cr := 47, msgcidx := e.msgcidx + 1 }
  else if e.cr = 47 ∧ e.cc = 126 then e
  else { e with msgcidx := e.msgcidx + 1, cc := e.cc + 1 }

/-- Right, inside the text. -/
def rightArrow (e : Editor) : Result :=
  if e.msgcidx < e.msglen then do
    let c ← e.msg.read e.msgcidx
    some (moveRight e, [.fbputchar c e.cr e.cc])
  else some (e, [])

/-- The rows of a sent message; the first component is the last of them. -/
def showMessage (msg : Msg) (msglen rcr : Int) : Option (Int × List Event) :=
  if FST_BOUND < msglen then do
    let _ ← msg.strncpy 0 FST_BOUND
    let first := [.declare .firstlineBuf (FST_BOUND + 1),
      .strncpy .firstlineBuf (FST_BOUND + 1) FST_BOUND,
      .store .firstlineBuf (FST_BOUND + 1) (FST_BOUND + 1),
      .fbputs (.buf .firstlineBuf) rcr 5]
    if FST_BOUND + SND_BOUND < msglen then
      let _ ← msg.strncpy FST_BOUND SND_BOUND
      let thirdline ← putsMsg msg (FST_BOUND + SND_BOUND) (rcr + 2) 0
      some (rcr + 2, first ++ [.declare .secondlineBuf (SND_BOUND + 1),
        .strncpy .secondlineBuf (SND_BOUND + 1) SND_BOUND,
        .fbputs (.buf .secondlineBuf) (rcr + 1) 0, thirdline])
    else
      let secondline ← putsMsg msg FST_BOUND (rcr + 1) 0
      some (rcr + 1, first ++ [secondline])
  else do
    let line ← putsMsg msg 0 rcr 5
    some (rcr, [line])

/-- `rcr++; if(rcr > 44) { rcr = 0; clearScreen(45); }` -/
def nextRow (rcr : Int) : Int × List Event :=
  if 44 < rcr + 1 then (0, clearScreen 45) else (rcr + 1, [])

/-- Enter: the text is sent and shown, and the editor cleared. -/
def enter (e : Editor) : Result := do
  let _ ← e.msg.strlen 0
  let msg ← e.msg.memset e.msglen 0
  let sent ← msg.slice 0 e.msglen
  let (row, shown) ← showMessage msg e.msglen e.rcr
  some ({ e with rcr := (nextRow row).1, msglen := 0, msgcidx := 0,
                 msg := Buffer.const MSG_BUFSIZE 0, cr := 46, cc := 0 },
    [.write sent, .fbputs .emptyLine e.rcr e.rcc, .fbputs .me e.rcr 0] ++ shown
      ++ (nextRow row).2 ++ [.fbputs .emptyLine 46 0, .fbputs .emptyLine 47 0])

/-- The redraw after room was made inside the text.  `splitEnd` is called behind index
    127 too, where the copy overruns `end1`. -/
def redrawInserted (e : Editor) : Result :=
  if 126 < e.msglen then do
    let split ← splitEnd e.msg e.msgcidx
    let end2 ← putsMsg e.msg 127 47 0
    some (e, split ++ [.fbputs (.buf .end1) 46 e.cc, end2])
  else do
    let rest ← putsMsg e.msg (e.msgcidx + 1) e.cr (e.cc + 1)
    some (e, [rest])

/-- Make room at the cursor, inside the text. -/
def makeRoom (e : Editor) : Result := do
  let tmp1 ← e.msg.read e.msgcidx
  let tmp2 ← e.msg.read (e.msgcidx + 1)
  let msg ← shiftUp FUEL e.msg e.msgcidx tmp1 tmp2
  redrawInserted { e with msg := msg, msglen := e.msglen + 1 }

/-- `msg[msgcidx] = clookup[...]` and the indices. -/
def putChar (e : Editor) (k : Packet) : Result :=
  if e.msgcidx < MSG_BUFSIZE - 1 then do
    let c ← k.char
    let msg ← e.msg.store e.msgcidx c
    let msgcidx := e.msgcidx + 1
    some ({ e with msg := msg, msgcidx := msgcidx,
                   msglen := if msgcidx = e.msglen + 1 then e.msglen + 1 else e.msglen },
      [.fbputchar c e.cr e.cc])
  else some (e, [])

/-- `cc++`, onto the next row and not past the last one. -/
def advance (e : Editor) : Editor :=
  if 126 < e.cc + 1 then
    if e.cr + 1 = 48 then { e with cr := 47, cc := 126 } else { e with cr := e.cr + 1, cc := 0 }
  else { e with cc := e.cc + 1 }

/-- A character key; a full buffer ignores it. -/
def character (e : Editor) (k : Packet) : Result :=
  if e.msglen < MSG_BUFSIZE - 1 then do
    let (e, drawn) ← if e.msgcidx < e.msglen then makeRoom e else some (e, [])
    let (e, out) ← putChar e k
    some (advance e, drawn ++ out)
  else some (e, [])

/-- One turn of the loop, for a key other than ESC. -/
def handle (e : Editor) (k : Packet) : Result :=
  if k.keycode = 0x2a#8 then backspace e
  else if k.keycode = 0x50#8 then leftArrow e
  else if k.keycode = 0x4f#8 then rightArrow e
  else if 0x04#8 ≤ k.keycode ∧ k.keycode ≤ 0x38#8 then
    if k.keycode = 0x28#8 then enter e else character e k
  else some (e, [])

/-- An array has a positive size, and a copy into it is no longer than it is.  Of the
    stores, which end a string in the byte behind its array, nothing is asked. -/
def Event.Contained : Event → Prop
  | .declare _ size => 0 < size
  | .strncpy _ size count => count ≤ size
  | _ => True

instance decidableContained : DecidablePred Event.Contained
  | .declare _ size => inferInstanceAs (Decidable (0 < size))
  | .strncpy _ size count => inferInstanceAs (Decidable ((count : Int) ≤ size))
  | .store _ _ _ => inferInstanceAs (Decidable True)
  | .fbputchar _ _ _ => inferInstanceAs (Decidable True)
  | .fbputs _ _ _ => inferInstanceAs (Decidable True)
  | .write _ => inferInstanceAs (Decidable True)

/-- All copies of a list of events stay inside the local arrays. -/
def AllContained (out : List Event) : Prop := ∀ ev ∈ out, ev.Contained

instance (out : List Event) : Decidable (AllContained out) := List.decidableBAll _ out

/-- The result of a handler with the local arrays in memory.  A copy that overruns its
    array overwrites the process, and there is no state after it; a terminator stored one
    byte behind its array is taken to change no variable. -/
def inMemory (r : Result) : Result :=
  r.bind (fun (e, out) => if AllContained out then some (e, out) else none)

/-- One turn of the loop with the local arrays in memory. -/
def turn (e : Editor) (k : Packet) : Result := inMemory (handle e k)

/-- The key that ends the loop. -/
def Packet.IsEsc (k : Packet) : Prop := k.keycode = 0x29#8

instance : DecidablePred Packet.IsEsc := fun k => inferInstanceAs (Decidable (k.keycode = 0x29#8))

/-- The loop on the text; ESC ends it.  The local arrays are left out. -/
def run (e : Editor) : List Packet → Result
  | [] => some (e, [])
  | k :: ks =>
      if k.keycode = 0x29#8 then some (e, [])
      else do
        let (e, out) ← handle e k
        let (e, rest) ← run e ks
        some (e, out ++ rest)

/-! ## The loops -/

/-- The string behind the character `x` is moved onto it, with its zero. -/
theorem shiftDown_at {s : List Byte} (hs : 0 ∉ s) (fuel : Nat) (msg : Msg) (l r : List Byte)
    (x : Byte) (h : msg.bytes = l ++ x :: (s ++ 0 :: r)) (p : Int) (hp : p = l.length + 1)
    (hfuel : s.length < fuel) :
    ∃ msg', shiftDown fuel msg p = some msg' ∧ msg'.bytes = l ++ (s ++ 0 :: 0 :: r) := by
  induction s generalizing fuel msg l x p with
  | nil =>
      obtain ⟨fuel, rfl⟩ : ∃ f, fuel = f + 1 := Nat.exists_eq_add_of_le' hfuel
      have hread : msg.read p = some 0 :=
        read_at (h.trans (List.append_cons l x _)) (by simp [hp])
      obtain ⟨msg', hstore, hbytes⟩ := store_at h (i := p - 1) (by omega) 0
      refine ⟨msg', ?_, hbytes⟩
      rw [shiftDown, hread]
      exact hstore
  | cons c s ih =>
      obtain ⟨fuel, rfl⟩ : ∃ f, fuel = f + 1 :=
        Nat.exists_eq_add_of_le' (Nat.lt_of_le_of_lt (Nat.zero_le _) hfuel)
      have hc : c ≠ 0 := (List.ne_of_not_mem_cons hs).symm
      have hread : msg.read p = some c :=
        read_at (h.trans (List.append_cons l x _)) (by simp [hp])
      obtain ⟨msg1, hstore, hbytes⟩ := store_at h (i := p - 1) (by omega) c
      obtain ⟨msg', hrest, hbytes'⟩ := ih (List.not_mem_of_not_mem_cons hs) fuel msg1 (l ++ [c]) c
        (hbytes.trans (List.append_cons l c _)) (p + 1) (by simp [hp])
        (Nat.lt_of_succ_lt_succ hfuel)
      refine ⟨msg', ?_, hbytes'.trans (List.append_cons l c _).symm⟩
      rw [shiftDown, hread]
      show (if c = 0 then _ else _) = _
      rw [if_neg hc, hstore]
      exact hrest

/-- A turn of the second loop up to its last read. -/
theorem shiftUp_succ {msg msg' : Msg} {p : Int} {c tmp1 : Byte} (hc : c ≠ 0)
    (hread : msg.read p = some c) (hstore : msg.store (p + 1) tmp1 = some msg') (tmp2 : Byte)
    (fuel : Nat) :
    shiftUp (fuel + 1) msg p tmp1 tmp2
      = (msg'.read (p + 2)).bind (fun z => shiftUp fuel msg' (p + 1) tmp2 z) := by
  rw [shiftUp, hread]
  show (if c = 0 then _ else _) = _
  rw [if_neg hc, hstore]
  rfl

/-- One turn of the second loop: `c` is the character before the gap and `tmp1` what has
    been displaced by it. -/
theorem shiftUp_turn {msg : Msg} {l r : List Byte} {c tmp2 z : Byte} (hc : c ≠ 0)
    (h : msg.bytes = l ++ c :: tmp2 :: z :: r) {p : Int} (hp : p = l.length) (tmp1 : Byte)
    (fuel : Nat) :
    ∃ msg', shiftUp (fuel + 1) msg p tmp1 tmp2 = shiftUp fuel msg' (p + 1) tmp2 z ∧
      msg'.bytes = l ++ [c] ++ tmp1 :: z :: r := by
  obtain ⟨msg', hstore, hbytes⟩ :=
    store_at (h.trans (List.append_cons l c _)) (i := p + 1) (by simp [hp]) tmp1
  have hnext : msg'.read (p + 2) = some z :=
    read_at (hbytes.trans (List.append_cons _ tmp1 _)) (by simp [hp])
  refine ⟨msg', ?_, hbytes⟩
  rw [shiftUp_succ hc (read_at h hp) hstore, hnext]
  rfl

/-- At the end of the buffer a turn reads past it. -/
theorem shiftUp_turn_none {msg : Msg} {l : List Byte} {c tmp1 tmp2 : Byte} (hc : c ≠ 0)
    (h : msg.bytes = l ++ [c, tmp2]) {p : Int} (hp : p = l.length) (fuel : Nat) :
    shiftUp (fuel + 1) msg p tmp1 tmp2 = none := by
  obtain ⟨msg', hstore, hbytes⟩ :=
    store_at (h.trans (List.append_cons l c _)) (i := p + 1) (by simp [hp]) tmp1
  have hsize := msg.size_of h
  rw [List.length_append] at hsize
  have hnext : msg'.read (p + 2) = none := by
    refine read_none ?_
    rw [← hsize, hp]
    exact Int.le_of_eq rfl
  rw [shiftUp_succ hc (read_at h hp) hstore, hnext]
  rfl

/-- The second loop in its middle: `tmp1`, `tmp2` and `q` were a string `s` and its zero,
    with two more bytes before the end of the buffer. -/
theorem shiftUp_gap {s : List Byte} (hs : 0 ∉ s) (fuel : Nat) (msg : Msg) (l r q : List Byte)
    (c y z tmp1 tmp2 : Byte) (hc : c ≠ 0) (h : msg.bytes = l ++ c :: tmp2 :: q)
    (hq : tmp1 :: tmp2 :: q = s ++ 0 :: y :: z :: r) (p : Int) (hp : p = l.length)
    (hfuel : s.length + 1 < fuel) :
    ∃ msg', shiftUp fuel msg p tmp1 tmp2 = some msg' ∧
      msg'.bytes = l ++ c :: (s ++ 0 :: z :: r) := by
  induction s generalizing fuel msg l c tmp1 tmp2 q p with
  | nil =>
      obtain ⟨rfl, rfl, rfl⟩ : tmp1 = 0 ∧ tmp2 = y ∧ q = z :: r := by simpa using hq
      obtain ⟨fuel, rfl⟩ : ∃ f, fuel = f + 1 + 1 := Nat.exists_eq_add_of_le' hfuel
      obtain ⟨msg', hturn, hbytes⟩ := shiftUp_turn hc h hp 0 (fuel + 1)
      refine ⟨msg', ?_, hbytes.trans (List.append_cons l c _).symm⟩
      rw [hturn, shiftUp, read_at hbytes (by simp [hp])]
      rfl
  | cons a s ih =>
      obtain ⟨rfl, hq'⟩ : tmp1 = a ∧ tmp2 :: q = s ++ 0 :: y :: z :: r := by simpa using hq
      obtain ⟨t, q, rfl⟩ : ∃ t q', q = t :: q' := by
        have hlen := congrArg List.length hq'
        refine List.exists_cons_of_length_pos ?_
        simp only [List.length_cons, List.length_append] at hlen
        omega
      obtain ⟨fuel, rfl⟩ : ∃ f, fuel = f + 1 :=
        Nat.exists_eq_add_of_le' (Nat.lt_of_le_of_lt (Nat.zero_le _) hfuel)
      obtain ⟨msg1, hturn, hbytes⟩ := shiftUp_turn hc h hp tmp1 fuel
      obtain ⟨msg', hrest, hbytes'⟩ := ih (List.not_mem_of_not_mem_cons hs) fuel msg1 (l ++ [c]) q
        tmp1 tmp2 t (List.ne_of_not_mem_cons hs).symm hbytes hq' (p + 1) (by simp [hp])
        (Nat.lt_of_succ_lt_succ hfuel)
      exact ⟨msg', hturn.trans hrest, hbytes'.trans (List.append_cons l c _).symm⟩

/-- With less than two bytes after the zero it leaves the buffer. -/
theorem shiftUp_gap_none {s : List Byte} (hs : 0 ∉ s) (fuel : Nat) (msg : Msg) (l q t : List Byte)
    (c tmp1 tmp2 : Byte) (hc : c ≠ 0) (h : msg.bytes = l ++ c :: tmp2 :: q)
    (hq : tmp1 :: tmp2 :: q = s ++ 0 :: t) (ht : t.length ≤ 1) (p : Int) (hp : p = l.length) :
    shiftUp fuel msg p tmp1 tmp2 = none := by
  induction s generalizing fuel msg l c tmp1 tmp2 q p with
  | nil =>
      cases fuel with
      | zero => rfl
      | succ fuel =>
          obtain ⟨rfl, rfl⟩ : tmp1 = 0 ∧ tmp2 :: q = t := by simpa using hq
          obtain rfl : q = [] := List.eq_nil_of_length_eq_zero (by simpa using ht)
          exact shiftUp_turn_none hc h hp fuel
  | cons a s ih =>
      cases fuel with
      | zero => rfl
      | succ fuel =>
          obtain ⟨rfl, hq'⟩ : tmp1 = a ∧ tmp2 :: q = s ++ 0 :: t := by simpa using hq
          cases q with
          | nil => exact shiftUp_turn_none hc h hp fuel
          | cons t' q =>
              obtain ⟨msg1, hturn, hbytes⟩ := shiftUp_turn hc h hp tmp1 fuel
              rw [hturn]
              exact ih (List.not_mem_of_not_mem_cons hs) fuel msg1 (l ++ [c]) q tmp1 tmp2 t'
                (List.ne_of_not_mem_cons hs).symm hbytes hq' (p + 1) (by simp [hp])

/-- What the second loop starts from: the two bytes at the cursor. -/
theorem read_two {msg : Msg} {l q : List Byte} {a b : Byte} (h : msg.bytes = l ++ a :: b :: q)
    {p : Int} (hp : p = l.length) : msg.read p = some a ∧ msg.read (p + 1) = some b :=
  ⟨read_at h hp, read_at (h.trans (List.append_cons l a _)) (by simp [hp])⟩

/-- A string at the cursor is moved up by one, and its first character stays. -/
theorem shiftUp_at {a : Byte} {s : List Byte} (hs : 0 ∉ a :: s) {msg : Msg} {l r : List Byte}
    {y z : Byte} (h : msg.bytes = l ++ (a :: s ++ 0 :: y :: z :: r)) {p : Int}
    (hp : p = l.length) {fuel : Nat} (hfuel : (a :: s).length + 1 < fuel) :
    ∃ tmp2 msg', msg.read p = some a ∧ msg.read (p + 1) = some tmp2 ∧
      shiftUp fuel msg p a tmp2 = some msg' ∧
      msg'.bytes = l ++ a :: (a :: s ++ 0 :: z :: r) := by
  obtain ⟨tmp2, q, hq⟩ : ∃ t q, s ++ 0 :: y :: z :: r = t :: q :=
    List.exists_cons_of_ne_nil (by simp)
  have hbytes : msg.bytes = l ++ a :: tmp2 :: q := by rw [h, List.cons_append, hq]
  obtain ⟨hread, hread'⟩ := read_two hbytes hp
  obtain ⟨msg', hloop, hbytes'⟩ := shiftUp_gap hs fuel msg l r q a y z a tmp2
    (List.ne_of_not_mem_cons hs).symm hbytes (by rw [List.cons_append, hq]) p hp hfuel
  exact ⟨tmp2, msg', hread, hread', hloop, hbytes'⟩

/-- A string too close to the end of the buffer is not moved. -/
theorem shiftUp_at_none {a : Byte} {s : List Byte} (hs : 0 ∉ a :: s) {msg : Msg}
    {l t : List Byte} (h : msg.bytes = l ++ (a :: s ++ 0 :: t)) (ht : t.length ≤ 1) {p : Int}
    (hp : p = l.length) (fuel : Nat) :
    ∃ tmp2, msg.read p = some a ∧ msg.read (p + 1) = some tmp2 ∧
      shiftUp fuel msg p a tmp2 = none := by
  obtain ⟨tmp2, q, hq⟩ : ∃ t' q, s ++ 0 :: t = t' :: q := List.exists_cons_of_ne_nil (by simp)
  have hbytes : msg.bytes = l ++ a :: tmp2 :: q := by rw [h, List.cons_append, hq]
  obtain ⟨hread, hread'⟩ := read_two hbytes hp
  exact ⟨tmp2, hread, hread', shiftUp_gap_none hs fuel msg l q t a a tmp2
    (List.ne_of_not_mem_cons hs).symm hbytes (by rw [List.cons_append, hq]) ht p hp⟩

/-- With a zero at the cursor nothing is moved. -/
theorem shiftUp_zero {msg : Msg} {p : Int} (h : msg.read p = some 0) (fuel : Nat)
    (tmp1 tmp2 : Byte) : shiftUp (fuel + 1) msg p tmp1 tmp2 = some msg := by
  rw [shiftUp, h]
  rfl

/-! ## What the handlers do

    One lemma for each handler: the variables after it, the bytes it sends and whether
    its writes into the local arrays stay inside them. -/

/-- A Left with the cursor on the buffer. -/
theorem leftArrow_at {e : Editor} (h0 : 0 ≤ e.msgcidx) (hlt : e.msgcidx < MSG_BUFSIZE) :
    ∃ c, leftArrow e = some (moveLeft e, [.fbputchar c e.cr e.cc]) := by
  obtain ⟨c, hc⟩ : ∃ c, underCursor e = some c := by
    rw [underCursor]
    by_cases hend : e.msgcidx = e.msglen
    · exact ⟨blank, if_pos hend⟩
    · obtain ⟨c, hread⟩ := read_total h0 hlt
      exact ⟨c, by rw [if_neg hend, hread]⟩
  refine ⟨c, ?_⟩
  rw [leftArrow, hc]
  rfl

/-- A Right inside the text. -/
theorem rightArrow_at {e : Editor} (h0 : 0 ≤ e.msgcidx) (hlt : e.msgcidx < MSG_BUFSIZE)
    (hin : e.msgcidx < e.msglen) :
    ∃ c, rightArrow e = some (moveRight e, [.fbputchar c e.cr e.cc]) := by
  obtain ⟨c, hread⟩ := read_total (b := e.msg) h0 hlt
  refine ⟨c, ?_⟩
  rw [rightArrow, if_pos hin, hread]
  rfl

/-- The bytes sent by a list of events. -/
def writes (out : List Event) : List (List Byte) :=
  out.filterMap (fun | .write sent => some sent | _ => none)

/-- A declared array is not empty, and the writes go to its elements. -/
def Event.InBounds : Event → Prop
  | .declare _ size => 0 < size
  | .strncpy _ size count => count ≤ size
  | .store _ size index => 0 ≤ index ∧ index < size
  | _ => True

instance decidableInBounds : DecidablePred Event.InBounds
  | .declare _ size => inferInstanceAs (Decidable (0 < size))
  | .strncpy _ size count => inferInstanceAs (Decidable ((count : Int) ≤ size))
  | .store _ size index => inferInstanceAs (Decidable (0 ≤ index ∧ index < size))
  | .fbputchar _ _ _ => inferInstanceAs (Decidable True)
  | .fbputs _ _ _ => inferInstanceAs (Decidable True)
  | .write _ => inferInstanceAs (Decidable True)

/-- All events of a list stay inside the local arrays. -/
def AllInBounds (out : List Event) : Prop := ∀ ev ∈ out, ev.InBounds

instance (out : List Event) : Decidable (AllInBounds out) := List.decidableBAll _ out

/-- What is sent by two handlers in turn. -/
theorem writes_append (out out' : List Event) : writes (out ++ out') = writes out ++ writes out' :=
  List.filterMap_append

/-- Drawing and sending touch no local array. -/
@[simp] theorem inBounds_fbputchar (c : Byte) (row col : Int) :
    (Event.fbputchar c row col).InBounds := trivial

@[simp] theorem inBounds_fbputs (s : Text) (row col : Int) : (Event.fbputs s row col).InBounds :=
  trivial

@[simp] theorem inBounds_write (sent : List Byte) : (Event.write sent).InBounds := trivial

@[simp] theorem allInBounds_nil : AllInBounds [] := List.forall_mem_nil _

@[simp] theorem allInBounds_cons {ev : Event} {out : List Event} :
    AllInBounds (ev :: out) ↔ ev.InBounds ∧ AllInBounds out :=
  List.forall_mem_cons

/-- Events are inside the arrays one by one. -/
theorem allInBounds_append {out out' : List Event} :
    AllInBounds (out ++ out') ↔ AllInBounds out ∧ AllInBounds out' :=
  List.forall_mem_append

/-- An event inside the arrays overruns none. -/
theorem Event.InBounds.contained {ev : Event} (h : ev.InBounds) : ev.Contained := by
  cases ev with
  | declare _ _ => exact h
  | strncpy _ _ _ => exact h
  | fbputchar _ _ _ => trivial
  | fbputs _ _ _ => trivial
  | store _ _ _ => trivial
  | write _ => trivial

/-- What stays inside the arrays is contained in them. -/
theorem AllInBounds.contained {out : List Event} (h : AllInBounds out) : AllContained out :=
  fun ev hev => (h ev hev).contained

/-- Copies are contained one by one. -/
theorem allContained_append {out out' : List Event} :
    AllContained (out ++ out') ↔ AllContained out ∧ AllContained out' :=
  List.forall_mem_append

/-- Without an overrun a handler does what it does. -/
theorem inMemory_of_contained {e : Editor} {out : List Event} (h : AllContained out) :
    inMemory (some (e, out)) = some (e, out) :=
  if_pos h

/-- After an overrun there is no state. -/
theorem inMemory_overrun {e : Editor} {out : List Event} (h : ¬ AllContained out) :
    inMemory (some (e, out)) = none :=
  if_neg h

/-- A result in memory is the result of the handler, and contained. -/
theorem inMemory_eq_some {r : Result} {e : Editor} {out : List Event} :
    inMemory r = some (e, out) ↔ r = some (e, out) ∧ AllContained out := by
  constructor
  · intro h
    obtain ⟨⟨e', out'⟩, rfl, -⟩ := Option.bind_eq_some_iff.mp h
    by_cases hc : AllContained out'
    · rw [inMemory_of_contained hc] at h
      cases h
      exact ⟨rfl, hc⟩
    · rw [inMemory_overrun hc] at h
      cases h
  · rintro ⟨rfl, hc⟩
    exact inMemory_of_contained hc

/-- A clear of the screen touches no array. -/
theorem nextRow_quiet (rcr : Int) :
    writes (nextRow rcr).2 = [] ∧ AllInBounds (nextRow rcr).2 := by
  rw [nextRow]
  by_cases h : 44 < rcr + 1
  · rw [if_pos h]
    constructor
    · exact List.filterMap_eq_nil_iff.mpr (by simp [clearScreen])
    · intro ev hev
      obtain ⟨row, -, rfl⟩ := List.mem_map.mp hev
      exact inBounds_fbputs .emptyLine row 0
  · rw [if_neg h]
    exact ⟨rfl, allInBounds_nil⟩

/-- A terminated buffer can be drawn from any index. -/
theorem putsMsg_total {msg : Msg} (h : msg.Terminated) {i : Int} (h0 : 0 ≤ i)
    (hi : i < MSG_BUFSIZE) (row col : Int) :
    putsMsg msg i row col = some (.fbputs (.msg i) row col) := by
  obtain ⟨k, hk⟩ := strlen_total h h0 hi
  rw [putsMsg, hk]
  rfl

/-- The copy into `end1` always writes one past its end, and overruns it behind index
    127. -/
theorem splitEnd_at {msg : Msg} (h : msg.Terminated) {i : Int} (h0 : 0 ≤ i)
    (hi : i < MSG_BUFSIZE) :
    ∃ out, splitEnd msg i = some out ∧ writes out = [] ∧ (AllContained out ↔ i ≤ 127) ∧
      ¬ AllInBounds out := by
  obtain ⟨s, hs⟩ := strncpy_total h h0 hi (size_t (128 - i - 1))
  refine ⟨_, by rw [splitEnd, hs]; rfl, rfl, ⟨fun hall => ?_, fun hle => ?_⟩, fun hin => ?_⟩
  · have hsize : Event.Contained (.declare .end1 (128 - i)) := hall _ (by simp)
    have hsize' : 0 < 128 - i := hsize
    omega
  · -- up to there the count is one less than the size
    have hcount : (size_t (128 - i - 1) : Int) ≤ 128 - i := by
      rw [size_t]
      omega
    have hsize : (0 : Int) < 128 - i := by omega
    intro ev hev
    simp only [List.mem_cons, List.not_mem_nil, or_false] at hev
    obtain rfl | rfl | rfl := hev
    · exact hsize
    · exact hcount
    · trivial
  · have hstore : Event.InBounds (.store .end1 (128 - i) (128 - i)) := hin _ (by simp)
    exact absurd hstore.2 (Int.lt_irrefl _)

/-- The cursor one step back, onto the row above from the start of a row. -/
def retreat (e : Editor) : Editor :=
  if e.cr = 47 ∧ e.cc = 0 then { e with cr := 46, cc := 126 } else { e with cc := e.cc - 1 }

/-- Moving the cursor leaves the text alone. -/
theorem retreat_text (e : Editor) :
    (retreat e).msg = e.msg ∧ (retreat e).msgcidx = e.msgcidx ∧ (retreat e).msglen = e.msglen := by
  rw [retreat]
  by_cases hrow : e.cr = 47 ∧ e.cc = 0
  · rw [if_pos hrow]
    exact ⟨rfl, rfl, rfl⟩
  · rw [if_neg hrow]
    exact ⟨rfl, rfl, rfl⟩

/-- Neither does moving it forward. -/
theorem advance_text (e : Editor) :
    (advance e).msg = e.msg ∧ (advance e).msgcidx = e.msgcidx ∧ (advance e).msglen = e.msglen := by
  rw [advance]
  by_cases hcol : 126 < e.cc + 1
  · rw [if_pos hcol]
    by_cases hrow : e.cr + 1 = 48
    · rw [if_pos hrow]
      exact ⟨rfl, rfl, rfl⟩
    · rw [if_neg hrow]
      exact ⟨rfl, rfl, rfl⟩
  · rw [if_neg hcol]
    exact ⟨rfl, rfl, rfl⟩

/-- A deletion that redraws the ends of both rows: with `msglen` and `msgcidx` after it. -/
def Splits (e : Editor) : Prop := 126 < e.msglen ∧ e.msgcidx < 127 ∧ ¬ (e.cr = 47 ∧ e.cc = 0)

/-- The redraw after a deletion succeeds; its copy never overruns `end1`, and its terminator
    leaves it when both rows are drawn. -/
theorem redrawDeleted_at {e : Editor} (ht : e.msg.Terminated) (h0 : 0 ≤ e.msgcidx)
    (hlt : e.msgcidx + 1 < MSG_BUFSIZE) :
    ∃ out, redrawDeleted e = some (retreat e, out) ∧ writes out = [] ∧ AllContained out ∧
      (AllInBounds out ↔ ¬ Splits e) := by
  have hlt' : e.msgcidx < MSG_BUFSIZE := by omega
  obtain ⟨len, hlen⟩ := strlen_total ht h0 hlt'
  rw [redrawDeleted, retreat]
  by_cases hrow : e.cr = 47 ∧ e.cc = 0
  · -- the cursor goes to the end of the first row
    rw [if_pos hrow, if_pos hrow, putsMsg_total ht (by omega) hlt, hlen]
    have hin : AllInBounds [.fbputs (.msg (e.msgcidx + 1)) 47 0,
        .fbputchar blank 47 (len - 1)] := by simp
    exact ⟨_, rfl, rfl, hin.contained, iff_of_true hin (fun hsplit => hsplit.2.2 hrow)⟩
  · rw [if_neg hrow, if_neg hrow]
    by_cases hsplit : 126 < e.msglen ∧ e.msgcidx < 127
    · obtain ⟨out, hout, hw, hcontained, hin⟩ := splitEnd_at ht h0 hlt'
      obtain ⟨len', hlen'⟩ := strlen_total ht (i := 127) (by decide) (by decide)
      rw [if_pos hsplit, hout, putsMsg_total ht (by decide) (by decide), hlen']
      refine ⟨_, rfl, ?_, ?_, iff_of_false (fun hall => hin ?_) (fun hno => ?_)⟩
      · rw [writes_append, hw]
        rfl
      · have hdrawn : AllInBounds [.fbputs (.buf .end1) e.cr (e.cc - 1), .fbputs (.msg 127) 47 0,
            .fbputchar blank 47 len'] := by simp
        exact allContained_append.mpr
          ⟨hcontained.mpr (Int.le_of_lt hsplit.2), hdrawn.contained⟩
      · exact (allInBounds_append.mp hall).1
      · exact hno ⟨hsplit.1, hsplit.2, hrow⟩
    · rw [if_neg hsplit, putsMsg_total ht h0 hlt', hlen]
      have hin : AllInBounds [.fbputs (.msg e.msgcidx) e.cr (e.cc - 1),
          .fbputchar blank e.cr (e.cc - 1 + len)] := by simp
      exact ⟨_, rfl, rfl, hin.contained, iff_of_true hin (fun hs => hsplit ⟨hs.1, hs.2.1⟩)⟩

/-- The variables after a deletion inside the text. -/
def deleted (e : Editor) (msg : Msg) : Editor :=
  { e with msg := msg, msgcidx := e.msgcidx - 1, msglen := e.msglen - 1 }

/-- A deletion inside the text: the string at the cursor `s` takes the place of `x`. -/
theorem backspaceInside_at {e : Editor} {l s r : List Byte} {x : Byte}
    (h : e.msg.bytes = l ++ x :: (s ++ 0 :: r)) (hs : 0 ∉ s) (hi : e.msgcidx = l.length + 1)
    (ht : e.msg.Terminated) :
    ∃ msg out, backspaceInside e = some (retreat (deleted e msg), out) ∧
      msg.bytes = l ++ (s ++ 0 :: 0 :: r) ∧ msg.Terminated ∧ writes out = [] ∧
      AllContained out ∧ (AllInBounds out ↔ ¬ Splits (deleted e msg)) := by
  have hsize : (l ++ x :: (s ++ 0 :: r)).length = MSG_BUFSIZE := e.msg.size_of h
  simp only [List.length_append, List.length_cons] at hsize
  obtain ⟨msg, hshift, hbytes⟩ := shiftDown_at hs FUEL e.msg l r x h e.msgcidx hi
    (by rw [FUEL, ← hsize]; omega)
  have ht' : msg.Terminated := by
    refine terminated_of_suffix (l := l ++ (x :: s)) (m := l ++ (s ++ [0])) (r := 0 :: r)
      ?_ ?_ (List.cons_ne_nil 0 r) ht
    · rw [h, List.append_assoc, List.cons_append]
    · rw [hbytes, List.append_assoc, List.append_assoc]
      rfl
  have h0 : 0 ≤ e.msgcidx - 1 := by omega
  have hlt : e.msgcidx - 1 + 1 < MSG_BUFSIZE := by omega
  obtain ⟨out, hredraw, hw, hcontained, hin⟩ := redrawDeleted_at (e := deleted e msg) ht' h0 hlt
  refine ⟨msg, out, ?_, hbytes, ht', hw, hcontained, hin⟩
  rw [backspaceInside, hshift]
  exact hredraw

/-- The redraw after an insertion succeeds as far as `msg` is concerned; what it does to
    `end1` depends on the length of the text and the index. -/
theorem redrawInserted_at {e : Editor} (ht : e.msg.Terminated) (h0 : 0 ≤ e.msgcidx)
    (hlt : e.msgcidx + 1 < MSG_BUFSIZE) :
    ∃ out, redrawInserted e = some (e, out) ∧ writes out = [] ∧
      (AllContained out ↔ e.msglen ≤ 126 ∨ e.msgcidx ≤ 127) ∧
      (AllInBounds out ↔ e.msglen ≤ 126) := by
  rw [redrawInserted]
  by_cases hlen : 126 < e.msglen
  · obtain ⟨out, hout, hw, hcontained, hin⟩ := splitEnd_at ht h0 (by omega)
    rw [if_pos hlen, hout, putsMsg_total ht (by decide) (by decide)]
    refine ⟨_, rfl, ?_, ?_, iff_of_false (fun hall => hin ?_) (Int.not_le.mpr hlen)⟩
    · rw [writes_append, hw]
      rfl
    · have hdrawn : AllInBounds [.fbputs (.buf .end1) 46 e.cc, .fbputs (.msg 127) 47 0] := by simp
      rw [or_iff_right (Int.not_le.mpr hlen), ← hcontained]
      exact allContained_append.trans (and_iff_left hdrawn.contained)
    · exact (allInBounds_append.mp hall).1
  · rw [if_neg hlen, putsMsg_total ht (by omega) hlt]
    have hin : AllInBounds [.fbputs (.msg (e.msgcidx + 1)) e.cr (e.cc + 1)] := by simp
    exact ⟨_, rfl, rfl, iff_of_true hin.contained (.inl (Int.not_lt.mp hlen)),
      iff_of_true hin (Int.not_lt.mp hlen)⟩

/-- The variables after room was made. -/
def inserted (e : Editor) (msg : Msg) : Editor := { e with msg := msg, msglen := e.msglen + 1 }

/-- The two bytes at the cursor are what the loop starts with. -/
theorem makeRoom_eq {e : Editor} {tmp1 tmp2 : Byte} (h1 : e.msg.read e.msgcidx = some tmp1)
    (h2 : e.msg.read (e.msgcidx + 1) = some tmp2) :
    makeRoom e = (shiftUp FUEL e.msg e.msgcidx tmp1 tmp2).bind
      (fun msg => redrawInserted (inserted e msg)) := by
  rw [makeRoom, h1]
  show (e.msg.read (e.msgcidx + 1)).bind _ = _
  rw [h2]
  rfl

/-- Room is made when the second loop succeeds. -/
theorem makeRoom_at {e : Editor} {tmp1 tmp2 : Byte} {msg : Msg}
    (h1 : e.msg.read e.msgcidx = some tmp1) (h2 : e.msg.read (e.msgcidx + 1) = some tmp2)
    (hshift : shiftUp FUEL e.msg e.msgcidx tmp1 tmp2 = some msg) (ht : msg.Terminated)
    (h0 : 0 ≤ e.msgcidx) (hlt : e.msgcidx + 1 < MSG_BUFSIZE) :
    ∃ out, makeRoom e = some (inserted e msg, out) ∧ writes out = [] ∧
      (AllContained out ↔ e.msglen ≤ 125 ∨ e.msgcidx ≤ 127) ∧
      (AllInBounds out ↔ e.msglen ≤ 125) := by
  obtain ⟨out, hredraw, hw, hcontained, hin⟩ :=
    redrawInserted_at (e := inserted e msg) ht h0 hlt
  have hlen : (inserted e msg).msglen ≤ 126 ↔ e.msglen ≤ 125 := by
    show e.msglen + 1 ≤ 126 ↔ _
    omega
  refine ⟨out, ?_, hw, hcontained.trans (or_congr hlen Iff.rfl), hin.trans hlen⟩
  rw [makeRoom_eq h1 h2, hshift]
  exact hredraw

/-- The variables after a character was stored. -/
def stored (e : Editor) (msg : Msg) : Editor :=
  { e with msg := msg, msgcidx := e.msgcidx + 1,
           msglen := if e.msgcidx + 1 = e.msglen + 1 then e.msglen + 1 else e.msglen }

/-- A character is stored at the cursor and drawn. -/
theorem putChar_at {e : Editor} {k : Packet} {c a : Byte} {l r : List Byte}
    (h : e.msg.bytes = l ++ a :: r) (hi : e.msgcidx = l.length)
    (hlt : e.msgcidx < MSG_BUFSIZE - 1) (hc : k.char = some c) :
    ∃ msg, putChar e k = some (stored e msg, [.fbputchar c e.cr e.cc]) ∧
      msg.bytes = l ++ c :: r := by
  obtain ⟨msg, hstore, hbytes⟩ := store_at h hi c
  refine ⟨msg, ?_, hbytes⟩
  rw [putChar, if_pos hlt, hc]
  show (e.msg.store e.msgcidx c).bind _ = _
  rw [hstore]
  rfl

/-- A character at the end of the text. -/
theorem character_end_at {e : Editor} {k : Packet} {msg : Msg} {out : List Event}
    (hlen : e.msglen < MSG_BUFSIZE - 1) (hend : ¬ e.msgcidx < e.msglen)
    (hput : putChar e k = some (stored e msg, out)) :
    character e k = some (advance (stored e msg), out) := by
  rw [character, if_pos hlen, if_neg hend]
  show (putChar e k).bind _ = _
  rw [hput]
  rfl

/-- A character inside the text. -/
theorem character_inside_at {e e' : Editor} {k : Packet} {msg : Msg} {drawn out : List Event}
    (hlen : e.msglen < MSG_BUFSIZE - 1) (hin : e.msgcidx < e.msglen)
    (hroom : makeRoom e = some (e', drawn)) (hput : putChar e' k = some (stored e' msg, out)) :
    character e k = some (advance (stored e' msg), drawn ++ out) := by
  rw [character, if_pos hlen, if_pos hin, hroom]
  show (putChar e' k).bind _ = _
  rw [hput]
  rfl

/-- Every key of the character range has a character. -/
theorem char_total {k : Packet} (hk : k.keycode ≤ 0x38#8) : ∃ c, k.char = some c := by
  have hle : k.keycode.toNat ≤ 56 := hk
  have hlt : k.keycode.toNat - 0x04
      + (if k.modifiers = 0x02#8 ∨ k.modifiers = 0x20#8 then 0x35 else 0x00) < clookup.length := by
    show _ < 106
    split <;> omega
  exact ⟨_, List.getElem?_eq_getElem hlt⟩

/-- What `showMessage` gives for a terminated buffer. -/
def shownMessage (msglen rcr : Int) : Int × List Event :=
  if FST_BOUND < msglen then
    let first := [.declare .firstlineBuf (FST_BOUND + 1),
      .strncpy .firstlineBuf (FST_BOUND + 1) FST_BOUND,
      .store .firstlineBuf (FST_BOUND + 1) (FST_BOUND + 1),
      .fbputs (.buf .firstlineBuf) rcr 5]
    if FST_BOUND + SND_BOUND < msglen then
      (rcr + 2, first ++ [.declare .secondlineBuf (SND_BOUND + 1),
        .strncpy .secondlineBuf (SND_BOUND + 1) SND_BOUND,
        .fbputs (.buf .secondlineBuf) (rcr + 1) 0,
        .fbputs (.msg (FST_BOUND + SND_BOUND)) (rcr + 2) 0])
    else (rcr + 1, first ++ [.fbputs (.msg FST_BOUND) (rcr + 1) 0])
  else (rcr, [.fbputs (.msg 0) rcr 5])

/-- A terminated buffer can be shown. -/
theorem showMessage_total {msg : Msg} (ht : msg.Terminated) (msglen rcr : Int) :
    showMessage msg msglen rcr = some (shownMessage msglen rcr) := by
  obtain ⟨s1, hs1⟩ := strncpy_total ht (i := 0) (by decide) (by decide) FST_BOUND
  obtain ⟨s2, hs2⟩ := strncpy_total ht (i := FST_BOUND) (by decide) (by decide) SND_BOUND
  rw [showMessage, shownMessage]
  by_cases hfst : (FST_BOUND : Int) < msglen
  · rw [if_pos hfst, if_pos hfst, hs1]
    by_cases hsnd : (FST_BOUND : Int) + SND_BOUND < msglen
    · rw [if_pos hsnd, if_pos hsnd, hs2, putsMsg_total ht (by decide) (by decide)]
      rfl
    · rw [if_neg hsnd, if_neg hsnd, putsMsg_total ht (by decide) (by decide)]
      rfl
  · rw [if_neg hfst, if_neg hfst, putsMsg_total ht (by decide) (by decide)]
    rfl

/-- The terminator of `firstlineBuf` is written one past its end. -/
theorem shownMessage_quiet (msglen rcr : Int) :
    writes (shownMessage msglen rcr).2 = [] ∧
      (AllInBounds (shownMessage msglen rcr).2 ↔ msglen ≤ 122) := by
  rw [shownMessage]
  by_cases hfst : (FST_BOUND : Int) < msglen
  · rw [if_pos hfst]
    have hbad : ∀ out : List Event,
        .store .firstlineBuf (FST_BOUND + 1) (FST_BOUND + 1) ∈ out → ¬ AllInBounds out :=
      fun out hmem hall => absurd (hall _ hmem).2 (Int.lt_irrefl _)
    have hlong : ¬ msglen ≤ 122 := Int.not_le.mpr hfst
    by_cases hsnd : (FST_BOUND : Int) + SND_BOUND < msglen
    · rw [if_pos hsnd]
      exact ⟨rfl, iff_of_false (hbad _ (by simp)) hlong⟩
    · rw [if_neg hsnd]
      exact ⟨rfl, iff_of_false (hbad _ (by simp)) hlong⟩
  · rw [if_neg hfst]
    refine ⟨rfl, iff_of_true ?_ (Int.not_lt.mp hfst)⟩
    simp

/-- Its copies stay inside their arrays. -/
theorem shownMessage_contained (msglen rcr : Int) : AllContained (shownMessage msglen rcr).2 := by
  rw [shownMessage]
  by_cases hfst : (FST_BOUND : Int) < msglen
  · rw [if_pos hfst]
    by_cases hsnd : (FST_BOUND : Int) + SND_BOUND < msglen
    · rw [if_pos hsnd]
      simp [AllContained, Event.Contained, FST_BOUND, SND_BOUND]
    · rw [if_neg hsnd]
      simp [AllContained, Event.Contained, FST_BOUND]
  · rw [if_neg hfst]
    simp [AllContained, Event.Contained]

/-- The variables after Enter. -/
def cleared (e : Editor) (rcr : Int) : Editor := { initial with rcr := rcr, rcc := e.rcc }

/-- The events of an Enter that sends `text`. -/
def enterEvents (e : Editor) (text : List Byte) : List Event :=
  [.write text, .fbputs .emptyLine e.rcr e.rcc, .fbputs .me e.rcr 0]
    ++ (shownMessage e.msglen e.rcr).2 ++ (nextRow (shownMessage e.msglen e.rcr).1).2
    ++ [.fbputs .emptyLine 46 0, .fbputs .emptyLine 47 0]

/-- An Enter whose text is `text`. -/
theorem enter_eq {e : Editor} {text r : List Byte} (h : e.msg.bytes = text ++ r)
    (hlen : e.msglen = text.length) (hlt : text.length < MSG_BUFSIZE) (ht : e.msg.Terminated) :
    enter e = some (cleared e (nextRow (shownMessage e.msglen e.rcr).1).1, enterEvents e text) := by
  obtain ⟨k, hk⟩ := strlen_total ht (i := 0) (by decide) (by decide)
  obtain ⟨msg, hset, hbytes⟩ := memset_at h hlen (0 : Byte)
  have hsent : msg.slice 0 e.msglen = some text := slice_at (l := []) hbytes rfl hlen
  have ht' : msg.Terminated := terminated_of_zeros hbytes (by omega)
  rw [enter, hk]
  show (e.msg.memset e.msglen 0).bind _ = _
  rw [hset]
  show (msg.slice 0 e.msglen).bind _ = _
  rw [hsent]
  show (showMessage msg e.msglen e.rcr).bind _ = _
  rw [showMessage_total ht']
  rfl

/-- An Enter with any text of the buffer. -/
theorem enter_total {e : Editor} (ht : e.msg.Terminated) (h0 : 0 ≤ e.msglen)
    (hlt : e.msglen < MSG_BUFSIZE) :
    enter e = some (cleared e (nextRow (shownMessage e.msglen e.rcr).1).1,
      enterEvents e (e.msg.bytes.take e.msglen.toNat)) := by
  have hsize : e.msg.bytes.length = MSG_BUFSIZE := e.msg.size
  have htake : (e.msg.bytes.take e.msglen.toNat).length = e.msglen.toNat :=
    List.length_take_of_le (by omega)
  exact enter_eq (List.take_append_drop e.msglen.toNat e.msg.bytes).symm (by omega) (by omega) ht

/-- It sends the text, overruns no array, and stays inside the arrays up to 122 characters. -/
theorem enterEvents_at (e : Editor) (text : List Byte) :
    writes (enterEvents e text) = [text] ∧ AllContained (enterEvents e text) ∧
      (AllInBounds (enterEvents e text) ↔ e.msglen ≤ 122) := by
  obtain ⟨hw, hin⟩ := shownMessage_quiet e.msglen e.rcr
  obtain ⟨hw', hin'⟩ := nextRow_quiet (shownMessage e.msglen e.rcr).1
  have hfirst : AllInBounds [.write text, .fbputs .emptyLine e.rcr e.rcc,
      .fbputs .me e.rcr 0] := by simp
  have hlast : AllInBounds [.fbputs .emptyLine 46 0, .fbputs .emptyLine 47 0] := by simp
  rw [enterEvents]
  refine ⟨?_, ?_, ?_⟩
  · rw [writes_append, writes_append, writes_append, hw, hw']
    rfl
  · rw [allContained_append, allContained_append, allContained_append]
    exact ⟨⟨⟨hfirst.contained, shownMessage_contained e.msglen e.rcr⟩, hin'.contained⟩,
      hlast.contained⟩
  · rw [allInBounds_append, allInBounds_append, allInBounds_append, hin]
    constructor
    · exact fun h => h.1.1.2
    · exact fun h => ⟨⟨⟨hfirst, h⟩, hin'⟩, hlast⟩

/-! ## One turn of the loop -/

/-- Which handler a key gets. -/
inductive Turn (e : Editor) (k : Packet) : Prop where
  | backspace : k.keycode = 0x2a#8 → handle e k = backspace e → Turn e k
  | left : k.keycode = 0x50#8 → handle e k = leftArrow e → Turn e k
  | right : k.keycode = 0x4f#8 → handle e k = rightArrow e → Turn e k
  | enter : k.keycode = 0x28#8 → handle e k = enter e → Turn e k
  | char (c : Byte) : k.keycode ≠ 0x2a#8 → k.keycode ≠ 0x28#8 →
      0x04#8 ≤ k.keycode ∧ k.keycode ≤ 0x38#8 → k.char = some c →
      handle e k = character e k → Turn e k
  | other : k.keycode ≠ 0x2a#8 → k.keycode ≠ 0x50#8 →
      ¬ (0x04#8 ≤ k.keycode ∧ k.keycode ≤ 0x38#8) → handle e k = some (e, []) → Turn e k

/-- Every key has one handler. -/
theorem handle_turn (e : Editor) (k : Packet) : Turn e k := by
  by_cases hback : k.keycode = 0x2a#8
  · exact .backspace hback (by rw [handle, if_pos hback])
  by_cases hleft : k.keycode = 0x50#8
  · exact .left hleft (by rw [handle, if_neg hback, if_pos hleft])
  by_cases hright : k.keycode = 0x4f#8
  · exact .right hright (by rw [handle, if_neg hback, if_neg hleft, if_pos hright])
  by_cases hchar : 0x04#8 ≤ k.keycode ∧ k.keycode ≤ 0x38#8
  · by_cases henter : k.keycode = 0x28#8
    · refine .enter henter ?_
      rw [handle, if_neg hback, if_neg hleft, if_neg hright, if_pos hchar, if_pos henter]
    · obtain ⟨c, hc⟩ := char_total hchar.2
      refine .char c hback henter hchar hc ?_
      rw [handle, if_neg hback, if_neg hleft, if_neg hright, if_pos hchar, if_neg henter]
  · refine .other hback hleft hchar ?_
    rw [handle, if_neg hback, if_neg hleft, if_neg hright, if_neg hchar]

end Lab2
