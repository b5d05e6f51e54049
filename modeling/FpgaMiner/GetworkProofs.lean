import FpgaMiner.LoadProofs
import FpgaMiner.MinerDriverProofs

/-! # `getwork` — from the server's strings to the header register

    bitcoind hands out a midstate and a data block as hex strings of 32-bit words in
    little-endian bytes.  `request_work` swaps the bytes of each word, decodes the
    hex, puts the two results one behind the other in a buffer and sends that buffer
    through the driver, last byte first.

    * **`endian_flip_spec`** and **`hexStringToBytes_HexStr`** — the two decoding
      steps, hence `decode_words`: the words as big-endian bytes;
    * **`write_segments_writes`** — what reaches the bus;
    * **`header_of_writes`** — what it leaves in a loading `miner_top`;
    * **`layout_iff`** — when that is the layout the cores hash: the buffer has room
      for two pointers and not for the two results, so this takes a coincidence. -/

namespace Getwork

open ClockedCircuit BitSlice MinerTop Load MinerDriver

/-! ## The strings -/

/-- A character of a C string. -/
def chr (c : Char) : Byte := BitVec.ofNat 8 c.toNat

/-- The bytes of a word in a little-endian memory. -/
def littleEndian (w : BitVec 32) : List Byte :=
  [w.extractLsb' 0 8, w.extractLsb' 8 8, w.extractLsb' 16 8, w.extractLsb' 24 8]

/-- The bytes of a word, highest first. -/
def bigEndian (w : BitVec 32) : List Byte :=
  [w.extractLsb' 24 8, w.extractLsb' 16 8, w.extractLsb' 8 8, w.extractLsb' 0 8]

/-- `hexmap` of `HexStr` -/
def hexmap : List Byte :=
  [chr '0', chr '1', chr '2', chr '3', chr '4', chr '5', chr '6', chr '7',
   chr '8', chr '9', chr 'a', chr 'b', chr 'c', chr 'd', chr 'e', chr 'f']

/-- bitcoind's `HexStr`, without spaces. -/
def HexStr (bytes : List Byte) : List Byte :=
  bytes.flatMap (fun val : Byte =>
    [hexmap.getD (val >>> 4).toNat 0, hexmap.getD (val &&& 15).toNat 0])

/-- The length of a NUL-terminated string. -/
def strlen (s : List Byte) : Nat := (s.takeWhile (· ≠ 0#8)).length

/-- `swap(&s[a], &s[b])`; `none` outside the buffer. -/
def swap (s : List Byte) (a b : Nat) : Option (List Byte) := do
  let x ← s[a]?
  let y ← s[b]?
  return (s.set a y).set b x

/-- The loop of `endian_flip_32_bit_chunks` from index `i`. -/
def flipLoop : Nat → List Byte → Nat → Option (List Byte)
  | 0, input, _ => some input
  | fuel + 1, input, i =>
      if i < strlen input then do
        let input ← swap input i (i + 6)
        let input ← swap input (i + 1) (i + 7)
        let input ← swap input (i + 2) (i + 4)
        let input ← swap input (i + 3) (i + 5)
        flipLoop fuel input (i + 8)
      else some input

/-- `endian_flip_32_bit_chunks` on a buffer with a NUL-terminated string.  The index
    grows in each turn and stays below the length of the buffer, which bounds their
    number. -/
def endian_flip_32_bit_chunks (input : List Byte) : Option (List Byte) :=
  flipLoop input.length input 0

/-- The value of a hex digit; 255 for any other character. -/
def nibbleFromChar (c : Byte) : Byte :=
  if chr '0' ≤ c ∧ c ≤ chr '9' then c - chr '0'
  else if chr 'a' ≤ c ∧ c ≤ chr 'f' then c - chr 'a' + 10
  else if chr 'A' ≤ c ∧ c ≤ chr 'F' then c - chr 'A' + 10
  else 255

/-- The loop of `hexStringToBytes` over `len` bytes from the pointer `p`. -/
def decodeLoop : Nat → List Byte → List Byte
  | 0, _ => []
  | len + 1, p =>
      ((nibbleFromChar (p.getD 0 0) <<< 4) ||| nibbleFromChar (p.getD 1 0))
        :: decodeLoop len (p.drop 2)

/-- `hexStringToBytes`; the result ends with a zero byte. -/
def hexStringToBytes (inhex : List Byte) : List Byte :=
  decodeLoop (strlen inhex / 2) inhex ++ [0#8]

/-! ## The transfer -/

/-- The loop of `write_segments` over the digits left: it returns at the first call
    that fails.  The result is what was written to the bus. -/
def writeLoop (segs : Int → Byte) : Dev → List Nat → List (Byte × Byte)
  | _, [] => []
  | dev, i :: rest =>
      match vga_led_ioctl dev .VGA_LED_WRITE_DIGIT
          { digit := BitVec.ofNat 8 i, segments := segs (95 - i) } with
      | some r => r.iowrite8.toList ++ (if r.ret ≠ 0 then [] else writeLoop segs r.dev rest)
      | none => []

/-- `write_segments`, with `segs[k]` for every index the loop uses. -/
def write_segments (dev : Dev) (segs : Int → Byte) : List (Byte × Byte) :=
  writeLoop segs dev (List.range DATA_SIZE)

/-- Reading `buffer[k]`: outside the buffer, whatever the memory around it holds. -/
def readMemory (buffer : List Byte) (around : Int → Byte) : Int → Byte
  | .ofNat k => buffer.getD k (around k)
  | .negSucc k => around (.negSucc k)

/-- `header_buffer` of `request_work`: two copies of as many bytes as a pointer has. -/
def headerBuffer (sizeof_ptr : Nat) (midstate_bytes data_bytes : List Byte) : List Byte :=
  midstate_bytes.take sizeof_ptr ++ data_bytes.take sizeof_ptr

/-- `request_work` from the two strings of the reply to the bus. -/
def request_work (sizeof_ptr : Nat) (dev : Dev) (around : Int → Byte)
    (data midstate : List Byte) : Option (List (Byte × Byte)) := do
  let data_bytes := hexStringToBytes (← endian_flip_32_bit_chunks data)
  let midstate_bytes := hexStringToBytes (← endian_flip_32_bit_chunks midstate)
  return write_segments dev (readMemory (headerBuffer sizeof_ptr midstate_bytes data_bytes) around)

/-! ## Decoding -/

/-- What the swaps do to the eight characters of each word. -/
def flipChunks : List Byte → List Byte
  | c0 :: c1 :: c2 :: c3 :: c4 :: c5 :: c6 :: c7 :: rest =>
      c6 :: c7 :: c4 :: c5 :: c2 :: c3 :: c0 :: c1 :: flipChunks rest
  | s => s

/-- What is left behind whole words has fewer than eight characters. -/
theorem rest_of_words {s : List Byte}
    (hs : ∀ c0 c1 c2 c3 c4 c5 c6 c7 rest,
      s = c0 :: c1 :: c2 :: c3 :: c4 :: c5 :: c6 :: c7 :: rest → False) : s.length < 8 := by
  match s, hs with
  | [], _ | [_], _ | [_, _], _ | [_, _, _], _ | [_, _, _, _], _ | [_, _, _, _, _], _
  | [_, _, _, _, _, _], _ | [_, _, _, _, _, _, _], _ => simp
  | c0 :: c1 :: c2 :: c3 :: c4 :: c5 :: c6 :: c7 :: s, hs =>
      exact (hs c0 c1 c2 c3 c4 c5 c6 c7 s rfl).elim

/-- The length of a string without a NUL in it. -/
theorem strlen_terminated {s : List Byte} (h : ∀ c ∈ s, c ≠ 0#8) (rest : List Byte) :
    strlen (s ++ 0#8 :: rest) = s.length := by
  have hall : ∀ c ∈ s, decide (c ≠ 0#8) = true := fun c hc => decide_eq_true (h c hc)
  rw [strlen, List.takeWhile_append_of_pos hall, List.takeWhile_cons_of_neg (by decide),
    List.append_nil]

/-- A swap behind a prefix. -/
theorem swap_append (pre s : List Byte) (a b : Nat) :
    swap (pre ++ s) (pre.length + a) (pre.length + b) = (swap s a b).map (pre ++ ·) := by
  simp only [swap, List.getElem?_append_right (Nat.le_add_right _ _), Nat.add_sub_cancel_left]
  cases s[a]? with
  | none => rfl
  | some x =>
      cases s[b]? with
      | none => rfl
      | some y =>
          show some (((pre ++ s).set (pre.length + a) y).set (pre.length + b) x) = _
          rw [List.set_append_right _ _ (Nat.le_add_right _ _), Nat.add_sub_cancel_left,
            List.set_append_right _ _ (Nat.le_add_right _ _), Nat.add_sub_cancel_left]
          rfl

/-- The four swaps of one turn. -/
def flipGroup (input : List Byte) (i : Nat) : Option (List Byte) := do
  let input ← swap input i (i + 6)
  let input ← swap input (i + 1) (i + 7)
  let input ← swap input (i + 2) (i + 4)
  swap input (i + 3) (i + 5)

/-- The indices of one turn, in the order of the swaps. -/
def turnIndices (i : Nat) : List Nat := [i, i + 6, i + 1, i + 7, i + 2, i + 4, i + 3, i + 5]

/-- The loop of `endian_flip_32_bit_chunks` at index `i` ends with `output` after it has
    swapped the characters at `touched`. -/
inductive Flips : List Byte → Nat → List Nat → List Byte → Prop where
  | exit {input : List Byte} {i : Nat} : strlen input ≤ i → Flips input i [] input
  | turn {input next output : List Byte} {i : Nat} {touched : List Nat} :
      i < strlen input → flipGroup input i = some next → Flips next (i + 8) touched output →
      Flips input i (turnIndices i ++ touched) output

/-- A swap keeps the length. -/
theorem length_swap {s t : List Byte} {a b : Nat} (h : swap s a b = some t) :
    t.length = s.length := by
  simp only [swap, bind, Option.bind_eq_some_iff, pure, Option.some.injEq] at h
  obtain ⟨x, -, y, -, rfl⟩ := h
  rw [List.length_set, List.length_set]

/-- And so does the reversal of a word. -/
theorem length_flipGroup {input next : List Byte} {i : Nat} (h : flipGroup input i = some next) :
    next.length = input.length := by
  simp only [flipGroup, bind, Option.bind_eq_some_iff] at h
  obtain ⟨s1, h1, s2, h2, s3, h3, h4⟩ := h
  rw [length_swap h4, length_swap h3, length_swap h2, length_swap h1]

/-- A string ends in its buffer. -/
theorem strlen_le_length (s : List Byte) : strlen s ≤ s.length :=
  (List.takeWhile_sublist _).length_le

/-- A loop that ends does so within as many turns as the buffer has bytes. -/
theorem Flips.eval {input output : List Byte} {i : Nat} {touched : List Nat}
    (h : Flips input i touched output) :
    ∀ fuel, input.length ≤ fuel + i → flipLoop fuel input i = some output := by
  induction h with
  | @exit input i hle =>
      intro fuel _
      cases fuel with
      | zero => rfl
      | succ fuel => rw [flipLoop, if_neg (Nat.not_lt.mpr hle)]
  | @turn input next output i touched hlt hgroup _ ih =>
      intro fuel hfuel
      have hlen := strlen_le_length input
      obtain ⟨fuel, rfl⟩ : ∃ f, fuel = f + 1 := ⟨fuel - 1, by omega⟩
      have hnext := ih fuel (by rw [length_flipGroup hgroup]; omega)
      have hturn : flipLoop (fuel + 1) input i
          = (flipGroup input i).bind (flipLoop fuel · (i + 8)) := by
        rw [flipLoop, if_pos hlt, flipGroup]
        simp only [bind, Option.bind_assoc]
      rw [hturn, hgroup]
      exact hnext

/-- The function does what its loop does. -/
theorem Flips.endian_flip {input output : List Byte} {touched : List Nat}
    (h : Flips input 0 touched output) : endian_flip_32_bit_chunks input = some output :=
  h.eval input.length (Nat.le_refl _)

/-- One turn flips the word behind the prefix. -/
theorem flipGroup_at (pre s : List Byte) (c0 c1 c2 c3 c4 c5 c6 c7 : Byte) :
    flipGroup (pre ++ c0 :: c1 :: c2 :: c3 :: c4 :: c5 :: c6 :: c7 :: s) pre.length
      = some (pre ++ c6 :: c7 :: c4 :: c5 :: c2 :: c3 :: c0 :: c1 :: s) := by
  have h1 : swap (pre ++ c0 :: c1 :: c2 :: c3 :: c4 :: c5 :: c6 :: c7 :: s) pre.length
      (pre.length + 6)
      = some (pre ++ c6 :: c1 :: c2 :: c3 :: c4 :: c5 :: c0 :: c7 :: s) :=
    swap_append pre _ 0 6
  have h2 : swap (pre ++ c6 :: c1 :: c2 :: c3 :: c4 :: c5 :: c0 :: c7 :: s) (pre.length + 1)
      (pre.length + 7)
      = some (pre ++ c6 :: c7 :: c2 :: c3 :: c4 :: c5 :: c0 :: c1 :: s) :=
    swap_append pre _ 1 7
  have h3 : swap (pre ++ c6 :: c7 :: c2 :: c3 :: c4 :: c5 :: c0 :: c1 :: s) (pre.length + 2)
      (pre.length + 4)
      = some (pre ++ c6 :: c7 :: c4 :: c3 :: c2 :: c5 :: c0 :: c1 :: s) :=
    swap_append pre _ 2 4
  have h4 : swap (pre ++ c6 :: c7 :: c4 :: c3 :: c2 :: c5 :: c0 :: c1 :: s) (pre.length + 3)
      (pre.length + 5)
      = some (pre ++ c6 :: c7 :: c4 :: c5 :: c2 :: c3 :: c0 :: c1 :: s) :=
    swap_append pre _ 3 5
  rw [flipGroup, h1]
  show (swap _ _ _).bind _ = _
  rw [h2]
  show (swap _ _ _).bind _ = _
  rw [h3]
  exact h4

/-- A turn brings no terminator in. -/
theorem ne_zero_turn {pre s : List Byte} {c0 c1 c2 c3 c4 c5 c6 c7 : Byte}
    (h : ∀ c ∈ pre ++ c0 :: c1 :: c2 :: c3 :: c4 :: c5 :: c6 :: c7 :: s, c ≠ 0#8) :
    ∀ c ∈ (pre ++ [c6, c7, c4, c5, c2, c3, c0, c1]) ++ s, c ≠ 0#8 := by
  intro c hc
  refine h c ?_
  simp only [List.mem_append, List.mem_cons, List.not_mem_nil] at hc ⊢
  tauto

/-- The loop flips the words one by one, without leaving them. -/
theorem flips_words (rest s : List Byte) :
    ∀ pre : List Byte, (∀ c ∈ pre ++ s, c ≠ 0#8) → 8 ∣ s.length →
      ∃ touched, Flips (pre ++ (s ++ 0#8 :: rest)) pre.length touched
        (pre ++ (flipChunks s ++ 0#8 :: rest)) ∧
        ∀ a ∈ touched, a < pre.length + s.length := by
  induction s using flipChunks.induct with
  | case1 c0 c1 c2 c3 c4 c5 c6 c7 s ih =>
      intro pre hnul hdvd
      have hlt : pre.length < strlen (pre
          ++ (c0 :: c1 :: c2 :: c3 :: c4 :: c5 :: c6 :: c7 :: s ++ 0#8 :: rest)) := by
        rw [← List.append_assoc, strlen_terminated hnul, List.length_append]
        exact Nat.lt_add_of_pos_right (Nat.succ_pos _)
      obtain ⟨touched, hflips, hinside⟩ := ih (pre ++ [c6, c7, c4, c5, c2, c3, c0, c1])
        (ne_zero_turn hnul) ((Nat.dvd_add_left (Nat.dvd_refl 8)).mp hdvd)
      rw [List.append_assoc, List.append_assoc, List.length_append] at hflips
      refine ⟨_, .turn hlt (flipGroup_at pre _ c0 c1 c2 c3 c4 c5 c6 c7) hflips, ?_⟩
      intro a ha
      simp only [turnIndices, List.mem_append, List.mem_cons, List.not_mem_nil, or_false] at ha
      simp only [List.length_append, List.length_cons, List.length_nil] at hinside ⊢
      rcases ha with ha | ha
      · omega
      · have := hinside a ha
        omega
  | case2 s hs =>
      intro pre hnul hdvd
      -- fewer than eight characters, so none
      have hnil : s = [] := List.eq_nil_of_length_eq_zero
        (Nat.eq_zero_of_dvd_of_lt hdvd (rest_of_words hs))
      subst hnil
      rw [List.append_nil] at hnul
      exact ⟨[], .exit (Nat.le_of_eq (strlen_terminated hnul rest)),
        fun a ha => absurd ha List.not_mem_nil⟩

/-- **`endian_flip_32_bit_chunks` on a string of whole words.** -/
theorem endian_flip_spec {s : List Byte} (hnul : ∀ c ∈ s, c ≠ 0#8) (hdvd : 8 ∣ s.length) :
    endian_flip_32_bit_chunks (s ++ [0#8]) = some (flipChunks s ++ [0#8]) := by
  obtain ⟨touched, hflips, -⟩ := flips_words [] s [] hnul hdvd
  exact hflips.endian_flip

/-- Both digits of a byte decode to it. -/
theorem nibbles (val : Byte) :
    (nibbleFromChar (hexmap.getD (val >>> 4).toNat 0) <<< 4)
      ||| nibbleFromChar (hexmap.getD (val &&& 15).toNat 0) = val := by
  have hall : ∀ v : Fin (2 ^ 8), (nibbleFromChar (hexmap.getD (BitVec.ofFin v >>> 4).toNat 0) <<< 4)
      ||| nibbleFromChar (hexmap.getD (BitVec.ofFin v &&& 15).toNat 0) = BitVec.ofFin v := by
    decide +kernel
  exact hall val.toFin

/-- No digit is NUL. -/
theorem hexmap_ne_zero {n : Nat} (h : n < 16) : hexmap.getD n 0 ≠ 0#8 := by
  have hall : ∀ n : Fin 16, hexmap.getD n.val 0 ≠ 0#8 := by decide
  exact hall ⟨n, h⟩

/-- The digits are not the terminator. -/
theorem HexStr_ne_zero (bytes : List Byte) : ∀ c ∈ HexStr bytes, c ≠ 0#8 := by
  intro c hc
  obtain ⟨val, -, hval⟩ := List.mem_flatMap.mp hc
  have hhi : (val >>> 4).toNat < 16 := by
    rw [BitVec.toNat_ushiftRight, Nat.shiftRight_eq_div_pow]
    exact Nat.div_lt_of_lt_mul val.isLt
  have hlo : (val &&& 15).toNat < 16 := by
    rw [BitVec.toNat_and]
    exact Nat.lt_of_le_of_lt Nat.and_le_right (by decide)
  rcases List.mem_cons.mp hval with rfl | hval
  · exact hexmap_ne_zero hhi
  · obtain rfl := List.mem_singleton.mp hval
    exact hexmap_ne_zero hlo

/-- The digits of the first byte. -/
theorem HexStr_cons (val : Byte) (bytes : List Byte) :
    HexStr (val :: bytes) = hexmap.getD (val >>> 4).toNat 0 :: hexmap.getD (val &&& 15).toNat 0
      :: HexStr bytes := rfl

/-- Two digits for each byte. -/
theorem HexStr_length (bytes : List Byte) : (HexStr bytes).length = 2 * bytes.length := by
  induction bytes with
  | nil => rfl
  | cons val bytes ih =>
      rw [HexStr_cons, List.length_cons, List.length_cons, List.length_cons, ih]
      rfl

/-- The digits of bytes are decoded to them. -/
theorem decodeLoop_HexStr (bytes rest : List Byte) :
    decodeLoop bytes.length (HexStr bytes ++ rest) = bytes := by
  induction bytes with
  | nil => rfl
  | cons val bytes ih =>
      show ((nibbleFromChar (hexmap.getD (val >>> 4).toNat 0) <<< 4)
        ||| nibbleFromChar (hexmap.getD (val &&& 15).toNat 0))
          :: decodeLoop bytes.length (HexStr bytes ++ rest) = val :: bytes
      rw [nibbles, ih]

/-- **`hexStringToBytes` undoes `HexStr`.** -/
theorem hexStringToBytes_HexStr (bytes : List Byte) :
    hexStringToBytes (HexStr bytes ++ [0#8]) = bytes ++ [0#8] := by
  rw [hexStringToBytes, strlen_terminated (HexStr_ne_zero bytes), HexStr_length,
    Nat.mul_div_cancel_left _ (by decide), decodeLoop_HexStr]

/-- Flipping the digits of little-endian words gives those of big-endian words. -/
theorem flipChunks_words (words : List (BitVec 32)) :
    flipChunks (HexStr (words.flatMap littleEndian)) = HexStr (words.flatMap bigEndian) := by
  induction words with
  | nil => rfl
  | cons w words ih =>
      show _ :: _ :: _ :: _ :: _ :: _ :: _ :: _ :: flipChunks (HexStr (words.flatMap littleEndian))
        = _
      rw [ih]
      rfl

/-- Four bytes for each word. -/
theorem littleEndian_length (words : List (BitVec 32)) :
    (words.flatMap littleEndian).length = 4 * words.length := by
  induction words with
  | nil => rfl
  | cons w words ih =>
      rw [List.flatMap_cons, List.length_append, ih, List.length_cons]
      show 4 + 4 * words.length = 4 * (words.length + 1)
      omega

/-- **The two decoding steps give the words as big-endian bytes.** -/
theorem decode_words (words : List (BitVec 32)) :
    (endian_flip_32_bit_chunks (HexStr (words.flatMap littleEndian) ++ [0#8])).map hexStringToBytes
      = some (words.flatMap bigEndian ++ [0#8]) := by
  have hdvd : 8 ∣ (HexStr (words.flatMap littleEndian)).length := by
    rw [HexStr_length, littleEndian_length, ← Nat.mul_assoc]
    exact Nat.dvd_mul_right _ _
  rw [endian_flip_spec (HexStr_ne_zero _) hdvd, flipChunks_words, Option.map_some,
    hexStringToBytes_HexStr]

/-- Byte `b` of word `q` of a big-endian buffer. -/
theorem bigEndian_getElem (words : List (BitVec 32)) (rest : List Byte) :
    ∀ {q b : Nat}, b < 4 → ∀ w, words[q]? = some w →
      (words.flatMap bigEndian ++ rest)[4 * q + b]? = some (w.extractLsb' (8 * (3 - b)) 8) := by
  induction words with
  | nil =>
      intro q b _ w hw
      exact nomatch hw
  | cons v words ih =>
      intro q b hb w hw
      cases q with
      | zero =>
          obtain rfl : v = w := Option.some.inj hw
          match b, hb with
          | 0, _ | 1, _ | 2, _ | 3, _ => rfl
      | succ q =>
          have hnext := ih (q := q) hb w hw
          rw [show 4 * (q + 1) + b = (4 * q + b) + 4 by omega]
          exact hnext

/-! ## What reaches the bus -/

/-- The digits that are written fit into a byte. -/
theorem digit_le {i : Nat} (hi : i ≤ 96) : (BitVec.ofNat 8 i).toNat ≤ 96 := by
  rw [BitVec.toNat_ofNat]
  exact Nat.le_trans (Nat.mod_le _ _) hi

/-- The digits of the loop: those up to 96, the first one that is rejected, and two more. -/
theorem range_DATA_SIZE : List.range DATA_SIZE = List.range 97 ++ 97 :: [98, 99] := by decide

/-- No digit is past the last one. -/
theorem le_of_mem_range : ∀ i ∈ List.range 97, i ≤ 96 :=
  fun _ hi => Nat.le_of_lt_succ (List.mem_range.mp hi)

/-- The digits up to 96 are written, and the next one ends the loop. -/
theorem writeLoop_eq (segs : Int → Byte) (is rest : List Nat) :
    ∀ dev : Dev, (∀ i ∈ is, i ≤ 96) → writeLoop segs dev (is ++ 97 :: rest)
      = is.map (fun i => (BitVec.ofNat 8 i, segs (95 - i))) := by
  induction is with
  | nil =>
      intro dev _
      rw [List.nil_append, writeLoop, write_rejected dev (show 96 < (97#8).toNat by decide)]
      rfl
  | cons i is ih =>
      intro dev his
      have hdigit := digit_le (his i List.mem_cons_self)
      rw [List.cons_append, writeLoop, write_accepted dev hdigit]
      show (BitVec.ofNat 8 i, segs (95 - i)) :: writeLoop segs _ (is ++ 97 :: rest) = _
      rw [ih _ (fun j hj => his j (List.mem_cons_of_mem i hj))]
      rfl

/-- **`write_segments` writes the bytes 95, 94, ..., 0 and the one before them** to the
    addresses 0, ..., 96. -/
theorem write_segments_writes (dev : Dev) (segs : Int → Byte) :
    write_segments dev segs
      = (List.range 97).map (fun i => (BitVec.ofNat 8 i, segs (95 - i))) := by
  rw [write_segments, range_DATA_SIZE]
  exact writeLoop_eq segs _ _ dev le_of_mem_range

variable {l : Fin 6}

/-- Outside the loading state, writes to address 96 leave the header alone. -/
theorem header_after_load {s : Miner l} (hs : s.start = false) (hl : s.loading = false)
    {trace : List Bus} (h : ∀ i ∈ trace, startWrite i = false) :
    (trace.foldl (miner_top l) s).header_buffer = s.header_buffer := by
  induction trace generalizing s with
  | nil => rfl
  | cons i trace ih =>
      obtain ⟨hkept, hl'⟩ := header_kept i hs hl
      have hs' : (miner_top l s i).start = false :=
        (start_step hs hl).trans (h i List.mem_cons_self)
      rw [List.foldl_cons, ih hs' hl' (fun j hj => h j (List.mem_cons_of_mem i hj)), hkept]

/-- Only the writes of a trace decide what the last write to an address is. -/
theorem lastWrite_filter (k : Nat) (trace : List Bus) :
    lastWrite k (trace.filter busWrite) = lastWrite k trace := by
  induction trace with
  | nil => rfl
  | cons i trace ih =>
      cases hw : busWrite i with
      | true => rw [List.filter_cons_of_pos hw, lastWrite, lastWrite, ih]
      | false =>
          rw [List.filter_cons_of_neg (by rw [hw]; decide), lastWrite, ih, if_neg, Option.or_none]
          rintro ⟨hw', -⟩
          cases hw.symm.trans hw'

/-- The last write of two traces. -/
theorem lastWrite_append (k : Nat) (a b : List Bus) :
    lastWrite k (a ++ b) = (lastWrite k b).or (lastWrite k a) := by
  induction a with
  | nil => exact Option.or_none.symm
  | cons i a ih => rw [List.cons_append, lastWrite, lastWrite, ih, Option.or_assoc]

/-- The write of address `k` in an upward sweep of the addresses below `n`. -/
theorem lastWrite_sweep (f : Nat → Byte) {k n : Nat} (hk : k < n) (hn : n ≤ 256) :
    lastWrite k ((List.range n).map (fun i => put (BitVec.ofNat 8 i) (f i))) = some (f k) := by
  induction n with
  | zero => exact absurd hk (Nat.not_lt_zero k)
  | succ n ih =>
      have hsingle : lastWrite k [put (BitVec.ofNat 8 n) (f n)]
          = if n = k then some (f n) else none := by
        have haddr : (BitVec.ofNat 8 n).toNat = n := by
          rw [BitVec.toNat_ofNat]
          exact Nat.mod_eq_of_lt (by omega)
        show Option.or none (if true = true ∧ (BitVec.ofNat 8 n).toNat = k then _ else none) = _
        rw [haddr, Option.none_or]
        simp only [true_and]
        rfl
      rw [List.range_succ, List.map_append, lastWrite_append]
      show (lastWrite k [put (BitVec.ofNat 8 n) (f n)]).or _ = _
      rw [hsingle]
      rcases Nat.lt_succ_iff_lt_or_eq.mp hk with hlt | rfl
      · rw [if_neg (Nat.ne_of_gt hlt), Option.none_or, ih hlt (Nat.le_of_succ_le hn)]
      · rw [if_pos rfl, Option.some_or]

/-- **What a sweep of writes leaves in a loading miner.** -/
theorem header_of_writes {s : Miner l} (hf : Flags s) (hl : s.loading = true) (f : Nat → Byte)
    {trace : List Bus} (h : trace.filter busWrite
      = (List.range 97).map (fun i => put (BitVec.ofNat 8 i) (f i))) :
    ∀ k, k < 96 → byte (trace.foldl (miner_top l) s).header_buffer k = f k := by
  have hrange : List.range 97 = List.range 95 ++ [95, 96] := by decide
  rw [hrange, List.map_append] at h
  obtain ⟨body, rest, rfl, hbody, hrest⟩ := List.filter_eq_append_iff.mp h
  obtain ⟨gap, tail, rfl, hgap, -, htail⟩ := List.filter_eq_cons_iff.mp hrest
  -- the bytes below 95
  have hlow : ∀ i ∈ body ++ gap, busWrite i = true → i.address ≠ 95#8 := by
    intro i hi hw
    rcases List.mem_append.mp hi with hi | hi
    · have hmem : i ∈ body.filter busWrite := List.mem_filter.mpr ⟨hi, hw⟩
      rw [hbody] at hmem
      obtain ⟨n, hn, rfl⟩ := List.mem_map.mp hmem
      have hlt := List.mem_range.mp hn
      show BitVec.ofNat 8 n ≠ 95#8
      intro heq
      have hnat := congrArg BitVec.toNat heq
      rw [BitVec.toNat_ofNat, Nat.mod_eq_of_lt (by omega)] at hnat
      exact absurd hnat (Nat.ne_of_lt hlt)
    · exact absurd hw (hgap i hi)
  have hsweep : ∀ k, k < 95 → lastWrite k (body ++ gap) = some (f k) := by
    intro k hk
    have hquiet : gap.filter busWrite = [] := List.filter_eq_nil_iff.mpr hgap
    rw [← lastWrite_filter, List.filter_append, hquiet, List.append_nil, hbody]
    exact lastWrite_sweep f hk (by decide)
  -- the last byte, and nothing after it
  obtain ⟨hbytes, hl', -, hs'⟩ := load_completed hl hlow hsweep
    (put (BitVec.ofNat 8 95) (f 95)) ⟨rfl, rfl, rfl⟩
  rw [(flags_foldl hf (body ++ gap)).start_of_loading (loading_bytes hl hlow).1] at hs'
  have hafter : ∀ i ∈ tail, startWrite i = false := by
    intro i hi
    cases hw : busWrite i with
    | false =>
        rw [startWrite, hw]
        rfl
    | true =>
        have hmem : i ∈ tail.filter busWrite := List.mem_filter.mpr ⟨hi, hw⟩
        rw [htail] at hmem
        obtain rfl := List.mem_singleton.mp hmem
        rfl
  intro k hk
  have hfold : (body ++ (gap ++ put (BitVec.ofNat 8 95) (f 95) :: tail)).foldl (miner_top l) s
      = tail.foldl (miner_top l) (miner_top l ((body ++ gap).foldl (miner_top l) s)
          (put (BitVec.ofNat 8 95) (f 95))) := by
    rw [← List.append_assoc, List.foldl_append]
    rfl
  show byte (((body ++ (gap ++ put (BitVec.ofNat 8 95) (f 95) :: tail)).foldl
    (miner_top l) s).header_buffer) k = f k
  rw [hfold, header_after_load hs' hl' hafter, hbytes k hk]

/-! ## The layout -/

/-- The words `f 0, ..., f (n - 1)` as bitcoind prints them. -/
def wordString (f : Nat → BitVec 32) (n : Nat) : List Byte :=
  HexStr (((List.range n).map f).flatMap littleEndian) ++ [0#8]

/-- Word `j` of the layout the cores hash: the midstate, then the second block. -/
def layoutWord (H W : Nat → BitVec 32) (j : Nat) : BitVec 32 := if j < 8 then H j else W (j + 8)

/-- The header register holds the midstate `H` and words 16 to 31 of the data `W`. -/
def HasLayout (h : BitVec 768) (H W : Nat → BitVec 32) : Prop :=
  ∀ j, j < 24 → h.extractLsb' (32 * j) 32 = layoutWord H W j

instance (h : BitVec 768) (H W : Nat → BitVec 32) : Decidable (HasLayout h H W) :=
  inferInstanceAs (Decidable (∀ j, j < 24 → _))

/-- The byte of the header register at an address, from the words of the reply. -/
def layoutByte (H W : Nat → BitVec 32) (k : Nat) : Byte :=
  (layoutWord H W (k / 4)).extractLsb' (8 * (k % 4)) 8

/-- The words that get into the buffer are those the layout has at the other end, and
    the memory behind the buffer holds the rest of the layout. -/
def Coincides (sizeof_ptr : Nat) (H W : Nat → BitVec 32) (around : Int → Byte) : Prop :=
  (∀ q, 4 * q < sizeof_ptr → H q = W (31 - q)) ∧
  (∀ q, 4 * q < sizeof_ptr → W q = W (31 - sizeof_ptr / 4 - q)) ∧
  ∀ m : Nat, 2 * sizeof_ptr ≤ m → m < 96 → around m = layoutByte H W (95 - m)

/-- A word is the sequence of its bytes. -/
theorem word_eq_iff {v w : BitVec 32} :
    v = w ↔ ∀ b, b < 4 → v.extractLsb' (8 * (3 - b)) 8 = w.extractLsb' (8 * (3 - b)) 8 := by
  constructor
  · rintro rfl b _
    rfl
  · intro h
    refine eq_of_slices (w := 8) (by decide) (fun k hk => ?_)
    have hb := h (3 - k) (by omega)
    rw [show 3 - (3 - k) = k by omega] at hb
    exact hb

/-- The layout, byte by byte. -/
theorem hasLayout_iff (h : BitVec 768) (H W : Nat → BitVec 32) :
    HasLayout h H W ↔ ∀ k, k < 96 → byte h k = layoutByte H W k := by
  constructor
  · intro hlayout k hk
    rw [layoutByte, ← hlayout (k / 4) (by omega), extract_extract _ (by omega), byte]
    congr 1
    omega
  · intro hbytes j hj
    rw [word_eq_iff]
    intro b hb
    have hk := hbytes (4 * j + (3 - b)) (by omega)
    rw [layoutByte, show (4 * j + (3 - b)) / 4 = j by omega,
      show (4 * j + (3 - b)) % 4 = 3 - b by omega] at hk
    rw [extract_extract _ (by omega), ← hk, byte]
    congr 1
    omega

/-- The bytes the end of the layout needs. -/
theorem layoutByte_end (H W : Nat → BitVec 32) {r b : Nat} (hr : r < 16) (hb : b < 4) :
    layoutByte H W (95 - (4 * r + b)) = (W (31 - r)).extractLsb' (8 * (3 - b)) 8 := by
  rw [layoutByte, show (95 - (4 * r + b)) / 4 = 23 - r by omega,
    show (95 - (4 * r + b)) % 4 = 3 - b by omega, layoutWord, if_neg (by omega),
    show 23 - r + 8 = 31 - r by omega]

/-- Byte `b` of word `q` of one of the two results. -/
theorem result_getElem (f : Nat → BitVec 32) {n q b : Nat} (hq : q < n) (hb : b < 4) :
    (((List.range n).map f).flatMap bigEndian ++ [0#8])[4 * q + b]?
      = some ((f q).extractLsb' (8 * (3 - b)) 8) := by
  refine bigEndian_getElem _ _ hb (f q) ?_
  rw [List.getElem?_map, List.getElem?_range hq]
  rfl

section Buffer

variable {sizeof_ptr : Nat} (hp : sizeof_ptr = 4 ∨ sizeof_ptr = 8) (H W : Nat → BitVec 32)
  (around : Int → Byte)

/-- `header_buffer` after the two `memcpy`. -/
def filledBuffer (sizeof_ptr : Nat) (H W : Nat → BitVec 32) : List Byte :=
  headerBuffer sizeof_ptr (((List.range 8).map H).flatMap bigEndian ++ [0#8])
    (((List.range 32).map W).flatMap bigEndian ++ [0#8])

include hp in

/-- The buffer has the size of two pointers. -/
theorem filledBuffer_length : (filledBuffer sizeof_ptr H W).length = 2 * sizeof_ptr := by
  rcases hp with rfl | rfl <;> rfl

include hp in
/-- The first `memcpy` has enough to copy. -/
theorem take_length : ((((List.range 8).map H).flatMap bigEndian ++ [0#8]).take sizeof_ptr).length
    = sizeof_ptr := by
  rcases hp with rfl | rfl <;> rfl

include hp in
/-- The first half of the buffer is the beginning of the midstate. -/
theorem filledBuffer_midstate {q b : Nat} (hq : 4 * q < sizeof_ptr) (hb : b < 4) :
    readMemory (filledBuffer sizeof_ptr H W) around ((4 * q + b : Nat) : Int)
      = (H q).extractLsb' (8 * (3 - b)) 8 := by
  have hlt : 4 * q + b < sizeof_ptr := by omega
  have hget : (filledBuffer sizeof_ptr H W)[4 * q + b]?
      = some ((H q).extractLsb' (8 * (3 - b)) 8) := by
    rw [filledBuffer, headerBuffer, List.getElem?_append_left (by rw [take_length hp H]; exact hlt),
      List.getElem?_take_of_lt hlt, result_getElem H (by omega) hb]
  show (filledBuffer sizeof_ptr H W).getD (4 * q + b) _ = _
  rw [List.getD_eq_getElem?_getD, hget]
  rfl

include hp in
/-- The second half is the beginning of the data. -/
theorem filledBuffer_data {q b : Nat} (hq : 4 * q < sizeof_ptr) (hb : b < 4) :
    readMemory (filledBuffer sizeof_ptr H W) around
        ((4 * (sizeof_ptr / 4 + q) + b : Nat) : Int)
      = (W q).extractLsb' (8 * (3 - b)) 8 := by
  have hlt : 4 * q + b < sizeof_ptr := by omega
  have hindex : 4 * (sizeof_ptr / 4 + q) + b = sizeof_ptr + (4 * q + b) := by omega
  have hget : (filledBuffer sizeof_ptr H W)[sizeof_ptr + (4 * q + b)]?
      = some ((W q).extractLsb' (8 * (3 - b)) 8) := by
    rw [filledBuffer, headerBuffer,
      List.getElem?_append_right (by rw [take_length hp H]; exact Nat.le_add_right _ _),
      take_length hp H,
      Nat.add_sub_cancel_left, List.getElem?_take_of_lt hlt, result_getElem W (by omega) hb]
  rw [hindex]
  show (filledBuffer sizeof_ptr H W).getD (sizeof_ptr + (4 * q + b)) _ = _
  rw [List.getD_eq_getElem?_getD, hget]
  rfl

include hp in
/-- Behind the buffer is the memory around it. -/
theorem filledBuffer_around {m : Nat} (hm : 2 * sizeof_ptr ≤ m) :
    readMemory (filledBuffer sizeof_ptr H W) around (m : Int) = around m := by
  have hnone : (filledBuffer sizeof_ptr H W)[m]? = none := by
    refine List.getElem?_eq_none ?_
    rw [filledBuffer_length hp]
    exact hm
  show (filledBuffer sizeof_ptr H W).getD m _ = _
  rw [List.getD_eq_getElem?_getD, hnone]
  rfl

include hp in
/-- **The bytes sent are those of the layout exactly in case of the coincidence.** -/
theorem buffer_layout_iff :
    (∀ m : Nat, m < 96 → readMemory (filledBuffer sizeof_ptr H W) around (m : Int)
      = layoutByte H W (95 - m)) ↔ Coincides sizeof_ptr H W around := by
  have hp4 : 4 * (sizeof_ptr / 4) = sizeof_ptr := by omega
  constructor
  · intro h
    refine ⟨fun q hq => ?_, fun q hq => ?_, fun m h1 h2 => ?_⟩
    · rw [word_eq_iff]
      intro b hb
      rw [← filledBuffer_midstate hp H W around hq hb, h _ (by omega),
        layoutByte_end H W (by omega) hb]
    · rw [word_eq_iff]
      intro b hb
      rw [← filledBuffer_data hp H W around hq hb, h _ (by omega),
        layoutByte_end H W (by omega) hb, Nat.sub_add_eq]
    · rw [← filledBuffer_around hp H W around h1, h m h2]
  · rintro ⟨hmid, hdata, haround⟩ m hm
    rcases Nat.lt_or_ge m sizeof_ptr with h1 | h1
    · have hsplit : m = 4 * (m / 4) + m % 4 := by omega
      have hq : 4 * (m / 4) < sizeof_ptr := by omega
      have hb : m % 4 < 4 := Nat.mod_lt m (by decide)
      rw [hsplit, filledBuffer_midstate hp H W around hq hb,
        layoutByte_end H W (by omega) hb, hmid _ hq]
    · rcases Nat.lt_or_ge m (2 * sizeof_ptr) with h2 | h2
      · obtain ⟨q, hq⟩ : ∃ q, q = m / 4 - sizeof_ptr / 4 := ⟨_, rfl⟩
        have hsplit : m = 4 * (sizeof_ptr / 4 + q) + m % 4 := by omega
        have hq : 4 * q < sizeof_ptr := by omega
        have hb : m % 4 < 4 := Nat.mod_lt m (by decide)
        rw [hsplit, filledBuffer_data hp H W around hq hb,
          layoutByte_end H W (by omega) hb, hdata _ hq, Nat.sub_add_eq]
      · rw [filledBuffer_around hp H W around h2, haround m h2 hm]

end Buffer

/-- What `request_work` sends for the strings of bitcoind. -/
theorem request_work_writes (sizeof_ptr : Nat) (dev : Dev) (around : Int → Byte)
    (H W : Nat → BitVec 32) :
    request_work sizeof_ptr dev around (wordString W 32) (wordString H 8)
      = some ((List.range 97).map (fun i => (BitVec.ofNat 8 i,
          readMemory (filledBuffer sizeof_ptr H W) around (95 - i)))) := by
  obtain ⟨d, hd, hdb⟩ := Option.map_eq_some_iff.mp (decode_words ((List.range 32).map W))
  obtain ⟨m, hm, hmb⟩ := Option.map_eq_some_iff.mp (decode_words ((List.range 8).map H))
  rw [request_work, wordString, wordString, hd, hm]
  show some (write_segments dev (readMemory (headerBuffer sizeof_ptr (hexStringToBytes m)
    (hexStringToBytes d)) around)) = _
  rw [hdb, hmb, write_segments_writes]
  rfl

/-- **When fetched work reaches the header register in the layout that is hashed.** -/
theorem layout_iff (l : Fin 6) (sizeof_ptr : Nat) (hp : sizeof_ptr = 4 ∨ sizeof_ptr = 8)
    (dev : Dev) (around : Int → Byte) (H W : Nat → BitVec 32)
    (s : Miner l) (hs : Reachable PowerUp (miner_top l) s) (hl : s.loading = true)
    (writes : List (Byte × Byte))
    (hsent : request_work sizeof_ptr dev around (wordString W 32) (wordString H 8) = some writes)
    (trace : List Bus) (hbus : trace.filter busWrite = writes.map (fun w => put w.1 w.2)) :
    HasLayout (trace.foldl (miner_top l) s).header_buffer H W
      ↔ Coincides sizeof_ptr H W around := by
  obtain rfl := Option.some.inj ((request_work_writes sizeof_ptr dev around H W).symm.trans hsent)
  rw [List.map_map] at hbus
  have hbytes := header_of_writes (reachable_flags hs) hl
    (fun i => readMemory (filledBuffer sizeof_ptr H W) around (95 - i)) hbus
  rw [hasLayout_iff, ← buffer_layout_iff hp H W around]
  constructor
  · intro h m hm
    have hk := h (95 - m) (by omega)
    have hindex : (95 : Int) - (95 - m : Nat) = (m : Int) := by omega
    rw [hbytes _ (by omega), hindex] at hk
    exact hk
  · intro h k hk
    have hm := h (95 - k) (by omega)
    have hindex : ((95 - k : Nat) : Int) = 95 - (k : Int) := by omega
    rw [hindex, show 95 - (95 - k) = k by omega] at hm
    rw [hbytes k hk]
    exact hm

/-! ## The reply quoted in the source -/

/-- The midstate words of the reply in the comment of `request_work`. -/
def quotedMidstate (j : Nat) : BitVec 32 :=
  [
    0xda9abc49, 0x436bba38, 0x75324a81, 0xb709faed, 0x0870be96, 0x1d645c0d,
    0x7607b832, 0x783ff1ae].getD j 0

/-- Its data words. -/
def quotedData (j : Nat) : BitVec 32 :=
  [
    0x02000000, 0x4c57399b, 0x5ec2a5b8, 0x44d8cd94, 0x42b9d3f7, 0x5ff64a38,
    0xa0d564b2, 0x00000000, 0x00000000, 0x3c35db8a, 0x7ce04f75, 0x28173440,
    0xe3e6efc5, 0x4e992d78, 0xb4bc3e0e, 0xde069187, 0xb01ddd94, 0x462c3b53,
    0x99db0019, 0x00000000, 0x80000000, 0x00000000, 0x00000000, 0x00000000,
    0x00000000, 0x00000000, 0x00000000, 0x00000000, 0x00000000, 0x00000000,
    0x00000000, 0x00000280].getD j 0

example : wordString quotedMidstate 8
    = "49bc9ada38ba6b43814a3275edfa09b796be70080d5c641d32b80776aef13f78".toList.map chr ++ [0#8] := by
  decide +kernel

/-- A device whose segments are all zero. -/
def clearedDev : Dev where
  segments := List.replicate DATA_SIZE 0
  size := List.length_replicate

/-- A miner that has entered the loading state. -/
def loadingMiner (l : Fin 6) : Miner l := [put 102 1, idle].foldl (miner_top l) (poweredMiner l)

/-- A miner can be waiting for a load. -/
theorem reachable_loadingMiner (l : Fin 6) : Reachable PowerUp (miner_top l) (loadingMiner l) :=
  .step idle (.step (put 102 1) (.init (powerUp_poweredMiner l)))

/-- What is sent for the quoted reply from a memory of zeros. -/
def quotedWrites : List (Byte × Byte) :=
  (List.range 97).map (fun i => (BitVec.ofNat 8 i,
    readMemory (filledBuffer 8 quotedMidstate quotedData) (fun _ => 0) (95 - i)))

/-- **The quoted reply is scrambled**: the first midstate word arrives where the last
    data word belongs. -/
theorem quoted_reply_scrambled :
    Reachable PowerUp (miner_top 5) (loadingMiner 5) ∧ (loadingMiner 5).loading = true ∧
    request_work 8 clearedDev (fun _ => 0) (wordString quotedData 32)
      (wordString quotedMidstate 8) = some quotedWrites ∧
    ¬ HasLayout ((quotedWrites.map (fun w => put w.1 w.2)).foldl (miner_top 5)
      (loadingMiner 5)).header_buffer quotedMidstate quotedData := by
  refine ⟨reachable_loadingMiner 5, by decide +kernel, request_work_writes _ _ _ _ _, fun h => ?_⟩
  have hlast := h 23 (by decide)
  revert hlast
  decide +kernel

/-- Midstate words and data words that coincide where they have to. -/
def matchingMidstate (j : Nat) : BitVec 32 := if j = 0 then 0x280 else BitVec.ofNat 32 j

/-- The data of a reply which arrives at the device as the miner wants it. -/
def matchingData (j : Nat) : BitVec 32 :=
  if j = 31 then 0x280 else if j = 0 ∨ j = 30 then 0 else BitVec.ofNat 32 j

/-- A memory that happens to hold the rest of the layout. -/
def matchingMemory (k : Int) : Byte := layoutByte matchingMidstate matchingData (95 - k.toNat)

/-- What the bus carries while this reply is loaded. -/
def matchingTrace : List Bus :=
  (List.range 97).map (fun i => put (BitVec.ofNat 8 i)
    (readMemory (filledBuffer 4 matchingMidstate matchingData) matchingMemory (95 - i)))

theorem layout_matching :
    HasLayout (matchingTrace.foldl (miner_top 5) (loadingMiner 5)).header_buffer
      matchingMidstate matchingData := by
  have hwrites : ∀ i ∈ matchingTrace, busWrite i = true := by
    intro i hi
    obtain ⟨n, -, rfl⟩ := List.mem_map.mp hi
    rfl
  have hl : (loadingMiner 5).loading = true := by decide +kernel
  refine (layout_iff 5 4 (.inl rfl) clearedDev matchingMemory matchingMidstate matchingData
    (loadingMiner 5) (reachable_loadingMiner 5) hl _ (request_work_writes _ _ _ _ _)
    matchingTrace ?_).mpr ⟨fun q hq => ?_, fun q hq => ?_, fun m _ _ => ?_⟩
  · rw [List.filter_eq_self.mpr hwrites, List.map_map]
    rfl
  · rw [show q = 0 by omega]
    rfl
  · rw [show q = 0 by omega]
    rfl
  · rw [matchingMemory, Int.toNat_natCast]

end Getwork
