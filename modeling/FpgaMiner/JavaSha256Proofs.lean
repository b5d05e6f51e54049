import FpgaMiner.Sha256HashProofs

/-! # The Java SHA-256

    `Main.sha256` of `Main.java`, which hashes a message given as a string of the
    characters `0` and `1` and keeps the message schedule as binary strings too: each
    entry is printed by `Integer.toBinaryString` without leading zeros and parsed again
    by `Long.parseLong` whenever it is used.

    * **`parseInt_toBinaryString`** — an entry survives that;
    * **`getExpBlocks_ok`** — the schedule, by induction over its entries;
    * **`mainBlock_ok`** and **`sha256_hash`** — one block, and the whole message.

    Both loops that may throw are followed by `foldlM_range_ok`. -/

namespace JavaSha256

open DigitString Sha256

/-! ## The language -/

/-- What the methods of the class may throw. -/
inductive JavaException where
  | NumberFormatException
  | StringIndexOutOfBoundsException

/-- A call that returns or throws. -/
abbrev Java := Except JavaException

/-- `s.substring(begin, end)` -/
def substring (s : List Char) (b e : Nat) : Java (List Char) :=
  if b ≤ e ∧ e ≤ s.length then .ok ((s.drop b).take (e - b))
  else .error .StringIndexOutOfBoundsException

/-- `Long.parseLong(s, 2)`: an optional sign and at least one ASCII binary digit, in
    the range of `long`. -/
def parseLong (s : List Char) : Java (BitVec 64) :=
  let negative := s.head? = some '-'
  let ds := if s.head? = some '-' ∨ s.head? = some '+' then s.tail else s
  if ds ≠ [] ∧ ds.all (fun c => c = '0' ∨ c = '1') then
    let n := Nat.ofDigitChars 2 ds 0
    if negative then
      if n ≤ 2 ^ 63 then .ok (-(BitVec.ofNat 64 n)) else .error .NumberFormatException
    else if n < 2 ^ 63 then .ok (BitVec.ofNat 64 n) else .error .NumberFormatException
  else .error .NumberFormatException

/-- `(int) Long.parseLong(s, 2)` -/
def parseInt (s : List Char) : Java Word := do
  let x ← parseLong s
  return x.setWidth 32

/-- `Integer.toBinaryString` and `Long.toBinaryString`. -/
def toBinaryString {w : Nat} (x : BitVec w) : List Char := Nat.toDigits 2 x.toNat

/-- `String.format("%08x", x)` -/
def format08x (x : Word) : List Char :=
  List.replicate (8 - (Nat.toDigits 16 x.toNat).length) '0' ++ Nat.toDigits 16 x.toNat

/-! ## `Main` -/

/-- `H0`, ..., `H7` -/
def H : Vars where
  a := 0x6a09e667
  b := 0xbb67ae85
  c := 0x3c6ef372
  d := 0xa54ff53a
  e := 0x510e527f
  f := 0x9b05688c
  g := 0x1f83d9ab
  h := 0x5be0cd19

/-- The round constants. -/
def K : List Word := [
  0x428a2f98, 0x71374491, 0xb5c0fbcf, 0xe9b5dba5, 0x3956c25b, 0x59f111f1, 0x923f82a4, 0xab1c5ed5,
  0xd807aa98, 0x12835b01, 0x243185be, 0x550c7dc3, 0x72be5d74, 0x80deb1fe, 0x9bdc06a7, 0xc19bf174,
  0xe49b69c1, 0xefbe4786, 0x0fc19dc6, 0x240ca1cc, 0x2de92c6f, 0x4a7484aa, 0x5cb0a9dc, 0x76f988da,
  0x983e5152, 0xa831c66d, 0xb00327c8, 0xbf597fc7, 0xc6e00bf3, 0xd5a79147, 0x06ca6351, 0x14292967,
  0x27b70a85, 0x2e1b2138, 0x4d2c6dfc, 0x53380d13, 0x650a7354, 0x766a0abb, 0x81c2c92e, 0x92722c85,
  0xa2bfe8a1, 0xa81a664b, 0xc24b8b70, 0xc76c51a3, 0xd192e819, 0xd6990624, 0xf40e3585, 0x106aa070,
  0x19a4c116, 0x1e376c08, 0x2748774c, 0x34b0bcb5, 0x391c0cb3, 0x4ed8aa4a, 0x5b9cca4f, 0x682e6ff3,
  0x748f82ee, 0x78a5636f, 0x84c87814, 0x8cc70208, 0x90befffa, 0xa4506ceb, 0xbef9a3f7, 0xc67178f2]

/-- A rotation to the right, of `n` between 1 and 31. -/
def sn (x : Word) (n : Nat) : Word := (x >>> n) ||| (x <<< (32 - n))

/-- Each bit of `x` chooses one of `y` or `z`. -/
def ch (x y z : Word) : Word := (x &&& y) ^^^ (~~~x &&& z)

/-- Each bit is the one that most of the three have. -/
def maj (x y z : Word) : Word := (x &&& y) ^^^ (x &&& z) ^^^ (y &&& z)

/-- `SIG0`, on the working variable `a`. -/
def SIG0 (x : Word) : Word := sn x 2 ^^^ sn x 13 ^^^ sn x 22

/-- `SIG1`, on the working variable `e`. -/
def SIG1 (x : Word) : Word := sn x 6 ^^^ sn x 11 ^^^ sn x 25

/-- `sig0`, in the schedule. -/
def sig0 (x : Word) : Word := sn x 7 ^^^ sn x 18 ^^^ (x >>> 3)

/-- `sig1`, in the schedule. -/
def sig1 (x : Word) : Word := sn x 17 ^^^ sn x 19 ^^^ (x >>> 10)

/-- `n` zeros behind a string. -/
def padRight (s : List Char) (n : Nat) : List Char := s ++ List.replicate n '0'

/-- A length as 64 digits. -/
def lenTo64bit (length : BitVec 64) : List Char :=
  let s := toBinaryString length
  if 64 ≤ s.length then s else List.replicate (64 - s.length) '0' ++ s

/-- The loop adds `msg.substring(i, i+512)` for `i = 0, 512, ...` below the length. -/
def parseMsg512 (msg : List Char) : Java (List (List Char)) :=
  (List.range ((msg.length + 511) / 512)).mapM (fun n => substring msg (512 * n) (512 * n + 512))

/-- Entry `j` of `W`, from 16 on. -/
def expand (W : List (List Char)) (j : Nat) : Java (List (List Char)) := do
  let t1 := sig1 (← parseInt (W.getD (j - 2) []))
  let t2 ← parseInt (W.getD (j - 7) [])
  let t3 := sig0 (← parseInt (W.getD (j - 15) []))
  let t4 ← parseInt (W.getD (j - 16) [])
  return W ++ [toBinaryString (t1 + t2 + t3 + t4)]

/-- The words of a block and the 48 that are made from them. -/
def getExpBlocks (mi : List Char) : Java (List (List Char)) := do
  let W ← (List.range 16).mapM (fun j => substring mi (32 * j) (32 * j + 32))
  (List.range 48).foldlM (fun W j => expand W (j + 16)) W

/-- The body of the inner loop of `sha256` on `a, ..., h`. -/
def mainRound (W : List (List Char)) (v : Vars) (j : Nat) : Java Vars := do
  let tmp1 := v.h + SIG1 v.e + ch v.e v.f v.g + K.getD j 0 + (← parseInt (W.getD j []))
  let tmp2 := SIG0 v.a + maj v.a v.b v.c
  return ⟨tmp1 + tmp2, v.a, v.b, v.c, v.d + tmp1, v.e, v.f, v.g⟩

/-- The body of the main loop of `sha256` on `h0, ..., h7`. -/
def mainBlock (h : Vars) (mi : List Char) : Java Vars := do
  let W ← getExpBlocks mi
  let v ← (List.range 64).foldlM (mainRound W) h
  return h.add v

/-- The padding at the beginning of `sha256`. -/
def padded (msg : List Char) : List Char :=
  let msgTmp := msg ++ ['1']
  let diff : Int := 448 - ((msgTmp.length % 512 : Nat) : Int)
  let diff := if diff < 0 then 512 + diff else diff
  padRight msgTmp diff.toNat ++ lenTo64bit (BitVec.ofNat 64 msg.length)

/-- The digits of the hash of a string of binary digits. -/
def sha256 (msg : List Char) : Java (List Char) := do
  let M ← parseMsg512 (padded msg)
  let h ← M.foldlM mainBlock H
  return format08x h.a ++ format08x h.b ++ format08x h.c ++ format08x h.d
    ++ format08x h.e ++ format08x h.f ++ format08x h.g ++ format08x h.h

/-! ## Loops that do not throw -/

section Loops

variable {σ α β ε : Type}

/-- A loop whose turns return returns. -/
theorem foldlM_range_ok {f : σ → Nat → Except ε σ} {g : Nat → σ} (n : Nat)
    (hstep : ∀ j, j < n → f (g j) j = .ok (g (j + 1))) :
    (List.range n).foldlM f (g 0) = .ok (g n) := by
  induction n with
  | zero => rfl
  | succ n ih =>
      rw [List.range_succ, List.foldlM_append, ih (fun j hj => hstep j (Nat.lt_succ_of_lt hj))]
      show (List.foldlM f (g n) [n]) = _
      rw [List.foldlM_cons, hstep n (Nat.lt_succ_self n)]
      rfl

/-- And so does a loop that collects. -/
theorem mapM_ok {f : α → Except ε β} {g : α → β} {xs : List α} (h : ∀ x ∈ xs, f x = .ok (g x)) :
    xs.mapM f = .ok (xs.map g) := by
  induction xs with
  | nil => rfl
  | cons x xs ih =>
      rw [List.mapM_cons, h x List.mem_cons_self,
        ih (fun y hy => h y (List.mem_cons_of_mem x hy))]
      rfl

end Loops

/-! ## Binary strings -/

/-- A substring inside a string. -/
theorem substring_ok {s : List Char} {b k : Nat} (h : b + k ≤ s.length) :
    substring s b (b + k) = .ok ((s.drop b).take k) := by
  rw [substring, if_pos ⟨Nat.le_add_right _ _, h⟩, Nat.add_sub_cancel_left]

/-- Binary digits of a `long` are parsed. -/
theorem parseLong_digits {s : List Char} (hne : s ≠ []) (hbin : ∀ c ∈ s, c = '0' ∨ c = '1')
    (hlt : Nat.ofDigitChars 2 s 0 < 2 ^ 63) :
    parseLong s = .ok (BitVec.ofNat 64 (Nat.ofDigitChars 2 s 0)) := by
  obtain ⟨c, cs, rfl⟩ := List.exists_cons_of_ne_nil hne
  have hminus : (c :: cs).head? ≠ some '-' := by
    rintro h
    obtain rfl : c = '-' := Option.some.inj h
    exact absurd (hbin '-' List.mem_cons_self) (by decide)
  have hplus : (c :: cs).head? ≠ some '+' := by
    rintro h
    obtain rfl : c = '+' := Option.some.inj h
    exact absurd (hbin '+' List.mem_cons_self) (by decide)
  have hsign : ¬ ((c :: cs).head? = some '-' ∨ (c :: cs).head? = some '+') := by
    rintro (h | h)
    · exact hminus h
    · exact hplus h
  have hdigits : (c :: cs).all (fun c => c = '0' ∨ c = '1') = true := by
    rw [List.all_eq_true]
    exact fun c hc => decide_eq_true (hbin c hc)
  rw [parseLong]
  simp only [if_neg hsign, if_pos (And.intro hne hdigits), if_neg hminus, if_pos hlt]

/-- Thirty-two characters of a message parse to their word. -/
theorem parseInt_bits {bs : List Bool} (hlen : bs.length = 32) :
    parseInt (bs.map bitChar) = .ok (bitWord bs) := by
  have hne : bs.map bitChar ≠ [] := by
    rintro h
    rw [List.map_eq_nil_iff.mp h] at hlen
    exact absurd hlen (by decide)
  have hbin : ∀ c ∈ bs.map bitChar, c = '0' ∨ c = '1' := by
    rintro c hc
    obtain ⟨b, -, rfl⟩ := List.mem_map.mp hc
    cases b
    · exact .inl rfl
    · exact .inr rfl
  have hvalue := ofDigitChars_map_bitChar bs
  have hlt : value bs < 2 ^ 32 := hlen ▸ value_lt bs
  rw [parseInt, parseLong_digits hne hbin (by rw [hvalue]; omega), hvalue]
  show Except.ok ((BitVec.ofNat 64 (value bs)).setWidth 32) = _
  rw [BitVec.setWidth_ofNat_of_le (by decide), bitWord]

/-- A number has only binary digits in binary. -/
theorem toDigits_binary (n : Nat) : ∀ c ∈ Nat.toDigits 2 n, c = '0' ∨ c = '1' := by
  induction n using Nat.strongRecOn with
  | _ n ih =>
      have hdigit : ∀ d, d < 2 → Nat.digitChar d = '0' ∨ Nat.digitChar d = '1' := by decide
      intro c hc
      rcases Nat.lt_or_ge n 2 with hlt | hge
      · rw [Nat.toDigits_of_lt_base hlt] at hc
        obtain rfl := List.mem_singleton.mp hc
        exact hdigit n hlt
      · rw [Nat.toDigits_of_base_le (by decide) hge] at hc
        rcases List.mem_append.mp hc with hc | hc
        · exact ih (n / 2) (Nat.div_lt_self (by omega) (by decide)) c hc
        · obtain rfl := List.mem_singleton.mp hc
          exact hdigit _ (Nat.mod_lt n (by decide))

/-- **A printed entry of the schedule parses to itself.** -/
theorem parseInt_toBinaryString (w : Word) : parseInt (toBinaryString w) = .ok w := by
  have hvalue : Nat.ofDigitChars 2 (toBinaryString w) 0 = w.toNat :=
    Nat.ofDigitChars_toDigits (by decide) (by decide)
  have hne : toBinaryString w ≠ [] := Nat.toDigits_ne_nil
  have hlt : w.toNat < 2 ^ 32 := w.isLt
  rw [parseInt, parseLong_digits hne (toDigits_binary w.toNat) (by rw [hvalue]; omega), hvalue]
  show Except.ok ((BitVec.ofNat 64 w.toNat).setWidth 32) = _
  rw [BitVec.setWidth_ofNat_of_le (by decide), BitVec.ofNat_toNat, BitVec.setWidth_eq]

/-! ## The functions of the standard -/

/-- The rotation is the standard's. -/
theorem sn_eq (x : Word) {n : Nat} (hn : n < 32) : sn x n = ROTR n x := by
  rw [sn, ROTR, BitVec.rotateRight_def, Nat.mod_eq_of_lt hn]

/-- So are the functions. -/
theorem SIG0_eq (x : Word) : SIG0 x = bigSigma0 x := by
  rw [SIG0, sn_eq x (by decide), sn_eq x (by decide), sn_eq x (by decide), bigSigma0]

theorem SIG1_eq (x : Word) : SIG1 x = bigSigma1 x := by
  rw [SIG1, sn_eq x (by decide), sn_eq x (by decide), sn_eq x (by decide), bigSigma1]

theorem sig0_eq (x : Word) : sig0 x = smallSigma0 x := by
  rw [sig0, sn_eq x (by decide), sn_eq x (by decide), smallSigma0, SHR]

theorem sig1_eq (x : Word) : sig1 x = smallSigma1 x := by
  rw [sig1, sn_eq x (by decide), sn_eq x (by decide), smallSigma1, SHR]

/-- The constants are the standard's. -/
theorem K_eq : K = constants := rfl

/-- And so is the initial value. -/
theorem H_eq : H = initial := rfl

/-- `%08x` prints the eight digits of a word. -/
theorem format08x_eq (w : Word) : format08x w = wordHex w :=
  padded_toDigits (by decide) (by decide) w.isLt

/-- The length field is 64 bits wide, whether it has to be filled up or not. -/
theorem lenTo64bit_eq (x : BitVec 64) : lenTo64bit x = (natBits 64 x.toNat).map bitChar := by
  have hpad : List.replicate (64 - (toBinaryString x).length) '0' ++ toBinaryString x
      = digits 2 64 x.toNat := padded_toDigits (by decide) (by decide) x.isLt
  rw [natBits_map_bitChar, lenTo64bit]
  by_cases hlen : 64 ≤ (toBinaryString x).length
  · rw [if_pos hlen, ← hpad, Nat.sub_eq_zero_of_le hlen]
    rfl
  · rw [if_neg hlen, hpad]

/-! ## One block -/

/-- The words of a block. -/
def wordsOf (bs : List Bool) (t : Nat) : Word := bitWord ((bs.drop (32 * t)).take 32)

/-- What `W[j]` holds: characters of the block, then printed numbers. -/
def entry (bs : List Bool) (j : Nat) : List Char :=
  if j < 16 then ((bs.drop (32 * j)).take 32).map bitChar
  else toBinaryString (schedule (wordsOf bs) j)

/-- **Every entry parses to its word of the schedule.** -/
theorem parseInt_entry {bs : List Bool} (hlen : bs.length = 512) (j : Nat) :
    parseInt (entry bs j) = .ok (schedule (wordsOf bs) j) := by
  rcases Nat.lt_or_ge j 16 with hlt | hge
  · have hword : ((bs.drop (32 * j)).take 32).length = 32 := by
      rw [List.length_take, List.length_drop, hlen]
      omega
    rw [entry, if_pos hlt, parseInt_bits hword, schedule_lt _ hlt, wordsOf]
  · rw [entry, if_neg (Nat.not_lt.mpr hge), parseInt_toBinaryString]

/-- A word of the schedule. -/
theorem getD_entries (bs : List Bool) {j n : Nat} (h : j < n) :
    ((List.range n).map (entry bs)).getD j [] = entry bs j := by
  rw [List.getD_eq_getElem?_getD, List.getElem?_map, List.getElem?_range h]
  rfl

/-- One turn of the loop that fills `W`. -/
theorem expand_ok {bs : List Bool} (hlen : bs.length = 512) (j : Nat) :
    expand ((List.range (j + 16)).map (entry bs)) (j + 16)
      = .ok ((List.range (j + 17)).map (entry bs)) := by
  have hnext : (List.range (j + 17)).map (entry bs) = (List.range (j + 16)).map (entry bs)
      ++ [toBinaryString (sig1 (schedule (wordsOf bs) (j + 14)) + schedule (wordsOf bs) (j + 9)
        + sig0 (schedule (wordsOf bs) (j + 1)) + schedule (wordsOf bs) j)] := by
    rw [List.range_succ, List.map_append, List.map_singleton, entry, if_neg (by omega),
      schedule_succ16, sig0_eq, sig1_eq]
  rw [hnext, expand, show j + 16 - 2 = j + 14 by omega, show j + 16 - 7 = j + 9 by omega,
    show j + 16 - 15 = j + 1 by omega, Nat.add_sub_cancel, getD_entries bs (by omega),
    getD_entries bs (by omega), getD_entries bs (by omega), getD_entries bs (by omega),
    parseInt_entry hlen, parseInt_entry hlen, parseInt_entry hlen, parseInt_entry hlen]
  rfl

/-- **`getExpBlocks` is the message schedule.** -/
theorem getExpBlocks_ok {bs : List Bool} (hlen : bs.length = 512) :
    getExpBlocks (bs.map bitChar) = .ok ((List.range 64).map (entry bs)) := by
  have hfirst : (List.range 16).mapM
      (fun j => substring (bs.map bitChar) (32 * j) (32 * j + 32))
      = .ok ((List.range 16).map (entry bs)) := by
    refine mapM_ok (fun j hj => ?_)
    have hlt : j < 16 := List.mem_range.mp hj
    rw [substring_ok (by rw [List.length_map, hlen]; omega), entry, if_pos hlt, List.map_take,
      List.map_drop]
  rw [getExpBlocks, hfirst]
  exact foldlM_range_ok (f := fun W j => expand W (j + 16))
    (g := fun j => (List.range (j + 16)).map (entry bs)) 48 (fun j _ => expand_ok hlen j)

/-- One round. -/
theorem mainRound_ok {bs : List Bool} (hlen : bs.length = 512) (v : Vars) {j : Nat} (hj : j < 64) :
    mainRound ((List.range 64).map (entry bs)) v j
      = .ok (Sha256.round (Sha256.K j) (schedule (wordsOf bs) j) v) := by
  rw [mainRound, getD_entries bs hj, parseInt_entry hlen, SIG0_eq, SIG1_eq, K_eq]
  rfl

/-- **The main loop compresses a block.** -/
theorem mainBlock_ok {bs : List Bool} (hlen : bs.length = 512) (h : Vars) :
    mainBlock h (bs.map bitChar) = .ok (compress h (wordsOf bs)) := by
  have hrounds : (List.range 64).foldlM (mainRound ((List.range 64).map (entry bs))) h
      = .ok (working h (wordsOf bs) 64) :=
    foldlM_range_ok (g := working h (wordsOf bs)) 64 (fun j hj => mainRound_ok hlen _ hj)
  rw [mainBlock, getExpBlocks_ok hlen]
  show Except.bind ((List.range 64).foldlM (mainRound _) h) _ = _
  rw [hrounds]
  rfl

/-! ## A whole message -/

/-- **The padding is the standard's** for every length that a `long` can hold. -/
theorem padded_eq {m : List Bool} (hm : m.length < 2 ^ 64) :
    padded (m.map bitChar) = (padMessage m).map bitChar := by
  have hlength : (BitVec.ofNat 64 (m.map bitChar).length).toNat = m.length := by
    rw [List.length_map, BitVec.toNat_ofNat, Nat.mod_eq_of_lt hm]
  have hone : m.map bitChar ++ ['1'] = (m ++ [true]).map bitChar := by
    rw [List.map_append]
    rfl
  have hdiff : (if 448 - (((m.length + 1) % 512 : Nat) : Int) < 0
      then 512 + (448 - (((m.length + 1) % 512 : Nat) : Int))
      else 448 - (((m.length + 1) % 512 : Nat) : Int)).toNat = zeroBits m.length := by
    unfold zeroBits
    split <;> omega
  have hzeros : List.replicate (zeroBits m.length) '0'
      = (List.replicate (zeroBits m.length) false).map bitChar := by
    rw [List.map_replicate]
    rfl
  simp only [padded, padRight, hone, List.length_map, List.length_append, List.length_singleton,
    hdiff, hzeros, lenTo64bit_eq, BitVec.toNat_ofNat, Nat.mod_eq_of_lt hm, padMessage,
    List.map_append, List.map_cons, List.append_assoc, List.cons_append, List.nil_append,
    List.map_nil]

/-- A block has 512 digits. -/
theorem length_block {p : List Bool} {n : Nat} (h : 512 * n + 512 ≤ p.length) :
    ((p.drop (512 * n)).take 512).length = 512 := by
  rw [List.length_take, List.length_drop]
  omega

/-- The words of a block of the message. -/
theorem wordsOf_block (p : List Bool) (n : Nat) {t : Nat} (ht : t < 16) :
    wordsOf ((p.drop (512 * n)).take 512) t = blockWord p n t := by
  rw [wordsOf, blockWord, List.drop_take, List.take_take, List.drop_drop,
    Nat.min_eq_left (by omega)]

/-- The padded message is cut into its blocks. -/
theorem parseMsg512_ok {p : List Bool} (hdvd : 512 ∣ p.length) :
    parseMsg512 (p.map bitChar)
      = .ok ((List.range (p.length / 512)).map
          (fun n => ((p.drop (512 * n)).take 512).map bitChar)) := by
  obtain ⟨k, hk⟩ := hdvd
  rw [parseMsg512, List.length_map, hk, show (512 * k + 511) / 512 = k by omega,
    Nat.mul_div_cancel_left k (by decide)]
  refine mapM_ok (fun n hn => ?_)
  have hlt : n < k := List.mem_range.mp hn
  rw [substring_ok (by rw [List.length_map]; omega), List.map_take, List.map_drop]

/-- **`Main.sha256` is SHA-256**: it prints the hash and does not throw. -/
theorem sha256_hash {m : List Bool} (hm : m.length < 2 ^ 64) :
    sha256 (m.map bitChar) = .ok (Sha256.hash m).hex := by
  obtain ⟨-, hdvd⟩ := padMessage_length m
  have hblocks : ((List.range ((padMessage m).length / 512)).map
      (fun n => (((padMessage m).drop (512 * n)).take 512).map bitChar)).foldlM mainBlock H
      = .ok (Sha256.hash m) := by
    rw [List.foldlM_map, H_eq]
    refine foldlM_range_ok (g := chaining (padMessage m)) _ (fun n hn => ?_)
    have hle : 512 * n + 512 ≤ (padMessage m).length := by omega
    rw [mainBlock_ok (length_block hle)]
    exact congrArg Except.ok (compress_congr _ (fun t ht => wordsOf_block _ n ht))
  rw [sha256, padded_eq hm, parseMsg512_ok hdvd]
  show Except.bind (List.foldlM mainBlock H _) _ = _
  rw [hblocks]
  show Except.ok _ = _
  simp only [format08x_eq, Vars.hex, Vars.words, List.flatMap_cons, List.flatMap_nil,
    List.append_nil, List.append_assoc]

/-- The bit string a string of the two digits stands for. -/
def bitsOf (s : List Char) : List Bool := s.map (fun c => decide (c = '1'))

/-- Digits from their bits. -/
theorem map_bitsOf {s : List Char} (hbits : ∀ c ∈ s, c = '0' ∨ c = '1') :
    (bitsOf s).map bitChar = s := by
  induction s with
  | nil => rfl
  | cons c s ih =>
      obtain ⟨hc, hs⟩ := List.forall_mem_cons.mp hbits
      have hhead : bitChar (decide (c = '1')) = c := by
        rcases hc with rfl | rfl
        · rfl
        · rfl
      rw [bitsOf, List.map_cons, List.map_cons, hhead]
      exact congrArg (c :: ·) (ih hs)

/-- **`Main.sha256` on every bit string** whose padded form has a length in the range
    of `int`. -/
theorem sha256_bit_string (s : List Char) (hbits : ∀ c ∈ s, c = '0' ∨ c = '1')
    (hfits : (padMessage (bitsOf s)).length < 2 ^ 31) :
    sha256 s = .ok (Sha256.hash (bitsOf s)).hex ∧
    (Sha256.hash (bitsOf s)).hex.length = 64 ∧
    ∀ c ∈ (Sha256.hash (bitsOf s)).hex, c ∈ lowerHex := by
  obtain ⟨hlen, -⟩ := padMessage_length (bitsOf s)
  have h := sha256_hash (m := bitsOf s) (by omega)
  rw [map_bitsOf hbits] at h
  exact ⟨h, hex_length _, hex_lower _⟩

/-- The vector `abc` of `test.txt`: what the code prints is what the standard says. -/
theorem sha256_bit_string_abc :
    (Sha256.hash (bitsOf "011000010110001001100011".toList)).hex
      = "ba7816bf8f01cfea414140de5dae2223b00361a396177a9cb410ff61f20015ad".toList := by
  have hprinted : (sha256 "011000010110001001100011".toList).toOption
      = some "ba7816bf8f01cfea414140de5dae2223b00361a396177a9cb410ff61f20015ad".toList := by
    decide +kernel
  have hbits : ∀ c ∈ "011000010110001001100011".toList, c = '0' ∨ c = '1' := by simp
  have hhash := (sha256_bit_string "011000010110001001100011".toList hbits (by decide +kernel)).1
  rw [hhash] at hprinted
  exact Option.some.inj hprinted

end JavaSha256
