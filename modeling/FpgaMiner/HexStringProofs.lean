import FpgaMiner.WordSwapProofs
import FpgaMiner.CBufferProofs

/-! # Hex strings there and back

    `nibbleFromChar` answers 255 for a character that is no hex digit, and
    `hexStringToBytes` shifts and joins that answer like any other.

    * **`unambiguous_iff`** — so a string is told from all others exactly when it is
      valid and no byte of it is 0xf0 or more;
    * **`never_round_trips`** — `bytesToStringHex` stores its result through `NULL`;
    * **`encodeInto_cell`** — what the rest of its body would give. -/

namespace Getwork

open ListGroups MinerDriver CBuffer

/-! ## Digits -/

theorem HexStr_append (u v : List Byte) : HexStr (u ++ v) = HexStr u ++ HexStr v :=
  List.flatMap_append

/-- `[0-9a-fA-F]` -/
def HexDigit (c : Byte) : Prop :=
  (chr '0' ≤ c ∧ c ≤ chr '9') ∨ (chr 'a' ≤ c ∧ c ≤ chr 'f') ∨ (chr 'A' ≤ c ∧ c ≤ chr 'F')

instance : DecidablePred HexDigit := fun _ => inferInstanceAs (Decidable (_ ∨ _ ∨ _))

/-- A letter in lower case. -/
def lower (c : Byte) : Byte := if chr 'A' ≤ c ∧ c ≤ chr 'Z' then c + 32 else c

/-- What `nibbleFromChar` makes of a digit and of any other character. -/
theorem nibble_cases (c : Byte) :
    (HexDigit c ∧ nibbleFromChar c < 16#8 ∧ lower c = hexmap.getD (nibbleFromChar c).toNat 0) ∨
      (¬ HexDigit c ∧ nibbleFromChar c = 255#8) := by
  have hall : ∀ v : Fin (2 ^ 8), (HexDigit (BitVec.ofFin v) ∧ nibbleFromChar (BitVec.ofFin v) < 16#8
      ∧ lower (BitVec.ofFin v) = hexmap.getD (nibbleFromChar (BitVec.ofFin v)).toNat 0) ∨
      (¬ HexDigit (BitVec.ofFin v) ∧ nibbleFromChar (BitVec.ofFin v) = 255#8) := by
    decide +kernel
  exact hall c.toFin

theorem nibble_digit {c : Byte} (h : HexDigit c) :
    nibbleFromChar c < 16#8 ∧ lower c = hexmap.getD (nibbleFromChar c).toNat 0 := by
  rcases nibble_cases c with ⟨-, hn⟩ | ⟨hc, -⟩
  · exact hn
  · exact absurd h hc

theorem nibble_other {c : Byte} (h : ¬ HexDigit c) : nibbleFromChar c = 255#8 := by
  rcases nibble_cases c with ⟨hc, -⟩ | ⟨-, hn⟩
  · exact absurd hc h
  · exact hn

/-- The characters `f` and `F`. -/
theorem nibble_f {c : Byte} (h : lower c = chr 'f') : HexDigit c ∧ nibbleFromChar c = 15#8 := by
  have hall : ∀ v : Fin (2 ^ 8), lower (BitVec.ofFin v) = chr 'f' →
      HexDigit (BitVec.ofFin v) ∧ nibbleFromChar (BitVec.ofFin v) = 15#8 := by
    decide +kernel
  exact hall c.toFin h

/-- Two nibbles in a byte. -/
theorem nibbles_joined {a b : Byte} (ha : a < 16#8) (hb : b < 16#8) :
    ((a <<< 4) ||| b) >>> 4 = a ∧ ((a <<< 4) ||| b) &&& 15 = b ∧
      (a ≠ 15#8 → (a <<< 4) ||| b < 240#8) := by
  have hall : ∀ a b : Fin 16, ((BitVec.ofNat 8 a <<< 4) ||| BitVec.ofNat 8 b) >>> 4
      = BitVec.ofNat 8 a ∧ ((BitVec.ofNat 8 a <<< 4) ||| BitVec.ofNat 8 b) &&& 15 = BitVec.ofNat 8 b
      ∧ (BitVec.ofNat 8 a ≠ 15#8 →
        (BitVec.ofNat 8 a <<< 4) ||| BitVec.ofNat 8 b < 240#8) := by
    decide +kernel
  have hab := hall ⟨a.toNat, ha⟩ ⟨b.toNat, hb⟩
  rwa [BitVec.ofNat_toNat, BitVec.setWidth_eq, BitVec.ofNat_toNat, BitVec.setWidth_eq] at hab

/-! ## What decoding tells apart -/

/-- A pair that no other pair is decoded like. -/
def Clear (p : Byte × Byte) : Prop := HexDigit p.1 ∧ HexDigit p.2 ∧ lower p.1 ≠ chr 'f'

/-- The digits of a decoded pair are the pair in lower case. -/
theorem HexStr_decodePair {p : Byte × Byte} (h1 : HexDigit p.1) (h2 : HexDigit p.2) :
    HexStr [decodePair p] = [lower p.1, lower p.2] := by
  obtain ⟨hn1, hl1⟩ := nibble_digit h1
  obtain ⟨hn2, hl2⟩ := nibble_digit h2
  obtain ⟨hhi, hlo, -⟩ := nibbles_joined hn1 hn2
  rw [HexStr_cons, decodePair, hhi, hlo, ← hl1, ← hl2]
  rfl

theorem decodePair_clear {p : Byte × Byte} (h : Clear p) : decodePair p < 240#8 := by
  obtain ⟨h1, h2, hf⟩ := h
  obtain ⟨hn1, hl1⟩ := nibble_digit h1
  refine (nibbles_joined hn1 (nibble_digit h2).1).2.2 ?_
  intro h15
  rw [h15] at hl1
  exact hf hl1

/-- The marker of an invalid character leaves a byte of 0xf0 or more. -/
theorem digits_of_decodePair {p : Byte × Byte} (h : decodePair p < 240#8) :
    HexDigit p.1 ∧ HexDigit p.2 := by
  have hlt : (decodePair p).toNat < 240 := h
  rw [decodePair, BitVec.toNat_or] at hlt
  constructor
  · by_contra hc
    have hhi : 240 ≤ (nibbleFromChar p.1 <<< 4).toNat := by
      rw [nibble_other hc]
      decide
    have := Nat.left_le_or (n := (nibbleFromChar p.1 <<< 4).toNat) (m := (nibbleFromChar p.2).toNat)
    omega
  · by_contra hc
    have hlo : 240 ≤ (nibbleFromChar p.2).toNat := by
      rw [nibble_other hc]
      decide
    have := Nat.right_le_or (n := (nibbleFromChar p.1 <<< 4).toNat) (m := (nibbleFromChar p.2).toNat)
    omega

/-- Any other pair has a twin. -/
theorem exists_twin {p : Byte × Byte} (h : ¬ Clear p) (h2 : p.2 ≠ 0#8) :
    ∃ q : Byte × Byte, decodePair q = decodePair p ∧ q.1 ≠ 0#8 ∧ q.2 ≠ 0#8 ∧
      (lower q.1, lower q.2) ≠ (lower p.1, lower p.2) := by
  by_cases hlo : HexDigit p.2
  · by_cases hhi : HexDigit p.1
    · -- `f` is taken for an invalid character
      have hf : lower p.1 = chr 'f' := by
        by_contra hf
        exact h ⟨hhi, hlo, hf⟩
      have hg : chr 'g' ≠ 0#8 ∧ lower (chr 'g') ≠ chr 'f' := by decide
      have hhigh : nibbleFromChar (chr 'g') <<< 4 = 15#8 <<< 4 := by decide
      refine ⟨(chr 'g', p.2), ?_, hg.1, h2, ?_⟩
      · rw [decodePair, decodePair, (nibble_f hf).2, hhigh]
      · rw [hf]
        intro heq
        exact hg.2 (congrArg Prod.fst heq)
    · have hzero : chr 'f' ≠ 0#8 := by decide
      have hhigh : nibbleFromChar (chr 'f') <<< 4 = 255#8 <<< 4 := by decide
      refine ⟨(chr 'f', p.2), ?_, hzero, h2, ?_⟩
      · rw [decodePair, decodePair, nibble_other hhi, hhigh]
      · intro heq
        exact hhi (nibble_f (congrArg Prod.fst heq).symm).1
  · refine ⟨(chr 'f', chr 'f'), ?_, by decide, by decide, ?_⟩
    · rw [decodePair, decodePair, nibble_other hlo, show (255#8 : Byte) = BitVec.allOnes 8 from rfl,
        BitVec.or_allOnes]
      rfl
    · intro heq
      exact hlo (nibble_f (congrArg Prod.snd heq).symm).1

/-- The digits of decoded digits are the string in lower case. -/
theorem HexStr_pairs {s : List Byte} (heven : 2 ∣ s.length)
    (h : ∀ p ∈ pairs s, HexDigit p.1 ∧ HexDigit p.2) :
    HexStr ((pairs s).map decodePair) = s.map lower := by
  induction s, heven using pairs_induction with
  | nil => rfl
  | pair a b s _ ih =>
      have hs := ih (fun p hp => h p (List.mem_cons_of_mem _ hp))
      obtain ⟨ha, hb⟩ := h (a, b) List.mem_cons_self
      show HexStr ([decodePair (a, b)] ++ (pairs s).map decodePair) = lower a :: lower b :: _
      rw [HexStr_append, HexStr_decodePair ha hb, hs]
      rfl

/-- The characters of a string are those of its pairs. -/
theorem digits_of_pairs {s : List Byte} (heven : 2 ∣ s.length)
    (h : ∀ p ∈ pairs s, HexDigit p.1 ∧ HexDigit p.2) : ∀ c ∈ s, HexDigit c := by
  induction s, heven using pairs_induction with
  | nil => simp
  | pair a b s _ ih =>
      have hs := ih (fun p hp => h p (List.mem_cons_of_mem _ hp))
      obtain ⟨ha, hb⟩ := h (a, b) List.mem_cons_self
      intro c hc
      rcases List.mem_cons.mp hc with rfl | hc
      · exact ha
      rcases List.mem_cons.mp hc with rfl | hc
      · exact hb
      · exact hs c hc

/-- No string but `s` itself, up to the case of its letters, gives the bytes of `s`; a
    string with an invalid character gives those of no valid one. -/
structure Unambiguous (s : List Byte) : Prop where
  same : ∀ t, (∀ c ∈ t, c ≠ 0#8) → t.length = s.length →
    hexStringToBytes (t ++ [0#8]) = hexStringToBytes (s ++ [0#8]) → t.map lower = s.map lower
  valid : (∃ c ∈ s, ¬ HexDigit c) → ∀ t, (∀ c ∈ t, HexDigit c) → t.length = s.length →
    hexStringToBytes (t ++ [0#8]) ≠ hexStringToBytes (s ++ [0#8])

instance : DecidablePred Clear := fun _ => inferInstanceAs (Decidable (_ ∧ _ ∧ _))

theorem unambiguous_of_clear {s : List Byte} (hnul : ∀ c ∈ s, c ≠ 0#8) (heven : 2 ∣ s.length)
    (h : ∀ p ∈ pairs s, Clear p) : Unambiguous s := by
  have hdigits : ∀ p ∈ pairs s, HexDigit p.1 ∧ HexDigit p.2 := fun p hp => ⟨(h p hp).1, (h p hp).2.1⟩
  constructor
  · intro t ht hlen hsame
    rw [hexStringToBytes_pairs ht (hlen.symm ▸ heven), hexStringToBytes_pairs hnul heven] at hsame
    have hmap := List.append_cancel_right hsame
    -- the bytes of `t` are those of `s`, so its characters are digits as well
    have hdigits' : ∀ p ∈ pairs t, HexDigit p.1 ∧ HexDigit p.2 := by
      intro p hp
      have hmem : decodePair p ∈ (pairs s).map decodePair := hmap ▸ List.mem_map_of_mem hp
      obtain ⟨q, hq, heq⟩ := List.mem_map.mp hmem
      exact digits_of_decodePair (heq ▸ decodePair_clear (h q hq))
    rw [← HexStr_pairs (hlen.symm ▸ heven) hdigits', hmap, HexStr_pairs heven hdigits]
  · rintro ⟨c, hc, hother⟩
    exact absurd (digits_of_pairs heven hdigits c hc) hother

theorem clear_of_unambiguous {s : List Byte} (hnul : ∀ c ∈ s, c ≠ 0#8) (heven : 2 ∣ s.length)
    (h : Unambiguous s) : ∀ p ∈ pairs s, Clear p := by
  intro p hp
  by_contra hclear
  obtain ⟨u, v, rfl, hu⟩ := mem_pairs hp
  obtain ⟨q, hq, hq1, hq2, hdiff⟩ := exists_twin hclear (hnul p.2 (by simp))
  have hlen : (u ++ q.1 :: q.2 :: v).length = (u ++ p.1 :: p.2 :: v).length := by
    rw [List.length_append, List.length_append]
    rfl
  have hnul' : ∀ c ∈ u ++ q.1 :: q.2 :: v, c ≠ 0#8 := by
    intro c hc
    simp only [List.mem_append, List.mem_cons] at hc hnul
    rcases hc with hc | rfl | rfl | hc
    · exact hnul c (.inl hc)
    · exact hq1
    · exact hq2
    · exact hnul c (.inr (.inr (.inr hc)))
  have hbytes : hexStringToBytes (u ++ q.1 :: q.2 :: v ++ [0#8])
      = hexStringToBytes (u ++ p.1 :: p.2 :: v ++ [0#8]) := by
    rw [hexStringToBytes_pairs hnul' (hlen.symm ▸ heven), hexStringToBytes_pairs hnul heven,
      pairs_append hu, pairs_append hu, List.map_append, List.map_append]
    show _ ++ decodePair q :: (pairs v).map decodePair ++ _
      = _ ++ decodePair p :: (pairs v).map decodePair ++ _
    rw [hq]
  have hsame := h.same _ hnul' hlen hbytes
  rw [List.map_append, List.map_append] at hsame
  have htail := List.append_cancel_left hsame
  simp only [List.map_cons, List.cons.injEq] at htail
  exact hdiff (Prod.ext htail.1 htail.2.1)

/-- **Decoding loses nothing of a string exactly when** all its characters are digits and
    no pair of it starts with `f` or `F`. -/
theorem unambiguous_iff (s : List Byte) (hnul : ∀ c ∈ s, c ≠ 0#8) (heven : 2 ∣ s.length) :
    Unambiguous s ↔ ∀ p ∈ pairs s, Clear p :=
  ⟨clear_of_unambiguous hnul heven, unambiguous_of_clear hnul heven⟩

theorem unambiguous_test : Unambiguous testThing :=
  (unambiguous_iff testThing (by decide) (by decide)).mpr
    (List.forall_iff_forall_mem.mp (by decide))

/-- **`g0` is decoded like `f0`.** -/
theorem g0_like_f0 :
    hexStringToBytes [chr 'g', chr '0', 0#8] = hexStringToBytes [chr 'f', chr '0', 0#8] ∧
    ¬ HexDigit (chr 'g') ∧ (∀ c ∈ [chr 'f', chr '0'], HexDigit c) ∧
    ¬ Unambiguous [chr 'g', chr '0'] := by
  have hbytes : hexStringToBytes [chr 'g', chr '0', 0#8]
      = hexStringToBytes [chr 'f', chr '0', 0#8] := by decide
  refine ⟨hbytes, by decide, by decide, ?_⟩
  intro h
  exact h.valid ⟨chr 'g', List.mem_cons_self, by decide⟩ [chr 'f', chr '0'] (by decide) rfl
    hbytes.symm

/-! ## Encoding -/

/-- A pointer variable: `NULL`, or what it points at. -/
inductive Pointer (α : Type) where
  | null
  | at (a : α)

/-- `*p = a` -/
def Pointer.assign {α : Type} : Pointer α → α → Option (Pointer α)
  | .null, _ => none
  | .at _, a => some (.at a)

/-- `*p` -/
def Pointer.deref {α : Type} : Pointer α → Option α
  | .null => none
  | .at a => some a

/-- The loop of `bytesToStringHex` over the indices left. -/
def encodeLoop {k : Nat} (bin : List Byte) : List Nat → Buffer Byte k → Option (Buffer Byte k)
  | [], out => some out
  | i :: rest, out => do
      let val ← bin[i]?
      let out ← out.store (i * 2 + 0 : Nat) (hexmap.getD (val >>> 4).toNat 0)
      let out ← out.store (i * 2 + 1 : Nat) (hexmap.getD (val &&& 15).toNat 0)
      encodeLoop bin rest out

/-- The body of `bytesToStringHex` with the two variables it starts from; `block` is
    what `malloc` gives. -/
def encodeInto {binsz : Nat} (result : Pointer (Buffer Byte (binsz * 2 + 1)))
    (block : Buffer Byte (binsz * 2 + 1)) (bin : List Byte) :
    Option (Buffer Byte (binsz * 2 + 1)) := do
  let result ← result.assign block
  let out ← (← result.deref).store (binsz * 2 : Nat) 0
  encodeLoop bin (List.range binsz) out

/-- `bytesToStringHex`: `sizeof(bin)` is the size of a pointer, and `result` is `NULL`. -/
def bytesToStringHex (sizeof_ptr : Nat) (block : Buffer Byte (sizeof_ptr * 2 + 1))
    (bin : List Byte) : Option (Buffer Byte (sizeof_ptr * 2 + 1)) :=
  encodeInto .null block bin

/-- The digits of `bin` come out, and `bin` comes back from them. -/
def RoundTrips (sizeof_ptr : Nat) (block : Buffer Byte (sizeof_ptr * 2 + 1)) (bin : List Byte) :
    Prop :=
  ∃ out, bytesToStringHex sizeof_ptr block bin = some out ∧ out.bytes = HexStr bin ++ [0#8] ∧
    hexStringToBytes out.bytes = bin ++ [0#8]

/-- The string `s` comes back from its bytes. -/
def ComesBack (sizeof_ptr : Nat) (block : Buffer Byte (sizeof_ptr * 2 + 1)) (s : List Byte) :
    Prop :=
  ∃ out, bytesToStringHex sizeof_ptr block (hexStringToBytes (s ++ [0#8])).dropLast = some out ∧
    out.bytes = s ++ [0#8]

/-- `*result` is an access through `NULL`. -/
theorem bytesToStringHex_ne {sizeof_ptr : Nat} {block : Buffer Byte (sizeof_ptr * 2 + 1)}
    {bin : List Byte} (out : Buffer Byte (sizeof_ptr * 2 + 1)) :
    bytesToStringHex sizeof_ptr block bin ≠ some out :=
  (Option.some_ne_none out).symm

/-- **`bytesToStringHex` gives no string**, whatever the array, and none comes back. -/
theorem never_round_trips (sizeof_ptr : Nat) (block : Buffer Byte (sizeof_ptr * 2 + 1)) :
    (∀ bin, ¬ RoundTrips sizeof_ptr block bin) ∧ ∀ s, ¬ ComesBack sizeof_ptr block s := by
  constructor
  · rintro bin ⟨out, hout, -⟩
    exact bytesToStringHex_ne out hout
  · rintro s ⟨out, hout, -⟩
    exact bytesToStringHex_ne out hout

/-- **The empty array already fails.** -/
theorem empty_fails : ¬ RoundTrips 8 (Buffer.const 17 0#8) [] := by
  rintro ⟨out, hout, -⟩
  exact bytesToStringHex_ne out hout

/-! ### The body on a valid pointer -/

/-- The loop writes the digits of the bytes left behind those of the bytes before. -/
theorem encodeLoop_at {k : Nat} (s more : List Byte) :
    ∀ (pre mid : List Byte) (out : Buffer Byte k), out.bytes = HexStr pre ++ (mid ++ [0#8]) →
      mid.length = 2 * s.length →
      ∃ out', encodeLoop (pre ++ (s ++ more)) (List.range' pre.length s.length) out = some out' ∧
        out'.bytes = HexStr (pre ++ s) ++ [0#8] := by
  induction s with
  | nil =>
      intro pre mid out hout hmid
      obtain rfl := List.eq_nil_of_length_eq_zero hmid
      refine ⟨out, rfl, ?_⟩
      rw [hout, List.append_nil]
      rfl
  | cons val s ih =>
      intro pre mid out hout hmid
      obtain ⟨x, y, mid, rfl⟩ : ∃ x y m, mid = x :: y :: m := by
        match mid, hmid with
        | x :: y :: m, _ => exact ⟨x, y, m, rfl⟩
      have hpre := HexStr_length pre
      -- the two digits of `val`
      obtain ⟨out1, h1, hb1⟩ := store_at (l := HexStr pre) (a := x) (r := y :: (mid ++ [0#8])) hout
        (i := (pre.length * 2 + 0 : Nat)) (by omega) (hexmap.getD (val >>> 4).toNat 0)
      obtain ⟨out2, h2, hb2⟩ := store_at (l := HexStr pre ++ [hexmap.getD (val >>> 4).toNat 0])
        (a := y) (r := mid ++ [0#8]) (b := out1) (by rw [hb1, List.append_assoc]; rfl)
        (i := (pre.length * 2 + 1 : Nat)) (by rw [List.length_append, hpre]; simp; omega)
        (hexmap.getD (val &&& 15).toNat 0)
      obtain ⟨out', hloop, hb'⟩ := ih (pre ++ [val]) mid out2
        (by rw [hb2, HexStr_append, List.append_assoc, List.append_assoc]; rfl)
        (by simp only [List.length_cons] at hmid; omega)
      have hval : (pre ++ (val :: s ++ more))[pre.length]? = some val := by
        rw [List.getElem?_append_right (Nat.le_refl _), Nat.sub_self]
        rfl
      refine ⟨out', ?_, ?_⟩
      · rw [List.length_cons, List.range'_succ, encodeLoop, hval]
        show (out.store _ _).bind _ = _
        rw [h1]
        show (out1.store _ _).bind _ = _
        rw [h2]
        rw [List.append_assoc, List.length_append] at hloop
        exact hloop
      · rw [hb', List.append_assoc]
        rfl

/-- **Through a valid pointer** the body gives the digits of the first `sizeof(bin)`
    bytes, so those of an array of that size. -/
theorem encodeInto_cell {binsz : Nat} (cell block : Buffer Byte (binsz * 2 + 1))
    {bin : List Byte} (h : binsz ≤ bin.length) :
    ∃ out, encodeInto (.at cell) block bin = some out ∧
      out.bytes = HexStr (bin.take binsz) ++ [0#8] := by
  have hsize := block.size
  obtain ⟨last, hlast⟩ : ∃ x, block.bytes.drop (binsz * 2) = [x] := by
    refine List.length_eq_one_iff.mp ?_
    rw [List.length_drop]
    omega
  have hlen : (block.bytes.take (binsz * 2)).length = binsz * 2 := by
    rw [List.length_take]
    omega
  obtain ⟨out, hstore, hout⟩ := store_at (l := block.bytes.take (binsz * 2)) (a := last) (r := [])
    (b := block) (by rw [← hlast, List.take_append_drop]) (i := (binsz * 2 : Nat)) (by omega) 0#8
  have htake : (bin.take binsz).length = binsz := by
    rw [List.length_take]
    omega
  obtain ⟨out', hloop, hb⟩ := encodeLoop_at (bin.take binsz) (bin.drop binsz) []
    (block.bytes.take (binsz * 2)) out hout (by omega)
  rw [htake, List.nil_append, List.take_append_drop, List.length_nil,
    ← List.range_eq_range'] at hloop
  refine ⟨out', ?_, hb⟩
  show (block.store _ 0#8).bind _ = _
  rw [hstore]
  exact hloop

end Getwork
