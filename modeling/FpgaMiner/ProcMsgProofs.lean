import FpgaMiner.JavaSha256Proofs

/-! # `procMsg` — a message as binary digits

    `Main.procMsg` writes the characters of a message one behind the other, each with at
    least eight binary digits.

    * **`procMsg_injective`** — characters below 256 have exactly eight, so their
      message can be read back;
    * **`procMsg_collision`** — of any other character there are two messages that
      are written alike;
    * **`injective_iff`** — so messages are told apart exactly over the former. -/

namespace JavaSha256

open DigitString

/-- A UTF-16 unit. -/
abbrev JavaChar := BitVec 16

/-- `n` zeros before a string. -/
def padLeft (s : List Char) (n : Nat) : List Char := List.replicate n '0' ++ s

/-- `tmp2` of `procMsg` -/
def charDigits (c : JavaChar) : List Char :=
  let tmp2 := toBinaryString (c.setWidth 32)
  if tmp2.length < 8 then padLeft tmp2 (8 - tmp2.length) else tmp2

/-- The binary digits of the characters, each padded to eight. -/
def procMsg (msg : List JavaChar) : List Char :=
  msg.foldl (fun tmp c => tmp ++ charDigits c) []

theorem procMsg_eq (msg : List JavaChar) : procMsg msg = msg.flatMap charDigits :=
  List.flatMap_eq_foldl.symm

theorem toBinaryString_char (c : JavaChar) :
    toBinaryString (c.setWidth 32) = Nat.toDigits 2 c.toNat := by
  rw [toBinaryString, BitVec.toNat_setWidth, Nat.mod_eq_of_lt]
  exact Nat.lt_trans c.isLt (by decide)

/-- A character below 256 has its eight digits. -/
theorem charDigits_small {c : JavaChar} (h : c.toNat < 256) :
    charDigits c = digits 2 8 c.toNat := by
  rw [← padded_toDigits (by decide) (by decide) (show c.toNat < 2 ^ 8 from h), charDigits,
    toBinaryString_char]
  by_cases hlen : (Nat.toDigits 2 c.toNat).length < 8
  · rw [if_pos hlen, padLeft]
  · rw [if_neg hlen, Nat.sub_eq_zero_of_le (Nat.not_lt.mp hlen)]
    rfl

theorem charDigits_ne_nil {c : JavaChar} (h : c.toNat < 256) : charDigits c ≠ [] := by
  intro hnil
  have hlen := digits_length 2 8 c.toNat
  rw [← charDigits_small h, hnil] at hlen
  exact absurd hlen (by decide)

/-- Any other character has as many as it needs. -/
theorem charDigits_large {c : JavaChar} (h : 256 ≤ c.toNat) :
    charDigits c = Nat.toDigits 2 c.toNat := by
  have hlen : ¬ (Nat.toDigits 2 c.toNat).length < 8 := by
    intro hlt
    have := (Nat.length_toDigits_le_iff (b := 2) (n := c.toNat) (k := 7) (by decide)
      (by decide)).mp (by omega)
    omega
  rw [charDigits, toBinaryString_char, if_neg hlen]

/-! ## Eight digits -/

/-- **Messages of characters below 256 are told apart.** -/
theorem procMsg_injective {s t : List JavaChar} (hs : ∀ c ∈ s, c.toNat < 256)
    (ht : ∀ c ∈ t, c.toNat < 256) (h : procMsg s = procMsg t) : s = t := by
  rw [procMsg_eq, procMsg_eq] at h
  induction s generalizing t with
  | nil =>
      cases t with
      | nil => rfl
      | cons d t =>
          have hnil := (List.append_eq_nil_iff.mp h.symm).1
          exact absurd hnil (charDigits_ne_nil (ht d List.mem_cons_self))
  | cons c s ih =>
      cases t with
      | nil =>
          have hnil := (List.append_eq_nil_iff.mp h).1
          exact absurd hnil (charDigits_ne_nil (hs c List.mem_cons_self))
      | cons d t =>
          have hc := hs c List.mem_cons_self
          have hd := ht d List.mem_cons_self
          rw [List.flatMap_cons, List.flatMap_cons, charDigits_small hc, charDigits_small hd] at h
          obtain ⟨hhead, htail⟩ := List.append_inj h
            ((digits_length 2 8 c.toNat).trans (digits_length 2 8 d.toNat).symm)
          have hcd : c.toNat % 256 = d.toNat % 256 := digits_two_inj hhead
          rw [Nat.mod_eq_of_lt hc, Nat.mod_eq_of_lt hd] at hcd
          rw [BitVec.eq_of_toNat_eq hcd, ih (fun x hx => hs x (List.mem_cons_of_mem c hx))
            (fun x hx => ht x (List.mem_cons_of_mem d hx)) htail]

/-! ## More than eight -/

/-- The two characters whose eight digits make up a number of sixteen. -/
def twoChars (n : Nat) : List JavaChar := [BitVec.ofNat 16 (n / 2 ^ 8), BitVec.ofNat 16 (n % 2 ^ 8)]

theorem twoChars_small {n : Nat} (h : n < 2 ^ 16) : ∀ c ∈ twoChars n, c.toNat < 256 := by
  intro c hc
  rcases List.mem_cons.mp hc with rfl | hc
  · rw [BitVec.toNat_ofNat]
    omega
  · obtain rfl := List.mem_singleton.mp hc
    rw [BitVec.toNat_ofNat]
    omega

theorem procMsg_twoChars {n : Nat} (h : n < 2 ^ 16) :
    (twoChars n).flatMap charDigits = digits 2 16 n := by
  have hsmall := twoChars_small h
  simp only [twoChars, List.forall_mem_cons] at hsmall
  obtain ⟨h1, h2, -⟩ := hsmall
  rw [twoChars, List.flatMap_cons, List.flatMap_cons, charDigits_small h1, charDigits_small h2,
    List.flatMap_nil, List.append_nil, digits_two_add 8 8, BitVec.toNat_ofNat, BitVec.toNat_ofNat,
    Nat.mod_eq_of_lt (by omega), Nat.mod_eq_of_lt (by omega)]

/-- **A character of more than eight digits** can be read from the front or from the
    back of the same digits. -/
theorem procMsg_collision {c : JavaChar} (h : 256 ≤ c.toNat) :
    ∃ m n, m < 2 ^ 16 ∧ n < 2 ^ 16 ∧
      procMsg (c :: twoChars m) = procMsg (twoChars n ++ [c]) := by
  obtain ⟨k, hk⟩ : ∃ k, k = (Nat.toDigits 2 c.toNat).length := ⟨_, rfl⟩
  have hpos : 0 < k := hk ▸ Nat.length_toDigits_pos
  have hlt : c.toNat < 2 ^ k :=
    (Nat.length_toDigits_le_iff (by decide) hpos).mp (Nat.le_of_eq hk.symm)
  have hk16 : k ≤ 16 := hk ▸ (Nat.length_toDigits_le_iff (by decide) (by decide)).mpr c.isLt
  have hwidth : k + (16 - k) = 16 := Nat.add_sub_cancel' hk16
  have hn : c.toNat * 2 ^ (16 - k) < 2 ^ 16 :=
    calc c.toNat * 2 ^ (16 - k)
        < 2 ^ k * 2 ^ (16 - k) := Nat.mul_lt_mul_of_pos_right hlt (Nat.two_pow_pos _)
      _ = 2 ^ (k + (16 - k)) := (Nat.pow_add 2 k (16 - k)).symm
      _ = 2 ^ 16 := congrArg (2 ^ ·) hwidth
  -- the sixteen digits between the two ends start or end with those of `c`
  have hfront : digits 2 16 c.toNat = List.replicate (16 - k) '0' ++ Nat.toDigits 2 c.toNat := by
    rw [hk, padded_toDigits (by decide) (by decide) c.isLt]
  have hback : digits 2 16 (c.toNat * 2 ^ (16 - k))
      = Nat.toDigits 2 c.toNat ++ List.replicate (16 - k) '0' := by
    have hshift := digits_mul_pow (b := 2) (by decide) k c.toNat (16 - k)
    rw [hwidth] at hshift
    rw [hshift, hk, ← toDigits_eq_digits (by decide)]
  refine ⟨c.toNat, c.toNat * 2 ^ (16 - k), c.isLt, hn, ?_⟩
  rw [procMsg_eq, procMsg_eq, List.flatMap_cons, List.flatMap_append, List.flatMap_singleton,
    procMsg_twoChars c.isLt, procMsg_twoChars hn, charDigits_large h, hfront, hback,
    List.append_assoc]

/-- Messages of characters in `Q` are told apart. -/
def InjectiveOver (Q : JavaChar → Prop) : Prop :=
  ∀ s t : List JavaChar, (∀ c ∈ s, Q c) → (∀ c ∈ t, Q c) → procMsg s = procMsg t → s = t

/-- **Messages are told apart exactly as long as** no character beyond 255 is allowed. -/
theorem injective_iff (P : JavaChar → Prop) :
    InjectiveOver (fun c => c.toNat < 256 ∨ P c) ↔ ∀ c, P c → c.toNat < 256 := by
  constructor
  · intro h c hc
    by_contra hlarge
    obtain ⟨m, n, hm, hn, hsame⟩ := procMsg_collision (Nat.not_lt.mp hlarge)
    have heq := h _ _
      (by
        intro x hx
        rcases List.mem_cons.mp hx with rfl | hx
        · exact .inr hc
        · exact .inl (twoChars_small hm x hx))
      (by
        intro x hx
        rcases List.mem_append.mp hx with hx | hx
        · exact .inl (twoChars_small hn x hx)
        · exact .inr (List.mem_singleton.mp hx ▸ hc))
      hsame
    -- the first characters differ
    have hfirst : c = BitVec.ofNat 16 (n / 2 ^ 8) := (List.cons.inj heq).1
    exact hlarge (hfirst ▸ twoChars_small hn _ List.mem_cons_self)
  · intro h s t hs ht hsame
    have hsmall : ∀ c : JavaChar, c.toNat < 256 ∨ P c → c.toNat < 256 := by
      rintro c (hc | hc)
      · exact hc
      · exact h c hc
    exact procMsg_injective (fun c hc => hsmall c (hs c hc)) (fun c hc => hsmall c (ht c hc)) hsame

/-- **One character of sixteen digits and two of eight** are written alike, so they have
    the same hash. -/
theorem one_like_two :
    procMsg [0xC1C1#16] = procMsg [0xC1#16, 0xC1#16] ∧
    sha256 (procMsg [0xC1C1#16]) = sha256 (procMsg [0xC1#16, 0xC1#16]) ∧
    ¬ InjectiveOver (fun _ => True) := by
  have hsame : procMsg [0xC1C1#16] = procMsg [0xC1#16, 0xC1#16] := by decide +kernel
  refine ⟨hsame, congrArg sha256 hsame, ?_⟩
  intro h
  exact absurd (h _ _ (fun _ _ => trivial) (fun _ _ => trivial) hsame) (by decide)

end JavaSha256
