import FpgaMiner.Sha256Proofs
import FpgaMiner.DigitStringProofs

/-! # SHA-256 of a bit string

    The padding of section 5.1.1 of FIPS 180-4, the parsing of 5.2.1 and the hash
    computation of 6.2.2 over all blocks, with the digest in hexadecimal.

    **`hash`** is the eight words `H^(N)`; **`wordHex`** prints a word, and
    `hexBits_wordHex` reads it back as bits, for a hash of a hash. -/

namespace Sha256

open DigitString

/-- The number of zero bits of the padding: `l + 1 + k ≡ 448 mod 512`. -/
def zeroBits (l : Nat) : Nat := (447 + 512 - l % 512) % 512

/-- The padded message. -/
def padMessage (m : List Bool) : List Bool :=
  m ++ true :: List.replicate (zeroBits m.length) false ++ natBits 64 m.length

/-- The word a string of 32 bits stands for. -/
def bitWord (bs : List Bool) : Word := BitVec.ofNat 32 (value bs)

/-- The words `M^(i)_0, M^(i)_1, …` of block `i` of a padded message. -/
def blockWord (p : List Bool) (i t : Nat) : Word := bitWord ((p.drop (512 * i + 32 * t)).take 32)

/-- The chaining value `H^(i)`. -/
def chaining (p : List Bool) : Nat → Vars
  | 0 => initial
  | i + 1 => compress (chaining p i) (blockWord p i)

/-- **The hash of a message.** -/
def hash (m : List Bool) : Vars :=
  chaining (padMessage m) ((padMessage m).length / 512)

/-- A word as eight lower-case hexadecimal digits. -/
def wordHex (w : Word) : List Char := digits 16 8 w.toNat

/-- A digest in hexadecimal, `H_0` first. -/
def Vars.hex (v : Vars) : List Char := v.words.flatMap wordHex

/-- A digest as bits. -/
def Vars.bits (v : Vars) : List Bool := v.words.flatMap (fun w => natBits 32 w.toNat)

/-- The value of a hexadecimal digit. -/
def hexValue (c : Char) : Nat :=
  if c.toNat < 'a'.toNat then c.toNat - '0'.toNat else c.toNat - 'a'.toNat + 10

/-- The bits a hexadecimal string stands for. -/
def hexBits (s : List Char) : List Bool := s.flatMap (fun c => natBits 4 (hexValue c))

/-- The sixteen digits a digest is printed with. -/
def lowerHex : List Char := "0123456789abcdef".toList

/-- The padding fills the last block up to its length. -/
theorem zeroBits_spec (l : Nat) : zeroBits l < 512 ∧ (l + 1 + zeroBits l) % 512 = 448 := by
  unfold zeroBits
  omega

/-- A padded message is a sequence of blocks. -/
theorem padMessage_length (m : List Bool) :
    (padMessage m).length = m.length + 1 + zeroBits m.length + 64 ∧
    512 ∣ (padMessage m).length := by
  have hlen : (padMessage m).length = m.length + 1 + zeroBits m.length + 64 := by
    rw [padMessage, List.length_append, List.length_append, List.length_cons,
      List.length_replicate, natBits_length]
    omega
  obtain ⟨-, hmod⟩ := zeroBits_spec m.length
  refine ⟨hlen, Nat.dvd_of_mod_eq_zero ?_⟩
  rw [hlen]
  omega

/-- A word is read from its bits. -/
theorem bitWord_natBits (n : Nat) : bitWord (natBits 32 n) = BitVec.ofNat 32 n := by
  apply BitVec.eq_of_toNat_eq
  rw [bitWord, value_natBits, BitVec.toNat_ofNat, BitVec.toNat_ofNat, Nat.mod_mod]

/-- A digit has its value. -/
theorem hexValue_digitChar {d : Nat} (hd : d < 16) : hexValue (Nat.digitChar d) = d := by
  have hall : ∀ d : Fin 16, hexValue (Nat.digitChar d.val) = d.val := by decide
  exact hall ⟨d, hd⟩

/-- Hexadecimal digits stand for four bits each. -/
theorem hexBits_digits (w n : Nat) : hexBits (digits 16 w n) = natBits (4 * w) n := by
  induction w generalizing n with
  | zero => rfl
  | succ w ih =>
      have hd : n % 16 < 16 := Nat.mod_lt n (by decide)
      calc hexBits (digits 16 (w + 1) n)
          = hexBits (digits 16 w (n / 16)) ++ natBits 4 (hexValue (Nat.digitChar (n % 16))) := by
            rw [digits, hexBits, List.flatMap_append, List.flatMap_singleton, hexBits]
        _ = natBits (4 * w) (n / 2 ^ 4) ++ natBits 4 (n % 2 ^ 4) := by
            rw [ih, hexValue_digitChar hd, show (2 : Nat) ^ 4 = 16 from rfl]
        _ = natBits (4 * (w + 1)) n := by
            rw [natBits_mod, ← natBits_add, Nat.mul_succ]

/-- A digest has 64 digits. -/
theorem hex_length (v : Vars) : v.hex.length = 64 := by
  simp only [Vars.hex, Vars.words, List.flatMap_cons, List.flatMap_nil, List.length_append,
    List.length_nil, wordHex, digits_length]

/-- They are lower-case hexadecimal ones. -/
theorem digits_lowerHex (w n : Nat) : ∀ c ∈ digits 16 w n, c ∈ lowerHex := by
  induction w generalizing n with
  | zero =>
      intro c hc
      exact nomatch hc
  | succ w ih =>
      intro c hc
      have hall : ∀ d : Fin 16, Nat.digitChar d.val ∈ lowerHex := by decide
      rcases List.mem_append.mp hc with hinit | hlast
      · exact ih (n / 16) c hinit
      · obtain rfl := List.mem_singleton.mp hlast
        exact hall ⟨n % 16, Nat.mod_lt n (by decide)⟩

/-- A printed digest has lower-case digits only. -/
theorem hex_lower (v : Vars) : ∀ c ∈ v.hex, c ∈ lowerHex := by
  intro c hc
  obtain ⟨w, -, hw⟩ := List.mem_flatMap.mp hc
  exact digits_lowerHex 8 w.toNat c hw

/-- The bits of a word are those of its digits. -/
theorem hexBits_wordHex (w : Word) : hexBits (wordHex w) = natBits 32 w.toNat := by
  rw [wordHex, hexBits_digits]

/-- **The bits of a printed digest are the bits of its words.** -/
theorem hexBits_hex (v : Vars) : hexBits v.hex = v.bits := by
  have hassoc : hexBits v.hex = v.words.flatMap (fun w => hexBits (wordHex w)) :=
    List.flatMap_assoc
  rw [hassoc, Vars.bits, funext hexBits_wordHex]

end Sha256
