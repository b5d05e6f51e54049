import FpgaMiner.MerkleProofs
import FpgaMiner.Sha256WindowProofs

/-! # Partial Merkle trees

    `CPartialMerkleTree`: some transactions of a block with what is needed to compute the
    root.  The tree is walked depth first; a bit tells whether a node has a matched
    transaction below it, and the walk goes on below it only then.

    * **`ExtractMatches_build`** — what the constructor stores, sent and read back, gives the
      root of the block and its matched transactions in their order;
    * **`ExtractMatches_sound`** — what gives the root of a block, whoever stored it, has only
      transactions of that block. -/

namespace PartialMerkle

open MinerDriver Codec Serialize BlockHeader Transaction HashTree Merkle

/-! ## The code -/

/-- A partial Merkle tree: the number of leaves, flags of the nodes on the way, and the hashes
    that they do not lead to. -/
structure CPartialMerkleTree where
  nTransactions : Nat
  vBits : List Bool
  vHash : List Uint256
  fBad : Bool

/-- The number of nodes at a height. -/
def CalcTreeWidth (nTransactions height : Nat) : Nat :=
  (nTransactions + (1 <<< height) - 1) >>> height

/-- The hash of a node; the last one of an odd level is paired with itself. -/
def CalcHash (vTxid : List Uint256) : Nat → Nat → Uint256
  | 0, pos => vTxid.getD pos 0
  | height + 1, pos =>
      let left := CalcHash vTxid height (pos * 2)
      let right := if pos * 2 + 1 < CalcTreeWidth vTxid.length height then
          CalcHash vTxid height (pos * 2 + 1) else left
      HashPair left right

/-- The positions of the transactions below a node. -/
def positions (nTransactions height pos : Nat) : List Nat :=
  List.range' (pos <<< height) (min ((pos + 1) <<< height) nTransactions - pos <<< height)

/-- Below this node there is a matched transaction. -/
def fParentOfMatch (nTransactions : Nat) (vMatch : List Bool) (height pos : Nat) : Bool :=
  (positions nTransactions height pos).any (fun p => vMatch.getD p false)

/-- The bits and the hashes, after those that are stored. -/
def TraverseAndBuild (vTxid : List Uint256) (vMatch : List Bool) :
    Nat → Nat → List Bool × List Uint256 → List Bool × List Uint256
  | 0, pos, (vBits, vHash) =>
      (vBits ++ [fParentOfMatch vTxid.length vMatch 0 pos], vHash ++ [CalcHash vTxid 0 pos])
  | height + 1, pos, (vBits, vHash) =>
      if fParentOfMatch vTxid.length vMatch (height + 1) pos then
        let s := TraverseAndBuild vTxid vMatch height (pos * 2) (vBits ++ [true], vHash)
        if pos * 2 + 1 < CalcTreeWidth vTxid.length height then
          TraverseAndBuild vTxid vMatch height (pos * 2 + 1) s
        else s
      else (vBits ++ [false], vHash ++ [CalcHash vTxid (height + 1) pos])

/-- The widths of the levels are those of the tree. -/
theorem CalcTreeWidth_eq (n k : Nat) : CalcTreeWidth n k = width n k := by
  rw [CalcTreeWidth, width, Nat.shiftLeft_eq, Nat.one_mul, Nat.shiftRight_eq_div_pow]

/-- Above two nodes the next level is narrower, so the search for the height ends. -/
theorem CalcTreeWidth_lt {n k : Nat} (h : 1 < CalcTreeWidth n k) :
    CalcTreeWidth n (k + 1) < CalcTreeWidth n k := by
  rw [CalcTreeWidth_eq] at h ⊢
  rw [CalcTreeWidth_eq, width_succ]
  omega

/-- The loop for `nHeight`. -/
def nHeight (nTransactions height : Nat) : Nat :=
  if h : 1 < CalcTreeWidth nTransactions height then
    have := CalcTreeWidth_lt h
    nHeight nTransactions (height + 1)
  else height
termination_by CalcTreeWidth nTransactions height

/-- The constructor. -/
def CPartialMerkleTree.build (vTxid : List Uint256) (vMatch : List Bool) : CPartialMerkleTree :=
  let s := TraverseAndBuild vTxid vMatch (nHeight vTxid.length 0) 0 ([], [])
  { nTransactions := vTxid.length, vBits := s.1, vHash := s.2, fBad := false }

/-- The references that `TraverseAndExtract` changes. -/
structure Walk where
  nBitsUsed : Nat
  nHashUsed : Nat
  vMatch : List Uint256
  fBad : Bool

/-- The next stored hash, which is a matched transaction or not. -/
def takeHash (t : CPartialMerkleTree) (isMatch : Bool) (w : Walk) : Uint256 × Walk :=
  if t.vHash.length ≤ w.nHashUsed then (0, { w with fBad := true })
  else
    let hash := t.vHash.getD w.nHashUsed 0
    (hash, { w with
      nHashUsed := w.nHashUsed + 1
      vMatch := if isMatch then w.vMatch ++ [hash] else w.vMatch })

/-- The hash of a node, with the matched transactions below it added; `fBad` says that the
    flags or the hashes ran out. -/
def TraverseAndExtract (t : CPartialMerkleTree) : Nat → Nat → Walk → Uint256 × Walk
  | 0, _, w =>
      if t.vBits.length ≤ w.nBitsUsed then (0, { w with fBad := true })
      else
        takeHash t (t.vBits.getD w.nBitsUsed false) { w with nBitsUsed := w.nBitsUsed + 1 }
  | height + 1, pos, w =>
      if t.vBits.length ≤ w.nBitsUsed then (0, { w with fBad := true })
      else if t.vBits.getD w.nBitsUsed false then
        let l := TraverseAndExtract t height (pos * 2) { w with nBitsUsed := w.nBitsUsed + 1 }
        let r := if pos * 2 + 1 < CalcTreeWidth t.nTransactions height then
            TraverseAndExtract t height (pos * 2 + 1) l.2 else l
        (HashPair l.1 r.1, r.2)
      else takeHash t false { w with nBitsUsed := w.nBitsUsed + 1 }

/-- The root, or zero, and `vMatch`. -/
def CPartialMerkleTree.ExtractMatches (t : CPartialMerkleTree) : Uint256 × List Uint256 :=
  if t.nTransactions = 0 then (0, [])
  else if t.nTransactions > MAX_BLOCK_SIZE / 60 then (0, [])
  else if t.vHash.length > t.nTransactions then (0, [])
  else if t.vBits.length < t.vHash.length then (0, [])
  else
    let r := TraverseAndExtract t (nHeight t.nTransactions 0) 0
      { nBitsUsed := 0, nHashUsed := 0, vMatch := [], fBad := t.fBad }
    if r.2.fBad then (0, r.2.vMatch)
    else if (r.2.nBitsUsed + 7) / 8 ≠ (t.vBits.length + 7) / 8 then (0, r.2.vMatch)
    else if r.2.nHashUsed ≠ t.vHash.length then (0, r.2.vMatch)
    else (r.1, r.2.vMatch)

/-! ## The format -/

/-- One round of the loop over the bits. -/
def packBit (vBits : List Bool) (vBytes : List Byte) (p : Nat) : List Byte :=
  vBytes.set (p / 8) (vBytes.getD (p / 8) 0 ||| if vBits.getD p false then 1#8 <<< (p % 8) else 0)

/-- The flags in bytes, the first one lowest. -/
def packBits (vBits : List Bool) : List Byte :=
  (List.range vBits.length).foldl (packBit vBits) (List.replicate ((vBits.length + 7) / 8) 0)

/-- The bits of the bytes, up to the end of the last one. -/
def unpackBits (vBytes : List Byte) : List Bool :=
  (List.range (vBytes.length * 8)).map (fun p => vBytes.getD (p / 8) 0 &&& (1#8 <<< (p % 8)) ≠ 0)

/-- What is written: the number of transactions, the hashes and the bytes of the flags. -/
def fields : Codec Byte (BitVec 32 × List Uint256 × List Byte) :=
  uint32.pair ((counted compactSize uint256).pair byteVector)

/-- The bytes of a partial tree. -/
def CPartialMerkleTree.Serialize (t : CPartialMerkleTree) : List Byte :=
  fields.write (BitVec.ofNat 32 t.nTransactions, t.vHash, packBits t.vBits)

/-- A partial tree is read from the front of a stream; the flags are padded with zeros. -/
def CPartialMerkleTree.Unserialize (is : List Byte) : Option (CPartialMerkleTree × List Byte) :=
  (fields.read is).map (fun r =>
    ({ nTransactions := r.1.1.toNat, vHash := r.1.2.1, vBits := unpackBits r.1.2.2, fBad := false }, r.2))

/-! ## The tree -/

/-- It ends at the height of the tree. -/
theorem nHeight_eq (n : Nat) (d : Nat) {k : Nat} (hk : height n = k + d) : nHeight n k = height n := by
  induction d generalizing k with
  | zero =>
      rw [nHeight, dif_neg]
      · exact hk.symm
      · rw [CalcTreeWidth_eq, Nat.not_lt, width_le_one]
        omega
  | succ d ih =>
      rw [nHeight, dif_pos]
      · exact ih (by omega)
      · rw [CalcTreeWidth_eq, ← Nat.not_le, width_le_one]
        omega

/-- From the leaves on. -/
theorem nHeight_zero (n : Nat) : nHeight n 0 = height n := nHeight_eq n (height n) (Nat.zero_add _).symm

/-- The right child is in the tree, or it is the left child. -/
theorem right_cases {n k pos : Nat} (hpos : pos < width n (k + 1)) :
    (pos * 2 + 1 < CalcTreeWidth n k ∧ right n k pos = pos * 2 + 1)
      ∨ (¬ pos * 2 + 1 < CalcTreeWidth n k ∧ right n k pos = pos * 2) := by
  have hleft := left_lt hpos
  rw [CalcTreeWidth_eq, right]
  omega

/-- The hash of a node is that of the tree. -/
theorem CalcHash_eq (vTxid : List Uint256) {k pos : Nat} (hpos : pos < width vTxid.length k) :
    CalcHash vTxid k pos = node HashPair (leaves vTxid) vTxid.length k pos := by
  induction k generalizing pos with
  | zero => rfl
  | succ k ih =>
      have hl := ih (left_lt hpos)
      have hr := ih (right_lt hpos)
      rw [Nat.mul_comm] at hl
      rw [CalcHash, node]
      rcases right_cases hpos with ⟨hlt, heq⟩ | ⟨hlt, heq⟩
      · simp only [if_pos hlt]
        rw [hl, ← heq, hr, Nat.mul_comm pos]
      · simp only [if_neg hlt]
        rw [← hr, heq, hl, Nat.mul_comm pos]

/-! ## What the constructor stores -/

section Build

variable (vTxid : List Uint256) (vMatch : List Bool)

/-- The flags that `TraverseAndBuild` writes below a node. -/
def bitsOf : Nat → Nat → List Bool
  | 0, pos => [fParentOfMatch vTxid.length vMatch 0 pos]
  | height + 1, pos =>
      if fParentOfMatch vTxid.length vMatch (height + 1) pos then
        true :: (bitsOf height (pos * 2)
          ++ if pos * 2 + 1 < CalcTreeWidth vTxid.length height then bitsOf height (pos * 2 + 1) else [])
      else [false]

/-- The hashes that `TraverseAndBuild` writes below a node. -/
def hashesOf : Nat → Nat → List Uint256
  | 0, pos => [CalcHash vTxid 0 pos]
  | height + 1, pos =>
      if fParentOfMatch vTxid.length vMatch (height + 1) pos then
        hashesOf height (pos * 2)
          ++ if pos * 2 + 1 < CalcTreeWidth vTxid.length height then hashesOf height (pos * 2 + 1) else []
      else [CalcHash vTxid (height + 1) pos]

/-- The matched ones of some transactions. -/
def matched (ps : List Nat) : List Uint256 :=
  (ps.filter (fun p => vMatch.getD p false)).map (fun p => vTxid.getD p 0)

variable {vTxid vMatch}

/-- The loop appends the flags and hashes of its node. -/
theorem TraverseAndBuild_eq (k pos : Nat) (s : List Bool × List Uint256) :
    TraverseAndBuild vTxid vMatch k pos s
      = (s.1 ++ bitsOf vTxid vMatch k pos, s.2 ++ hashesOf vTxid vMatch k pos) := by
  induction k generalizing pos s with
  | zero => rfl
  | succ k ih =>
      obtain ⟨vBits, vHash⟩ := s
      rw [TraverseAndBuild, bitsOf, hashesOf]
      split
      · simp only [ih]
        split
        · simp only [List.append_assoc, List.cons_append, List.nil_append]
        · simp only [List.append_assoc, List.singleton_append, List.append_nil]
      · rfl

/-- Matches are found one by one. -/
theorem matched_append (ps qs : List Nat) :
    matched vTxid vMatch (ps ++ qs) = matched vTxid vMatch ps ++ matched vTxid vMatch qs := by
  rw [matched, matched, matched, List.filter_append, List.map_append]

/-- Below a leaf there is itself. -/
theorem positions_zero {n pos : Nat} (hpos : pos < n) : positions n 0 pos = [pos] := by
  have hone : min (pos + 1) n - pos = 1 := by omega
  rw [positions, Nat.shiftLeft_zero, Nat.shiftLeft_zero, hone]
  rfl

/-- The transactions below a node are those below its children. -/
theorem positions_succ {n k pos : Nat} (hpos : pos < width n (k + 1)) :
    positions n (k + 1) pos = positions n k (pos * 2)
      ++ if pos * 2 + 1 < CalcTreeWidth n k then positions n k (pos * 2 + 1) else [] := by
  have hleft := lt_width_iff.mp hpos
  have hpow : pos * 2 ^ (k + 1) = pos * 2 * 2 ^ k := by
    rw [Nat.pow_succ, Nat.mul_comm (2 ^ k), Nat.mul_assoc]
  have hpow' : (pos + 1) * 2 ^ (k + 1) = pos * 2 * 2 ^ k + 2 ^ k + 2 ^ k := by
    rw [Nat.succ_mul, hpow, Nat.pow_succ]
    omega
  have hmid : (pos * 2 + 1) * 2 ^ k = pos * 2 * 2 ^ k + 2 ^ k := Nat.succ_mul _ _
  have hend : (pos * 2 + 1 + 1) * 2 ^ k = pos * 2 * 2 ^ k + 2 ^ k + 2 ^ k := by
    rw [Nat.succ_mul, hmid]
  rw [hpow] at hleft
  simp only [positions, Nat.shiftLeft_eq, CalcTreeWidth_eq, lt_width_iff, hpow, hpow', hmid, hend]
  generalize pos * 2 * 2 ^ k = a at *
  generalize 2 ^ k = b at *
  split
  · next hlt =>
      rw [Nat.min_eq_left (Nat.le_of_lt hlt), Nat.add_sub_cancel_left, List.range'_append_1]
      congr 1
      omega
  · next hge =>
      rw [List.append_nil]
      congr 1
      omega

/-- Below a node there is a leaf. -/
theorem positions_length {n k pos : Nat} (hpos : pos < width n k) : 1 ≤ (positions n k pos).length := by
  have hleft := lt_width_iff.mp hpos
  have hpow : 0 < 2 ^ k := Nat.two_pow_pos k
  have hend : (pos + 1) * 2 ^ k = pos * 2 ^ k + 2 ^ k := Nat.succ_mul _ _
  rw [positions, List.length_range', Nat.shiftLeft_eq, Nat.shiftLeft_eq, hend]
  omega

/-- A node that is no parent of a match has none below it. -/
theorem matched_of_not {n k pos : Nat} (h : ¬ fParentOfMatch n vMatch k pos = true) :
    matched vTxid vMatch (positions n k pos) = [] := by
  rw [matched, List.map_eq_nil_iff, List.filter_eq_nil_iff]
  intro p hp hmatch
  exact h (List.any_eq_true.mpr ⟨p, hp, hmatch⟩)

/-- A hash is stored for a transaction below the node, and with a bit. -/
theorem hashesOf_length (vMatch : List Bool) {k pos : Nat} (hpos : pos < width vTxid.length k) :
    (hashesOf vTxid vMatch k pos).length ≤ (positions vTxid.length k pos).length
      ∧ (hashesOf vTxid vMatch k pos).length ≤ (bitsOf vTxid vMatch k pos).length := by
  induction k generalizing pos with
  | zero => exact ⟨positions_length hpos, Nat.le_refl 1⟩
  | succ k ih =>
      have hone := positions_length hpos
      rw [hashesOf, bitsOf]
      split
      · rw [positions_succ hpos]
        obtain ⟨h1, h2⟩ := ih (Nat.mul_comm 2 pos ▸ left_lt hpos)
        split
        · next hright =>
            obtain ⟨h3, h4⟩ := ih (by rw [← CalcTreeWidth_eq]; exact hright)
            simp only [List.length_append, List.length_cons]
            omega
        · simp only [List.length_append, List.length_cons, List.length_nil]
          omega
      · exact ⟨hone, Nat.le_refl 1⟩

/-! ## What is extracted again -/

/-- The next hash is taken. -/
theorem takeHash_eq {t : CPartialMerkleTree} {isMatch : Bool} {pre post : List Uint256}
    {hash : Uint256} (hvec : t.vHash = pre ++ hash :: post) {n : Nat} (hn : n = pre.length)
    (b : Nat) (m : List Uint256) (bad : Bool) :
    takeHash t isMatch ⟨b, n, m, bad⟩
      = (hash, ⟨b, n + 1, m ++ if isMatch then [hash] else [], bad⟩) := by
  have hlen : ¬ t.vHash.length ≤ n := by
    rw [hvec, hn, List.length_append, List.length_cons]
    omega
  have hget : t.vHash.getD n 0 = hash := by
    rw [hvec, hn, List.getD_eq_getElem?_getD, List.getElem?_append_right (Nat.le_refl _),
      Nat.sub_self, List.getElem?_cons_zero, Option.getD_some]
  rw [takeHash, if_neg hlen, hget]
  cases isMatch with
  | false =>
      show (hash, _) = (hash, _)
      simp only [Bool.false_eq_true, if_false, List.append_nil]
  | true => rfl

/-- The next bit is there. -/
theorem nextBit {t : CPartialMerkleTree} {n : Nat} {pre post : List Bool} {b : Bool}
    (hvec : t.vBits = pre ++ b :: post) (hn : n = pre.length) :
    ¬ t.vBits.length ≤ n ∧ t.vBits.getD n false = b := by
  rw [hvec, hn]
  constructor
  · rw [List.length_append, List.length_cons]
    omega
  · rw [List.getD_eq_getElem?_getD, List.getElem?_append_right (Nat.le_refl _), Nat.sub_self,
      List.getElem?_cons_zero, Option.getD_some]

/-- **The walk over what was stored for a node** gives its hash and the matched transactions
    below it, and uses up just that. -/
theorem TraverseAndExtract_build {t : CPartialMerkleTree} (ht : t.nTransactions = vTxid.length)
    {k pos : Nat} (hpos : pos < width vTxid.length k) {pre post : List Bool}
    {pre' post' : List Uint256} {n n' : Nat}
    (hbits : t.vBits = pre ++ (bitsOf vTxid vMatch k pos ++ post)) (hn : n = pre.length)
    (hhash : t.vHash = pre' ++ (hashesOf vTxid vMatch k pos ++ post')) (hn' : n' = pre'.length)
    (m : List Uint256) (bad : Bool) :
    TraverseAndExtract t k pos ⟨n, n', m, bad⟩
      = (node HashPair (leaves vTxid) vTxid.length k pos,
          ⟨n + (bitsOf vTxid vMatch k pos).length, n' + (hashesOf vTxid vMatch k pos).length,
            m ++ matched vTxid vMatch (positions vTxid.length k pos), bad⟩) := by
  induction k generalizing pos pre post pre' post' n n' m with
  | zero =>
      have hpos' : pos < vTxid.length := by rwa [width_zero] at hpos
      obtain ⟨hlen, hbit⟩ := nextBit hbits hn
      rw [TraverseAndExtract, if_neg hlen, hbit, takeHash_eq hhash hn', positions_zero hpos',
        fParentOfMatch, positions_zero hpos', matched, List.any_cons, List.any_nil, Bool.or_false]
      cases hm : vMatch.getD pos false with
      | false =>
          rw [List.filter_cons_of_neg (by rw [hm]; decide)]
          rfl
      | true =>
          rw [List.filter_cons_of_pos (by rw [hm])]
          rfl
  | succ k ih =>
      have hleft : pos * 2 < width vTxid.length k := Nat.mul_comm 2 pos ▸ left_lt hpos
      by_cases hparent : fParentOfMatch vTxid.length vMatch (k + 1) pos = true
      · rw [bitsOf, if_pos hparent] at hbits
        rw [hashesOf, if_pos hparent] at hhash
        obtain ⟨hlen, hbit⟩ := nextBit hbits hn
        rw [TraverseAndExtract, if_neg hlen, hbit, if_pos rfl, ht, bitsOf, if_pos hparent, hashesOf,
          if_pos hparent, positions_succ hpos, matched_append, node, Nat.mul_comm 2 pos]
        have hbl : t.vBits = (pre ++ [true]) ++ (bitsOf vTxid vMatch k (pos * 2)
            ++ ((if pos * 2 + 1 < CalcTreeWidth vTxid.length k then
              bitsOf vTxid vMatch k (pos * 2 + 1) else []) ++ post)) := by
          rw [hbits]
          simp only [List.append_assoc, List.cons_append, List.nil_append]
        rw [List.append_assoc] at hhash
        have hl := ih hleft hbl (n := n + 1)
          (by rw [hn, List.length_append, List.length_singleton]) hhash hn' m
        rcases right_cases hpos with ⟨hlt, heq⟩ | ⟨hlt, heq⟩
        · simp only [if_pos hlt] at hbits hhash ⊢
          have hright : pos * 2 + 1 < width vTxid.length k := by rwa [CalcTreeWidth_eq] at hlt
          have hbr : t.vBits = (pre ++ true :: bitsOf vTxid vMatch k (pos * 2))
              ++ (bitsOf vTxid vMatch k (pos * 2 + 1) ++ post) := by
            rw [hbits]
            simp only [List.append_assoc, List.cons_append]
          have hhr : t.vHash = (pre' ++ hashesOf vTxid vMatch k (pos * 2))
              ++ (hashesOf vTxid vMatch k (pos * 2 + 1) ++ post') := by
            rw [hhash, List.append_assoc]
          have hr := ih hright hbr (n := n + 1 + (bitsOf vTxid vMatch k (pos * 2)).length)
            (by rw [hn, List.length_append, List.length_cons]; omega) hhr rfl
            (m ++ matched vTxid vMatch (positions vTxid.length k (pos * 2)))
          rw [List.length_append, ← hn'] at hr
          have hcount : ∀ x y : Nat, n + 1 + x + y = n + (x + y + 1) := by
            intro x y
            omega
          rw [hl, hr, heq, List.length_cons, List.length_append, List.length_append,
            List.append_assoc, hcount, Nat.add_assoc n']
        · simp only [if_neg hlt, List.append_nil]
          have hempty : matched vTxid vMatch [] = [] := rfl
          have hcount : ∀ x : Nat, n + 1 + x = n + (x + 1) := by
            intro x
            omega
          rw [hl, heq, List.length_cons, hempty, List.append_nil, hcount]
      · rw [bitsOf, if_neg hparent] at hbits
        rw [hashesOf, if_neg hparent] at hhash
        obtain ⟨hlen, hbit⟩ := nextBit hbits hn
        rw [TraverseAndExtract, if_neg hlen, hbit, if_neg Bool.false_ne_true, takeHash_eq hhash hn',
          matched_of_not hparent, bitsOf, if_neg hparent, hashesOf, if_neg hparent, CalcHash_eq vTxid hpos]
        rfl

end Build

/-! ## Bits in bytes -/

/-- Packing a flag does not change the number of bytes. -/
theorem packBit_length (vBits : List Bool) (v : List Byte) (p : Nat) :
    (packBit vBits v p).length = v.length := by
  rw [packBit, List.length_set]

/-- It sets one bit. -/
theorem packBit_bit {vBits : List Bool} {v : List Byte} {p : Nat} (hp : p / 8 < v.length) (q : Nat) :
    ((packBit vBits v p).getD (q / 8) 0).getLsbD (q % 8)
      = ((v.getD (q / 8) 0).getLsbD (q % 8) || (decide (q = p) && vBits.getD p false)) := by
  have hq8 : q % 8 < 8 := Nat.mod_lt q (by decide)
  have hp8 : p % 8 < 8 := Nat.mod_lt p (by decide)
  rw [packBit, List.getD_eq_getElem?_getD, List.getElem?_set]
  by_cases hdiv : p / 8 = q / 8
  · have hmod : decide (q = p) = decide (p % 8 = q % 8) := by
      apply decide_eq_decide.mpr
      omega
    rw [if_pos hdiv, if_pos hp, Option.getD_some, BitVec.getLsbD_or, hdiv, hmod]
    congr 1
    split
    · next hbit =>
        rw [hbit, Bool.and_true, ← BitVec.twoPow_eq, BitVec.getLsbD_twoPow]
        simp only [hp8, decide_true, Bool.true_and]
    · next hbit =>
        rw [Bool.not_eq_true _ |>.mp hbit, Bool.and_false]
        exact BitVec.getLsbD_zero
  · have hne : decide (q = p) = false := by
      apply decide_eq_false
      intro h
      exact hdiv (by rw [h])
    rw [if_neg hdiv, hne, Bool.false_and, Bool.or_false, List.getD_eq_getElem?_getD]

/-- The loop over the bits, after the first `m` of them. -/
theorem packBits_loop (vBits : List Bool) {m : Nat} (hm : m ≤ vBits.length) :
    let v := (List.range m).foldl (packBit vBits) (List.replicate ((vBits.length + 7) / 8) 0)
    v.length = (vBits.length + 7) / 8
      ∧ ∀ q, (v.getD (q / 8) 0).getLsbD (q % 8) = (decide (q < m) && vBits.getD q false) := by
  induction m with
  | zero =>
      refine ⟨List.length_replicate, ?_⟩
      intro q
      have hzero : (List.replicate ((vBits.length + 7) / 8) (0 : Byte)).getD (q / 8) 0 = 0#8 := by
        rw [List.getD_eq_getElem?_getD, List.getElem?_replicate]
        split
        · rfl
        · rfl
      rw [List.range_zero, List.foldl_nil, hzero]
      simp only [BitVec.getLsbD_zero, Nat.not_lt_zero, decide_false, Bool.false_and]
  | succ m ih =>
      obtain ⟨hlen, hbit⟩ := ih (Nat.le_of_succ_le hm)
      rw [List.range_succ, List.foldl_append, List.foldl_cons, List.foldl_nil]
      refine ⟨(packBit_length vBits _ m).trans hlen, ?_⟩
      intro q
      rw [packBit_bit (by rw [hlen]; omega), hbit q]
      by_cases hq : q = m
      · subst hq
        simp only [Nat.lt_irrefl, decide_false, Bool.false_and, decide_true, Bool.true_and,
          Bool.false_or, Nat.lt_succ_self]
      · have hlt : (q < m + 1) = (q < m) := by
          apply propext
          omega
        simp only [hq, decide_false, Bool.false_and, Bool.or_false, hlt]

/-- The bits that fill the last byte. -/
def padding (n : Nat) : Nat := (n + 7) / 8 * 8 - n

/-- Padding fills the last byte. -/
theorem add_padding (n : Nat) : (n + padding n + 7) / 8 = (n + 7) / 8 := by
  rw [padding]
  omega

/-- **The flags are unpacked** with the padding behind them. -/
theorem unpackBits_packBits (vBits : List Bool) :
    unpackBits (packBits vBits) = vBits ++ List.replicate (padding vBits.length) false := by
  obtain ⟨hlen, hbit⟩ := packBits_loop vBits (Nat.le_refl _)
  have hlen : (packBits vBits).length = (vBits.length + 7) / 8 := hlen
  apply List.ext_getElem
  · rw [unpackBits, List.length_map, List.length_range, hlen, List.length_append, List.length_replicate,
      padding]
    omega
  · intro q hq _
    have hb := hbit q
    simp only [unpackBits, List.getElem_map, List.getElem_range]
    rw [mask_ne_zero _ (Nat.mod_lt q (by decide)), packBits, hb]
    by_cases hlt : q < vBits.length
    · rw [List.getElem_append_left hlt, List.getD_eq_getElem?_getD, List.getElem?_eq_getElem hlt,
        Option.getD_some]
      simp only [hlt, decide_true, Bool.true_and]
    · rw [List.getElem_append_right (Nat.not_lt.mp hlt), List.getElem_replicate]
      simp only [hlt, decide_false, Bool.false_and]

/-- The number of bytes. -/
theorem packBits_length (vBits : List Bool) : (packBits vBits).length = (vBits.length + 7) / 8 :=
  (packBits_loop vBits (Nat.le_refl _)).1

/-- **A partial tree is read back** with its last byte of bits filled up. -/
theorem Unserialize_Serialize {t : CPartialMerkleTree} (hn : t.nTransactions < 2 ^ 32)
    (hhash : t.vHash.length ≤ MAX_SIZE) (hbits : (t.vBits.length + 7) / 8 ≤ MAX_SIZE)
    (rest : List Byte) :
    CPartialMerkleTree.Unserialize (t.Serialize ++ rest)
      = some ({ t with vBits := t.vBits ++ List.replicate (padding t.vBits.length) false, fBad := false },
          rest) := by
  have hfits : fields.fits (BitVec.ofNat 32 t.nTransactions, t.vHash, packBits t.vBits) := by
    refine ⟨trivial, ⟨hhash, fun _ _ => trivial⟩, ?_, fun _ _ => trivial⟩
    show (packBits t.vBits).length ≤ MAX_SIZE
    rw [packBits_length]
    exact hbits
  have hto : (BitVec.ofNat 32 t.nTransactions).toNat = t.nTransactions := by
    rw [BitVec.toNat_ofNat, Nat.mod_eq_of_lt hn]
  rw [CPartialMerkleTree.Unserialize, CPartialMerkleTree.Serialize, fields.read_write _ rest hfits,
    Option.map_some, unpackBits_packBits, hto]

/-! ## Round trip -/

/-- A tree of height `k` has less than `2 ^ (k + 1)` nodes. -/
theorem bitsOf_length (vTxid : List Uint256) (vMatch : List Bool) (k pos : Nat) :
    (bitsOf vTxid vMatch k pos).length < 2 ^ (k + 1) := by
  induction k generalizing pos with
  | zero => exact Nat.lt_two_pow_self
  | succ k ih =>
      have h1 := ih (pos * 2)
      have h2 := ih (pos * 2 + 1)
      have hpos := Nat.two_pow_pos (k + 1)
      rw [bitsOf, Nat.pow_succ]
      split
      · rw [List.length_cons, List.length_append]
        split
        · omega
        · rw [List.length_nil]
          omega
      · rw [List.length_singleton]
        omega

/-- The flags and hashes of a tree that was built. -/
theorem build_eq (vTxid : List Uint256) (vMatch : List Bool) :
    CPartialMerkleTree.build vTxid vMatch
      = { nTransactions := vTxid.length
          vBits := bitsOf vTxid vMatch (height vTxid.length) 0
          vHash := hashesOf vTxid vMatch (height vTxid.length) 0
          fBad := false } := by
  rw [CPartialMerkleTree.build, nHeight_zero, TraverseAndBuild_eq]
  rfl

/-- Below the root there are all leaves, in their order. -/
theorem positions_root (n : Nat) : positions n (height n) 0 = List.range n := by
  have hle := le_pow_height n
  rw [positions, Nat.zero_add, Nat.shiftLeft_eq, Nat.shiftLeft_eq, Nat.zero_mul, Nat.one_mul,
    Nat.sub_zero, Nat.min_eq_right hle, ← List.range_eq_range']

/-- A tree that was built gives its root and the matches, with any padding of its flags. -/
theorem ExtractMatches_padded {vTxid : List Uint256} {vMatch : List Bool} (hne : vTxid ≠ [])
    (hmax : vTxid.length ≤ MAX_BLOCK_SIZE / 60) {t : CPartialMerkleTree} {pad : List Bool}
    (hn : t.nTransactions = vTxid.length) (hbad : t.fBad = false)
    (hhash : t.vHash = hashesOf vTxid vMatch (height vTxid.length) 0)
    (hbits : t.vBits = bitsOf vTxid vMatch (height vTxid.length) 0 ++ pad)
    (hpad : (t.vBits.length + 7) / 8 = ((bitsOf vTxid vMatch (height vTxid.length) 0).length + 7) / 8) :
    t.ExtractMatches = (BuildMerkleTree vTxid, matched vTxid vMatch (List.range vTxid.length)) := by
  have hpos : 0 < vTxid.length := List.length_pos_of_ne_nil hne
  have hroot : 0 < width vTxid.length (height vTxid.length) := width_pos hpos
  obtain ⟨h1, h2⟩ := hashesOf_length vMatch hroot
  rw [positions_root, List.length_range] at h1
  have hbits' : t.vBits = [] ++ (bitsOf vTxid vMatch (height vTxid.length) 0 ++ pad) := hbits
  have hhash' : t.vHash = [] ++ (hashesOf vTxid vMatch (height vTxid.length) 0 ++ []) := by
    rw [hhash, List.append_nil, List.nil_append]
  have hwalk := TraverseAndExtract_build hn hroot hbits' (List.length_nil).symm hhash'
    (List.length_nil).symm [] t.fBad
  rw [CPartialMerkleTree.ExtractMatches, hn, if_neg (by omega), if_neg (by omega),
    if_neg (by rw [hhash]; omega), if_neg (by rw [hbits, hhash, List.length_append]; omega),
    nHeight_zero, hwalk]
  simp only [hbad, Bool.false_eq_true, if_false, Nat.zero_add, List.nil_append]
  rw [if_neg (by rw [hpad]; exact not_not.mpr rfl), if_neg (by rw [hhash]; exact not_not.mpr rfl),
    positions_root, BuildMerkleTree_eq hne]
  rfl

/-- **Stored, sent, read back and extracted**: the root of the block and its matched
    transactions. -/
theorem ExtractMatches_build (vTxid : List Uint256) (vMatch : List Bool) (rest : List Byte)
    (hne : vTxid ≠ []) (hmax : vTxid.length ≤ MAX_BLOCK_SIZE / 60) :
    (CPartialMerkleTree.Unserialize ((CPartialMerkleTree.build vTxid vMatch).Serialize ++ rest)).map
        (fun r => (r.1.ExtractMatches, r.2))
      = some ((BuildMerkleTree vTxid,
          ((List.range vTxid.length).filter (fun p => vMatch.getD p false)).map (fun p => vTxid.getD p 0)),
          rest) := by
  have hpos : 0 < vTxid.length := List.length_pos_of_ne_nil hne
  have hmax' : vTxid.length ≤ 16666 := hmax
  obtain ⟨h1, -⟩ := hashesOf_length vMatch (width_pos hpos (k := height vTxid.length))
  rw [positions_root, List.length_range] at h1
  have hheight : height vTxid.length ≤ 15 :=
    (Nat.clog_le_iff_le_pow (by decide)).mpr (Nat.le_trans hmax' (by decide))
  have hbits : (bitsOf vTxid vMatch (height vTxid.length) 0).length < 2 ^ 16 :=
    Nat.lt_of_lt_of_le (bitsOf_length ..) (Nat.pow_le_pow_right (by decide) (by omega))
  have hsize : MAX_SIZE = 33554432 := rfl
  rw [build_eq, Unserialize_Serialize]
  · rw [Option.map_some]
    congr 2
    exact ExtractMatches_padded hne hmax rfl rfl rfl rfl
      (by rw [List.length_append, List.length_replicate, add_padding])
  · show vTxid.length < 2 ^ 32
    omega
  · show (hashesOf _ _ _ _).length ≤ MAX_SIZE
    omega
  · show ((bitsOf _ _ _ _).length + 7) / 8 ≤ MAX_SIZE
    omega

/-- Three transactions, so that the last one is paired with itself, and two of them matched. -/
theorem ExtractMatches_build_three :
    (CPartialMerkleTree.Unserialize
        ((CPartialMerkleTree.build [7, 8, 9] [true, false, true]).Serialize ++ [0xab])).map
        (fun r => (r.1.ExtractMatches, r.2))
      = some ((BuildMerkleTree [7, 8, 9], [7, 9]), [0xab]) :=
  ExtractMatches_build [7, 8, 9] [true, false, true] [0xab] (by decide) (by decide)

/-! ## Soundness -/

/-- A hash that is taken without an error is a match if it was asked for as one. -/
theorem takeHash_fBad {t : CPartialMerkleTree} {isMatch : Bool} {w : Walk}
    (h : (takeHash t isMatch w).2.fBad = false) :
    w.fBad = false ∧ (takeHash t isMatch w).2.vMatch
      = w.vMatch ++ if isMatch then [(takeHash t isMatch w).1] else [] := by
  rw [takeHash] at h ⊢
  split at h
  · cases h
  · next hlen =>
      rw [if_neg hlen]
      refine ⟨h, ?_⟩
      cases isMatch with
      | false => exact (List.append_nil _).symm
      | true => rfl

/-- A failure is remembered. -/
theorem fBad_of_extract {t : CPartialMerkleTree} {k pos : Nat} {w : Walk}
    (h : (TraverseAndExtract t k pos w).2.fBad = false) : w.fBad = false := by
  induction k generalizing pos w with
  | zero =>
      rw [TraverseAndExtract] at h
      split at h
      · cases h
      · exact (takeHash_fBad h).1
  | succ k ih =>
      rw [TraverseAndExtract] at h
      split at h
      · cases h
      · split at h
        · simp only at h
          split at h
          · have hw := ih (ih h)
            exact hw
          · have hw := ih h
            exact hw
        · exact (takeHash_fBad h).1

/-- The pairs of hashes that `TraverseAndExtract` hashes. -/
def extractPairs (t : CPartialMerkleTree) : Nat → Nat → Walk → List (Uint256 × Uint256)
  | 0, _, _ => []
  | height + 1, pos, w =>
      if t.vBits.length ≤ w.nBitsUsed then []
      else if t.vBits.getD w.nBitsUsed false then
        let wl : Walk := { w with nBitsUsed := w.nBitsUsed + 1 }
        let l := TraverseAndExtract t height (pos * 2) wl
        let pl := extractPairs t height (pos * 2) wl
        if pos * 2 + 1 < CalcTreeWidth t.nTransactions height then
          (l.1, (TraverseAndExtract t height (pos * 2 + 1) l.2).1)
            :: (pl ++ extractPairs t height (pos * 2 + 1) l.2)
        else (l.1, l.1) :: pl
      else []

/-- The walk of `ExtractMatches` from its start. -/
def CPartialMerkleTree.start (t : CPartialMerkleTree) : Walk :=
  { nBitsUsed := 0, nHashUsed := 0, vMatch := [], fBad := t.fBad }

/-- The pairs that `ExtractMatches` hashes. -/
def CPartialMerkleTree.hashedPairs (t : CPartialMerkleTree) : Set (Uint256 × Uint256) :=
  {x | x ∈ extractPairs t (nHeight t.nTransactions 0) 0 t.start}

/-- A branch of height `k` from a transaction below node `pos` to a hash, with its pairs in
    `T`. -/
def Below (T : Set (Uint256 × Uint256)) (k pos : Nat) (hash x : Uint256) : Prop :=
  ∃ (p : Nat) (branch : List Uint256), branch.length = k ∧ p / 2 ^ k = pos
    ∧ (∀ y ∈ steps HashPair x p branch, y ∈ T) ∧ climb HashPair x p branch = hash

/-- The branch from a child goes on to its parent. -/
theorem Below.step {T : Set (Uint256 × Uint256)} {k pos b : Nat} {hash x other : Uint256} (hb : b < 2)
    (hT : (if b = 1 then (other, hash) else (hash, other)) ∈ T) (h : Below T k (pos * 2 + b) hash x) :
    Below T (k + 1) pos (if b = 1 then HashPair other hash else HashPair hash other) x := by
  obtain ⟨p, branch, hlen, hp, hsteps, hclimb⟩ := h
  have hcast : (p : Int) / 2 ^ k % 2 = 1 ↔ b = 1 := by
    have hpk : (p : Int) / 2 ^ k = (pos * 2 + b : Nat) := by
      rw [← hp]
      norm_cast
    rw [hpk]
    omega
  refine ⟨p, branch ++ [other], ?_, ?_, ?_, ?_⟩
  · rw [List.length_append, List.length_singleton, hlen]
  · rw [Nat.pow_succ, ← Nat.div_div_eq_div_mul, hp]
    omega
  · intro y hy
    rw [steps_concat, hlen, hclimb] at hy
    simp only [hcast] at hy
    rcases List.mem_append.mp hy with hy | hy
    · exact hsteps y hy
    · rw [List.mem_singleton.mp hy]
      exact hT
  · rw [climb_concat, hlen, hclimb]
    simp only [hcast]

/-- **Every match of a walk that did not fail has a branch** to the hash of the node. -/
theorem extract_branches {t : CPartialMerkleTree} {T : Set (Uint256 × Uint256)} {k pos : Nat} {w : Walk}
    (h : (TraverseAndExtract t k pos w).2.fBad = false) (hT : ∀ y ∈ extractPairs t k pos w, y ∈ T) :
    ∃ ms, (TraverseAndExtract t k pos w).2.vMatch = w.vMatch ++ ms
      ∧ ∀ x ∈ ms, Below T k pos (TraverseAndExtract t k pos w).1 x := by
  induction k generalizing pos w with
  | zero =>
      rw [TraverseAndExtract] at h ⊢
      split at h
      · cases h
      · next hlen =>
          rw [if_neg hlen]
          refine ⟨_, (takeHash_fBad h).2, ?_⟩
          intro x hx
          split at hx
          · rw [List.mem_singleton.mp hx]
            exact ⟨pos, [], rfl, by rw [Nat.pow_zero, Nat.div_one],
              fun y hy => (List.not_mem_nil hy).elim, rfl⟩
          · exact (List.not_mem_nil hx).elim
  | succ k ih =>
      rw [TraverseAndExtract] at h ⊢
      rw [extractPairs] at hT
      split at h
      · cases h
      · next hlen =>
          rw [if_neg hlen] at hT ⊢
          split at h
          · next hbit =>
              rw [if_pos hbit] at hT ⊢
              simp only at h hT ⊢
              split at h
              · next hright =>
                  rw [if_pos hright] at hT ⊢
                  obtain ⟨hpair, hpairs⟩ := List.forall_mem_cons.mp hT
                  obtain ⟨ml, hml, hl⟩ := ih (fBad_of_extract h)
                    (fun y hy => hpairs y (List.mem_append_left _ hy))
                  obtain ⟨mr, hmr, hr⟩ := ih h (fun y hy => hpairs y (List.mem_append_right _ hy))
                  refine ⟨ml ++ mr, by rw [hmr, hml, List.append_assoc], ?_⟩
                  intro x hx
                  rcases List.mem_append.mp hx with hx | hx
                  · exact Below.step (b := 0) (by decide) hpair (hl x hx)
                  · exact Below.step (b := 1) (by decide) hpair (hr x hx)
              · next hright =>
                  rw [if_neg hright] at hT ⊢
                  obtain ⟨hpair, hpairs⟩ := List.forall_mem_cons.mp hT
                  obtain ⟨ml, hml, hl⟩ := ih h hpairs
                  refine ⟨ml, hml, ?_⟩
                  intro x hx
                  exact Below.step (b := 0) (by decide) hpair (hl x hx)
          · next hbit =>
              rw [if_neg hbit]
              refine ⟨[], ?_, fun x hx => (List.not_mem_nil hx).elim⟩
              exact (takeHash_fBad h).2

/-- What is known of a tree that gives a root. -/
theorem ExtractMatches_cases {t : CPartialMerkleTree} {root : Uint256} {ms : List Uint256}
    (h : t.ExtractMatches = (root, ms)) (hroot : root ≠ 0) :
    (TraverseAndExtract t (nHeight t.nTransactions 0) 0 t.start).1 = root
      ∧ (TraverseAndExtract t (nHeight t.nTransactions 0) 0 t.start).2.vMatch = ms
      ∧ (TraverseAndExtract t (nHeight t.nTransactions 0) 0 t.start).2.fBad = false := by
  have hzero : ∀ l : List Uint256, (0, l) ≠ (root, ms) := by
    intro l hl
    exact hroot (Prod.mk.inj hl).1.symm
  rw [CPartialMerkleTree.ExtractMatches] at h
  split at h
  · exact absurd h (hzero _)
  · split at h
    · exact absurd h (hzero _)
    · split at h
      · exact absurd h (hzero _)
      · split at h
        · exact absurd h (hzero _)
        · simp only at h
          split at h
          · exact absurd h (hzero _)
          · next hbad =>
              split at h
              · exact absurd h (hzero _)
              · split at h
                · exact absurd h (hzero _)
                · obtain ⟨h1, h2⟩ := Prod.mk.inj h
                  exact ⟨h1, h2, Bool.not_eq_true _ |>.mp hbad⟩

/-- **The matches of a partial tree with the root of a block are transactions of the block**,
    unless a match is an inner node or a transaction is a node of the partial tree. -/
theorem ExtractMatches_sound {t : CPartialMerkleTree} {vTxid ms : List Uint256} (hne : vTxid ≠ [])
    (hroot : BuildMerkleTree vTxid ≠ 0) (h : t.ExtractMatches = (BuildMerkleTree vTxid, ms)) :
    ∀ x ∈ ms, x ∈ vTxid
      ∨ ((∃ y ∈ nodePairs vTxid, x = HashPair y.1 y.2)
        ∨ ∃ txid ∈ vTxid, ∃ y ∈ t.hashedPairs, txid = HashPair y.1 y.2)
      ∨ Collision HashPair t.hashedPairs (nodePairs vTxid) := by
  intro x hx
  obtain ⟨hvalue, hmatch, hbad⟩ := ExtractMatches_cases h hroot
  obtain ⟨ms', hms, hbranch⟩ := extract_branches (T := t.hashedPairs) hbad (fun y hy => hy)
  rw [CPartialMerkleTree.start, List.nil_append] at hms
  rw [CPartialMerkleTree.start, hms] at hmatch
  obtain ⟨p, branch, -, -, hsteps, hclimb⟩ := hbranch x (by rwa [hmatch])
  rw [hvalue] at hclimb
  rcases of_climb hne hsteps hclimb with ⟨q, hq, -⟩ | hc
  · exact Or.inl (List.mem_of_getElem? hq)
  · exact Or.inr hc

/-- The first and the last of three transactions. -/
def firstAndLast : CPartialMerkleTree := CPartialMerkleTree.build [7, 8, 9] [true, false, true]

/-- The tree gives back its root and its matches. -/
theorem ExtractMatches_firstAndLast :
    firstAndLast.ExtractMatches = (BuildMerkleTree [7, 8, 9], [7, 9]) := by
  have hbuild := build_eq [7, 8, 9] [true, false, true]
  have hbits : firstAndLast.vBits
      = bitsOf [7, 8, 9] [true, false, true] (height [(7 : Uint256), 8, 9].length) 0 ++ [] := by
    rw [firstAndLast, hbuild, List.append_nil]
  have hhash : firstAndLast.vHash
      = hashesOf [7, 8, 9] [true, false, true] (height [(7 : Uint256), 8, 9].length) 0 := by
    rw [firstAndLast, hbuild]
  exact ExtractMatches_padded (List.cons_ne_nil 7 [8, 9]) (by decide) rfl rfl hhash hbits
    (by rw [hbits, List.append_nil])

/-- The hash of the first two transactions. -/
theorem hashPair_first : HashPair 7 8
    = 0x890bc0eead7fb42402bc6320770a58f793034d2e1ebd2bd93befffd48a31f3fd := by
  rw [HashPair, Hash_eq_window]
  decide +kernel

/-- The hash of the last one with itself. -/
theorem hashPair_last : HashPair 9 9
    = 0x7e6b593e91c46e09620eb1848765de6ba97eac297cc620be45fda9cc41efd1dc := by
  rw [HashPair, Hash_eq_window]
  decide +kernel

/-- The root, with the last transaction paired with itself. -/
theorem firstAndLast_root : BuildMerkleTree [7, 8, 9] ≠ 0 := by
  have hroot : BuildMerkleTree [7, 8, 9] = HashPair (HashPair 7 8) (HashPair 9 9) := by
    have hheight : height [(7 : Uint256), 8, 9].length = 2 := by decide
    rw [BuildMerkleTree_eq (by decide), root, hheight]
    rfl
  rw [hroot, hashPair_first, hashPair_last, HashPair, Hash_eq_window]
  decide +kernel

theorem ExtractMatches_sound_three :
    9 ∈ ([7, 8, 9] : List Uint256)
      ∨ ((∃ y ∈ nodePairs [7, 8, 9], 9 = HashPair y.1 y.2)
        ∨ ∃ txid ∈ ([7, 8, 9] : List Uint256), ∃ y ∈ firstAndLast.hashedPairs,
          txid = HashPair y.1 y.2)
      ∨ Collision HashPair firstAndLast.hashedPairs (nodePairs [7, 8, 9]) :=
  ExtractMatches_sound (by decide) firstAndLast_root ExtractMatches_firstAndLast 9
    (List.mem_cons_of_mem 7 List.mem_cons_self)

end PartialMerkle
