import FpgaMiner.HashTreeProofs
import FpgaMiner.TransactionProofs

/-! # Merkle trees

    `CBlock::BuildMerkleTree` keeps all levels of the tree over the transaction hashes in one
    vector, `GetMerkleBranch` reads the siblings of a transaction out of it, and
    `CheckMerkleBranch` goes up along them.

    * **`vMerkleTree_eq`** — the vector holds the levels of the tree;
    * **`CheckMerkleBranch_GetMerkleBranch`** — every transaction is shown by its branch;
    * **`CheckMerkleBranch_sound`** — and nothing else is;
    * **`BuildMerkleTree_binding`** — the root binds the transactions.

    The last two hold unless `Hash` collides on what is hashed for the tree and for the
    branch, or for the other tree, or gives one of the transactions there. -/

namespace Merkle

open MinerDriver BlockHeader Transaction HashTree

/-! ## The code -/

/-- `Hash` of the memory of two hashes. -/
def HashPair (left right : Uint256) : Uint256 := Hash (uint256.write left ++ uint256.write right)

/-- One round of the inner loop, for `i = 2 * k`. -/
def pushNode (j nSize : Nat) (vMerkleTree : List Uint256) (k : Nat) : List Uint256 :=
  let i := 2 * k
  let i2 := min (i + 1) (nSize - 1)
  vMerkleTree ++ [HashPair (vMerkleTree.getD (j + i) 0) (vMerkleTree.getD (j + i2) 0)]

/-- The outer loop of `BuildMerkleTree`. -/
def buildLoop (j nSize : Nat) (vMerkleTree : List Uint256) : List Uint256 :=
  if 1 < nSize then
    buildLoop (j + nSize) ((nSize + 1) / 2)
      ((List.range ((nSize + 1) / 2)).foldl (pushNode j nSize) vMerkleTree)
  else vMerkleTree
termination_by nSize

/-- The vector that `BuildMerkleTree` leaves, from the hashes of the transactions. -/
def vMerkleTree (vtx : List Uint256) : List Uint256 := buildLoop 0 vtx.length vtx

/-- The last hash of the tree, its root; zero for no transactions. -/
def BuildMerkleTree (vtx : List Uint256) : Uint256 := (vMerkleTree vtx).getLast?.getD 0

/-- The loop of `GetMerkleBranch`. -/
def branchLoop (vMerkleTree : List Uint256) (j nSize nIndex : Nat) : List Uint256 :=
  if 1 < nSize then
    let i := min (nIndex ^^^ 1) (nSize - 1)
    vMerkleTree.getD (j + i) 0 :: branchLoop vMerkleTree (j + nSize) ((nSize + 1) / 2) (nIndex / 2)
  else []
termination_by nSize

/-- The hashes beside the path from a transaction to the root. -/
def GetMerkleBranch (vtx : List Uint256) (nIndex : Nat) : List Uint256 :=
  branchLoop (vMerkleTree vtx) 0 vtx.length nIndex

/-- The root that a branch leads to; zero for the index -1. -/
def CheckMerkleBranch (hash : Uint256) (vMerkleBranch : List Uint256) (nIndex : Int) : Uint256 :=
  if nIndex = -1 then 0 else climb HashPair hash nIndex vMerkleBranch

/-! ## The levels in the vector -/

/-- A leaf of the tree. -/
def leaves (vtx : List Uint256) (i : Nat) : Uint256 := vtx.getD i 0

/-- The nodes at a height. -/
def level (vtx : List Uint256) (k : Nat) : List Uint256 :=
  (List.range (width vtx.length k)).map (node HashPair (leaves vtx) vtx.length k)

/-- The levels below a height, one after the other. -/
def levels (vtx : List Uint256) (k : Nat) : List Uint256 := (List.range k).flatMap (level vtx)

/-- A level of the tree has its width. -/
theorem level_length (vtx : List Uint256) (k : Nat) : (level vtx k).length = width vtx.length k := by
  rw [level, List.length_map, List.length_range]

/-- The levels are appended one after the other. -/
theorem levels_succ (vtx : List Uint256) (k : Nat) :
    levels vtx (k + 1) = levels vtx k ++ level vtx k := by
  rw [levels, levels, List.range_succ, List.flatMap_append, List.flatMap_singleton]

/-- The first of them are the transactions. -/
theorem levels_one (vtx : List Uint256) : levels vtx 1 = vtx := by
  rw [levels_succ, levels, List.range_zero, List.flatMap_nil, List.nil_append, level, width_zero]
  apply List.ext_getElem
  · rw [List.length_map, List.length_range]
  · intro i h1 h2
    rw [List.getElem_map, List.getElem_range, node, leaves, List.getD_eq_getElem?_getD,
      List.getElem?_eq_getElem h2, Option.getD_some]

/-- More levels only add to the memory. -/
theorem levels_append (vtx : List Uint256) (k d : Nat) :
    ∃ l, levels vtx (k + d) = levels vtx k ++ l := by
  induction d with
  | zero => exact ⟨[], (List.append_nil _).symm⟩
  | succ d ih =>
      obtain ⟨l, hl⟩ := ih
      refine ⟨l ++ level vtx (k + d), ?_⟩
      rw [← Nat.add_assoc, levels_succ, hl, List.append_assoc]

/-- A node of a level, where the vector has it. -/
theorem levels_getD {vtx : List Uint256} {k p : Nat} (hp : p < width vtx.length k) (l : List Uint256) :
    (levels vtx (k + 1) ++ l).getD ((levels vtx k).length + p) 0
      = node HashPair (leaves vtx) vtx.length k p := by
  have hget : (level vtx k)[p]? = some (node HashPair (leaves vtx) vtx.length k p) := by
    rw [level, List.getElem?_map, List.getElem?_range hp, Option.map_some]
  rw [levels_succ, List.append_assoc, List.getD_eq_getElem?_getD,
    List.getElem?_append_right (Nat.le_add_right _ _), Nat.add_sub_cancel_left,
    List.getElem?_append_left (by rw [level_length]; exact hp), hget, Option.getD_some]

/-- The inner loop: the first `m` nodes of the next level. -/
theorem pushNodes_eq (vtx : List Uint256) (k : Nat) {m : Nat} (hm : m ≤ width vtx.length (k + 1)) :
    (List.range m).foldl (pushNode (levels vtx k).length (width vtx.length k)) (levels vtx (k + 1))
      = levels vtx (k + 1) ++ (List.range m).map (node HashPair (leaves vtx) vtx.length (k + 1)) := by
  induction m with
  | zero => rw [List.range_zero, List.foldl_nil, List.map_nil, List.append_nil]
  | succ m ih =>
      have hlt : m < width vtx.length (k + 1) := hm
      rw [List.range_succ, List.foldl_append, ih (Nat.le_of_lt hlt), List.foldl_cons, List.foldl_nil,
        List.map_append, List.map_singleton, ← List.append_assoc]
      show _ ++ [HashPair _ _] = _ ++ [_]
      have hright := levels_getD (right_lt hlt)
        ((List.range m).map (node HashPair (leaves vtx) vtx.length (k + 1)))
      rw [right] at hright
      rw [levels_getD (left_lt hlt), hright]
      rfl

/-- **One turn of the outer loop** appends the next level. -/
theorem pushLevel_eq (vtx : List Uint256) (k : Nat) :
    (List.range ((width vtx.length k + 1) / 2)).foldl
        (pushNode (levels vtx k).length (width vtx.length k)) (levels vtx (k + 1))
      = levels vtx (k + 2) := by
  rw [← width_succ, pushNodes_eq vtx k (Nat.le_refl _), levels_succ vtx (k + 1)]
  rfl

/-- Where the next level starts. -/
theorem levels_length_succ (vtx : List Uint256) (k : Nat) :
    (levels vtx k).length + width vtx.length k = (levels vtx (k + 1)).length := by
  rw [levels_succ, List.length_append, level_length]

/-- The outer loop from a level on. -/
theorem buildLoop_eq (vtx : List Uint256) (d : Nat) {k : Nat} (hk : height vtx.length = k + d) :
    buildLoop (levels vtx k).length (width vtx.length k) (levels vtx (k + 1))
      = levels vtx (height vtx.length + 1) := by
  induction d generalizing k with
  | zero =>
      rw [buildLoop, if_neg (Nat.not_lt.mpr (width_le_one.mpr (by omega))), hk, Nat.add_zero]
  | succ d ih =>
      have hwide : 1 < width vtx.length k := by
        rw [← Nat.not_le, width_le_one]
        omega
      rw [buildLoop, if_pos hwide, levels_length_succ, pushLevel_eq, ← width_succ]
      exact ih (by omega)

/-- **The vector holds the levels of the tree.** -/
theorem vMerkleTree_eq (vtx : List Uint256) : vMerkleTree vtx = levels vtx (height vtx.length + 1) := by
  have h := buildLoop_eq vtx (height vtx.length) (k := 0) (Nat.zero_add _).symm
  rw [width_zero, levels_one] at h
  exact h

/-- **The last one is the root.** -/
theorem BuildMerkleTree_eq {vtx : List Uint256} (h : vtx ≠ []) :
    BuildMerkleTree vtx = root HashPair (leaves vtx) vtx.length := by
  have hpos : 0 < vtx.length := List.length_pos_of_ne_nil h
  have hone : width vtx.length (height vtx.length) = 1 := by
    have h1 := width_pos hpos (k := height vtx.length)
    have h2 := width_le_one.mpr (Nat.le_refl (height vtx.length))
    omega
  rw [BuildMerkleTree, vMerkleTree_eq, levels_succ, level, hone]
  show (_ ++ [_]).getLast?.getD 0 = _
  rw [List.getLast?_concat, Option.getD_some, root]

/-- A single transaction is its own root. -/
theorem BuildMerkleTree_one (a : Uint256) : BuildMerkleTree [a] = a := by
  rw [BuildMerkleTree, vMerkleTree, buildLoop, if_neg (by exact Nat.lt_irrefl 1)]
  rfl

/-- Two transactions are hashed together. -/
theorem BuildMerkleTree_two (a b : Uint256) : BuildMerkleTree [a, b] = HashPair a b := by
  have hheight : height [a, b].length = 1 := rfl
  have hright : right [a, b].length 0 0 = 1 := by
    rw [right, width_zero]
    rfl
  rw [BuildMerkleTree_eq (List.cons_ne_nil _ _), root, hheight, node, hright, node, node, leaves, leaves]
  rfl

/-! ## Branches -/

/-- The loop of `GetMerkleBranch` from a level on. -/
theorem branchLoop_eq (vtx : List Uint256) (d : Nat) {k p : Nat} (hk : height vtx.length = k + d)
    (hp : p < width vtx.length k) :
    branchLoop (vMerkleTree vtx) (levels vtx k).length (width vtx.length k) p
      = siblings HashPair (leaves vtx) vtx.length k p d := by
  induction d generalizing k p with
  | zero =>
      rw [branchLoop, if_neg (Nat.not_lt.mpr (width_le_one.mpr (by omega)))]
      rfl
  | succ d ih =>
      have hwide : 1 < width vtx.length k := by
        rw [← Nat.not_le, width_le_one]
        omega
      -- the vector has the levels up to this one and others behind them
      obtain ⟨l, hl⟩ := levels_append vtx (k + 1) (d + 1)
      rw [show k + 1 + (d + 1) = height vtx.length + 1 by omega, ← vMerkleTree_eq] at hl
      have hsibling := levels_getD
        (show min (p ^^^ 1) (width vtx.length k - 1) < width vtx.length k by omega) l
      rw [← hl] at hsibling
      rw [branchLoop, if_pos hwide, siblings, levels_length_succ, ← width_succ,
        ih (by omega) (lt_width_parent hp), ← hsibling]

/-- **The branch** is the siblings on the way to the root. -/
theorem GetMerkleBranch_eq {vtx : List Uint256} {i : Nat} (hi : i < vtx.length) :
    GetMerkleBranch vtx i = siblings HashPair (leaves vtx) vtx.length 0 i (height vtx.length) := by
  have h := branchLoop_eq vtx (height vtx.length) (k := 0) (p := i) (Nat.zero_add _).symm
    (by rw [width_zero]; exact hi)
  rw [width_zero] at h
  exact h

/-- The leaves are the transactions. -/
theorem leaves_getElem {vtx : List Uint256} {i : Nat} (hi : i < vtx.length) :
    leaves vtx i = vtx[i] := by
  rw [leaves, List.getD_eq_getElem?_getD, List.getElem?_eq_getElem hi, Option.getD_some]

/-- **Every transaction is shown by its branch.** -/
theorem CheckMerkleBranch_GetMerkleBranch (vtx : List Uint256) (i : Nat) (hi : i < vtx.length) :
    CheckMerkleBranch vtx[i] (GetMerkleBranch vtx i) i = BuildMerkleTree vtx := by
  have hne : vtx ≠ [] := List.ne_nil_of_length_pos (Nat.zero_lt_of_lt hi)
  have hwidth : i < width vtx.length 0 := by
    rw [width_zero]
    exact hi
  have hclimb : climb HashPair (node HashPair (leaves vtx) vtx.length 0 i) i _ = _ :=
    climb_siblings (height vtx.length) hwidth
  have hdiv : i / 2 ^ height vtx.length = 0 :=
    Nat.div_eq_of_lt (Nat.lt_of_lt_of_le hi (le_pow_height _))
  rw [Nat.zero_add, hdiv, node, leaves_getElem hi] at hclimb
  rw [CheckMerkleBranch, if_neg (by omega), GetMerkleBranch_eq hi, hclimb, BuildMerkleTree_eq hne, root]

theorem CheckMerkleBranch_GetMerkleBranch_two :
    CheckMerkleBranch 2 (GetMerkleBranch [1, 2] 1) 1 = BuildMerkleTree [1, 2] :=
  CheckMerkleBranch_GetMerkleBranch [1, 2] 1 (by decide)

/-- The pairs of hashes that `BuildMerkleTree` hashes. -/
def nodePairs (vtx : List Uint256) : Set (Uint256 × Uint256) := pairs HashPair (leaves vtx) vtx.length

/-- The pairs that `CheckMerkleBranch` hashes. -/
def branchPairs (hash : Uint256) (vMerkleBranch : List Uint256) (nIndex : Int) :
    Set (Uint256 × Uint256) :=
  {x | x ∈ steps HashPair hash nIndex vMerkleBranch}

/-- What gives the root is a transaction, unless it is an inner node or a transaction is a
    node on the way to the root. -/
theorem of_climb {vtx : List Uint256} {hash : Uint256} {vMerkleBranch : List Uint256} {nIndex : Int}
    {T : Set (Uint256 × Uint256)} (hne : vtx ≠ [])
    (hT : ∀ x ∈ steps HashPair hash nIndex vMerkleBranch, x ∈ T)
    (h : climb HashPair hash nIndex vMerkleBranch = BuildMerkleTree vtx) :
    (∃ q : Nat, vtx[q]? = some hash ∧ (0 ≤ nIndex → nIndex < vtx.length → (q : Int) = nIndex))
      ∨ ((∃ x ∈ nodePairs vtx, hash = HashPair x.1 x.2) ∨ ∃ txid ∈ vtx, ∃ x ∈ T, txid = HashPair x.1 x.2)
      ∨ Collision HashPair T (nodePairs vtx) := by
  rw [BuildMerkleTree_eq hne] at h
  rcases climb_root vMerkleBranch (List.length_pos_of_ne_nil hne) hT h with
    ⟨q, hq, hleaf, hpos⟩ | (hnode | ⟨q, hq, x, hx, hleaf⟩) | hc
  · left
    refine ⟨q, ?_, hpos⟩
    rw [List.getElem?_eq_getElem hq, ← leaves_getElem hq, ← hleaf]
  · exact Or.inr (Or.inl (Or.inl hnode))
  · refine Or.inr (Or.inl (Or.inr ⟨leaves vtx q, ?_, x, hx, hleaf⟩))
    rw [leaves_getElem hq]
    exact List.getElem_mem hq
  · exact Or.inr (Or.inr hc)

/-- **What a branch shows is a transaction of the block**, the one at its index if the block
    has one there, unless it is an inner node or a transaction is a node of the branch. -/
theorem CheckMerkleBranch_sound {vtx : List Uint256} {hash : Uint256} {vMerkleBranch : List Uint256}
    {nIndex : Int} (hne : vtx ≠ []) (hindex : nIndex ≠ -1)
    (h : CheckMerkleBranch hash vMerkleBranch nIndex = BuildMerkleTree vtx) :
    (∃ q : Nat, vtx[q]? = some hash ∧ (0 ≤ nIndex → nIndex < vtx.length → (q : Int) = nIndex))
      ∨ ((∃ x ∈ nodePairs vtx, hash = HashPair x.1 x.2)
        ∨ ∃ txid ∈ vtx, ∃ x ∈ branchPairs hash vMerkleBranch nIndex, txid = HashPair x.1 x.2)
      ∨ Collision HashPair (branchPairs hash vMerkleBranch nIndex) (nodePairs vtx) := by
  rw [CheckMerkleBranch, if_neg hindex] at h
  exact of_climb hne (fun x hx => hx) h

/-- Two transactions, the second one shown by the first. -/
theorem CheckMerkleBranch_sound_two :
    CheckMerkleBranch 2 [1] 1 = BuildMerkleTree [1, 2]
      ∧ ((∃ q : Nat, [1, 2][q]? = some (2 : Uint256) ∧ ((0 : Int) ≤ 1 → (1 : Int) < 2 → (q : Int) = 1))
        ∨ ((∃ x ∈ nodePairs [1, 2], 2 = HashPair x.1 x.2)
          ∨ ∃ txid ∈ ([1, 2] : List Uint256), ∃ x ∈ branchPairs 2 [1] 1, txid = HashPair x.1 x.2)
        ∨ Collision HashPair (branchPairs 2 [1] 1) (nodePairs [1, 2])) := by
  have h : CheckMerkleBranch 2 [1] 1 = BuildMerkleTree [1, 2] := by
    rw [BuildMerkleTree_two, CheckMerkleBranch, if_neg (by decide), climb, climb, if_pos (by decide)]
  exact ⟨h, CheckMerkleBranch_sound (by decide) (by decide) h⟩

/-! ## The root binds the transactions -/

/-- Different transactions are different leaves. -/
theorem leaves_injOn {vtx : List Uint256} (h : vtx.Nodup) :
    Set.InjOn (leaves vtx) (Set.Iio vtx.length) := by
  intro i hi j hj hij
  have hi : i < vtx.length := hi
  have hj : j < vtx.length := hj
  rw [leaves_getElem hi, leaves_getElem hj] at hij
  exact (h.getElem_inj_iff).mp hij

/-- **Hashes without repetition are bound by their root**, unless the first one of a list is
    an inner node over the other. -/
theorem BuildMerkleTree_binding {vtx vtx' : List Uint256} (hne : vtx ≠ []) (hne' : vtx' ≠ [])
    (hnodup : vtx.Nodup) (hnodup' : vtx'.Nodup) (h : BuildMerkleTree vtx = BuildMerkleTree vtx') :
    vtx = vtx'
      ∨ ((∃ x ∈ nodePairs vtx', vtx.head? = some (HashPair x.1 x.2))
        ∨ ∃ x ∈ nodePairs vtx, vtx'.head? = some (HashPair x.1 x.2))
      ∨ Collision HashPair (nodePairs vtx) (nodePairs vtx') := by
  have hpos := List.length_pos_of_ne_nil hne
  have hpos' := List.length_pos_of_ne_nil hne'
  have hhead : ∀ {l : List Uint256}, 0 < l.length → l.head? = some (leaves l 0) := by
    intro l hl
    rw [List.head?_eq_getElem?, List.getElem?_eq_getElem hl, leaves_getElem hl]
  rw [BuildMerkleTree_eq hne, BuildMerkleTree_eq hne'] at h
  rcases root_binding hpos hpos' (leaves_injOn hnodup) (leaves_injOn hnodup') h with
    ⟨hlen, hall⟩ | (⟨x, hx, h0⟩ | ⟨x, hx, h0⟩) | hc
  · left
    apply List.ext_getElem hlen
    intro i hi hi'
    have hi'' := hall i hi
    rwa [leaves_getElem hi, leaves_getElem hi'] at hi''
  · refine Or.inr (Or.inl (Or.inl ⟨x, hx, ?_⟩))
    rw [hhead hpos, h0]
  · refine Or.inr (Or.inl (Or.inr ⟨x, hx, ?_⟩))
    rw [hhead hpos', h0]
  · exact Or.inr (Or.inr hc)

/-! ## The bytes that are hashed -/

/-- The memory of a pair. -/
def pairBytes (x : Uint256 × Uint256) : List Byte := uint256.write x.1 ++ uint256.write x.2

/-- The bytes of a pair tell what it is. -/
theorem pairBytes_inj {x y : Uint256 × Uint256} (h : pairBytes x = pairBytes y) : x = y := by
  obtain ⟨hfst, hsnd⟩ := uint256.write_inj trivial trivial h
  exact Prod.ext hfst (uint256.eq_of_write_eq trivial trivial hsnd)

/-- They are 64. -/
theorem pairBytes_length (x : Uint256 × Uint256) : (pairBytes x).length = 64 := by
  rw [pairBytes, List.length_append]
  exact congrArg₂ Nat.add (Codec.bytesLE_length 32 _) (Codec.bytesLE_length 32 _)

/-- A collision of the nodes is one of the hash. -/
theorem hashCollision {S T : Set (Uint256 × Uint256)} (h : Collision HashPair S T) :
    HashCollision (Set.image pairBytes S) (Set.image pairBytes T) := by
  obtain ⟨x, hx, y, hy, hne, heq⟩ := h
  exact ⟨_, Set.mem_image_of_mem _ hx, _, Set.mem_image_of_mem _ hy, fun h => hne (pairBytes_inj h), heq⟩

end Merkle
