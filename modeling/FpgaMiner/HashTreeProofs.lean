import Mathlib.Algebra.Ring.Nat
import Mathlib.Algebra.Ring.Int.Defs
import Mathlib.Data.Nat.Log
import Mathlib.Data.Nat.Bitwise
import Mathlib.Data.List.Nodup
import Mathlib.Data.Set.Function

/-! # Hash trees with a repeated last node

    A tree over any number of leaves, for any function `f` of two nodes: a level with an odd
    number of nodes is completed by its last node once more.

    * **`climb_siblings`** — a leaf and its siblings give the root;
    * **`climb_root`** — what gives the root is a leaf, at its place;
    * **`root_binding`** — distinct leaves with one root are the same leaves.

    Both hold unless a leaf is itself a node, or `f` collides on a pair of nodes of the tree
    and a pair on the other side: there are always other pairs on which it does. -/

namespace HashTree

variable {α : Type} {f : α → α → α} {leaf leaf' : Nat → α} {n m k j p q : Nat}
variable {S T : Set (α × α)}

/-- Two pairs, one of `S` and one of `T`, with one parent. -/
def Collision (f : α → α → α) (S T : Set (α × α)) : Prop :=
  ∃ x ∈ S, ∃ y ∈ T, x ≠ y ∧ f x.1 x.2 = f y.1 y.2

/-- Equal hashes come from equal pairs, or they collide. -/
theorem eq_or_collision {a b c d : α} (hS : (a, b) ∈ S) (hT : (c, d) ∈ T) (h : f a b = f c d) :
    (a = c ∧ b = d) ∨ Collision f S T := by
  by_cases hab : (a, b) = (c, d)
  · exact Or.inl (Prod.mk.inj hab)
  · exact Or.inr ⟨(a, b), hS, (c, d), hT, hab, h⟩

/-- A collision does not depend on the order. -/
theorem Collision.symm (h : Collision f S T) : Collision f T S := by
  obtain ⟨x, hx, y, hy, hne, heq⟩ := h
  exact ⟨y, hy, x, hx, hne.symm, heq.symm⟩

/-! ## The levels -/

/-- The number of nodes at a height. -/
def width (n k : Nat) : Nat := (n + 2 ^ k - 1) / 2 ^ k

/-- The height of the root. -/
def height (n : Nat) : Nat := Nat.clog 2 n

/-- A node is there when its first leaf is. -/
theorem lt_width_iff : p < width n k ↔ p * 2 ^ k < n := by
  have hpos : 0 < 2 ^ k := Nat.two_pow_pos k
  rw [width, ← Nat.add_one_le_iff, Nat.le_div_iff_mul_le hpos, Nat.add_one_mul]
  omega

/-- On the lowest level there are the leaves. -/
@[simp] theorem width_zero : width n 0 = n := by
  rw [width, Nat.pow_zero, Nat.div_one, Nat.add_sub_cancel]

/-- Two nodes have one above them, and so has a single one at the end. -/
theorem width_succ : width n (k + 1) = (width n k + 1) / 2 := by
  have hpos : 0 < 2 ^ k := Nat.two_pow_pos k
  rw [width, width, ← Nat.add_div_right _ hpos, Nat.div_div_eq_div_mul, Nat.pow_succ]
  congr 1
  omega

/-- No level is empty. -/
theorem width_pos (hn : 0 < n) : 0 < width n k := by
  rw [lt_width_iff, Nat.zero_mul]
  exact hn

/-- A single node is the root or above it. -/
theorem width_le_one : width n k ≤ 1 ↔ height n ≤ k := by
  rw [height, Nat.clog_le_iff_le_pow (by decide), ← Nat.not_lt, lt_width_iff, Nat.one_mul,
    Nat.not_lt]

/-- The right child of node `p`, or its left child when that is the last one below. -/
def right (n k p : Nat) : Nat := min (2 * p + 1) (width n k - 1)

/-- The left child is there. -/
theorem left_lt (hp : p < width n (k + 1)) : 2 * p < width n k := by
  rw [width_succ] at hp
  omega

/-- The right child, or the left one in its place, is there. -/
theorem right_lt (hp : p < width n (k + 1)) : right n k p < width n k := by
  have h := left_lt hp
  rw [right]
  omega

/-- Node `p` at a height. -/
def node (f : α → α → α) (leaf : Nat → α) (n : Nat) : Nat → Nat → α
  | 0, p => leaf p
  | k + 1, p => f (node f leaf n k (2 * p)) (node f leaf n k (right n k p))

/-- The node at the top of a tree over `n` leaves. -/
def root (f : α → α → α) (leaf : Nat → α) (n : Nat) : α := node f leaf n (height n) 0

/-- The pairs of nodes that `f` joins for the root. -/
def pairs (f : α → α → α) (leaf : Nat → α) (n : Nat) : Set (α × α) :=
  {x | ∃ k p, k < height n ∧ p < width n (k + 1)
    ∧ x = (node f leaf n k (2 * p), node f leaf n k (right n k p))}

/-- The children of a node are hashed together. -/
theorem mem_pairs (hk : k < height n) (hp : p < width n (k + 1)) :
    (node f leaf n k (2 * p), node f leaf n k (right n k p)) ∈ pairs f leaf n :=
  ⟨k, p, hk, hp, rfl⟩

/-- A node above the leaves joins a pair. -/
theorem node_eq (hk : k < height n) (hp : p < width n (k + 1)) :
    ∃ x ∈ pairs f leaf n, node f leaf n (k + 1) p = f x.1 x.2 :=
  ⟨_, mem_pairs hk hp, rfl⟩

/-! ## The leaves below a node -/

/-- From left to right, those of a repeated node again. -/
def below (n : Nat) : Nat → Nat → List Nat
  | 0, p => [p]
  | k + 1, p => below n k (2 * p) ++ below n k (right n k p)

/-- A node of height `k` is over `2 ^ k` leaves, some of them twice. -/
theorem below_length : (below n k p).length = 2 ^ k := by
  induction k generalizing p with
  | zero => rfl
  | succ k ih => rw [below, List.length_append, ih, ih, Nat.pow_succ, Nat.mul_two]

/-- They are leaves of the tree. -/
theorem below_lt (hp : p < width n k) : ∀ i ∈ below n k p, i < n := by
  induction k generalizing p with
  | zero =>
      intro i hi
      rw [List.mem_singleton.mp hi]
      rwa [width_zero] at hp
  | succ k ih =>
      intro i hi
      rcases List.mem_append.mp hi with h | h
      · exact ih (left_lt hp) i h
      · exact ih (right_lt hp) i h

/-- Up to the last leaf they are in their order. -/
theorem below_getElem? {i : Nat} (hi : i < 2 ^ k) (h : p * 2 ^ k + i < n) :
    (below n k p)[i]? = some (p * 2 ^ k + i) := by
  induction k generalizing p i with
  | zero =>
      obtain rfl : i = 0 := by omega
      rw [Nat.pow_zero, Nat.mul_one]
      rfl
  | succ k ih =>
      have hpow : p * 2 ^ (k + 1) = 2 * p * 2 ^ k := by
        rw [Nat.pow_succ, Nat.mul_comm (2 ^ k), ← Nat.mul_assoc, Nat.mul_comm p]
      rw [hpow] at h ⊢
      rw [Nat.pow_succ] at hi
      rw [below]
      by_cases hik : i < 2 ^ k
      · rw [List.getElem?_append_left (by rw [below_length]; exact hik)]
        exact ih hik h
      · obtain ⟨d, rfl⟩ : ∃ d, i = 2 ^ k + d := ⟨i - 2 ^ k, by omega⟩
        have hmul : (2 * p + 1) * 2 ^ k = 2 * p * 2 ^ k + 2 ^ k := Nat.succ_mul _ _
        have hlt : 2 * p + 1 < width n k := lt_width_iff.mpr (by omega)
        have hright : right n k p = 2 * p + 1 := Nat.min_eq_left (by omega)
        rw [List.getElem?_append_right (by rw [below_length]; omega), below_length,
          Nat.add_sub_cancel_left, hright, ih (by omega) (by omega), hmul, Nat.add_assoc]

/-- **Equal nodes have equal leaves below them, or `f` collides.** -/
theorem below_eq_or_collision (hn : k ≤ height n) (hm : k ≤ height m) (hp : p < width n k)
    (hq : q < width m k) (h : node f leaf n k p = node f leaf' m k q) :
    (below n k p).map leaf = (below m k q).map leaf'
      ∨ Collision f (pairs f leaf n) (pairs f leaf' m) := by
  induction k generalizing p q with
  | zero => exact Or.inl (congrArg (fun x => [x]) h)
  | succ k ih =>
      have hn' := Nat.le_of_succ_le hn
      have hm' := Nat.le_of_succ_le hm
      rcases eq_or_collision (mem_pairs hn hp) (mem_pairs hm hq) h with ⟨hl, hr⟩ | hc
      · rcases ih hn' hm' (left_lt hp) (left_lt hq) hl with hl | hc
        · rcases ih hn' hm' (right_lt hp) (right_lt hq) hr with hr | hc
          · left
            rw [below, below, List.map_append, List.map_append, hl, hr]
          · exact Or.inr hc
        · exact Or.inr hc
      · exact Or.inr hc

/-! ## One root, one list of leaves -/

/-- The root is over all leaves. -/
theorem le_pow_height (n : Nat) : n ≤ 2 ^ height n :=
  (Nat.clog_le_iff_le_pow (by decide)).mp (Nat.le_refl _)

/-- The first leaves below the root are the leaves. -/
theorem below_root {i : Nat} (hn : n ≤ 2 ^ k) (hi : i < n) : (below n k 0)[i]? = some i := by
  rw [below_getElem? (by omega) (by omega), Nat.zero_mul, Nat.zero_add]

/-- Leaves without repetition are not fewer than those of a tree with the same leaves
    below its root. -/
theorem not_lt_of_below_eq (hn : 0 < n) (hm : m ≤ 2 ^ k) (hinj : Set.InjOn leaf' (Set.Iio m))
    (h : (below n k 0).map leaf = (below m k 0).map leaf') : ¬ n < m := by
  intro hnm
  have hget : ∀ i < n, leaf i = leaf' i := by
    intro i hi
    have hi' := congrArg (fun l => l[i]?) h
    rw [List.getElem?_map, List.getElem?_map, below_root (by omega) hi,
      below_root hm (by omega)] at hi'
    exact Option.some.inj hi'
  -- leaf `n` of the longer list is one of the shorter list's leaves again
  have hlen : n < (below n k 0).length := by
    rw [below_length]
    omega
  have hlast := congrArg (fun l => l[n]?) h
  rw [List.getElem?_map, List.getElem?_map, below_root hm hnm, List.getElem?_eq_getElem hlen] at hlast
  have hq : (below n k 0)[n] < n := below_lt (width_pos hn) _ (List.getElem_mem hlen)
  have heq : leaf' n = leaf' (below n k 0)[n] := by
    rw [← hget _ hq]
    exact (Option.some.inj hlast).symm
  have := hinj hnm (show _ < m by omega) heq
  omega

/-- **Distinct leaves under roots of one height.** -/
theorem node_binding (hn : 0 < n) (hm : 0 < m) (hk : height n = k) (hk' : height m = k)
    (hinj : Set.InjOn leaf (Set.Iio n)) (hinj' : Set.InjOn leaf' (Set.Iio m))
    (h : node f leaf n k 0 = node f leaf' m k 0) :
    (n = m ∧ ∀ i < n, leaf i = leaf' i) ∨ Collision f (pairs f leaf n) (pairs f leaf' m) := by
  have hn' : n ≤ 2 ^ k := by
    rw [← hk]
    exact le_pow_height n
  have hm' : m ≤ 2 ^ k := by
    rw [← hk']
    exact le_pow_height m
  rcases below_eq_or_collision (Nat.le_of_eq hk.symm) (Nat.le_of_eq hk'.symm) (width_pos hn)
    (width_pos hm) h with hb | hc
  · left
    obtain rfl : n = m := by
      have h1 := not_lt_of_below_eq hn hm' hinj' hb
      have h2 := not_lt_of_below_eq hm hn' hinj hb.symm
      omega
    refine ⟨rfl, ?_⟩
    intro i hi
    have hi' := congrArg (fun l => l[i]?) hb
    rw [List.getElem?_map, List.getElem?_map, below_root hn' hi] at hi'
    exact Option.some.inj hi'
  · exact Or.inr hc

/-- A first leaf that is an inner node of a higher tree. -/
theorem node_leftmost (hn : 0 < n) (hm : 0 < m) (hjk : j + k ≤ height n) (hk : k ≤ height m)
    (h : node f leaf n (j + k) 0 = node f leaf' m k 0) :
    leaf' 0 = node f leaf n j 0 ∨ Collision f (pairs f leaf n) (pairs f leaf' m) := by
  induction k with
  | zero => exact Or.inl h.symm
  | succ k ih =>
      rcases eq_or_collision (mem_pairs hjk (width_pos hn)) (mem_pairs hk (width_pos hm)) h with
        ⟨hl, -⟩ | hc
      · exact ih (Nat.le_of_succ_le hjk) (Nat.le_of_succ_le hk) hl
      · exact Or.inr hc

/-- A lower tree with the same root has an inner node of the higher one as its first leaf, or
    there is a collision. -/
theorem leftmost_of_height_lt (hn : 0 < n) (hm : 0 < m) (hlt : height m < height n)
    (h : root f leaf n = root f leaf' m) :
    (∃ x ∈ pairs f leaf n, leaf' 0 = f x.1 x.2) ∨ Collision f (pairs f leaf n) (pairs f leaf' m) := by
  obtain ⟨d, hd⟩ : ∃ d, height n = (d + 1) + height m := ⟨height n - height m - 1, by omega⟩
  rw [root, root, hd] at h
  rcases node_leftmost hn hm (Nat.le_of_eq hd.symm) (Nat.le_refl _) h with h0 | hc
  · left
    rw [h0]
    exact node_eq (by omega) (width_pos hn)
  · exact Or.inr hc

/-- **Distinct leaves with one root are the same leaves**, unless the first leaf of one of
    the trees is a node of the other. -/
theorem root_binding (hn : 0 < n) (hm : 0 < m) (hinj : Set.InjOn leaf (Set.Iio n))
    (hinj' : Set.InjOn leaf' (Set.Iio m)) (h : root f leaf n = root f leaf' m) :
    (n = m ∧ ∀ i < n, leaf i = leaf' i)
      ∨ ((∃ x ∈ pairs f leaf' m, leaf 0 = f x.1 x.2) ∨ ∃ x ∈ pairs f leaf n, leaf' 0 = f x.1 x.2)
      ∨ Collision f (pairs f leaf n) (pairs f leaf' m) := by
  rcases Nat.lt_trichotomy (height n) (height m) with hlt | heq | hlt
  · rcases leftmost_of_height_lt hm hn hlt h.symm with h0 | hc
    · exact Or.inr (Or.inl (Or.inl h0))
    · exact Or.inr (Or.inr hc.symm)
  · rw [root, root, ← heq] at h
    rcases node_binding hn hm rfl heq.symm hinj hinj' h with hb | hc
    · exact Or.inl hb
    · exact Or.inr (Or.inr hc)
  · rcases leftmost_of_height_lt hn hm hlt h with h0 | hc
    · exact Or.inr (Or.inl (Or.inr h0))
    · exact Or.inr (Or.inr hc)

/-! ## Branches -/

/-- From a node at position `i`, up along the siblings. -/
def climb (f : α → α → α) : α → Int → List α → α
  | h, _, [] => h
  | h, i, other :: branch =>
      climb f (if i % 2 = 1 then f other h else f h other) (i / 2) branch

/-- The pairs that are joined on the way. -/
def steps (f : α → α → α) : α → Int → List α → List (α × α)
  | _, _, [] => []
  | h, i, other :: branch =>
      (if i % 2 = 1 then (other, h) else (h, other))
        :: steps f (if i % 2 = 1 then f other h else f h other) (i / 2) branch

/-- The siblings on the way up from node `p`, `d` levels of them. -/
def siblings (f : α → α → α) (leaf : Nat → α) (n : Nat) : Nat → Nat → Nat → List α
  | _, _, 0 => []
  | k, p, d + 1 =>
      node f leaf n k (min (p ^^^ 1) (width n k - 1)) :: siblings f leaf n (k + 1) (p / 2) d

/-- The sibling has the same parent. -/
theorem xor_one_div_two : (p ^^^ 1) / 2 = p / 2 := by
  rw [Nat.xor_div_two]
  exact Nat.xor_zero _

/-- The sibling is the other child. -/
theorem xor_one_mod_two : (p ^^^ 1) % 2 = 1 - p % 2 := by
  rw [Nat.xor_mod_two_eq]
  omega

/-- The parent of a node. -/
theorem parent (hp : p < width n k) :
    node f leaf n (k + 1) (p / 2)
      = if (p : Int) % 2 = 1 then f (node f leaf n k (min (p ^^^ 1) (width n k - 1))) (node f leaf n k p)
        else f (node f leaf n k p) (node f leaf n k (min (p ^^^ 1) (width n k - 1))) := by
  have hdiv := xor_one_div_two (p := p)
  have hmod := xor_one_mod_two (p := p)
  rw [node, right]
  by_cases hodd : p % 2 = 1
  · rw [if_pos (by omega)]
    congr 2 <;> omega
  · rw [if_neg (by omega)]
    congr 2 <;> omega

/-- The parent is there. -/
theorem lt_width_parent (hp : p < width n k) : p / 2 < width n (k + 1) := by
  rw [width_succ]
  omega

/-- **A node and its siblings give the node above.** -/
theorem climb_siblings (d : Nat) (hp : p < width n k) :
    climb f (node f leaf n k p) p (siblings f leaf n k p d) = node f leaf n (k + d) (p / 2 ^ d) := by
  induction d generalizing k p with
  | zero => rw [Nat.pow_zero, Nat.div_one]; rfl
  | succ d ih =>
      rw [siblings, climb, ← parent hp, show (p : Int) / 2 = (p / 2 : Nat) from rfl,
        ih (lt_width_parent hp), Nat.div_div_eq_div_mul, Nat.pow_succ, Nat.mul_comm 2,
        Nat.add_right_comm, Nat.add_assoc]

/-- **What gives a node above is a node**, and the one at the position it was said to have. -/
theorem climb_sound (branch : List α) {h : α} {i : Int} (hk : k + branch.length ≤ height n)
    (hp : p < width n (k + branch.length)) (hT : ∀ x ∈ steps f h i branch, x ∈ T)
    (e : climb f h i branch = node f leaf n (k + branch.length) p) :
    (∃ q, q < width n k ∧ h = node f leaf n k q
      ∧ (i / 2 ^ branch.length = p → i < width n k → (q : Int) = i))
      ∨ Collision f T (pairs f leaf n) := by
  induction branch generalizing h i k with
  | nil =>
      refine Or.inl ⟨p, hp, e, ?_⟩
      intro hi _
      rw [List.length_nil, pow_zero, Int.ediv_one] at hi
      exact hi.symm
  | cons other branch ih =>
      have hlen : k + (other :: branch).length = k + 1 + branch.length := by
        rw [List.length_cons]
        omega
      rw [hlen] at hk hp e
      obtain ⟨hfirst, hrest⟩ := List.forall_mem_cons.mp hT
      rcases ih hk hp hrest e with ⟨q, hq, hnode, hpos⟩ | hc
      · have hstep : i / 2 ^ (other :: branch).length = p → i < width n k → (q : Int) = i / 2 := by
          intro hi hlt
          refine hpos ?_ ?_
          · rw [Int.ediv_ediv_of_nonneg (by decide), ← pow_succ']
            exact hi
          · rw [width_succ]
            omega
        have hl := left_lt hq
        have hpair : (node f leaf n k (2 * q), node f leaf n k (right n k q)) ∈ pairs f leaf n :=
          mem_pairs (by omega) hq
        by_cases hodd : i % 2 = 1
        · rw [if_pos hodd] at hnode hfirst
          rcases eq_or_collision hfirst hpair hnode with ⟨-, hh⟩ | hc
          · refine Or.inl ⟨right n k q, right_lt hq, hh, ?_⟩
            intro hi hlt
            have := hstep hi hlt
            rw [right]
            omega
          · exact Or.inr hc
        · rw [if_neg hodd] at hnode hfirst
          rcases eq_or_collision hfirst hpair hnode with ⟨hh, -⟩ | hc
          · refine Or.inl ⟨2 * q, hl, hh, ?_⟩
            intro hi hlt
            have := hstep hi hlt
            omega
          · exact Or.inr hc
      · exact Or.inr hc

/-- A branch is climbed in two parts. -/
theorem climb_append (b b' : List α) (h : α) (i : Int) :
    climb f h i (b ++ b') = climb f (climb f h i b) (i / 2 ^ b.length) b' := by
  induction b generalizing h i with
  | nil => rw [List.nil_append, List.length_nil, pow_zero, Int.ediv_one, climb]
  | cons other b ih =>
      rw [List.cons_append, climb, climb, ih, Int.ediv_ediv_of_nonneg (by decide), List.length_cons,
        ← pow_succ']

/-- And so are the pairs that are hashed on the way. -/
theorem steps_append (b b' : List α) (h : α) (i : Int) :
    steps f h i (b ++ b') = steps f h i b ++ steps f (climb f h i b) (i / 2 ^ b.length) b' := by
  induction b generalizing h i with
  | nil => rw [List.nil_append, List.length_nil, pow_zero, Int.ediv_one, climb, steps, List.nil_append]
  | cons other b ih =>
      rw [List.cons_append, steps, climb, steps, ih, Int.ediv_ediv_of_nonneg (by decide),
        List.length_cons, ← pow_succ', List.cons_append]

/-- One level more. -/
theorem climb_concat (b : List α) (h : α) (i : Int) (other : α) :
    climb f h i (b ++ [other])
      = if i / 2 ^ b.length % 2 = 1 then f other (climb f h i b) else f (climb f h i b) other := by
  rw [climb_append]
  rfl

/-- The last pair of a branch. -/
theorem steps_concat (b : List α) (h : α) (i : Int) (other : α) :
    steps f h i (b ++ [other]) = steps f h i b
      ++ [if i / 2 ^ b.length % 2 = 1 then (other, climb f h i b) else (climb f h i b, other)] := by
  rw [steps_append]
  rfl

/-- The last step gives what was climbed to. -/
theorem climb_eq_step {b : List α} (hb : b ≠ []) (h : α) (i : Int) :
    ∃ x ∈ steps f h i b, climb f h i b = f x.1 x.2 := by
  obtain ⟨b, other, rfl⟩ : ∃ b' other, b = b' ++ [other] :=
    ⟨b.dropLast, b.getLast hb, (List.dropLast_append_getLast hb).symm⟩
  rw [climb_concat, steps_concat]
  refine ⟨_, List.mem_append_right _ List.mem_cons_self, ?_⟩
  split
  · rfl
  · rfl

/-- **What gives the root is a leaf**, at the position that it was said to have if that is
    one, unless it is a node of the tree or a leaf is a node on its way. -/
theorem climb_root (branch : List α) {h : α} {i : Int} (hn : 0 < n)
    (hT : ∀ x ∈ steps f h i branch, x ∈ T) (e : climb f h i branch = root f leaf n) :
    (∃ q, q < n ∧ h = leaf q ∧ (0 ≤ i → i < n → (q : Int) = i))
      ∨ ((∃ x ∈ pairs f leaf n, h = f x.1 x.2) ∨ ∃ q, q < n ∧ ∃ x ∈ T, leaf q = f x.1 x.2)
      ∨ Collision f T (pairs f leaf n) := by
  have hle : (n : Int) ≤ 2 ^ height n := by exact_mod_cast le_pow_height n
  rcases Nat.lt_trichotomy branch.length (height n) with hlt | heq | hlt
  · -- a branch that is too short starts at an inner node
    obtain ⟨k, hk⟩ : ∃ k, height n = k + 1 + branch.length := ⟨height n - branch.length - 1, by omega⟩
    rw [root, hk] at e
    rcases climb_sound branch (Nat.le_of_eq hk.symm) (width_pos hn) hT e with ⟨q, hq, hnode, -⟩ | hc
    · right
      left
      left
      rw [hnode]
      exact node_eq (by omega) hq
    · exact Or.inr (Or.inr hc)
  · have hk : height n = 0 + branch.length := by omega
    rw [root, hk] at e
    rcases climb_sound branch (Nat.le_of_eq hk.symm) (width_pos hn) hT e with ⟨q, hq, hnode, hpos⟩ | hc
    · rw [width_zero] at hq hpos
      refine Or.inl ⟨q, hq, hnode, ?_⟩
      intro h0 hi
      refine hpos ?_ hi
      rw [heq]
      exact Int.ediv_eq_zero_of_lt h0 (Int.lt_of_lt_of_le hi hle)
    · exact Or.inr (Or.inr hc)
  · -- a branch that is too long reaches a leaf from below
    obtain ⟨d, hd⟩ : ∃ d, branch.length = d + 1 + height n := ⟨branch.length - height n - 1, by omega⟩
    have htake : branch.take (d + 1) ≠ [] := by
      apply List.ne_nil_of_length_pos
      rw [List.length_take]
      omega
    have hk : height n = 0 + (branch.drop (d + 1)).length := by
      rw [List.length_drop]
      omega
    rw [← List.take_append_drop (d + 1) branch, steps_append] at hT
    rw [← List.take_append_drop (d + 1) branch, climb_append, root, hk] at e
    rcases climb_sound _ (Nat.le_of_eq hk.symm) (width_pos hn)
      (fun x hx => hT x (List.mem_append_right _ hx)) e with ⟨q, hq, hnode, -⟩ | hc
    · obtain ⟨x, hx, hxy⟩ := climb_eq_step (f := f) htake h i
      rw [width_zero] at hq
      exact Or.inr (Or.inl (Or.inr ⟨q, hq, x, hT x (List.mem_append_left _ hx), hnode.symm.trans hxy⟩))
    · exact Or.inr (Or.inr hc)

end HashTree
