import Mathlib.Data.BitVec
import Mathlib.Tactic.Ring
import Mathlib.Tactic.Linarith
import Mathlib.Algebra.Order.Ring.Abs

/-! # `lab3` — the ball

    `hello.c` moves the centre of the ball, the driver packs it into one word, `VGA_LED`
    takes the word apart and the emulator compares squared distances at every scan
    position.

    * **`ball_drawn`** — what is painted red is the disc about the program's centre,
      and it lies on the screen.  The centre bounces inside its bounds
      (`within_step`, one axis at a time), the word carries both coordinates
      (`writedata_fields`), and ten-bit distances do not wrap in 32 bits
      (`toNat_dist`). -/

namespace Lab3

/-! ## The program -/

/-- The least row of the center. -/
def TOP_BND : Int := 40

/-- The greatest row of the center. -/
def BOT_BND : Int := 440

/-- The greatest column of the center. -/
def RIGHT_BND : Int := 600

/-- The least column of the center. -/
def LEFT_BND : Int := 40

/-- The column at the start. -/
def CENTER_X : Int := 320

/-- The row at the start. -/
def CENTER_Y : Int := 240

/-- The variables of the loop of `main`. -/
structure Ball where
  cx : Int
  cy : Int
  vx : Int
  vy : Int

/-- The ball as the loop is entered. -/
def start : Ball where
  cx := CENTER_X
  cy := CENTER_Y
  vx := 1
  vy := 1

/-- One iteration; the write is of the centre it leaves. -/
def move (b : Ball) : Ball :=
  let cx := b.cx + b.vx
  let cy := b.cy + b.vy
  { cx := cx
    cy := cy
    vx := if cx = RIGHT_BND ∨ cx = LEFT_BND then -b.vx else b.vx
    vy := if cy = TOP_BND ∨ cy = BOT_BND then -b.vy else b.vy }

/-- The variables after `n` iterations. -/
def ball : Nat → Ball
  | 0 => start
  | n + 1 => move (ball n)

/-! ## The driver and the peripheral -/

/-- The argument of `iowrite32` in `write_center`. -/
def write_center (x y : BitVec 32) : BitVec 32 := x <<< 10 ||| y

/-- `write_coords`, with its arguments as unsigned integers. -/
def write_coords (x y : Int) : BitVec 32 := write_center (BitVec.ofInt 32 x) (BitVec.ofInt 32 y)

/-- What the bus carries in one cycle. -/
structure Bus where
  reset : Bool
  writedata : BitVec 32
  write : Bool
  chipselect : Bool

/-- The registers of the display: the center of the ball. -/
structure VGA_LED where
  cx : BitVec 10
  cy : BitVec 10

/-- One clock edge of the display. -/
def vga_led (s : VGA_LED) (i : Bus) : VGA_LED :=
  if i.reset then { cx := 320, cy := 240 }
  else if i.chipselect && i.write then
    { cx := i.writedata.extractLsb' 10 10, cy := i.writedata.extractLsb' 0 10 }
  else s

/-- The bus cycles of a sequence of words: a write each, and any cycles without a write
    or a reset around them. -/
inductive Carries : List (BitVec 32) → List Bus → Prop where
  | nil : Carries [] []
  | idle {ws trace} (i : Bus) : i.reset = false → (i.chipselect && i.write) = false →
      Carries ws trace → Carries ws (trace ++ [i])
  | write {ws trace} (i : Bus) : i.reset = false → (i.chipselect && i.write) = true →
      Carries ws trace → Carries (ws ++ [i.writedata]) (trace ++ [i])

/-- The words written in the first `n` iterations. -/
def words (n : Nat) : List (BitVec 32) :=
  (List.range n).map (fun k => write_coords (ball (k + 1)).cx (ball (k + 1)).cy)

/-! ## The emulator -/

/-- The square of the radius. -/
def R2 : BitVec 32 := 1600

/-- `hcount[10:1]` -/
def column (hcount : BitVec 11) : BitVec 10 := hcount.extractLsb' 1 10

/-- `inBall`; the width of its context is that of `R2`. -/
def inBall (s : VGA_LED) (hcount : BitVec 11) (vcount : BitVec 10) : Bool :=
  ((s.cx.setWidth 32 - (column hcount).setWidth 32) * (s.cx.setWidth 32
    - (column hcount).setWidth 32) + (s.cy.setWidth 32 - vcount.setWidth 32) * (s.cy.setWidth 32
    - vcount.setWidth 32)).ult R2

/-- `{VGA_R, VGA_G, VGA_B}` -/
def rgb (s : VGA_LED) (hcount : BitVec 11) (vcount : BitVec 10) : BitVec 8 × BitVec 8 × BitVec 8 :=
  if inBall s hcount vcount then (0xff, 0x00, 0x00) else (0, 0, 0)

/-- The color of the ball. -/
def red : BitVec 8 × BitVec 8 × BitVec 8 := (0xff, 0x00, 0x00)

/-! ## The bounce -/

/-- A position between two bounds, moving by one and off a bound it has reached. -/
structure Within (lo hi p v : Int) : Prop where
  low : lo ≤ p
  high : p ≤ hi
  moves : (v = 1 ∧ p < hi) ∨ (v = -1 ∧ lo < p)

theorem within_step {lo hi p v : Int} (hlt : lo < hi) (h : Within lo hi p v) {c : Prop}
    [Decidable c] (hc : c ↔ p + v = lo ∨ p + v = hi) :
    Within lo hi (p + v) (if c then -v else v) := by
  obtain ⟨hlow, hhigh, hmoves⟩ := h
  by_cases hbound : c
  · have hreached := hc.mp hbound
    rw [if_pos hbound]
    constructor <;> omega
  · have hfree : ¬ (p + v = lo ∨ p + v = hi) := fun h => hbound (hc.mpr h)
    rw [if_neg hbound]
    constructor <;> omega

theorem ball_within (n : Nat) :
    Within LEFT_BND RIGHT_BND (ball n).cx (ball n).vx ∧
    Within TOP_BND BOT_BND (ball n).cy (ball n).vy := by
  induction n with
  | zero =>
      refine ⟨⟨by decide, by decide, .inl (by decide)⟩, ⟨by decide, by decide, .inl (by decide)⟩⟩
  | succ n ih =>
      exact ⟨within_step (by decide) ih.1 or_comm, within_step (by decide) ih.2 Iff.rfl⟩

/-! ## The word -/

/-- A coordinate on the screen, as an unsigned integer. -/
theorem coordinate {p : Int} (h0 : 0 ≤ p) (hp : p < 1024) :
    ∃ c : BitVec 10, BitVec.ofInt 32 p = c.setWidth 32 ∧ (c.toNat : Int) = p := by
  refine ⟨BitVec.ofNat 10 p.toNat, ?_, ?_⟩
  · apply BitVec.eq_of_toNat_eq
    rw [BitVec.toNat_ofInt, BitVec.toNat_setWidth, BitVec.toNat_ofNat]
    omega
  · rw [BitVec.toNat_ofNat]
    omega

/-- The packed word has both coordinates in its low twenty bits. -/
theorem writedata_fields (x y : BitVec 10) :
    (write_center (x.setWidth 32) (y.setWidth 32)).extractLsb' 10 10 = x ∧
    (write_center (x.setWidth 32) (y.setWidth 32)).extractLsb' 0 10 = y := by
  constructor
  · apply BitVec.eq_of_getLsbD_eq
    intro i hi
    have hy : y.getLsbD (10 + i) = false := BitVec.getLsbD_of_ge y _ (Nat.le_add_right 10 i)
    rw [BitVec.getLsbD_extractLsb', write_center, BitVec.getLsbD_or, BitVec.getLsbD_shiftLeft,
      BitVec.getLsbD_setWidth, BitVec.getLsbD_setWidth, hy, Nat.add_sub_cancel_left]
    simp [hi, show 10 + i < 32 by omega, show i < 32 by omega]
  · apply BitVec.eq_of_getLsbD_eq
    intro i hi
    rw [BitVec.getLsbD_extractLsb', write_center, BitVec.getLsbD_or, BitVec.getLsbD_shiftLeft,
      BitVec.getLsbD_setWidth, Nat.zero_add]
    simp [hi, show i < 32 by omega]

/-- The registers after the words of some iterations hold the last centre. -/
theorem registers {ws : List (BitVec 32)} {trace : List Bus} (h : Carries ws trace)
    (s : VGA_LED) {n : Nat} (hn : 0 < n) (hws : ws = words n) :
    ((trace.foldl vga_led s).cx.toNat : Int) = (ball n).cx ∧
    ((trace.foldl vga_led s).cy.toNat : Int) = (ball n).cy := by
  induction h with
  | nil =>
      have hlen := congrArg List.length hws
      rw [words, List.length_map, List.length_range] at hlen
      exact absurd hlen (Nat.ne_of_lt hn)
  | idle i hreset hquiet _ ih =>
      rw [List.foldl_append]
      show ((vga_led _ i).cx.toNat : Int) = _ ∧ ((vga_led _ i).cy.toNat : Int) = _
      rw [vga_led, hreset, hquiet]
      exact ih hws
  | write i hreset hwrite _ _ =>
      obtain ⟨n, rfl⟩ : ∃ m, n = m + 1 := Nat.exists_eq_succ_of_ne_zero (Nat.ne_of_gt hn)
      rw [words, List.range_succ, List.map_append] at hws
      have hword : i.writedata = write_coords (ball (n + 1)).cx (ball (n + 1)).cy :=
        List.singleton_inj.mp (List.append_inj_right' hws rfl)
      obtain ⟨hx, hy⟩ := ball_within (n + 1)
      obtain ⟨x, hwx, hx'⟩ := coordinate (p := (ball (n + 1)).cx)
        (Int.le_trans (by decide) hx.low) (Int.lt_of_le_of_lt hx.high (by decide))
      obtain ⟨y, hwy, hy'⟩ := coordinate (p := (ball (n + 1)).cy)
        (Int.le_trans (by decide) hy.low) (Int.lt_of_le_of_lt hy.high (by decide))
      rw [write_coords, hwx, hwy] at hword
      obtain ⟨hfx, hfy⟩ := writedata_fields x y
      rw [List.foldl_append]
      show ((vga_led _ i).cx.toNat : Int) = _ ∧ ((vga_led _ i).cy.toNat : Int) = _
      rw [vga_led, hreset, hwrite, hword, ← hx', ← hy']
      exact ⟨congrArg (fun c : BitVec 10 => (c.toNat : Int)) hfx,
        congrArg (fun c : BitVec 10 => (c.toNat : Int)) hfy⟩

/-! ## The distance -/

/-- A difference of unsigned numbers, modulo a wider word. -/
theorem sub_eq_ofInt {w n : Nat} (x y : BitVec w) :
    x.setWidth n - y.setWidth n = BitVec.ofInt n ((x.toNat : Int) - y.toNat) := by
  rw [Int.sub_eq_add_neg, BitVec.ofInt_add, BitVec.ofInt_neg, BitVec.ofInt_natCast,
    BitVec.ofInt_natCast, BitVec.ofNat_toNat, BitVec.ofNat_toNat, BitVec.sub_eq_add_neg]

/-- A word with room for two squares computes a squared distance exactly. -/
theorem toNat_dist {w n : Nat} (hn : 2 * w + 1 ≤ n) (a b c d : BitVec w) :
    (((a.setWidth n - b.setWidth n) * (a.setWidth n - b.setWidth n)
      + (c.setWidth n - d.setWidth n) * (c.setWidth n - d.setWidth n)).toNat : Int)
      = ((a.toNat : Int) - b.toNat) ^ 2 + ((c.toNat : Int) - d.toNat) ^ 2 := by
  have hsquare : ∀ x y : BitVec w, ((x.toNat : Int) - y.toNat) ^ 2 < 2 ^ (2 * w) := by
    intro x y
    have hx : (x.toNat : Int) < 2 ^ w := by exact_mod_cast x.isLt
    have hy : (y.toNat : Int) < 2 ^ w := by exact_mod_cast y.isLt
    rw [pow_mul']
    exact sq_lt_sq' (by linarith [Int.natCast_nonneg x.toNat])
      (by linarith [Int.natCast_nonneg y.toNat])
  have hbound : (2 : Int) ^ (2 * w) + 2 ^ (2 * w) ≤ 2 ^ n := by
    calc (2 : Int) ^ (2 * w) + 2 ^ (2 * w) = 2 ^ (2 * w + 1) := by ring
      _ ≤ 2 ^ n := pow_le_pow_right₀ (by decide) hn
  rw [sub_eq_ofInt, sub_eq_ofInt, ← BitVec.ofInt_mul, ← BitVec.ofInt_mul, ← BitVec.ofInt_add,
    BitVec.toNat_ofInt, ← pow_two, ← pow_two]
  have h1 := hsquare a b
  have h2 := hsquare c d
  have hnonneg : 0 ≤ ((a.toNat : Int) - b.toNat) ^ 2 + ((c.toNat : Int) - d.toNat) ^ 2 :=
    add_nonneg (sq_nonneg _) (sq_nonneg _)
  rw [Int.emod_eq_of_lt hnonneg (by push_cast; linarith), Int.toNat_of_nonneg hnonneg]

theorem inBall_iff (s : VGA_LED) (hcount : BitVec 11) (vcount : BitVec 10) :
    inBall s hcount vcount = true ↔
      (((column hcount).toNat : Int) - s.cx.toNat) ^ 2 + ((vcount.toNat : Int) - s.cy.toNat) ^ 2
        < 1600 := by
  have hdist := toNat_dist (n := 32) (by decide) s.cx (column hcount) s.cy vcount
  rw [inBall, BitVec.ult, decide_eq_true_iff, ← Int.ofNat_lt]
  show ((_ : Nat) : Int) < 1600 ↔ _
  rw [hdist, sub_sq_comm, sub_sq_comm (s.cy.toNat : Int)]

theorem rgb_red_iff (s : VGA_LED) (hcount : BitVec 11) (vcount : BitVec 10) :
    rgb s hcount vcount = red ↔ inBall s hcount vcount = true := by
  rw [rgb]
  cases inBall s hcount vcount with
  | true => exact iff_of_true rfl rfl
  | false => exact iff_of_false (by decide) (by decide)

/-- A point closer than 40 to a coordinate between two bounds. -/
theorem near_bounds {x p lo hi d : Int} (hlow : lo ≤ p) (hhigh : p ≤ hi)
    (h : (x - p) ^ 2 + d ^ 2 < 1600) : lo - 40 < x ∧ x < hi + 40 := by
  have hsq : (x - p) ^ 2 < 40 ^ 2 := by linarith [sq_nonneg d]
  obtain ⟨h1, h2⟩ := abs_lt_of_sq_lt_sq' hsq (by decide)
  constructor <;> linarith

/-- **The ball is drawn as an exact disc on the screen**, in every iteration and at
    every scan position, until the next write. -/
theorem ball_drawn (n : Nat) (hn : 0 < n) (s : VGA_LED) (trace : List Bus)
    (htrace : Carries (words n) trace) :
    ((trace.foldl vga_led s).cx.toNat : Int) = (ball n).cx ∧
    ((trace.foldl vga_led s).cy.toNat : Int) = (ball n).cy ∧
    (∀ (hcount : BitVec 11) (vcount : BitVec 10),
      rgb (trace.foldl vga_led s) hcount vcount = red ↔
        (((column hcount).toNat : Int) - (ball n).cx) ^ 2
          + ((vcount.toNat : Int) - (ball n).cy) ^ 2 < 1600) ∧
    ∀ x y : Int, (x - (ball n).cx) ^ 2 + (y - (ball n).cy) ^ 2 < 1600 →
      0 ≤ x ∧ x < 640 ∧ 0 ≤ y ∧ y < 480 := by
  obtain ⟨hcx, hcy⟩ := registers htrace s hn rfl
  obtain ⟨hx, hy⟩ := ball_within n
  refine ⟨hcx, hcy, fun hcount vcount => ?_, fun x y hdist => ?_⟩
  · rw [rgb_red_iff, inBall_iff, hcx, hcy]
  · obtain ⟨hx0, hx1⟩ := near_bounds hx.low hx.high hdist
    rw [add_comm] at hdist
    obtain ⟨hy0, hy1⟩ := near_bounds hy.low hy.high hdist
    rw [LEFT_BND] at hx0
    rw [RIGHT_BND] at hx1
    rw [TOP_BND] at hy0
    rw [BOT_BND] at hy1
    omega

/-- One write of the first centre, between two other cycles. -/
def firstTrace : List Bus := [⟨false, 0, true, false⟩, ⟨false, write_coords 321 241, true, true⟩,
  ⟨false, 7, false, true⟩]

theorem ball_drawn_first :
    rgb (firstTrace.foldl vga_led ⟨5, 5⟩) (2 * 360#11) 241 = red ∧
    rgb (firstTrace.foldl vga_led ⟨5, 5⟩) (2 * 361#11) 241 ≠ red := by
  have htrace : Carries (words 1) firstTrace :=
    .idle ⟨false, 7, false, true⟩ rfl rfl (.write ⟨false, write_coords 321 241, true, true⟩ rfl rfl
      (.idle ⟨false, 0, true, false⟩ rfl rfl .nil))
  obtain ⟨-, -, hred, -⟩ := ball_drawn 1 (by decide) ⟨5, 5⟩ firstTrace htrace
  exact ⟨(hred _ _).mpr (by decide), fun h => absurd ((hred _ _).mp h) (by decide)⟩

end Lab3
