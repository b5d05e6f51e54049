import Mathlib.Data.BitVec

/-! # `miner_driver` — the kernel driver

    The `ioctl` handler of `miner_driver.c`: a write puts one byte on the bus and
    into the driver's copy of the registers, a read returns a byte of that copy.
    The copies from and to user space are taken to succeed.

    * **`write_accepted`** and **`write_rejected`** — which digits can be written;
    * **`ioctl_answers`** — what one call does to the cache and to the device;
    * **`ioctls_cached`** — after a sequence of calls the cache holds the last writes;
    * **`calls_answered`** — every call of a sequence is answered from that cache. -/

namespace MinerDriver

/-- A byte of the bus. -/
abbrev Byte := BitVec 8

/-- The size of `segments`. -/
def DATA_SIZE : Nat := 100

/-- The error of a call that is not accepted. -/
def EINVAL : Int := 22

/-- The commands; `other` is everything the `switch` does not list. -/
inductive Cmd where
  | VGA_LED_WRITE_DIGIT
  | VGA_LED_READ_DIGIT
  | other
  deriving DecidableEq

/-- `vga_led_arg_t` -/
structure Arg where
  digit : Byte
  segments : Byte
  deriving DecidableEq

/-- `struct miner_dev`, without the mapped resource. -/
structure Dev where
  segments : List Byte
  size : segments.length = DATA_SIZE

/-- What a call returns to user space and does to the device: the return value, the
    argument copied back, the driver state and the byte written to the bus. -/
structure Reply where
  ret : Int
  vla : Arg
  dev : Dev
  iowrite8 : Option (Byte × Byte)

/-- `write_digit` -/
def write_digit (dev : Dev) (digit segments : Byte) : Dev where
  segments := dev.segments.set digit.toNat segments
  size := by rw [List.length_set, dev.size]

/-- `vga_led_ioctl`; the result is `none` when `dev.segments` is accessed outside
    its bounds. -/
def vga_led_ioctl (dev : Dev) (cmd : Cmd) (vla : Arg) : Option Reply :=
  match cmd with
  | .VGA_LED_WRITE_DIGIT =>
      if 96 < vla.digit.toNat then
        some { ret := -EINVAL, vla := vla, dev := dev, iowrite8 := none }
      else if vla.digit.toNat < DATA_SIZE then
        some { ret := 0, vla := vla, dev := write_digit dev vla.digit vla.segments,
               iowrite8 := some (vla.digit, vla.segments) }
      else none
  | .VGA_LED_READ_DIGIT =>
      if vla.digit.toNat < 97 ∨ 100 < vla.digit.toNat then
        some { ret := -EINVAL, vla := vla, dev := dev, iowrite8 := none }
      else
        dev.segments[vla.digit.toNat]?.map (fun v =>
          { ret := 0, vla := { vla with segments := v }, dev := dev, iowrite8 := none })
  | .other => some { ret := -EINVAL, vla := vla, dev := dev, iowrite8 := none }

/-- Digits up to 96 are written. -/
theorem write_accepted (dev : Dev) {vla : Arg} (h : vla.digit.toNat ≤ 96) :
    vga_led_ioctl dev .VGA_LED_WRITE_DIGIT vla
      = some { ret := 0, vla := vla, dev := write_digit dev vla.digit vla.segments,
               iowrite8 := some (vla.digit, vla.segments) } := by
  rw [vga_led_ioctl, if_neg (Nat.not_lt.mpr h), if_pos (Nat.lt_of_le_of_lt h (by decide))]

/-- Digits from 97 on are not. -/
theorem write_rejected (dev : Dev) {vla : Arg} (h : 96 < vla.digit.toNat) :
    vga_led_ioctl dev .VGA_LED_WRITE_DIGIT vla
      = some { ret := -EINVAL, vla := vla, dev := dev, iowrite8 := none } := by
  rw [vga_led_ioctl, if_pos h]

/-! ## Sequences of calls -/

/-- One `ioctl` call. -/
structure Call where
  cmd : Cmd
  vla : Arg
  deriving DecidableEq

/-- The driver after a sequence of calls; `none` once `dev.segments` has been accessed
    outside its bounds. -/
def ioctls (dev : Dev) (calls : List Call) : Option Dev :=
  calls.foldlM (fun dev c => (vga_led_ioctl dev c.cmd c.vla).map Reply.dev) dev

theorem ioctls_cons {dev : Dev} {c : Call} {r : Reply} (calls : List Call)
    (h : vga_led_ioctl dev c.cmd c.vla = some r) :
    ioctls dev (c :: calls) = ioctls r.dev calls := by
  rw [ioctls, List.foldlM_cons, h]
  rfl

/-- A read of the digit one past the end of `dev.segments`. -/
def Call.PastEnd (c : Call) : Prop := c.cmd = .VGA_LED_READ_DIGIT ∧ c.vla.digit.toNat = 100

instance (c : Call) : Decidable c.PastEnd :=
  inferInstanceAs (Decidable (_ ∧ _))

/-- The value of the last accepted write of `d` in a sequence of calls. -/
def cached (d : Nat) : List Call → Option Byte
  | [] => none
  | c :: calls =>
      (cached d calls).or
        (if c.cmd = .VGA_LED_WRITE_DIGIT ∧ c.vla.digit.toNat = d ∧ d ≤ 96 then
          some c.vla.segments else none)

/-- What a call answers, and what it does to the driver and the device. -/
structure Answers (dev : Dev) (c : Call) (r : Reply) : Prop where
  write_ret : c.cmd = .VGA_LED_WRITE_DIGIT → (r.ret = 0 ↔ c.vla.digit.toNat ≤ 96)
  written : c.cmd = .VGA_LED_WRITE_DIGIT → r.ret = 0 →
    r.dev = write_digit dev c.vla.digit c.vla.segments ∧
    r.iowrite8 = some (c.vla.digit, c.vla.segments)
  read_ret : c.cmd = .VGA_LED_READ_DIGIT →
    (r.ret = 0 ↔ 97 ≤ c.vla.digit.toNat ∧ c.vla.digit.toNat < DATA_SIZE)
  read_value : c.cmd = .VGA_LED_READ_DIGIT → r.ret = 0 →
    dev.segments[c.vla.digit.toNat]? = some r.vla.segments ∧ r.dev = dev ∧ r.iowrite8 = none
  error_kept : r.ret ≠ 0 → r.dev = dev ∧ r.iowrite8 = none

/-- **Every call but a read of digit 100 stays inside `dev.segments`.** -/
theorem ioctl_answers (dev : Dev) {c : Call} (h : ¬ c.PastEnd) :
    ∃ r, vga_led_ioctl dev c.cmd c.vla = some r ∧ Answers dev c r := by
  obtain ⟨cmd, vla⟩ := c
  cases cmd with
  | VGA_LED_WRITE_DIGIT =>
      by_cases hd : vla.digit.toNat ≤ 96
      · refine ⟨_, write_accepted dev hd, ?_⟩
        exact ⟨fun _ => ⟨fun _ => hd, fun _ => rfl⟩, fun _ _ => ⟨rfl, rfl⟩, nofun, nofun,
          fun hne => absurd rfl hne⟩
      · refine ⟨_, write_rejected dev (Nat.lt_of_not_le hd), ?_⟩
        exact ⟨fun _ => ⟨nofun, fun hle => absurd hle hd⟩, fun _ => nofun, nofun, nofun,
          fun _ => ⟨rfl, rfl⟩⟩
  | VGA_LED_READ_DIGIT =>
      have hne : vla.digit.toNat ≠ 100 := fun h100 => h ⟨rfl, h100⟩
      by_cases hd : vla.digit.toNat < 97 ∨ 100 < vla.digit.toNat
      · refine ⟨_, if_pos hd, ?_⟩
        refine ⟨nofun, nofun, fun _ => ⟨nofun, fun hin => ?_⟩, fun _ => nofun,
          fun _ => ⟨rfl, rfl⟩⟩
        have hlo : 97 ≤ vla.digit.toNat := hin.1
        have hhi : vla.digit.toNat < 100 := hin.2
        exact absurd hd (by omega)
      · have hlt : vla.digit.toNat < dev.segments.length := by
          rw [dev.size]
          show vla.digit.toNat < 100
          omega
        have hget := List.getElem?_eq_getElem hlt
        refine ⟨{ ret := 0, vla := { vla with segments := dev.segments[vla.digit.toNat] },
                  dev := dev, iowrite8 := none }, ?_, ?_⟩
        · show (if _ then _ else _) = _
          rw [if_neg hd, hget]
          rfl
        · rw [dev.size] at hlt
          refine ⟨nofun, nofun, fun _ => ⟨fun _ => ⟨?_, hlt⟩, fun _ => rfl⟩,
            fun _ _ => ⟨hget, rfl, rfl⟩, fun hret => absurd rfl hret⟩
          show 97 ≤ vla.digit.toNat
          omega
  | other =>
      exact ⟨_, rfl, nofun, nofun, nofun, nofun, fun _ => ⟨rfl, rfl⟩⟩

/-- One call leaves the cache as the last accepted write says. -/
theorem Answers.segments {dev : Dev} {c : Call} {r : Reply} (h : Answers dev c r)
    (hr : vga_led_ioctl dev c.cmd c.vla = some r) (d : Nat) :
    r.dev.segments[d]? = (cached d [c]).or dev.segments[d]? := by
  by_cases hw : c.cmd = .VGA_LED_WRITE_DIGIT ∧ c.vla.digit.toNat ≤ 96
  · obtain ⟨hcmd, hle⟩ := hw
    obtain ⟨hdev, -⟩ := h.written hcmd ((h.write_ret hcmd).mpr hle)
    rw [hdev]
    show (dev.segments.set c.vla.digit.toNat c.vla.segments)[d]? = _
    rw [List.getElem?_set, cached, cached, Option.none_or]
    by_cases hd : c.vla.digit.toNat = d
    · have hlt : c.vla.digit.toNat < dev.segments.length := by
        rw [dev.size]
        exact Nat.lt_of_le_of_lt hle (by decide)
      rw [if_pos hd, if_pos hlt, if_pos ⟨hcmd, hd, hd ▸ hle⟩]
      rfl
    · rw [if_neg hd, if_neg (fun hc => hd hc.2.1)]
      rfl
  · have hnone : cached d [c] = none := by
      rw [cached, cached, Option.none_or, if_neg]
      rintro ⟨hcmd, rfl, hle⟩
      exact hw ⟨hcmd, hle⟩
    have hdev : r.dev = dev := by
      by_cases hret : r.ret = 0
      · cases hcmd : c.cmd with
        | VGA_LED_WRITE_DIGIT => exact absurd ⟨hcmd, (h.write_ret hcmd).mp hret⟩ hw
        | VGA_LED_READ_DIGIT => exact (h.read_value hcmd hret).2.1
        | other =>
            rw [hcmd] at hr
            obtain rfl := Option.some.inj hr
            rfl
      · exact (h.error_kept hret).1
    rw [hnone, hdev]
    rfl

/-- **The cache holds the last accepted write of every digit**, by induction over the
    calls. -/
theorem ioctls_cached (dev : Dev) {calls : List Call} (h : ∀ c ∈ calls, ¬ c.PastEnd) :
    ∃ dev', ioctls dev calls = some dev' ∧
      ∀ d : Nat, dev'.segments[d]? = (cached d calls).or dev.segments[d]? := by
  induction calls generalizing dev with
  | nil => exact ⟨dev, rfl, fun _ => rfl⟩
  | cons c calls ih =>
      obtain ⟨r, hr, hanswers⟩ := ioctl_answers dev (h c List.mem_cons_self)
      obtain ⟨dev', hrest, hcache⟩ := ih r.dev (fun c' hc' => h c' (List.mem_cons_of_mem c hc'))
      refine ⟨dev', (ioctls_cons calls hr).trans hrest, fun d => ?_⟩
      rw [hcache d, hanswers.segments hr d, ← Option.or_assoc]
      rfl

/-- **What the calls answer, at every point of every sequence** without a read past the
    end: no access is out of bounds, the cache holds the last accepted write of every
    digit, and a digit that can be written cannot be read back. -/
theorem calls_answered (dev : Dev) (calls : List Call) (h : ∀ c ∈ calls, ¬ c.PastEnd) :
    (ioctls dev calls).isSome = true ∧
    ∀ pre c post, calls = pre ++ c :: post →
      ∃ dev' r, ioctls dev pre = some dev' ∧ vga_led_ioctl dev' c.cmd c.vla = some r ∧
        Answers dev' c r ∧
        (∀ d : Nat, dev'.segments[d]? = (cached d pre).or dev.segments[d]?) ∧
        (c.cmd = .VGA_LED_READ_DIGIT → c.vla.digit.toNat ≤ 96 → r.ret = -EINVAL) := by
  constructor
  · obtain ⟨dev', hrun, -⟩ := ioctls_cached dev h
    rw [hrun]
    rfl
  · rintro pre c post rfl
    have hpre : ∀ c' ∈ pre, ¬ c'.PastEnd :=
      fun c' hc' => h c' (List.mem_append_left _ hc')
    obtain ⟨dev', hrun, hcache⟩ := ioctls_cached dev hpre
    obtain ⟨r, hr, hanswers⟩ :=
      ioctl_answers dev' (h c (List.mem_append_right _ List.mem_cons_self))
    refine ⟨dev', r, hrun, hr, hanswers, hcache, fun hcmd hle => ?_⟩
    rw [hcmd, vga_led_ioctl, if_pos (.inl (Nat.lt_succ_of_le hle))] at hr
    obtain rfl := Option.some.inj hr
    rfl

theorem length_zeros : (List.replicate DATA_SIZE (0 : Byte)).length = DATA_SIZE :=
  List.length_replicate

/-- The driver before its first call: `dev` has static storage. -/
def initialDev : Dev where
  segments := List.replicate DATA_SIZE 0
  size := length_zeros

/-- A write, an attempt to read it back, and a read of a digit that may be read. -/
def writeReadBack : List Call := [⟨.VGA_LED_WRITE_DIGIT, 5, 17⟩, ⟨.VGA_LED_READ_DIGIT, 5, 0⟩,
  ⟨.VGA_LED_READ_DIGIT, 97, 1⟩]

theorem calls_answered_writeReadBack :
    ∃ dev' r, ioctls initialDev writeReadBack.dropLast = some dev' ∧
      vga_led_ioctl dev' .VGA_LED_READ_DIGIT ⟨97, 1⟩ = some r ∧
      dev'.segments[5]? = some 17 := by
  obtain ⟨-, hat⟩ := calls_answered initialDev writeReadBack (by decide)
  obtain ⟨dev', r, hrun, hr, -, hcache, -⟩ :=
    hat writeReadBack.dropLast ⟨.VGA_LED_READ_DIGIT, 97, 1⟩ [] rfl
  refine ⟨dev', r, hrun, hr, ?_⟩
  rw [hcache 5]
  rfl

/-- A cache: the accesses are in bounds, a digit whose write was accepted reads back
    until it is written again, and an error changes nothing. -/
structure ReadsBack (dev : Dev) (calls : List Call) : Prop where
  in_bounds : (ioctls dev calls).isSome = true
  read_back : ∀ pre d v mid x post,
    calls = pre ++ ⟨.VGA_LED_WRITE_DIGIT, d, v⟩ :: (mid ++ ⟨.VGA_LED_READ_DIGIT, d, x⟩ :: post) →
    (∀ c ∈ mid, ¬ (c.cmd = .VGA_LED_WRITE_DIGIT ∧ c.vla.digit = d)) →
    ∀ dev1 w, ioctls dev pre = some dev1 →
      vga_led_ioctl dev1 .VGA_LED_WRITE_DIGIT ⟨d, v⟩ = some w → w.ret = 0 →
      ∃ dev2 r, ioctls w.dev mid = some dev2 ∧
        vga_led_ioctl dev2 .VGA_LED_READ_DIGIT ⟨d, x⟩ = some r ∧
        r.ret = 0 ∧ r.vla.segments = v
  error_kept : ∀ pre c post, calls = pre ++ c :: post → ∀ dev1 r, ioctls dev pre = some dev1 →
    vga_led_ioctl dev1 c.cmd c.vla = some r → r.ret ≠ 0 → r.dev = dev1 ∧ r.iowrite8 = none

/-- **A digit that was written is not read back.** -/
theorem no_read_back : ¬ ReadsBack initialDev writeReadBack := by
  intro h
  obtain ⟨dev2, r, hrun, hr, hret, -⟩ :=
    h.read_back [] 5 17 [] 0 [⟨.VGA_LED_READ_DIGIT, 97, 1⟩] rfl nofun initialDev _ rfl
      (write_accepted initialDev (by decide)) rfl
  obtain rfl := Option.some.inj hr
  exact nomatch hret

end MinerDriver
