import FpgaMiner.CBufferProofs
import FpgaMiner.MinerDriverProofs

/-! # `request` — assembling a response

    libcurl hands the body of a response to `write_response` in chunks.  `pos` is an
    `int`, the lengths are `size_t`, and the guard keeps one byte for the terminator.

    * **`write_response_step`** — what one chunk does behind an assembled prefix;
    * **`response_assembled`** — hence what any sequence of chunks does. -/

namespace Response

open CBuffer MinerDriver

/-- The size of the buffer of a response. -/
def BUFFER_SIZE : Nat := 256 * 1024

/-- `struct write_result` -/
structure WriteResult where
  data : Buffer Byte BUFFER_SIZE
  pos : BitVec 32

/-- The arguments of a callback: `size * nmemb` bytes, fewer than 2³¹. -/
structure Chunk (w : Nat) where
  bytes : List Byte
  size : BitVec w
  nmemb : BitVec w
  whole : size.toNat * nmemb.toNat = bytes.length
  small : bytes.length < 2 ^ 31

variable {w : Nat}

/-- `write_response`: what it returns and leaves, `none` if `memcpy` left the buffer. -/
def write_response (result : WriteResult) (c : Chunk w) : Option (BitVec w × WriteResult) :=
  -- `result->pos` is widened with its sign
  if result.pos.signExtend w + c.size * c.nmemb ≥ BitVec.ofNat w (BUFFER_SIZE - 1) then
    some (0, result)
  else do
    let data ← result.data.memcpy result.pos.toInt c.bytes
    some (c.size * c.nmemb,
      { data := data
        pos := (result.pos.signExtend w + c.size * c.nmemb).setWidth 32 })

/-- The chunks of a transfer in order; libcurl aborts it when a callback returns another
    number than it was given. -/
def perform : WriteResult → List (Chunk w) → Option (Bool × WriteResult)
  | result, [] => some (true, result)
  | result, c :: chunks => do
      let (ret, result) ← write_response result c
      if ret = c.size * c.nmemb then perform result chunks else some (false, result)

/-- `request` with a buffer from `malloc`, on a transfer that fails at most in a callback:
    the terminated buffer or `NULL`. -/
def request (data : Buffer Byte BUFFER_SIZE) (chunks : List (Chunk w)) (code : Int) :
    Option (Option (Buffer Byte BUFFER_SIZE)) := do
  let (done, write_result) ← perform { data := data, pos := 0 } chunks
  if done = false then return none
  else if code ≠ 200 then return none
  else return some (← write_result.data.store write_result.pos.toInt 0)

/-- The body that the chunks make up. -/
def body (chunks : List (Chunk w)) : List Byte := chunks.flatMap Chunk.bytes

/-! ## One chunk -/

/-- The buffer starts with `b` and is what `malloc` gave behind it. -/
structure Assembled (data : Buffer Byte BUFFER_SIZE) (b : List Byte) (result : WriteResult) :
    Prop where
  bytes : result.data.bytes = b ++ data.bytes.drop b.length
  pos : result.pos = BitVec.ofNat 32 b.length
  room : b.length ≤ BUFFER_SIZE - 2

theorem product_eq (c : Chunk w) : c.size * c.nmemb = BitVec.ofNat w c.bytes.length := by
  rw [← c.whole, BitVec.ofNat_mul, BitVec.ofNat_toNat, BitVec.ofNat_toNat, BitVec.setWidth_eq,
    BitVec.setWidth_eq]

theorem two_pow_le (hw : 32 ≤ w) : 2 ^ 32 ≤ 2 ^ w := Nat.pow_le_pow_right (by decide) hw

theorem product_ne_zero (hw : 32 ≤ w) (c : Chunk w) (h : c.bytes.length ≠ 0) :
    c.size * c.nmemb ≠ 0 := by
  have hpow := two_pow_le hw
  have hsmall := c.small
  rw [product_eq]
  intro heq
  have hnat := congrArg BitVec.toNat heq
  rw [BitVec.toNat_ofNat, Nat.mod_eq_of_lt (by omega)] at hnat
  exact h hnat

/-- A position in the buffer is not negative as an `int`. -/
theorem msb_pos {n : Nat} (hn : n ≤ BUFFER_SIZE - 2) : (BitVec.ofNat 32 n).msb = false := by
  have hsize : BUFFER_SIZE = 262144 := rfl
  rw [BitVec.msb_eq_false_iff_two_mul_lt, BitVec.toNat_ofNat, Nat.mod_eq_of_lt (by omega)]
  omega

theorem toInt_pos {n : Nat} (hn : n ≤ BUFFER_SIZE - 2) : (BitVec.ofNat 32 n).toInt = n := by
  have hsize : BUFFER_SIZE = 262144 := rfl
  rw [BitVec.toInt_eq_toNat_of_msb (msb_pos hn), BitVec.toNat_ofNat, Nat.mod_eq_of_lt (by omega)]

/-- The sum of the guard. -/
theorem sum_eq (hw : 32 ≤ w) {n : Nat} (hn : n ≤ BUFFER_SIZE - 2) (c : Chunk w) :
    (BitVec.ofNat 32 n).signExtend w + c.size * c.nmemb = BitVec.ofNat w (n + c.bytes.length) := by
  have hsize : BUFFER_SIZE = 262144 := rfl
  rw [BitVec.signExtend_eq_setWidth_of_msb_false (msb_pos hn),
    BitVec.setWidth_ofNat_of_le_of_lt hw (by omega), product_eq, ← BitVec.ofNat_add]

/-- The guard compares without overflow. -/
theorem guard_iff (hw : 32 ≤ w) {n : Nat} (hn : n ≤ BUFFER_SIZE - 2) (c : Chunk w) :
    (BitVec.ofNat 32 n).signExtend w + c.size * c.nmemb ≥ BitVec.ofNat w (BUFFER_SIZE - 1)
      ↔ ¬ n + c.bytes.length ≤ BUFFER_SIZE - 2 := by
  have hsize : BUFFER_SIZE = 262144 := rfl
  have hpow := two_pow_le hw
  have hsmall := c.small
  rw [sum_eq hw hn, ge_iff_le, BitVec.le_def, BitVec.toNat_ofNat, BitVec.toNat_ofNat,
    Nat.mod_eq_of_lt (by omega), Nat.mod_eq_of_lt (by omega)]
  omega

/-- **One chunk behind an assembled prefix**: it is appended if it leaves room for the
    terminator, else nothing changes. -/
theorem write_response_step (hw : 32 ≤ w) {data : Buffer Byte BUFFER_SIZE} {b : List Byte}
    {result : WriteResult} (h : Assembled data b result) (c : Chunk w) :
    (b.length + c.bytes.length ≤ BUFFER_SIZE - 2 → ∃ result',
      write_response result c = some (c.size * c.nmemb, result') ∧
      Assembled data (b ++ c.bytes) result') ∧
    (¬ b.length + c.bytes.length ≤ BUFFER_SIZE - 2 →
      write_response result c = some (0, result)) := by
  have hsize : BUFFER_SIZE = 262144 := rfl
  constructor
  · intro hroom
    have hguard := mt (guard_iff hw h.room c).mp (not_not.mpr hroom)
    have hsplit : result.data.bytes = b ++ ((data.bytes.drop b.length).take c.bytes.length
        ++ data.bytes.drop (b ++ c.bytes).length) := by
      rw [h.bytes, List.length_append, ← List.drop_drop, List.take_append_drop]
    have hlen : ((data.bytes.drop b.length).take c.bytes.length).length = c.bytes.length := by
      have hdata := data.size
      rw [List.length_take, List.length_drop]
      omega
    obtain ⟨next, hcopy, hbytes⟩ := memcpy_at hsplit (toInt_pos h.room) hlen
    rw [← h.pos] at hguard hcopy
    refine ⟨{ data := next, pos := (result.pos.signExtend w + c.size * c.nmemb).setWidth 32 },
      ?_, ?_⟩
    · rw [write_response, if_neg hguard, hcopy]
      rfl
    · constructor
      · rw [hbytes, List.append_assoc]
      · show (result.pos.signExtend w + c.size * c.nmemb).setWidth 32 = _
        rw [h.pos, sum_eq hw h.room, BitVec.setWidth_ofNat_of_le hw, List.length_append]
      · rw [List.length_append]
        exact hroom
  · intro hroom
    have hguard := (guard_iff hw h.room c).mpr hroom
    rw [← h.pos] at hguard
    rw [write_response, if_pos hguard]

/-! ## A transfer -/

theorem body_cons (c : Chunk w) (chunks : List (Chunk w)) :
    body (c :: chunks) = c.bytes ++ body chunks := rfl

/-- A transfer whose body has room is assembled. -/
theorem perform_accepted (hw : 32 ≤ w) {data : Buffer Byte BUFFER_SIZE} (chunks : List (Chunk w)) :
    ∀ (b : List Byte) (result : WriteResult), Assembled data b result →
      b.length + (body chunks).length ≤ BUFFER_SIZE - 2 →
      ∃ result', perform result chunks = some (true, result') ∧
        Assembled data (b ++ body chunks) result' := by
  induction chunks with
  | nil =>
      intro b result h _
      refine ⟨result, rfl, ?_⟩
      rwa [show body ([] : List (Chunk w)) = [] from rfl, List.append_nil]
  | cons c chunks ih =>
      intro b result h hroom
      rw [body_cons, List.length_append] at hroom
      obtain ⟨next, hstep, hnext⟩ := (write_response_step hw h c).1 (by omega)
      obtain ⟨last, hrun, hlast⟩ := ih (b ++ c.bytes) next hnext
        (by rw [List.length_append]; omega)
      refine ⟨last, ?_, ?_⟩
      · rw [perform, hstep]
        show (if _ then _ else _) = _
        rw [if_pos rfl]
        exact hrun
      · rwa [body_cons, ← List.append_assoc]

/-- Any other transfer ends at a chunk that is rejected. -/
theorem perform_rejected (hw : 32 ≤ w) {data : Buffer Byte BUFFER_SIZE} (chunks : List (Chunk w)) :
    ∀ (b : List Byte) (result : WriteResult), Assembled data b result →
      ¬ b.length + (body chunks).length ≤ BUFFER_SIZE - 2 →
      ∃ before c after result', chunks = before ++ c :: after ∧
        perform result before = some (true, result') ∧
        write_response result' c = some (0, result') ∧
        perform result chunks = some (false, result') := by
  induction chunks with
  | nil =>
      intro b result h hroom
      exact absurd h.room hroom
  | cons c chunks ih =>
      intro b result h hroom
      rw [body_cons, List.length_append] at hroom
      by_cases hc : b.length + c.bytes.length ≤ BUFFER_SIZE - 2
      · obtain ⟨next, hstep, hnext⟩ := (write_response_step hw h c).1 hc
        obtain ⟨before, d, after, last, rfl, hbefore, hd, hrun⟩ := ih (b ++ c.bytes) next hnext
          (by rw [List.length_append]; omega)
        have hgo : ∀ chunks', perform result (c :: chunks') = perform next chunks' := by
          intro chunks'
          rw [perform, hstep]
          show (if _ then _ else _) = _
          rw [if_pos rfl]
        exact ⟨c :: before, d, after, last, rfl, (hgo before).trans hbefore, hd, (hgo _).trans hrun⟩
      · have hstep := (write_response_step hw h c).2 hc
        have hne : (0 : BitVec w) ≠ c.size * c.nmemb :=
          (product_ne_zero hw c (by have := h.room; omega)).symm
        refine ⟨[], c, chunks, result, rfl, rfl, hstep, ?_⟩
        rw [perform, hstep]
        show (if _ then _ else _) = _
        rw [if_neg hne]

/-- Before the first chunk. -/
def start (data : Buffer Byte BUFFER_SIZE) : WriteResult := { data := data, pos := 0 }

theorem assembled_start (data : Buffer Byte BUFFER_SIZE) : Assembled data [] (start data) := by
  constructor
  · rfl
  · rfl
  · exact Nat.zero_le _

/-- The terminator goes behind an assembled body. -/
theorem store_terminator {data : Buffer Byte BUFFER_SIZE} {b : List Byte} {result : WriteResult}
    (h : Assembled data b result) :
    ∃ out, result.data.store result.pos.toInt 0#8 = some out ∧
      out.bytes = b ++ 0#8 :: data.bytes.drop (b.length + 1) := by
  have hsize : BUFFER_SIZE = 262144 := rfl
  have hroom := h.room
  have hdata := data.size
  have hsplit : result.data.bytes
      = b ++ data.bytes[b.length] :: data.bytes.drop (b.length + 1) := by
    rw [h.bytes, List.drop_eq_getElem_cons (by omega)]
  have hpos : result.pos.toInt = b.length := by
    rw [h.pos, toInt_pos h.room]
  exact store_at hsplit hpos 0#8

/-- A body with its terminator in the buffer. -/
def terminated (data : Buffer Byte BUFFER_SIZE) (b : List Byte) (h : b.length ≤ BUFFER_SIZE - 2) :
    Buffer Byte BUFFER_SIZE where
  bytes := b ++ 0#8 :: data.bytes.drop (b.length + 1)
  size := by
    have hsize : BUFFER_SIZE = 262144 := rfl
    rw [List.length_append, List.length_cons, List.length_drop, data.size]
    omega

/-- What `request` returns for a body, however it is split. -/
def answer (data : Buffer Byte BUFFER_SIZE) (b : List Byte) (code : Int) :
    Option (Buffer Byte BUFFER_SIZE) :=
  if h : b.length ≤ BUFFER_SIZE - 2 then if code ≠ 200 then none else some (terminated data b h)
  else none

theorem request_eq (hw : 32 ≤ w) (data : Buffer Byte BUFFER_SIZE) (chunks : List (Chunk w))
    (code : Int) : request data chunks code = some (answer data (body chunks) code) := by
  by_cases hroom : (body chunks).length ≤ BUFFER_SIZE - 2
  · obtain ⟨result, hrun, hresult⟩ := perform_accepted hw chunks [] (start data)
      (assembled_start data) (by rwa [List.length_nil, Nat.zero_add])
    obtain ⟨out, hstore, hout⟩ := store_terminator hresult
    have hterminated : out = terminated data (body chunks) hroom := by
      obtain ⟨bytes, size⟩ := out
      exact (Buffer.mk.injEq _ _ _ _).mpr hout
    rw [request]
    show (perform (start data) chunks).bind _ = _
    rw [hrun, answer, dif_pos hroom]
    by_cases hcode : code ≠ 200
    · simp [hcode]
    · simp [hcode, hstore, hterminated]
  · obtain ⟨-, -, -, result, -, -, -, hrun⟩ := perform_rejected hw chunks [] (start data)
      (assembled_start data) (by rwa [List.length_nil, Nat.zero_add])
    rw [request]
    show (perform (start data) chunks).bind _ = _
    rw [hrun, answer, dif_neg hroom]
    rfl

/-- **Response assembly**: the chunks are accepted exactly when the body leaves room for
    two more bytes; then it stands in the buffer and the terminator has a place.  A
    rejected chunk changes nothing.  `request` returns the terminated buffer where the body
    fits and the code is 200 and `NULL` elsewhere, so only the body matters. -/
theorem response_assembled (w : Nat) (hw : 32 ≤ w) (data : Buffer Byte BUFFER_SIZE)
    (chunks : List (Chunk w)) :
    ∃ done result, perform (start data) chunks = some (done, result) ∧
      (done = true ↔ (body chunks).length ≤ BUFFER_SIZE - 2) ∧
      (done = true → result.pos.toNat = (body chunks).length ∧
        result.data.bytes.take result.pos.toNat = body chunks ∧
        ∃ out, result.data.store result.pos.toInt 0 = some out) ∧
      (done = false → ∃ before c after, chunks = before ++ c :: after ∧
        perform (start data) before = some (true, result) ∧
        write_response result c = some (0, result)) ∧
      (∀ code : Int, request data chunks code = some (answer data (body chunks) code)) ∧
      ∀ (chunks' : List (Chunk w)) (code : Int), body chunks' = body chunks →
        request data chunks' code = request data chunks code := by
  have hreturned := request_eq hw data chunks
  have hsplit : ∀ (chunks' : List (Chunk w)) (code : Int), body chunks' = body chunks →
      request data chunks' code = request data chunks code := by
    intro chunks' code hbody
    rw [request_eq hw, request_eq hw, hbody]
  by_cases hroom : (body chunks).length ≤ BUFFER_SIZE - 2
  · obtain ⟨result, hrun, hresult⟩ := perform_accepted hw chunks [] (start data)
      (assembled_start data) (by rwa [List.length_nil, Nat.zero_add])
    obtain ⟨out, hstore, -⟩ := store_terminator hresult
    have hpos : result.pos.toNat = (body chunks).length := by
      have hsize : BUFFER_SIZE = 262144 := rfl
      rw [hresult.pos, List.nil_append, BitVec.toNat_ofNat, Nat.mod_eq_of_lt (by omega)]
    refine ⟨true, result, hrun, ⟨fun _ => hroom, fun _ => rfl⟩, fun _ => ⟨hpos, ?_, out, hstore⟩,
      fun h => absurd h (by decide), hreturned, hsplit⟩
    rw [hpos, hresult.bytes, List.nil_append, List.take_left]
  · obtain ⟨before, c, after, result, hchunks, hbefore, hc, hrun⟩ := perform_rejected hw chunks []
      (start data) (assembled_start data) (by rwa [List.length_nil, Nat.zero_add])
    exact ⟨false, result, hrun, ⟨fun h => absurd h (by decide), fun h => absurd h hroom⟩,
      fun h => absurd h (by decide), fun _ => ⟨before, c, after, hchunks, hbefore, hc⟩,
      hreturned, hsplit⟩

/-- A chunk of one byte. -/
def oneByte (b : Byte) : Chunk 32 where
  bytes := [b]
  size := 1
  nmemb := 1
  whole := rfl
  small := Nat.one_lt_two_pow (by decide)

theorem response_assembled_two :
    ∃ done result, perform (start (Buffer.const BUFFER_SIZE 0#8)) [oneByte 97, oneByte 98]
      = some (done, result) ∧
      (done = true ↔ (body [oneByte 97, oneByte 98]).length ≤ BUFFER_SIZE - 2) ∧
      request (Buffer.const BUFFER_SIZE 0#8) [oneByte 97, oneByte 98] 200
        = some (some (terminated (Buffer.const BUFFER_SIZE 0#8) [97, 98] (by decide))) ∧
      request (Buffer.const BUFFER_SIZE 0#8) [oneByte 97, oneByte 98] 404 = some none := by
  obtain ⟨done, result, hrun, hdone, -, -, hreturned, -⟩ := response_assembled 32 (by decide)
    (Buffer.const BUFFER_SIZE 0#8) [oneByte 97, oneByte 98]
  exact ⟨done, result, hrun, hdone, hreturned 200, hreturned 404⟩

end Response
