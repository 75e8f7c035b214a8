import BambooShoot.Pbss.Stream

/-!
# `char_range_reader` and `char_range_writer`

Models of `include/bs3/pbss/char-range-reader.hh` and
`include/bs3/pbss/char-range-writer.hh`. The pointers are offsets from the
first byte of the range, which is `[0, buffer.length)`; reading or writing
outside it is undefined behaviour.

* `CharRangeReader` is a lawful and forward input stream;
* `CharRangeWriter` is a lawful output stream; `write_fresh` says what memory
  holds after a write that just fits.
-/

namespace BambooShoot.Pbss

open BambooShoot.Lib

/-! ## Reader -/

/-- `basic_char_range_reader<char>`: `current` runs from the first byte of
    `buffer`, `end` is `buffer.length`. -/
structure CharRangeReader where
  buffer : List Byte
  current : ℤ

namespace CharRangeReader

/-- A reader behind `before` and in front of `rest`. -/
def between (before rest : List Byte) : CharRangeReader := ⟨before ++ rest, before.length⟩

/-- A reader at the start of `bs`. -/
def ofBytes (bs : List Byte) : CharRangeReader := between [] bs

/-- `get()` (lines 63–70): `++current` also at the end of the range. -/
def get : Run CharRangeReader (Option Byte) := fun r =>
  let r' := { r with current := r.current + 1 }
  if r'.current > (r.buffer.length : ℤ) then .ok none r'
  else if r.current < 0 then .error .undefinedBehaviour r'
  else .ok r.buffer[r.current.toNat]? r'

/-- `peek()` (lines 72–78). -/
def peek : Run CharRangeReader (Option Byte) := fun r =>
  if r.current ≥ (r.buffer.length : ℤ) then .ok none r
  else if r.current < 0 then .error .undefinedBehaviour r
  else .ok r.buffer[r.current.toNat]? r

/-- `read(dest, count)` (lines 49–56): nothing is copied when fewer than
    `count` bytes are left. A negative `count` asks `Traits::copy` for more
    bytes than any range has. -/
def read (count : ℤ) : Run CharRangeReader (List Byte) := fun r =>
  let r' := { r with current := r.current + count }
  if r'.current > (r.buffer.length : ℤ) then .ok [] r'
  else if r.current < 0 ∨ count < 0 then .error .undefinedBehaviour r'
  else .ok ((r.buffer.drop r.current.toNat).take count.toNat) r'

/-- `ignore(count)` (lines 80–83). -/
def ignore (count : ℤ) : Run CharRangeReader Unit := fun r =>
  .ok () { r with current := r.current + count }

/-- `eof()` (lines 58–61). -/
def eof (r : CharRangeReader) : Bool := decide (r.current > r.buffer.length)

instance : InputStream CharRangeReader where
  get := get
  peek := peek
  read := read
  ignore := ignore
  eof := eof

/-- The cursor is inside the range and `bs` is what is left of it. -/
def Ready (r : CharRangeReader) (bs : List Byte) : Prop :=
  ∃ k : ℕ, r.current = k ∧ k ≤ r.buffer.length ∧ r.buffer.drop k = bs

/-- The reader behind `n` more bytes. -/
def advance (n : ℕ) (r : CharRangeReader) : CharRangeReader := { r with current := r.current + n }

theorem between_ready (before rest : List Byte) : Ready (between before rest) rest :=
  ⟨before.length, rfl, by simp [between], by simp [between]⟩

theorem advance_between (before bs rest : List Byte) :
    advance bs.length (between before (bs ++ rest)) = between (before ++ bs) rest := by
  simp [advance, between]

theorem ready_length {r : CharRangeReader} {bs : List Byte} (h : Ready r bs) :
    r.current + bs.length = r.buffer.length := by
  obtain ⟨k, hk, hle, rfl⟩ := h
  rw [hk, List.length_drop]
  omega

theorem ready_append {r : CharRangeReader} {bs rest : List Byte} (h : Ready r (bs ++ rest)) :
    Ready (advance bs.length r) rest := by
  have hlen := ready_length h
  obtain ⟨k, hk, hle, hdrop⟩ := h
  rw [List.length_append] at hlen
  refine ⟨k + bs.length, by simp [advance, hk], by simp only [advance]; omega, ?_⟩
  rw [advance, ← List.drop_drop, hdrop, List.drop_left]

/-- The bytes between the cursor and the end. -/
def left (r : CharRangeReader) : ℕ := (r.buffer.length - r.current).toNat

instance : ForwardInputStream CharRangeReader where
  left := left
  exhausted := .outOfFuel
  exhausted_eq := rfl
  get_lt := by
    intro r r' b h
    simp only [InputStream.get, get] at h
    split_ifs at h with h1 h2
    · simp at h
    · injection h with _ hr
      rw [← hr]
      simp only [left]
      omega
  get_forward r := by
    simp only [InputStream.get, get]
    split_ifs <;> simp [Forward, Measured.left, Measured.exhausted, left] <;> omega
  peek_forward r := by
    simp only [InputStream.peek, peek]
    split_ifs <;> simp [Forward, Measured.left, Measured.exhausted]
  read_forward n r := by
    simp only [InputStream.read, read]
    split_ifs <;> simp [Forward, Measured.left, Measured.exhausted, left] <;> omega
  ignore_forward n r := by
    simp only [InputStream.ignore, ignore, Forward, Measured.left, left]
    omega

instance : LawfulInputStream CharRangeReader where
  Ready := Ready
  advance := advance
  advance_zero r := by simp [advance]
  advance_add m n r := by simp [advance]; ring
  ready_advance := ready_append
  left_ready h := by
    have hlen := ready_length h
    simp only [Measured.left, left]
    omega
  get_ready := by
    intro r b rest h
    have hlen := ready_length h
    obtain ⟨k, hk, hle, hdrop⟩ := h
    have hb : r.buffer[k]? = some b := by
      rw [← List.head?_drop, hdrop, List.head?_cons]
    rw [List.length_cons] at hlen
    simp only [InputStream.get, get, advance, Nat.cast_one, hk, Int.toNat_natCast, hb]
    rw [if_neg (by omega), if_neg (by omega)]
  read_ready := by
    intro r bs rest h
    have hlen := ready_length h
    obtain ⟨k, hk, hle, hdrop⟩ := h
    rw [List.length_append] at hlen
    simp only [InputStream.read, read, advance, hk, Int.toNat_natCast, hdrop, List.take_left]
    rw [if_neg (by omega), if_neg (by omega)]
  ignore_ready := by
    intro r bs rest _
    rfl
  eof_ready := by
    intro r bs h
    have hlen := ready_length h
    simp only [InputStream.eof, eof, decide_eq_false_iff_not]
    omega
  peek_ready := by
    intro r b rest h
    have hlen := ready_length h
    obtain ⟨k, hk, hle, hdrop⟩ := h
    have hb : r.buffer[k]? = some b := by
      rw [← List.head?_drop, hdrop, List.head?_cons]
    rw [List.length_cons] at hlen
    simp only [InputStream.peek, peek, hk, Int.toNat_natCast, hb]
    rw [if_neg (by omega), if_neg (by omega)]
  peek_end := by
    intro r h
    have hlen := ready_length h
    refine ⟨r, ?_⟩
    simp only [InputStream.peek, peek]
    rw [if_pos (by simp at hlen; omega)]
  eofError _ := .earlyEofError
  eofError_advance _ _ := rfl
  get_end := by
    intro r h
    have hlen := ready_length h
    refine Or.inl ⟨rfl, { r with current := r.current + 1 }, ?_⟩
    simp only [InputStream.get, get]
    rw [if_pos (by simp at hlen; omega)]
  read_short := by
    intro r bs n h hn
    have hlen := ready_length h
    refine Or.inl ⟨rfl, [], { r with current := r.current + n }, ?_, ?_⟩
    · simp only [InputStream.read, read]
      rw [if_pos (by omega)]
    · simp only [InputStream.eof, eof, decide_eq_true_eq]
      omega

instance : EndedInputStream CharRangeReader where
  Ended r := r.current > (r.buffer.length : ℤ)
  get_end_ended := by
    intro r r' h hget
    have hlen := ready_length h
    rw [List.length_nil] at hlen
    simp only [InputStream.get, get] at hget
    rw [if_pos (by omega)] at hget
    cases hget
    dsimp only
    omega
  get_ended := by
    intro r h
    refine ⟨{ r with current := r.current + 1 }, ?_, by dsimp only; omega⟩
    simp only [InputStream.get, get]
    rw [if_pos (by omega)]
  read_ended := by
    intro r n h
    refine ⟨[], { r with current := r.current + n }, ?_, ?_⟩
    · simp only [InputStream.read, read]
      rw [if_pos (by omega)]
    · simp only [InputStream.eof, eof, decide_eq_true_eq]
      omega

end CharRangeReader

/-! ## Writer -/

/-- `basic_char_range_writer<char>`: `memory` is the destination, `none` where
    nothing has been written, and `ptr` the offset of the next byte. -/
structure CharRangeWriter where
  memory : List (Option Byte)
  ptr : ℕ

namespace CharRangeWriter

/-- A writer at the start of `n` bytes of fresh memory. -/
def fresh (n : ℕ) : CharRangeWriter := ⟨List.replicate n none, 0⟩

/-- `put(ch)` (lines 48–52): no check of `ptr`, so a write outside the
    destination is undefined behaviour. -/
def put (ch : Byte) : Run CharRangeWriter Unit := fun w =>
  if w.ptr < w.memory.length then .ok () ⟨w.memory.set w.ptr (some ch), w.ptr + 1⟩
  else .error .undefinedBehaviour w

/-- `write(src, count)` (lines 54–59): `Traits::copy` byte by byte. -/
def write : List Byte → Run CharRangeWriter Unit
  | [] => pure ()
  | ch :: src => do
    put ch
    write src

instance : OutputStream CharRangeWriter where
  put := put
  write := write

theorem write_append (bs cs : List Byte) : write (bs ++ cs) = (write bs >>= fun _ => write cs) := by
  induction bs with
  | nil => simp [write]
  | cons b bs ih => rw [List.cons_append, write, ih, write, bind_assoc]

instance : LawfulOutputStream CharRangeWriter where
  Good _ := True
  emit := write
  emit_nil _ := rfl
  emit_append _ := by rw [write_append]
  emit_good _ _ := trivial
  put_good _ := by simp [OutputStream.put, write]
  write_good _ := rfl

/-- Writing `bs` into a destination of which `done` bytes are written and `n`
    are not. -/
theorem write_prefix (done bs : List Byte) (n : ℕ) :
    write bs ⟨done.map some ++ List.replicate (bs.length + n) none, done.length⟩ =
      .ok () ⟨(done ++ bs).map some ++ List.replicate n none, (done ++ bs).length⟩ := by
  induction bs generalizing done with
  | nil => simp [write, pure, EStateM.pure]
  | cons b bs ih =>
    have hput : put b ⟨done.map some ++ List.replicate ((b :: bs).length + n) none, done.length⟩ =
        .ok () ⟨(done ++ [b]).map some ++ List.replicate (bs.length + n) none,
          (done ++ [b]).length⟩ := by
      rw [put, if_pos (by simp)]
      simp [show bs.length + 1 + n = bs.length + n + 1 by omega, List.replicate_succ]
    rw [write, bind_of_ok hput, ih]
    simp

/-- Writing `bs` into exactly enough fresh memory fills it. -/
theorem write_fresh (bs : List Byte) :
    write bs (fresh bs.length) = .ok () ⟨bs.map some, bs.length⟩ := by
  simpa [fresh] using write_prefix [] bs 0

end CharRangeWriter

end BambooShoot.Pbss
