import BambooShoot.Pbss.Stream

/-!
# Standard streams

`std::istream`, `std::ostream` and the file streams, as far as the library
uses them: a byte array with one position, the state flags, and the mask that
`exceptions(failbit | badbit)` sets. The members follow the C++ standard: each
begins with a sentry, which reports a stream that is not `good()` as a failure.

A device may be full: `room` is the number of bytes it still takes, `none` if
it never fails.

* `StdStream` is a forward and lawful input stream and a lawful output stream;
* `write_ok`, `write_fail`: what a device takes of a write.
-/

namespace BambooShoot.Pbss

open BambooShoot.Lib

/-- A stream over a file or a string. -/
structure StdStream where
  bytes : List Byte
  pos : ℕ := 0
  eofbit : Bool := false
  failbit : Bool := false
  badbit : Bool := false
  /-- `exceptions(failbit | badbit)` was called. -/
  exceptions : Bool := false
  room : Option ℕ := none

namespace StdStream

/-- `good()`. -/
def good (s : StdStream) : Bool := !s.eofbit && !s.failbit && !s.badbit

/-- `fail()`. -/
def fail (s : StdStream) : Bool := s.failbit || s.badbit

/-- Throw what the mask of exceptions asks for and go on with `a` otherwise. -/
def raiseIfFailed {α : Type} (a : α) : Run StdStream α := fun s =>
  if s.exceptions && s.fail then .error (.throws .iosFailure) s else .ok a s

/-- A sentry that fails calls `setstate(failbit)`. -/
def sentryFailure {α : Type} (a : α) : Run StdStream α := fun s =>
  raiseIfFailed a { s with failbit := true }

/-- `get()`. -/
def get : Run StdStream (Option Byte) := fun s =>
  if s.good then
    match s.bytes[s.pos]? with
    | some b => .ok (some b) { s with pos := s.pos + 1 }
    | none => raiseIfFailed none { s with eofbit := true, failbit := true }
  else sentryFailure none s

/-- `peek()`: the end of the file is no failure. -/
def peek : Run StdStream (Option Byte) := fun s =>
  if s.good then
    match s.bytes[s.pos]? with
    | some b => .ok (some b) s
    | none => .ok none { s with eofbit := true }
  else sentryFailure none s

/-- `read(dest, count)`, with the bytes stored at `dest`. -/
def read (count : ℤ) : Run StdStream (List Byte) := fun s =>
  if s.good then
    let got := (s.bytes.drop s.pos).take count.toNat
    if (got.length : ℤ) = count then .ok got { s with pos := s.pos + got.length }
    else raiseIfFailed got { s with pos := s.pos + got.length, eofbit := true, failbit := true }
  else sentryFailure [] s

/-- `ignore(count)`: the end of the file is no failure. -/
def ignore (count : ℤ) : Run StdStream Unit := fun s =>
  if s.good then
    let left := (s.bytes.drop s.pos).length
    if count ≤ (left : ℤ) then .ok () { s with pos := s.pos + count.toNat }
    else .ok () { s with pos := s.pos + left, eofbit := true }
  else sentryFailure () s

/-- What a device takes of a write. -/
def taken (s : StdStream) (src : List Byte) : List Byte :=
  match s.room with
  | none => src
  | some room => src.take room

/-- Bytes get to the device, at the position of the stream. -/
def store (s : StdStream) (taken : List Byte) : StdStream :=
  if taken = [] then s
  else { s with
    bytes := (s.bytes ++ List.replicate (s.pos - s.bytes.length) 0).take s.pos ++ taken ++
      s.bytes.drop (s.pos + taken.length)
    pos := s.pos + taken.length }

/-- `write(src, count)`, at the position of the stream. -/
def write (src : List Byte) : Run StdStream Unit := fun s =>
  if s.good then
    let taken := s.taken src
    let s' := { s.store taken with room := s.room.map (· - taken.length) }
    if taken.length = src.length then .ok () s' else raiseIfFailed () { s' with badbit := true }
  else sentryFailure () s

/-- `put(ch)`. -/
def put (ch : Byte) : Run StdStream Unit := write [ch]

/-- `seekg(pos)`: it clears `eofbit`, and fails on a position before the file. -/
def seekg (pos : ℤ) : Run StdStream Unit := fun s =>
  let s := { s with eofbit := false }
  if s.good then
    if 0 ≤ pos then .ok () { s with pos := pos.toNat }
    else raiseIfFailed () { s with failbit := true }
  else sentryFailure () s

/-- `seekg(off, std::ios_base::end)`. -/
def seekgEnd (off : ℤ) : Run StdStream Unit := fun s => seekg (s.bytes.length + off) s

/-- `seekp(0, std::ios_base::end)`. -/
def seekpEnd : Run StdStream Unit := fun s =>
  if s.fail then .ok () s else .ok () { s with pos := s.bytes.length }

/-- `tellg()` and `tellp()`, a `std::streamoff`. -/
def tell : Run StdStream ℤ := fun s => .ok (if s.fail then -1 else s.pos) s

instance : InputStream StdStream where
  get := get
  peek := peek
  read := read
  ignore := ignore
  eof := eofbit

instance : OutputStream StdStream where
  put := put
  write := write

/-! ## Reading -/

/-- The bytes behind the position. -/
def left (s : StdStream) : ℕ := s.bytes.length - s.pos

instance : Measured Stop StdStream where
  left := left
  exhausted := .outOfFuel

theorem forward_raiseIfFailed {α : Type} (a : α) {s t : StdStream} (h : left t ≤ left s) :
    Forward s (raiseIfFailed a t) := by
  rw [raiseIfFailed]
  split_ifs
  · exact fun h => by cases h
  · exact h

theorem forward_sentryFailure {α : Type} (a : α) (s : StdStream) :
    Forward s (sentryFailure a s) :=
  forward_raiseIfFailed a (le_refl _)

instance : ForwardInputStream StdStream where
  exhausted_eq := rfl
  get_lt := by
    intro s s' b h
    simp only [InputStream.get, get] at h
    split_ifs at h with hgood
    · cases hb : s.bytes[s.pos]? with
      | some b' =>
        have hlt : s.pos < s.bytes.length := (List.getElem?_eq_some_iff.mp hb).1
        rw [hb] at h
        injection h with _ hs
        subst hs
        simp only [Measured.left, left]
        omega
      | none =>
        simp only [hb, raiseIfFailed] at h
        split_ifs at h
        cases h
    · simp only [sentryFailure, raiseIfFailed] at h
      split_ifs at h
      cases h
  get_forward s := by
    simp only [InputStream.get, get]
    split_ifs with hgood
    · cases s.bytes[s.pos]? with
      | some b => exact Nat.sub_le_sub_left (Nat.le_succ _) _
      | none => exact forward_raiseIfFailed none (s := s) (le_refl _)
    · exact forward_sentryFailure none s
  peek_forward s := by
    simp only [InputStream.peek, peek]
    split_ifs with hgood
    · cases s.bytes[s.pos]? with
      | some b => exact le_refl _
      | none => exact le_refl _
    · exact forward_sentryFailure none s
  read_forward n s := by
    simp only [InputStream.read, read]
    split_ifs with hgood hlen
    · exact Nat.sub_le_sub_left (Nat.le_add_right _ _) _
    · exact forward_raiseIfFailed _ (s := s) (Nat.sub_le_sub_left (Nat.le_add_right _ _) _)
    · exact forward_sentryFailure _ s
  ignore_forward n s := by
    simp only [InputStream.ignore, ignore]
    split_ifs with hgood hlen
    · exact Nat.sub_le_sub_left (Nat.le_add_right _ _) _
    · exact Nat.sub_le_sub_left (Nat.le_add_right _ _) _
    · exact forward_sentryFailure _ s

/-- The stream is in working order and `bs` are the bytes behind its position. -/
structure Ready (s : StdStream) (bs : List Byte) : Prop where
  good : s.good = true
  pos_le : s.pos ≤ s.bytes.length
  drop_eq : s.bytes.drop s.pos = bs

/-- The stream behind `n` more bytes. -/
def advance (n : ℕ) (s : StdStream) : StdStream := { s with pos := s.pos + n }

theorem Ready.length {s : StdStream} {bs : List Byte} (h : Ready s bs) :
    s.pos + bs.length = s.bytes.length := by
  have := h.pos_le
  rw [← h.drop_eq, List.length_drop]
  omega

theorem Ready.append {s : StdStream} {bs rest : List Byte} (h : Ready s (bs ++ rest)) :
    Ready (advance bs.length s) rest := by
  have hlen := h.length
  rw [List.length_append] at hlen
  refine ⟨h.good, by simp only [advance]; omega, ?_⟩
  simp only [advance]
  rw [← List.drop_drop, h.drop_eq, List.drop_left]

theorem Ready.getElem? {s : StdStream} {bs : List Byte} (h : Ready s bs) :
    s.bytes[s.pos]? = bs.head? := by
  rw [← h.drop_eq, List.head?_drop]

/-- A failure throws by itself only if the stream was asked for it. -/
def eofError (s : StdStream) : Exn := if s.exceptions then .iosFailure else .earlyEofError

instance : LawfulInputStream StdStream where
  Ready := Ready
  advance := advance
  advance_zero _ := rfl
  advance_add m n s := by simp [advance, Nat.add_assoc]
  ready_advance := Ready.append
  left_ready h := by
    have hlen := h.length
    simp only [Measured.left, left]
    omega
  get_ready h := by
    simp only [InputStream.get, get, h.good, h.getElem?, advance]
    rfl
  read_ready := by
    intro s bs rest h
    simp only [InputStream.read, read, h.good, h.drop_eq, Int.toNat_natCast, List.take_left, advance]
    simp
  ignore_ready := by
    intro s bs rest h
    simp only [InputStream.ignore, ignore, h.good, h.drop_eq, Int.toNat_natCast, advance]
    simp
  eof_ready := by
    intro s bs h
    have hgood := h.good
    simp only [good, Bool.and_eq_true, Bool.not_eq_true'] at hgood
    exact hgood.1.1
  peek_ready h := by
    simp only [InputStream.peek, peek, h.good, h.getElem?]
    rfl
  peek_end := by
    intro s h
    refine ⟨{ s with eofbit := true }, ?_⟩
    simp only [InputStream.peek, peek, h.good, h.getElem?]
    rfl
  eofError := eofError
  eofError_advance _ _ := rfl
  get_end := by
    intro s h
    simp only [InputStream.get, get, h.good, h.getElem?, List.head?_nil]
    rw [if_pos trivial, raiseIfFailed, eofError]
    cases s.exceptions with
    | false => exact Or.inl ⟨rfl, _, rfl⟩
    | true => exact Or.inr ⟨_, rfl⟩
  read_short := by
    intro s bs n h hn
    simp only [InputStream.read, read, h.good, h.drop_eq, Int.toNat_natCast]
    rw [if_pos trivial, List.take_of_length_le (by omega), if_neg (by omega), raiseIfFailed,
      eofError]
    cases s.exceptions with
    | false => exact Or.inl ⟨rfl, _, _, rfl, rfl⟩
    | true => exact Or.inr ⟨_, rfl⟩

/-- A stream without exceptions that has met the end fails silently. -/
theorem sentryFailure_ended {α : Type} (a : α) {s : StdStream} (h : s.exceptions = false) :
    sentryFailure a s = .ok a { s with failbit := true } := by
  unfold sentryFailure raiseIfFailed
  rw [h]
  rfl

theorem not_good_of_eofbit {s : StdStream} (h : s.eofbit = true) : ¬ s.good = true := by
  unfold good
  rw [h]
  exact Bool.false_ne_true

instance : EndedInputStream StdStream where
  Ended s := s.eofbit = true ∧ s.exceptions = false
  get_end_ended := by
    intro s s' h hget
    simp only [InputStream.get, get, h.good, h.getElem?, List.head?_nil] at hget
    rw [if_pos trivial, raiseIfFailed] at hget
    cases he : s.exceptions with
    | false =>
      simp only [he, Bool.false_and, Bool.false_eq_true, if_false] at hget
      cases hget
      exact ⟨rfl, rfl⟩
    | true =>
      simp only [he, fail, Bool.true_or, Bool.true_and, if_true] at hget
      cases hget
  get_ended := by
    rintro s ⟨heof, he⟩
    refine ⟨{ s with failbit := true }, ?_, heof, he⟩
    simp only [InputStream.get, get]
    rw [if_neg (not_good_of_eofbit heof), sentryFailure_ended none he]
  read_ended := by
    rintro s n ⟨heof, he⟩
    refine ⟨[], { s with failbit := true }, ?_, heof⟩
    simp only [InputStream.read, read]
    rw [if_neg (not_good_of_eofbit heof), sentryFailure_ended [] he]

/-! ## Writing -/

/-- The stream takes what is written at its end, or throws. -/
structure Writable (s : StdStream) : Prop where
  good : s.good = true
  at_end : s.pos = s.bytes.length
  reports : s.exceptions = true ∨ s.room = none

/-- The stream after `bs` have been appended to it. -/
def appended (s : StdStream) (bs : List Byte) : StdStream :=
  { s with
    bytes := s.bytes ++ bs
    pos := s.pos + bs.length
    room := s.room.map (· - bs.length) }

theorem Writable.appended {s : StdStream} (h : Writable s) (bs : List Byte) :
    Writable (s.appended bs) := by
  refine ⟨h.good, ?_, ?_⟩
  · simp only [StdStream.appended, List.length_append, h.at_end]
  · rcases h.reports with he | hr
    · exact Or.inl he
    · exact Or.inr (by simp [StdStream.appended, hr])

theorem appended_appended (s : StdStream) (bs cs : List Byte) :
    (s.appended bs).appended cs = s.appended (bs ++ cs) := by
  simp only [appended, List.append_assoc, List.length_append, Nat.add_assoc, Option.map_map]
  congr 1
  cases s.room with
  | none => rfl
  | some r => simp [Nat.sub_sub]

theorem appended_nil (s : StdStream) : s.appended [] = s := by
  obtain ⟨_, _, _, _, _, _, room⟩ := s
  cases room <;> simp [appended]

/-- The device has room for `n` more bytes. -/
def HasRoom (s : StdStream) (n : ℕ) : Prop := ∀ r, s.room = some r → n ≤ r

theorem exists_room_lt {s : StdStream} {n : ℕ} (h : ¬ s.HasRoom n) :
    ∃ r, s.room = some r ∧ r < n := by
  simpa [HasRoom] using h

@[simp] theorem store_good (s : StdStream) (bs : List Byte) : (s.store bs).good = s.good := by
  unfold store
  split_ifs <;> rfl

@[simp] theorem store_exceptions (s : StdStream) (bs : List Byte) :
    (s.store bs).exceptions = s.exceptions := by
  unfold store
  split_ifs <;> rfl

theorem store_at_end {s : StdStream} (h : s.pos = s.bytes.length) (bs : List Byte) :
    s.store bs = { s with bytes := s.bytes ++ bs, pos := s.pos + bs.length } := by
  have hbefore : (s.bytes ++ List.replicate (s.pos - s.bytes.length) 0).take s.pos = s.bytes := by
    rw [h, Nat.sub_self, List.replicate_zero, List.append_nil, List.take_length]
  have hafter : s.bytes.drop (s.pos + bs.length) = [] :=
    List.drop_eq_nil_of_le (by rw [h]; omega)
  unfold store
  split_ifs with hnil
  · rw [hnil, List.append_nil]
    rfl
  · rw [hbefore, hafter, List.append_nil]

theorem write_eq {s : StdStream} (h : Writable s) (bs : List Byte) :
    write bs s =
      if (s.taken bs).length = bs.length then .ok () (s.appended (s.taken bs))
      else raiseIfFailed () { s.appended (s.taken bs) with badbit := true } := by
  rw [write, if_pos h.good]
  simp only [store_at_end h.at_end]
  rfl

/-- A write the device has room for. -/
theorem write_ok {s : StdStream} (h : Writable s) {bs : List Byte} (hroom : s.HasRoom bs.length) :
    write bs s = .ok () (s.appended bs) := by
  have htaken : s.taken bs = bs := by
    rw [taken]
    cases hr : s.room with
    | none => rfl
    | some r => exact List.take_of_length_le (hroom r hr)
  rw [write_eq h, htaken, if_pos rfl]

/-- A device that fills up keeps a part of a write, and the failure is final. -/
theorem write_fail {s : StdStream} (h : Writable s) {bs : List Byte} {r : ℕ}
    (hr : s.room = some r) (hlt : r < bs.length) :
    write bs s = .error (.throws .iosFailure) { s.appended (bs.take r) with badbit := true } := by
  have htaken : s.taken bs = bs.take r := by rw [taken, hr]
  have hexc : s.exceptions = true := h.reports.resolve_right (by rw [hr]; simp)
  rw [write_eq h, htaken, List.length_take, if_neg (by omega), raiseIfFailed]
  simp [appended, hexc, fail]

/-- A write that returns has been taken as a whole. -/
theorem write_eq_ok {s s' : StdStream} (h : Writable s) {bs : List Byte} {u : Unit}
    (hw : write bs s = .ok u s') : s.HasRoom bs.length ∧ s' = s.appended bs := by
  by_cases hfit : s.HasRoom bs.length
  · rw [write_ok h hfit] at hw
    injection hw with _ hs
    exact ⟨hfit, hs.symm⟩
  · obtain ⟨r, hr, hlt⟩ := exists_room_lt hfit
    rw [write_fail h hr hlt] at hw
    cases hw

theorem write_append {s : StdStream} (h : Writable s) (bs cs : List Byte) :
    write (bs ++ cs) s = (write bs >>= fun _ => write cs) s := by
  by_cases hfit : s.HasRoom bs.length
  · have hs := h.appended bs
    rw [bind_of_ok (write_ok h hfit)]
    by_cases hall : s.HasRoom (bs ++ cs).length
    · have hrest : (s.appended bs).HasRoom cs.length := by
        intro r hr
        obtain ⟨r', hr', rfl⟩ := Option.map_eq_some_iff.mp hr
        have := hall r' hr'
        rw [List.length_append] at this
        omega
      rw [write_ok h hall, write_ok hs hrest, appended_appended]
    · obtain ⟨r, hr, hlt⟩ := exists_room_lt hall
      have hle := hfit r hr
      have hr' : (s.appended bs).room = some (r - bs.length) := by simp [appended, hr]
      rw [List.length_append] at hlt
      rw [write_fail h hr (by rw [List.length_append]; omega), write_fail hs hr' (by omega),
        appended_appended, List.take_append, List.take_of_length_le hle]
  · obtain ⟨r, hr, hlt⟩ := exists_room_lt hfit
    rw [bind_of_error (write_fail h hr hlt), write_fail h hr (by rw [List.length_append]; omega),
      List.take_append_of_le_length hlt.le]

instance : LawfulOutputStream StdStream where
  Good := Writable
  emit := write
  emit_nil {s} h := by
    have hroom : s.HasRoom ([] : List Byte).length := fun r _ => Nat.zero_le r
    rw [write_ok h hroom, appended_nil]
  emit_append h := write_append h _ _
  emit_good {s s' bs} h hw := by
    obtain ⟨-, rfl⟩ := write_eq_ok h hw
    exact h.appended bs
  put_good _ := rfl
  write_good _ := rfl

/-! ## Going to the end -/

/-- The stream that `seekp(0, std::ios_base::end)` leaves. -/
def toEnd (s : StdStream) : StdStream := if s.fail then s else { s with pos := s.bytes.length }

theorem seekpEnd_run (s : StdStream) : seekpEnd s = .ok () (toEnd s) := by
  unfold seekpEnd toEnd
  split_ifs <;> rfl

@[simp] theorem toEnd_bytes (s : StdStream) : (toEnd s).bytes = s.bytes := by
  unfold toEnd
  split_ifs <;> rfl

@[simp] theorem toEnd_good (s : StdStream) : (toEnd s).good = s.good := by
  unfold toEnd
  split_ifs <;> rfl

@[simp] theorem toEnd_exceptions (s : StdStream) : (toEnd s).exceptions = s.exceptions := by
  unfold toEnd
  split_ifs <;> rfl

@[simp] theorem toEnd_room (s : StdStream) : (toEnd s).room = s.room := by
  unfold toEnd
  split_ifs <;> rfl

theorem fail_of_good {s : StdStream} (h : s.good = true) : s.fail = false := by
  simp only [good, Bool.and_eq_true, Bool.not_eq_true'] at h
  simp [fail, h.1.2, h.2]

theorem not_good_of_fail {s : StdStream} (h : s.fail = true) : s.good = false := by
  apply eq_false_of_ne_true
  intro hgood
  rw [fail_of_good hgood] at h
  cases h

theorem toEnd_of_good {s : StdStream} (h : s.good = true) :
    toEnd s = { s with pos := s.bytes.length } := by
  unfold toEnd
  rw [fail_of_good h]
  rfl

theorem tell_toEnd {s : StdStream} (h : s.good = true) :
    tell (toEnd s) = .ok (s.bytes.length : ℤ) (toEnd s) := by
  have hfail := fail_of_good ((toEnd_good s).trans h)
  unfold tell
  rw [hfail, toEnd_of_good h]
  rfl

theorem toEnd_writable {s : StdStream} (h : s.good = true) (he : s.exceptions = true) :
    Writable (toEnd s) := by
  refine ⟨(toEnd_good s).trans h, ?_, Or.inl ((toEnd_exceptions s).trans he)⟩
  rw [toEnd_of_good h]

/-- A write to a stream that has failed. -/
theorem write_of_not_good {s : StdStream} (h : s.good = false) (he : s.exceptions = true)
    (bs : List Byte) :
    write bs s = .error (.throws .iosFailure) { s with failbit := true } := by
  unfold write sentryFailure raiseIfFailed
  rw [h, if_neg Bool.false_ne_true]
  simp [he, fail]

/-! ## Streams over given bytes -/

/-- A stream at the end of `bs`, on a device that never fills up. -/
def endOf (bs : List Byte) (exceptions : Bool) : StdStream :=
  { bytes := bs, pos := bs.length, exceptions := exceptions }

theorem endOf_writable (bs : List Byte) (e : Bool) : Writable (endOf bs e) :=
  ⟨rfl, rfl, Or.inr rfl⟩

theorem write_endOf (before bs : List Byte) (e : Bool) :
    write bs (endOf before e) = .ok () (endOf (before ++ bs) e) := by
  rw [write_ok (endOf_writable before e) (fun r hr => by cases hr)]
  simp [appended, endOf]

/-- A stream behind `before` and in front of `rest`. -/
def between (before rest : List Byte) (exceptions : Bool) : StdStream :=
  { bytes := before ++ rest, pos := before.length, exceptions := exceptions }

theorem between_ready (before rest : List Byte) (e : Bool) : Ready (between before rest e) rest :=
  ⟨rfl, by simp [between], by simp [between]⟩

theorem advance_between (before bs rest : List Byte) (e : Bool) :
    advance bs.length (between before (bs ++ rest) e) = between (before ++ bs) rest e := by
  simp [advance, between]

theorem consumes_between {α : Type} {p : Run StdStream α} {bs : List Byte} {a : α}
    (h : Consumes p bs a) (before rest : List Byte) (e : Bool) :
    p (between before (bs ++ rest) e) = .ok a (between (before ++ bs) rest e) := by
  rw [h _ rest (between_ready before (bs ++ rest) e)]
  exact congrArg _ (advance_between before bs rest e)

/-- `seekg` to the start of `rest`. -/
theorem seekg_between {s : StdStream} (hgood : s.good = true) (hroom : s.room = none)
    (before : List Byte) {rest : List Byte} (hbytes : s.bytes = before ++ rest) :
    seekg before.length s = .ok () (between before rest s.exceptions) := by
  obtain ⟨bytes, pos, eofbit, failbit, badbit, exceptions, room⟩ := s
  simp only [good, Bool.and_eq_true, Bool.not_eq_true'] at hgood
  obtain ⟨⟨rfl, rfl⟩, rfl⟩ := hgood
  subst hbytes hroom
  simp [seekg, good, between]

end StdStream

end BambooShoot.Pbss
