import BambooShoot.Pbsf.IndexedFile

/-!
# Buffered file streams

What is written to a `std::fstream` stays in the buffer of its `std::filebuf` for
some time. The buffer is handed over to the device when it is full, before the
position is changed, and when the file is closed; how large it is, and what is
handed over earlier, is left to the implementation. A device that fills up is
noticed only then.

Results:
* `puts_eq`, `puts_full`: a write, on a device that takes what is handed over and on
  one that fills up;
* `Sound.rememberedAppend`, `Sound.rememberedAppend_full`: an append, likewise;
* `reads_delayedRead`, `reads_readCurrentIndex`: where nothing is pending, reading
  does not see the buffer;
* `openIndexedOutputFile_old`, `openIndexedOutputFile_new`: a file that is opened.
-/

namespace BambooShoot.Pbsf

open BambooShoot.Lib BambooShoot.Pbss

/-- A `std::fstream` with the buffer for its output. -/
structure FileStream where
  /-- The file as far as the device has it, and the state of the stream. -/
  file : StdStream
  /-- What has been written and is not handed over yet. -/
  pending : List Byte := []
  /-- Whether the buffer holds the byte that is written after so many others;
      otherwise it is handed over together with this byte. -/
  holds : ℕ → Bool
  /-- The number of bytes written. -/
  count : ℕ := 0
  /-- The number of bytes that the device still takes, `none` if it never fails. -/
  room : Option ℕ := none

namespace FileStream

/-- What does not concern the buffer. -/
def onFile {α : Type} (p : Run StdStream α) : Run FileStream α :=
  zoom FileStream.file (fun file s => { s with file := file }) p

/-- What the device takes of bytes that are handed over. -/
def taken (s : FileStream) (bs : List Byte) : List Byte :=
  match s.room with
  | none => bs
  | some room => bs.take room

/-- Bytes are handed over. -/
def handOver (s : FileStream) (bs : List Byte) : FileStream :=
  { s with file := s.file.store (s.taken bs), room := s.room.map (· - (s.taken bs).length) }

/-- What a change of the position begins with. A failure is reported, and what is
    pending stays so. -/
def drain : Run FileStream Unit := fun s =>
  if s.file.fail = true ∨ s.pending = [] then .ok () s
  else
    let s' := s.handOver s.pending
    if (s.taken s.pending).length = s.pending.length then .ok () { s' with pending := [] }
    else onFile (StdStream.sentryFailure ()) s'

/-- `put(ch)`. -/
def put (ch : Byte) : Run FileStream Unit := fun s =>
  if s.file.good then
    if s.holds s.count then .ok () { s with pending := s.pending ++ [ch], count := s.count + 1 }
    else
      let s' := { s.handOver (s.pending ++ [ch]) with count := s.count + 1 }
      if (s.taken (s.pending ++ [ch])).length = (s.pending ++ [ch]).length then
        .ok () { s' with pending := [] }
      else onFile (StdStream.raiseIfFailed ()) { s' with file := { s'.file with badbit := true } }
  else onFile (StdStream.sentryFailure ()) s

/-- `write(src, count)`, as if by repeated `sputc`. -/
def write (src : List Byte) : Run FileStream Unit := fun s =>
  if s.file.good then src.forM put s else onFile (StdStream.sentryFailure ()) s

/-- `tellg()` and `tellp()`. -/
def tell : Run FileStream ℤ := fun s =>
  .ok (if s.file.fail then -1 else s.file.pos + s.pending.length) s

/-- What the file holds once everything is handed over. -/
def content (s : FileStream) : List Byte := s.file.bytes ++ s.pending

/-- The file that `~basic_fstream` leaves: what is pending is handed over, and
    nobody sees it fail. -/
def closed (s : FileStream) : List Byte :=
  if s.pending = [] then s.file.bytes else (s.handOver s.pending).file.bytes

/-- Between a write and a read the position is changed, so that nothing is pending. -/
instance : InputStream FileStream where
  get := onFile StdStream.get
  peek := onFile StdStream.peek
  read count := onFile (StdStream.read count)
  ignore count := onFile (StdStream.ignore count)
  eof s := s.file.eofbit

instance : OutputStream FileStream where
  put := put
  write := write

instance : SeekableStream FileStream where
  setExceptions := onFile setExceptions
  tell := tell
  seekg pos := do
    drain
    onFile (StdStream.seekg pos)
  seekgEnd off := do
    drain
    onFile (StdStream.seekgEnd off)
  seekpEnd := do
    drain
    onFile StdStream.seekpEnd

section OnFile

variable {α β : Type} {p : Run StdStream α} {s : FileStream} {file : StdStream} {a : α}
  {stop : Stop}

theorem onFile_of_ok (h : p s.file = .ok a file) : onFile p s = .ok a { s with file := file } :=
  zoom_of_ok h

theorem onFile_of_error (h : p s.file = .error stop file) :
    onFile p s = .error stop { s with file := file } :=
  zoom_of_error h

theorem onFile_bind (p : Run StdStream α) (f : α → Run StdStream β) (s : FileStream) :
    onFile (p >>= f) s = (onFile p >>= fun a => onFile (f a)) s := by
  cases h : p s.file with
  | ok a file =>
    rw [bind_of_ok (onFile_of_ok h)]
    unfold onFile zoom
    rw [bind_of_ok h]
  | error stop file =>
    rw [bind_of_error (onFile_of_error h)]
    exact onFile_of_error (bind_of_error h)

end OnFile

instance : Measured Stop FileStream where
  left s := s.file.left
  exhausted := .outOfFuel

theorem forward_onFile {α : Type} {p : Run StdStream α} {s : FileStream}
    (h : Forward s.file (p s.file)) : Forward s (onFile p s) := by
  cases hp : p s.file with
  | ok a file =>
    rw [hp] at h
    rw [onFile_of_ok hp]
    exact h
  | error stop file =>
    rw [hp] at h
    rw [onFile_of_error hp]
    exact h

instance : ForwardInputStream FileStream where
  exhausted_eq := rfl
  get_lt := by
    intro s s' b h
    cases hget : StdStream.get s.file with
    | ok c file =>
      cases (onFile_of_ok hget).symm.trans h
      exact ForwardInputStream.get_lt (σ := StdStream) hget
    | error stop file => cases (onFile_of_error hget).symm.trans h
  get_forward s := forward_onFile (ForwardInputStream.get_forward s.file)
  peek_forward s := forward_onFile (ForwardInputStream.peek_forward s.file)
  read_forward n s := forward_onFile (ForwardInputStream.read_forward n s.file)
  ignore_forward n s := forward_onFile (ForwardInputStream.ignore_forward n s.file)

/-! ## Writing -/

/-- The device has room for `n` bytes. -/
def RoomFor (room : Option ℕ) (n : ℕ) : Prop := ∀ m, room = some m → n ≤ m

/-- The number of bytes handed over by the write of `n` bytes, with `pending` bytes
    in the buffer. -/
def handedOver (holds : ℕ → Bool) : (count pending n : ℕ) → ℕ
  | _, _, 0 => 0
  | count, pending, n + 1 =>
    if holds count then handedOver holds (count + 1) (pending + 1) n
    else pending + 1 + handedOver holds (count + 1) 0 n

/-- A stream that is written at the end of its file. -/
def writing (device pending : List Byte) (holds : ℕ → Bool) (count : ℕ) (room : Option ℕ) :
    FileStream :=
  ⟨StdStream.endOf device true, pending, holds, count, room⟩

/-- A stream that has failed behind the bytes of its file. -/
def failedBehind (device : List Byte) : StdStream :=
  { StdStream.endOf device true with badbit := true }

section Put

variable {s s' : FileStream} {device pending bs : List Byte} {holds : ℕ → Bool} {count : ℕ}
  {room : Option ℕ}

theorem RoomFor.mono {n n' : ℕ} (h : RoomFor room n) (hle : n' ≤ n) : RoomFor room n' :=
  fun m hm => le_trans hle (h m hm)

theorem RoomFor.sub {n n' : ℕ} (h : RoomFor room (n + n')) : RoomFor (room.map (· - n)) n' := by
  intro m hm
  obtain ⟨m', hm', rfl⟩ := Option.map_eq_some_iff.mp hm
  have hle := h m' hm'
  omega

theorem map_sub_map_sub (room : Option ℕ) (n n' : ℕ) :
    (room.map (· - n)).map (· - n') = room.map (· - (n + n')) := by
  cases room with
  | none => rfl
  | some m => exact congrArg some (Nat.sub_sub m n n')

theorem taken_eq (h : RoomFor s.room bs.length) : s.taken bs = bs := by
  unfold taken
  cases hroom : s.room with
  | none => rfl
  | some room => exact List.take_of_length_le (h room hroom)

theorem endOf_store (bs : List Byte) :
    (StdStream.endOf device true).store bs = StdStream.endOf (device ++ bs) true := by
  rw [StdStream.store_at_end rfl]
  unfold StdStream.endOf
  rw [List.length_append]

theorem handOver_writing (device pending : List Byte) (holds : ℕ → Bool) (count : ℕ)
    (h : RoomFor room bs.length) :
    (writing device pending holds count room).handOver bs =
      writing (device ++ bs) pending holds count (room.map (· - bs.length)) := by
  have htaken : (writing device pending holds count room).taken bs = bs := taken_eq h
  unfold handOver
  rw [htaken]
  unfold writing
  rw [endOf_store]

theorem put_held (b : Byte) (h : holds count = true) :
    put b (writing device pending holds count room) =
      .ok () (writing device (pending ++ [b]) holds (count + 1) room) := by
  show (if holds count = true then _ else _) = _
  rw [if_pos h]
  rfl

theorem put_handedOver (b : Byte) (h : holds count = false)
    (hroom : RoomFor room (pending.length + 1)) :
    put b (writing device pending holds count room) =
      .ok () (writing (device ++ (pending ++ [b])) [] holds (count + 1)
        (room.map (· - (pending.length + 1)))) := by
  have hcovers : RoomFor room (pending ++ [b]).length := by
    rwa [List.length_append, List.length_singleton]
  have htaken : (writing device pending holds count room).taken (pending ++ [b]) =
      pending ++ [b] := taken_eq hcovers
  have hover := handOver_writing device pending holds count hcovers
  unfold put
  show (if holds count = true then _ else if _ then _ else _) = _
  rw [if_neg (by rw [h]; decide)]
  show (if ((writing device pending holds count room).taken (pending ++ [b])).length =
    (pending ++ [b]).length then _ else _) = _
  rw [htaken, if_pos rfl]
  show EStateM.Result.ok () { (writing device pending holds count room).handOver
    (pending ++ [b]) with count := count + 1, pending := [] } = _
  rw [hover, List.length_append, List.length_singleton]
  rfl

/-- A device that fills up takes the first bytes. -/
theorem put_full (device : List Byte) (b : Byte) {m : ℕ} (h : holds count = false)
    (hm : m < pending.length + 1) :
    ∃ s', put b (writing device pending holds count (some m)) =
        .error (.throws .iosFailure) s' ∧
      s'.file = failedBehind (device ++ (pending ++ [b]).take m) := by
  have htaken : ((pending ++ [b]).take m).length ≠ (pending ++ [b]).length := by
    rw [List.length_take, List.length_append, List.length_singleton]
    omega
  have hover : ((writing device pending holds count (some m)).handOver (pending ++ [b])).file =
      StdStream.endOf (device ++ (pending ++ [b]).take m) true := endOf_store _
  refine ⟨{ (writing device pending holds count (some m)).handOver (pending ++ [b]) with
    count := count + 1
    file := failedBehind (device ++ (pending ++ [b]).take m) }, ?_, rfl⟩
  unfold put
  show (if holds count = true then _ else if _ then _ else _) = _
  rw [if_neg (by rw [h]; decide)]
  show (if ((pending ++ [b]).take m).length = (pending ++ [b]).length then _ else _) = _
  rw [if_neg htaken]
  show onFile (StdStream.raiseIfFailed ()) { (writing device pending holds count (some m)).handOver
    (pending ++ [b]) with count := count + 1, file := { ((writing device pending holds count
      (some m)).handOver (pending ++ [b])).file with badbit := true } } = _
  rw [hover]
  rfl

/-- Where a put returns, and failures are reported, the stream has not failed. -/
theorem put_ok {b : Byte} {u : Unit} (hgood : s.file.good = true)
    (he : s.file.exceptions = true) (h : put b s = .ok u s') :
    s'.file.good = true ∧ s'.file.exceptions = true := by
  unfold put at h
  rw [if_pos hgood] at h
  dsimp only at h
  split_ifs at h
  · cases h
    exact ⟨hgood, he⟩
  · cases h
    exact ⟨(StdStream.store_good _ _).trans hgood, (StdStream.store_exceptions _ _).trans he⟩
  · unfold onFile zoom StdStream.raiseIfFailed at h
    simp [handOver, he, StdStream.fail] at h

theorem forM_put_ok {u : Unit} (hgood : s.file.good = true) (he : s.file.exceptions = true)
    (h : bs.forM put s = .ok u s') : s'.file.good = true ∧ s'.file.exceptions = true := by
  induction bs generalizing s with
  | nil =>
    cases h
    exact ⟨hgood, he⟩
  | cons b bs ih =>
    obtain ⟨_, t, hput, hrest⟩ := bind_eq_ok h
    obtain ⟨hgood', he'⟩ := put_ok hgood he hput
    exact ih hgood' he' hrest

instance : LawfulOutputStream FileStream where
  Good s := s.file.good = true ∧ s.file.exceptions = true
  emit bs := bs.forM put
  emit_nil _ := rfl
  emit_append _ := congrFun List.forM_append _
  emit_good h hw := forM_put_ok h.1 h.2 hw
  put_good {s b} _ := by
    show put b s = (put b >>= fun _ => pure ()) s
    cases h : put b s with
    | ok u s' => exact (bind_of_ok h).symm
    | error stop s' => exact (bind_of_error h).symm
  write_good h := if_pos h.1

/-- A write whose bytes the device takes as far as they are handed over. -/
theorem puts_eq (device pending bs : List Byte) (count : ℕ)
    (hroom : RoomFor room (handedOver holds count pending.length bs.length)) :
    ∃ device' pending', bs.forM put (writing device pending holds count room) =
        .ok () (writing device' pending' holds (count + bs.length)
          (room.map (· - handedOver holds count pending.length bs.length))) ∧
      device' ++ pending' = device ++ pending ++ bs ∧
      pending'.length + handedOver holds count pending.length bs.length =
        pending.length + bs.length := by
  induction bs generalizing device pending count room with
  | nil =>
    refine ⟨device, pending, ?_, (List.append_nil _).symm, rfl⟩
    show EStateM.Result.ok () (writing device pending holds count room) =
      .ok () (writing device pending holds count (room.map (· - 0)))
    cases room <;> rfl
  | cons b bs ih =>
    cases hheld : holds count with
    | true =>
      have hhanded : handedOver holds count pending.length (b :: bs).length =
          handedOver holds (count + 1) (pending ++ [b]).length bs.length := by
        rw [List.length_cons, handedOver, if_pos hheld, List.length_append, List.length_singleton]
      rw [hhanded] at hroom ⊢
      obtain ⟨device', pending', hrun, hcontent, hlen⟩ :=
        ih device (pending ++ [b]) (count + 1) hroom
      refine ⟨device', pending', ?_, ?_, ?_⟩
      · show (put b >>= fun _ => bs.forM put) _ = _
        rw [bind_of_ok (put_held b hheld), hrun, List.length_cons, Nat.add_right_comm,
          Nat.add_assoc]
      · rw [hcontent]
        simp only [List.append_assoc, List.singleton_append]
      · rw [hlen, List.length_append, List.length_singleton, List.length_cons]
        omega
    | false =>
      have hhanded : handedOver holds count pending.length (b :: bs).length =
          pending.length + 1 + handedOver holds (count + 1) 0 bs.length := by
        rw [List.length_cons, handedOver, if_neg (by rw [hheld]; decide)]
      rw [hhanded] at hroom ⊢
      obtain ⟨device', pending', hrun, hcontent, hlen⟩ :=
        ih (device ++ (pending ++ [b])) [] (count + 1) hroom.sub
      refine ⟨device', pending', ?_, ?_, ?_⟩
      · show (put b >>= fun _ => bs.forM put) _ = _
        rw [bind_of_ok (put_handedOver b hheld (hroom.mono (Nat.le_add_right _ _))), hrun,
          List.length_nil, map_sub_map_sub, List.length_cons, Nat.add_right_comm, Nat.add_assoc]
      · rw [hcontent]
        simp only [List.append_assoc, List.singleton_append]
      · rw [List.length_cons]
        rw [List.length_nil] at hlen
        omega

/-- A write on a device that has no room for all that is handed over: it has the
    first bytes then. -/
theorem puts_full (device pending bs : List Byte) (count : ℕ) {m : ℕ}
    (hm : m < handedOver holds count pending.length bs.length) :
    ∃ s', bs.forM put (writing device pending holds count (some m)) =
        .error (.throws .iosFailure) s' ∧
      s'.file = failedBehind (device ++ (pending ++ bs).take m) := by
  induction bs generalizing device pending count m with
  | nil => exact absurd hm (Nat.not_lt_zero m)
  | cons b bs ih =>
    cases hheld : holds count with
    | true =>
      rw [List.length_cons, handedOver, if_pos hheld] at hm
      obtain ⟨s', hrun, hfile⟩ := ih device (pending ++ [b]) (count + 1)
        (by rwa [List.length_append, List.length_singleton])
      refine ⟨s', ?_, ?_⟩
      · show (put b >>= fun _ => bs.forM put) _ = _
        rw [bind_of_ok (put_held b hheld), hrun]
      · rw [hfile, List.append_assoc, List.singleton_append]
    | false =>
      rw [List.length_cons, handedOver, if_neg (by rw [hheld]; decide)] at hm
      by_cases hfirst : m < pending.length + 1
      · obtain ⟨s', hput, hfile⟩ := put_full device b hheld hfirst
        have htake : (pending ++ b :: bs).take m = (pending ++ [b]).take m := by
          rw [← List.singleton_append, ← List.append_assoc, List.take_append_of_le_length]
          rw [List.length_append, List.length_singleton]
          omega
        exact ⟨s', bind_of_error hput, hfile.trans (by rw [htake])⟩
      · have hroom : RoomFor (some m) (pending.length + 1) := by
          intro m' hm'
          cases hm'
          omega
        have hrest : m - (pending.length + 1) <
            handedOver holds (count + 1) ([] : List Byte).length bs.length := by
          rw [List.length_nil]
          omega
        obtain ⟨s', hrun, hfile⟩ := ih (device ++ (pending ++ [b])) [] (count + 1) hrest
        refine ⟨s', ?_, ?_⟩
        · show (put b >>= fun _ => bs.forM put) _ = _
          rw [bind_of_ok (put_handedOver b hheld hroom)]
          exact hrun
        · have htake : (pending ++ b :: bs).take m =
              pending ++ [b] ++ bs.take (m - (pending.length + 1)) := by
            rw [← List.singleton_append, ← List.append_assoc, List.take_append,
              List.take_of_length_le, List.length_append, List.length_singleton]
            rw [List.length_append, List.length_singleton]
            omega
          rw [hfile, htake, List.nil_append, List.append_assoc]

theorem handedOver_le (holds : ℕ → Bool) (count pending n : ℕ) :
    handedOver holds count pending n ≤ pending + n := by
  induction n generalizing count pending with
  | zero => exact Nat.zero_le _
  | succ n ih =>
    rw [handedOver]
    split_ifs
    · have hle := ih (count + 1) (pending + 1)
      omega
    · have hle := ih (count + 1) 0
      omega

/-- Everything up to a byte is handed over that the buffer does not hold. -/
theorem le_handedOver {k n : ℕ} (count pending : ℕ) (hk : k < n) (h : holds (count + k) = false) :
    pending + k + 1 ≤ handedOver holds count pending n := by
  induction n generalizing count pending k with
  | zero => exact absurd hk (Nat.not_lt_zero k)
  | succ n ih =>
    rw [handedOver]
    cases k with
    | zero =>
      rw [Nat.add_zero] at h
      rw [if_neg (by rw [h]; decide)]
      omega
    | succ k =>
      have hnext : holds (count + 1 + k) = false := by
        rwa [Nat.add_right_comm, Nat.add_assoc]
      split_ifs
      · have hle := ih (count + 1) (pending + 1) (Nat.lt_of_succ_lt_succ hk) hnext
        omega
      · have hle := ih (count + 1) 0 (Nat.lt_of_succ_lt_succ hk) hnext
        omega

end Put

/-! ## Positions -/

section Seek

variable {s : FileStream} {device content : List Byte}

/-- A stream in working order, whose file holds `content` once everything pending is
    handed over. -/
def Sound (content : List Byte) (s : FileStream) : Prop :=
  ∃ device, Working device s.file ∧ content = device ++ s.pending ∧
    (s.pending = [] ∨ s.file = StdStream.endOf device true)

theorem sound_writing (device pending : List Byte) (holds : ℕ → Bool) (count : ℕ)
    (room : Option ℕ) : Sound (device ++ pending) (writing device pending holds count room) :=
  ⟨device, working_endOf device, rfl, Or.inr rfl⟩

theorem Sound.content_eq (h : Sound content s) : content = s.content := by
  obtain ⟨device, hworking, rfl, -⟩ := h
  unfold FileStream.content
  rw [hworking.bytes_eq]

/-- With room for it, everything pending is handed over. -/
theorem Sound.drain (h : Sound content s) (hroom : RoomFor s.room s.pending.length) :
    ∃ file, FileStream.drain s = .ok () { s with
        file := file, pending := [], room := s.room.map (· - s.pending.length) } ∧
      Working content file := by
  obtain ⟨device, hworking, rfl, hpos⟩ := h
  obtain ⟨file, pending, holds, count, room⟩ := s
  by_cases hnil : pending = []
  · subst hnil
    refine ⟨file, ?_, by rwa [List.append_nil]⟩
    unfold FileStream.drain
    rw [if_pos (Or.inr rfl)]
    cases room <;> rfl
  · have hfail : file.fail = false := StdStream.fail_of_good hworking.good
    obtain rfl : file = StdStream.endOf device true := hpos.resolve_left hnil
    refine ⟨StdStream.endOf (device ++ pending) true, ?_, working_endOf _⟩
    have hnot : ¬ ((StdStream.endOf device true).fail = true ∨ pending = []) := by
      rw [hfail]
      exact not_or.mpr ⟨Bool.false_ne_true, hnil⟩
    have htaken : (writing device pending holds count room).taken pending = pending :=
      taken_eq hroom
    unfold FileStream.drain
    show (if (StdStream.endOf device true).fail = true ∨ pending = [] then _ else
      if ((writing device pending holds count room).taken pending).length = pending.length then
        EStateM.Result.ok () { (writing device pending holds count room).handOver pending with
          pending := [] }
      else _) = _
    rw [if_neg hnot, htaken, if_pos rfl, handOver_writing device pending holds count hroom]
    rfl

/-- And written at its end then. -/
theorem Sound.seekpEnd (h : Sound content s) (hroom : RoomFor s.room s.pending.length) :
    (SeekableStream.seekpEnd : Run FileStream Unit) s =
      .ok () (writing content [] s.holds s.count (s.room.map (· - s.pending.length))) := by
  obtain ⟨file, hdrain, pos, rfl⟩ := h.drain hroom
  show (FileStream.drain >>= fun _ => onFile StdStream.seekpEnd) s = _
  rw [bind_of_ok hdrain]
  rfl

/-- Nothing is handed over by the destructor of the stream, or nothing is taken. -/
theorem closed_eq (h : s.pending = [] ∨ s.room = some 0) : s.closed = s.file.bytes := by
  unfold FileStream.closed
  split_ifs with hnil
  · rfl
  · have htaken : s.taken s.pending = [] := by
      unfold taken
      rw [h.resolve_left hnil]
      exact List.take_zero
    have hstore : s.file.store [] = s.file := if_pos rfl
    unfold handOver
    rw [htaken, hstore]

/-- What the destructor of the stream leaves. -/
theorem Sound.closed (h : Sound content s) (hroom : RoomFor s.room s.pending.length) :
    s.closed = content := by
  obtain ⟨device, hworking, rfl, hpos⟩ := h
  unfold FileStream.closed
  split_ifs with hnil
  · rw [hnil, List.append_nil, hworking.bytes_eq]
  · have hfile := hpos.resolve_left hnil
    have htaken : s.taken s.pending = s.pending := taken_eq hroom
    unfold handOver
    rw [htaken, hfile, endOf_store]
    rfl

end Seek

/-! ## Appending -/

section Append

variable {s : FileStream} {content : List Byte} {block : EncodedBlock}

theorem writeBlock_writing (block : EncodedBlock) (device pending : List Byte) (holds : ℕ → Bool)
    (count : ℕ) (room : Option ℕ) :
    writeBlock (.ok block) (writing device pending holds count room) =
      (blockBytes block).forM put (writing device pending holds count room) :=
  emits_writeBlock block (writing device pending holds count room) ⟨rfl, rfl⟩

theorem tell_writing (content : List Byte) (holds : ℕ → Bool) (count : ℕ) (room : Option ℕ) :
    (SeekableStream.tell : Run FileStream ℤ) (writing content [] holds count room) =
      .ok (content.length : ℤ) (writing content [] holds count room) := by
  show EStateM.Result.ok ((content.length : ℤ) + (0 : ℕ)) _ = _
  rw [Nat.cast_zero, add_zero]

/-- The append begins where the file ends. -/
theorem Sound.rememberedAppend_begin (h : Sound content s)
    (hroom : RoomFor s.room s.pending.length) (encoded : Except Stop EncodedBlock) :
    rememberedAppend encoded s =
      (writeBlock encoded >>= fun _ => pure (content.length : ℤ))
        (writing content [] s.holds s.count (s.room.map (· - s.pending.length))) := by
  unfold rememberedAppend
  rw [bind_of_ok (h.seekpEnd hroom), bind_of_ok (tell_writing _ _ _ _)]

/-- An append whose bytes the device takes as far as they are handed over. -/
theorem Sound.rememberedAppend (h : Sound content s)
    (hroom : RoomFor s.room
      (s.pending.length + handedOver s.holds s.count 0 (blockBytes block).length)) :
    ∃ device pending room, Pbsf.rememberedAppend (.ok block) s =
        .ok (content.length : ℤ)
          (writing device pending s.holds (s.count + (blockBytes block).length) room) ∧
      device ++ pending = content ++ blockBytes block ∧
      ∀ n, RoomFor s.room (s.pending.length + (blockBytes block).length + n) →
        RoomFor room (pending.length + n) := by
  have hfirst := hroom.mono (Nat.le_add_right _ _)
  obtain ⟨device, pending, hwrite, hcontent, hlen⟩ :=
    puts_eq content [] (blockBytes block) s.count hroom.sub
  rw [← writeBlock_writing] at hwrite
  rw [List.append_nil] at hcontent
  refine ⟨device, pending, (s.room.map (· - s.pending.length)).map
    (· - handedOver s.holds s.count 0 (blockBytes block).length), ?_, hcontent, ?_⟩
  · rw [h.rememberedAppend_begin hfirst, bind_of_ok hwrite]
    rfl
  · intro n hn
    rw [List.length_nil, Nat.zero_add] at hlen
    rw [map_sub_map_sub]
    apply RoomFor.sub
    apply hn.mono
    omega

/-- A block that cannot be made: what was pending is handed over all the same. -/
theorem Sound.rememberedAppend_notEncoded (h : Sound content s) (stop : Stop)
    (hroom : RoomFor s.room s.pending.length) :
    ∃ room, Pbsf.rememberedAppend (.error stop) s =
      .error stop (writing content [] s.holds s.count room) :=
  ⟨_, h.rememberedAppend_begin hroom (.error stop)⟩

/-- A device that has no room for all that an append hands over. -/
theorem Sound.rememberedAppend_full (h : Sound content s) (hpending : s.pending = []) {m : ℕ}
    (hroom : s.room = some m) (hm : m < handedOver s.holds s.count 0 (blockBytes block).length) :
    ∃ s', Pbsf.rememberedAppend (.ok block) s = .error (.throws .iosFailure) s' ∧
      s'.file = failedBehind (content ++ (blockBytes block).take m) := by
  have hfirst : RoomFor s.room s.pending.length := by
    rw [hpending]
    exact fun m _ => Nat.zero_le m
  obtain ⟨s', hwrite, hfile⟩ :=
    puts_full content [] (blockBytes block) s.count hm
  rw [← writeBlock_writing] at hwrite
  refine ⟨s', ?_, hfile⟩
  rw [h.rememberedAppend_begin hfirst, hroom, hpending]
  exact bind_of_error hwrite

/-- A stream that has failed takes nothing. -/
theorem rememberedAppend_of_failed (encoded : Except Stop EncodedBlock) (hfail : s.file.fail = true)
    (he : s.file.exceptions = true) :
    ∃ stop s', rememberedAppend encoded s = .error stop s' ∧ s'.pending = s.pending ∧
      s'.file.bytes = s.file.bytes ∧ s'.file.fail = true ∧ s'.file.exceptions = true := by
  have hgood := StdStream.not_good_of_fail hfail
  have hseek : (SeekableStream.seekpEnd : Run FileStream Unit) s = .ok () s := by
    have hdrain : drain s = .ok () s := if_pos (Or.inl hfail)
    have hend : StdStream.seekpEnd s.file = .ok () s.file := if_pos hfail
    show (drain >>= fun _ => onFile StdStream.seekpEnd) s = _
    rw [bind_of_ok hdrain, onFile_of_ok hend]
  have htell : (SeekableStream.tell : Run FileStream ℤ) s = .ok (-1) s := by
    show EStateM.Result.ok (if s.file.fail = true then (-1 : ℤ) else _) s = _
    rw [if_pos hfail]
  unfold rememberedAppend
  rw [bind_of_ok hseek, bind_of_ok htell]
  cases encoded with
  | error stop => exact ⟨stop, s, rfl, rfl, rfl, hfail, he⟩
  | ok block =>
    obtain ⟨rest, hrest⟩ : ∃ rest : Unit → Run FileStream Unit,
        writeBlock (.ok block) s = (write (wordBytes block.contentType) >>= rest) s := ⟨_, rfl⟩
    have hwrite : write (wordBytes block.contentType) s = .error (.throws .iosFailure)
        { s with file := { s.file with failbit := true } } := by
      unfold write
      rw [if_neg (by rw [hgood]; decide)]
      unfold onFile zoom StdStream.sentryFailure StdStream.raiseIfFailed
      simp [he, StdStream.fail]
    rw [bind_of_error (hrest.trans (bind_of_error hwrite))]
    exact ⟨_, _, rfl, rfl, rfl, rfl, he⟩

/-- A block behind the last one. -/
theorem writeBlock_behind (block : EncodedBlock) (device pending : List Byte) (holds : ℕ → Bool)
    (count : ℕ) {room : Option ℕ}
    (hroom : RoomFor room (pending.length + (blockBytes block).length)) :
    ∃ device' pending' count' room',
      writeBlock (.ok block) (writing device pending holds count room) =
        .ok () (writing device' pending' holds count' room') ∧
      device' ++ pending' = device ++ pending ++ blockBytes block ∧
      RoomFor room' pending'.length := by
  have hle := handedOver_le holds count pending.length (blockBytes block).length
  obtain ⟨device', pending', hwrite, hcontent, hlen⟩ :=
    puts_eq device pending (blockBytes block) count (hroom.mono hle)
  rw [← writeBlock_writing] at hwrite
  refine ⟨device', pending', _, _, hwrite, hcontent, RoomFor.sub (hroom.mono ?_)⟩
  omega

end Append

/-! ## Reading -/

/-- Where nothing is pending, `p` does what `q` does on the file. -/
def ReadsFile {α : Type} (p : Run FileStream α) (q : Run StdStream α) : Prop :=
  ∀ s, s.pending = [] → p s = onFile q s

theorem onFile_pending {α : Type} {q : Run StdStream α} {s s' : FileStream} {a : α}
    (h : onFile q s = .ok a s') : s'.pending = s.pending := by
  cases hq : q s.file with
  | ok a file =>
    cases (onFile_of_ok hq).symm.trans h
    rfl
  | error stop file => cases (onFile_of_error hq).symm.trans h

namespace ReadsFile

variable {α β : Type} {p : Run FileStream α} {q : Run StdStream α}

theorem pure (a : α) : ReadsFile (Pure.pure a) (Pure.pure a) := fun _ _ => rfl

theorem throw (stop : Stop) :
    ReadsFile (α := α) (MonadExcept.throw stop) (MonadExcept.throw stop) :=
  fun _ _ => rfl

theorem lift (x : Except Stop α) : ReadsFile (ofExcept x) (ofExcept x) := by
  cases x with
  | ok a => exact pure a
  | error stop => exact throw stop

theorem bind {f : α → Run FileStream β} {g : α → Run StdStream β} (h : ReadsFile p q)
    (hf : ∀ a, ReadsFile (f a) (g a)) : ReadsFile (p >>= f) (q >>= g) := by
  intro s hs
  rw [onFile_bind]
  apply bind_congr_at (h s hs)
  intro a s' hq
  exact hf a s' ((onFile_pending hq).trans hs)

/-- Every change of the position begins with draining the buffer. -/
theorem drained (h : ReadsFile p q) : ReadsFile (drain >>= fun _ => p) q := by
  intro s hs
  have hdrain : drain s = .ok () s := if_pos (Or.inr hs)
  rw [bind_of_ok hdrain]
  exact h s hs

theorem onFile (q : Run StdStream α) : ReadsFile (FileStream.onFile q) q := fun _ _ => rfl

theorem seekg (pos : ℤ) : ReadsFile (SeekableStream.seekg pos) (SeekableStream.seekg pos) :=
  (onFile (StdStream.seekg pos)).drained

theorem seekgEnd (off : ℤ) :
    ReadsFile (SeekableStream.seekgEnd off) (SeekableStream.seekgEnd off) :=
  (onFile (StdStream.seekgEnd off)).drained

theorem eofOf : ReadsFile (Pbss.eofOf : Run FileStream Bool) Pbss.eofOf := fun _ _ => rfl

theorem toSigned (build : Build) (n : SizeT) :
    ReadsFile (Pbss.toSigned build n) (Pbss.toSigned build n) := by
  unfold Pbss.toSigned
  split_ifs
  · exact throw _
  · exact pure _

/-- Parsing takes no notice of the buffer. -/
theorem respects (build : Build) :
    Respects build build fun _ _ _ (p : Run FileStream _) (q : Run StdStream _) =>
      ReadsFile p q where
  sameThreshold := rfl
  of_any h := h
  to_any h := h
  pure := pure
  bind := bind
  undefined := throw _
  lengthError := throw _
  outOfFuel := throw _
  byte := by
    unfold parseByte
    apply bind (onFile _)
    intro c
    cases c with
    | none => exact throw _
    | some c => exact pure c
  read n := by
    unfold readOrThrow
    apply bind (onFile _)
    intro got
    apply bind eofOf
    intro eof
    split_ifs
    · exact throw _
    · exact pure got
  get := onFile _
  ignore n := by
    unfold ignoreLength
    exact bind (toSigned build n) fun k => onFile _

theorem parse (build : Build) (s : Ty α) : ReadsFile (Pbss.parse build s) (Pbss.parse build s) :=
  fun stream h => related_parse (respects build) _ s stream h

end ReadsFile

section Read

variable {ι : Type} (r : KeyedRealm ι) (build : Build) (lib : Libraries) (heap : ℕ → Memory)

theorem reads_checkFile : ReadsFile (checkFile r.toRealm build) (checkFile r.toRealm build) := by
  unfold checkFile
  exact (ReadsFile.parse build _).bind fun header => ReadsFile.pure _

theorem reads_delayedRead (pos : Int64T) :
    ReadsFile (delayedRead build pos) (delayedRead build pos) := by
  unfold delayedRead
  exact (ReadsFile.seekg _).bind fun u => ReadsFile.parse build _

theorem reads_readCurrentIndex :
    ReadsFile (readCurrentIndex r build lib heap) (readCurrentIndex r build lib heap) := by
  unfold readCurrentIndex
  apply (ReadsFile.seekgEnd _).bind
  intro u
  apply (ReadsFile.parse build _).bind
  intro block
  apply (ReadsFile.lift _).bind
  intro marker
  split_ifs
  · exact ReadsFile.throw _
  · apply (ReadsFile.seekg _).bind
    intro u
    apply (ReadsFile.parse build _).bind
    intro block
    exact ReadsFile.lift _

/-- A block is read where it is, behind what is handed over first. -/
theorem Sound.delayedRead {s : FileStream} {content : List Byte} {pos : Int64T}
    {block : EncodedBlock} (h : Sound content s) (hroom : RoomFor s.room s.pending.length)
    (hat : BlockAt content pos block) :
    ∃ t, Pbsf.delayedRead build pos s = .ok block t ∧ Sound content t ∧ t.pending = [] := by
  obtain ⟨file, hdrain, hworking⟩ := h.drain hroom
  obtain ⟨file', hread, hworking'⟩ := delayedRead_eq build hworking hat
  generalize hdrained : ({ s with
    file := file
    pending := []
    room := s.room.map (· - s.pending.length) } : FileStream) = t at hdrain
  have hnil : t.pending = [] := by rw [← hdrained]
  have hseek : (SeekableStream.seekg pos.toInt : Run FileStream Unit) s =
      SeekableStream.seekg pos.toInt t := by
    have hagain : FileStream.drain t = .ok () t := if_pos (Or.inr hnil)
    show (FileStream.drain >>= fun _ => FileStream.onFile (StdStream.seekg pos.toInt)) s =
      (FileStream.drain >>= fun _ => FileStream.onFile (StdStream.seekg pos.toInt)) t
    rw [bind_of_ok hdrain, bind_of_ok hagain]
  have hsame : Pbsf.delayedRead build pos s = Pbsf.delayedRead build pos t := by
    unfold Pbsf.delayedRead
    cases hresult : (SeekableStream.seekg pos.toInt : Run FileStream Unit) t with
    | ok u t' => rw [bind_of_ok (hseek.trans hresult), bind_of_ok hresult]
    | error stop t' => rw [bind_of_error (hseek.trans hresult), bind_of_error hresult]
  have hfile : t.file = file := by rw [← hdrained]
  refine ⟨{ t with file := file' }, ?_, ⟨content, hworking', ?_, Or.inl hnil⟩, hnil⟩
  · rw [hsame, reads_delayedRead build pos t hnil]
    exact onFile_of_ok (hfile ▸ hread)
  · show content = content ++ t.pending
    rw [hnil, List.append_nil]

/-- A stream that has failed is not read. -/
theorem delayedRead_of_failed {s : FileStream} (pos : Int64T) (hfail : s.file.fail = true)
    (he : s.file.exceptions = true) :
    ∃ stop t, delayedRead build pos s = .error stop t ∧ t.file.bytes = s.file.bytes ∧
      t.file.fail = true ∧ t.file.exceptions = true := by
  have hdrain : drain s = .ok () s := if_pos (Or.inl hfail)
  have hgood : StdStream.good { s.file with eofbit := false } = false :=
    StdStream.not_good_of_fail hfail
  have hseekFile : StdStream.seekg pos.toInt s.file =
      .error (.throws .iosFailure) { s.file with eofbit := false, failbit := true } := by
    unfold StdStream.seekg StdStream.sentryFailure StdStream.raiseIfFailed
    dsimp only
    rw [if_neg (by rw [hgood]; decide)]
    simp [he, StdStream.fail]
  have hseek : (SeekableStream.seekg pos.toInt : Run FileStream Unit) s =
      .error (.throws .iosFailure)
        { s with file := { s.file with eofbit := false, failbit := true } } := by
    show (drain >>= fun _ => onFile (StdStream.seekg pos.toInt)) s = _
    rw [bind_of_ok hdrain, onFile_of_error hseekFile]
  unfold delayedRead
  rw [bind_of_error hseek]
  exact ⟨_, _, rfl, rfl, rfl, he⟩

/-- What is read by an opening for writing. -/
theorem reads_index :
    ReadsFile (SeekableStream.seekg 0 >>= fun _ => checkFile r.toRealm build >>= fun ok =>
        if ok = true then readCurrentIndex r build lib heap >>= fun index => pure (index, false)
        else raise .unknownRealmError)
      (StdStream.seekg 0 >>= fun _ => checkFile r.toRealm build >>= fun ok =>
        if ok = true then readCurrentIndex r build lib heap >>= fun index => pure (index, false)
        else raise .unknownRealmError) := by
  apply (ReadsFile.seekg 0).bind
  intro u
  apply (reads_checkFile r build).bind
  intro ok
  split_ifs
  · exact (reads_readCurrentIndex r build lib heap).bind fun index => ReadsFile.pure _
  · exact ReadsFile.throw _

end Read

/-! ## Opening -/

section Open

variable {ι : Type} {r : KeyedRealm ι} {lib : Libraries} {file : List Byte} {index : BlocksIndex r}

/-- A stream that has just been opened. -/
def opened (file : StdStream) (holds : ℕ → Bool) : FileStream := { file := file, holds := holds }

/-- A file that is not truncated is read. -/
theorem openIndexedOutputFile_old (build : Build) (heap : ℕ → Memory) (holds : ℕ → Bool)
    (body : List Byte) (hfile : file = headerBytes r.toRealm ++ body)
    (h : EndsWithIndex lib file index) :
    ∃ s, openIndexedOutputFile r build lib heap (opened (outputFile file false) holds) =
        .ok (index, false) s ∧
      Sound file s ∧ s.pending = [] ∧ s.holds = holds ∧ s.count = 0 ∧ s.room = none := by
  have hlen : (file.length : ℤ) ≠ 0 := by
    rw [hfile, List.length_append, length_headerBytes]
    omega
  have hopen : (SeekableStream.setExceptions : Run FileStream Unit)
      (opened (outputFile file false) holds) =
        .ok () (opened (StdStream.endOf file true) holds) := rfl
  have htell : (SeekableStream.tell : Run FileStream ℤ) (opened (StdStream.endOf file true) holds) =
      .ok (file.length : ℤ) (opened (StdStream.endOf file true) holds) :=
    tell_writing file holds 0 none
  obtain ⟨s, hread, hs⟩ := readIndex_old build heap body hfile h
  refine ⟨opened s holds, ?_, ⟨file, hs, (List.append_nil file).symm, Or.inl rfl⟩, rfl, rfl, rfl,
    rfl⟩
  unfold openIndexedOutputFile
  rw [bind_of_ok hopen, bind_of_ok htell, if_neg hlen]
  have hreads := reads_index r build lib heap (opened (StdStream.endOf file true) holds) rfl
  exact hreads.trans (onFile_of_ok hread)

/-- A file that is new or truncated gets a header, which may stay in the buffer. -/
theorem openIndexedOutputFile_new (build : Build) (lib : Libraries) (heap : ℕ → Memory)
    (holds : ℕ → Bool) {overwrite : Bool} (h : overwrite = true ∨ file = []) :
    ∃ s, openIndexedOutputFile r build lib heap (opened (outputFile file overwrite) holds) =
        .ok (BlocksIndex.empty r, true) s ∧
      Sound (headerBytes r.toRealm) s ∧ s.room = none := by
  have hopen : (SeekableStream.setExceptions : Run FileStream Unit)
      (opened (StdStream.endOf [] false) holds) = .ok () (writing [] [] holds 0 none) := rfl
  have htell : (SeekableStream.tell : Run FileStream ℤ) (writing [] [] holds 0 none) =
      .ok 0 (writing [] [] holds 0 none) := rfl
  have hroom : RoomFor none (handedOver holds 0 0 (headerBytes r.toRealm).length) := nofun
  obtain ⟨device, pending, hwrite, hcontent, -⟩ :=
    puts_eq [] [] (headerBytes r.toRealm) 0 hroom
  have hheader : (writeHeader r.toRealm : Run FileStream Unit) (writing [] [] holds 0 none) =
      (headerBytes r.toRealm).forM put (writing [] [] holds 0 none) :=
    emits_serialize FileHeader.ty (headerOf r.toRealm) (writing [] [] holds 0 none) ⟨rfl, rfl⟩
  rw [← hheader] at hwrite
  rw [List.append_nil, List.nil_append] at hcontent
  refine ⟨writing device pending holds (0 + (headerBytes r.toRealm).length) none, ?_,
    hcontent ▸ sound_writing device pending holds _ none, rfl⟩
  unfold openIndexedOutputFile
  rw [outputFile_new h, bind_of_ok hopen, bind_of_ok htell, if_pos rfl, bind_of_ok hwrite]
  rfl

end Open

end FileStream

end BambooShoot.Pbsf
