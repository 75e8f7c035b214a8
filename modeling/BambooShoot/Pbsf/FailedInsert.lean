import BambooShoot.Pbsf.FileStream
import BambooShoot.Pbsf.IndexedSessions

/-!
# Inserts that fail

`insert` sets `need_write_index` behind `remembered_append`, so an append that
fails half-way changes the file of an object that believes it has not. Where the
flag was clear, the destructor then leaves a file that does not end with its
marker; where it was set, the destructor throws. What a device does not take of
the buffer is noticed later than by the insert that wrote it, and then by one of
the next operations or by nobody.

Results:
* `failed_inserts`: no harm is done by inserts whose value cannot be encoded, as long
  as the device takes what is handed over, nor by one that finds the flag clear and
  nothing of whose block is taken;
* `WriterOn.insert_full`, `openIndexedInputFile_torn`: what a first insert leaves that
  stops in between, and how such a file is read;
* `destroy_of_failed`: a destructor with the flag set, on a stream that has failed.
-/

namespace BambooShoot.Pbsf

open BambooShoot.Lib BambooShoot.Pbss
open FileStream

/-! ## Objects -/

section Objects

variable {ι : Type} {r : KeyedRealm ι} (lib : Libraries)

/-- The object on a device that takes `room` more bytes. -/
def IndexedFile.withRoom (object : IndexedFile r FileStream) (room : Option ℕ) :
    IndexedFile r FileStream :=
  { object with streamPtr := object.streamPtr.map fun s => { s with room := room } }

/-- The file that `~unique_ptr` leaves, which closes it. -/
def IndexedFile.closed (object : IndexedFile r FileStream) : List Byte :=
  match object.streamPtr with
  | none => []
  | some s => s.closed

/-- An object that is open for writing, on a stream in working order. If it has no
    index to write, nothing is pending, and the file ends with the index it has. -/
def WriterOn (object : IndexedFile r FileStream) (written : List (r.Key × r.Value)) : Prop :=
  ∃ content s, object.streamPtr = some s ∧ Sound content s ∧ s.room = none ∧
    FileHas lib content object.index written ∧
    (object.needWriteIndex = false → s.pending = [] ∧ EndsWithIndex lib content object.index)

/-- An object whose stream has failed, with no index to write; the file ends with
    the one it has. -/
def Stalled (object : IndexedFile r FileStream) (written : List (r.Key × r.Value)) : Prop :=
  ∃ s, object.streamPtr = some s ∧ s.file.fail = true ∧ s.file.exceptions = true ∧
    object.needWriteIndex = false ∧ FileHas lib s.file.bytes object.index written ∧
    EndsWithIndex lib s.file.bytes object.index

variable {lib} {object : IndexedFile r FileStream} {written : List (r.Key × r.Value)}
  {s : FileStream} {content : List Byte} {host host' : Host}

theorem withRoom_streamPtr (hs : object.streamPtr = some s) (room : Option ℕ) :
    (object.withRoom room).streamPtr = some { s with room := room } := by
  unfold IndexedFile.withRoom
  rw [hs]
  rfl

/-- With the flag set, the destructor throws, which ends the program. -/
theorem destroy_of_failed (lib : Libraries) (host host' : Host) (hs : object.streamPtr = some s)
    (hfail : s.file.fail = true) (he : s.file.exceptions = true)
    (hflag : object.needWriteIndex = true) :
    ∃ stop object', object.destroy lib host host' = .error stop object' := by
  obtain ⟨stop, s', happend, -⟩ := rememberedAppend_of_failed
    (encodeMeta (r := r) lib host .blocksIndex object.index) hfail he
  have hdestroy := destroy_outcome lib host host' hs hflag
  generalize object.destroy lib host host' = result at hdestroy ⊢
  cases hdestroy with
  | written happend' _ => cases happend.symm.trans happend'
  | noIndex _ => exact ⟨_, _, rfl⟩
  | noMarker happend' _ => cases happend.symm.trans happend'

/-! ### Inserts -/

/-- A block that is made is appended where the device takes what is handed over. -/
theorem insert_sound (room : Option ℕ) {key : r.Key} {value : r.Value} {block : EncodedBlock}
    {index : BlocksIndex r} (hs : object.streamPtr = some s) (hsound : Sound content s)
    (hencode : r.encode lib host value = .ok block)
    (hassign : object.index.assign key content.length = .ok index)
    (hroom : RoomFor room
      (s.pending.length + handedOver s.holds s.count 0 (blockBytes block).length)) :
    ∃ s', (object.withRoom room).insert lib host key value = .ok () ⟨⟨some s', index⟩, true⟩ ∧
      Sound (content ++ blockBytes block) s' := by
  have hsound' : Sound content { s with room := room } := hsound
  obtain ⟨device, pending, room', happend, hcontent, -⟩ := hsound'.rememberedAppend hroom
  rw [← hencode] at happend
  refine ⟨_, insert_of_ok (withRoom_streamPtr hs room) happend hassign, ?_⟩
  rw [← hcontent]
  exact sound_writing device pending s.holds _ room'

/-- A value whose block can be made is inserted. -/
theorem WriterOn.insert (h : WriterOn lib object written) {room : Option ℕ} (key : r.Key)
    {value : r.Value} {block : EncodedBlock} (hs : object.streamPtr = some s)
    (hencode : r.encode lib host value = .ok block) (hblock : BlockOf lib r block value)
    (hroom : RoomFor room
      (s.pending.length + handedOver s.holds s.count 0 (blockBytes block).length))
    (hlt : s.content.length < 2 ^ 63) :
    ∃ object', (object.withRoom room).insert lib host key value = .ok () object' ∧
      WriterOn lib (object'.withRoom none) (written ++ [(key, value)]) := by
  obtain ⟨content, s', hs', hsound, -, hhas, -⟩ := h
  cases hs.symm.trans hs'
  rw [← hsound.content_eq] at hlt
  obtain ⟨index', hassign, hhas'⟩ := hhas.insert key hblock hlt
  obtain ⟨s', hinsert, hsound'⟩ := insert_sound room hs hsound hencode hassign hroom
  exact ⟨_, hinsert, _, { s' with room := none }, rfl, hsound', rfl, hhas', nofun⟩

/-- A value whose block cannot be made leaves the file as it is. -/
theorem WriterOn.insert_notEncoded (h : WriterOn lib object written) {room : Option ℕ} (key : r.Key)
    {value : r.Value} {stop : Stop} (hs : object.streamPtr = some s)
    (hencode : r.encode lib host value = .error stop) (hroom : RoomFor room s.pending.length) :
    ∃ object', (object.withRoom room).insert lib host key value = .error stop object' ∧
      WriterOn lib (object'.withRoom none) written := by
  obtain ⟨content, s', hs', hsound, -, hhas, hends⟩ := h
  cases hs.symm.trans hs'
  have hsound' : Sound content { s with room := room } := hsound
  obtain ⟨room', happend⟩ := hsound'.rememberedAppend_notEncoded stop hroom
  rw [← hencode] at happend
  refine ⟨_, insert_of_error (withRoom_streamPtr hs room) happend, content,
    writing content [] s.holds s.count none, rfl, ?_, rfl, hhas, ?_⟩
  · have hwriting := sound_writing content [] s.holds s.count none
    rwa [List.append_nil] at hwriting
  · intro hflag
    exact ⟨rfl, (hends hflag).2⟩

/-- An insert that finds the flag clear, on a device that fills up: the file has the
    first bytes of the block behind its marker. -/
theorem WriterOn.insert_full (h : WriterOn lib object written) {m : ℕ} (key : r.Key)
    {value : r.Value} {block : EncodedBlock} (hs : object.streamPtr = some s)
    (hencode : r.encode lib host value = .ok block) (hflag : object.needWriteIndex = false)
    (hm : m < handedOver s.holds s.count 0 (blockBytes block).length) :
    ∃ object' s', (object.withRoom (some m)).insert lib host key value =
        .error (.throws .iosFailure) object' ∧
      object' = { object with streamPtr := some s' } ∧
      s'.file = failedBehind (s.content ++ (blockBytes block).take m) := by
  obtain ⟨content, s', hs', hsound, -, -, hends⟩ := h
  cases hs.symm.trans hs'
  have hsound' : Sound content { s with room := some m } := hsound
  obtain ⟨s', happend, hfile⟩ := hsound'.rememberedAppend_full (hends hflag).1 rfl hm
  rw [← hencode] at happend
  refine ⟨_, s', insert_of_error (withRoom_streamPtr hs (some m)) happend, rfl, ?_⟩
  rw [← hsound.content_eq]
  exact hfile

/-- A device that takes nothing of the block leaves the file as it is. -/
theorem WriterOn.insert_nothing (h : WriterOn lib object written) (key : r.Key) {value : r.Value}
    {block : EncodedBlock} (hs : object.streamPtr = some s)
    (hencode : r.encode lib host value = .ok block) (hflag : object.needWriteIndex = false)
    (hhanded : 0 < handedOver s.holds s.count 0 (blockBytes block).length) :
    ∃ object', (object.withRoom (some 0)).insert lib host key value =
        .error (.throws .iosFailure) object' ∧ Stalled lib (object'.withRoom none) written := by
  obtain ⟨object', s', hinsert, rfl, hfile⟩ := h.insert_full key hs hencode hflag hhanded
  obtain ⟨content, t, ht, hsound, -, hhas, hends⟩ := h
  cases hs.symm.trans ht
  rw [← hsound.content_eq, List.take_zero, List.append_nil] at hfile
  refine ⟨_, hinsert, { s' with room := none }, rfl, ?_⟩
  show s'.file.fail = true ∧ s'.file.exceptions = true ∧ _
  rw [hfile]
  exact ⟨rfl, rfl, hflag, hhas, (hends hflag).2⟩

/-- No insert gets through to a stream that has failed. -/
theorem Stalled.insert (h : Stalled lib object written) (room : Option ℕ) (host : Host)
    (key : r.Key) (value : r.Value) :
    ∃ stop object', (object.withRoom room).insert lib host key value = .error stop object' ∧
      Stalled lib (object'.withRoom none) written := by
  obtain ⟨s, hs, hfail, he, hflag, hhas, hends⟩ := h
  obtain ⟨stop, s', happend, -, hbytes, hfail', he'⟩ := rememberedAppend_of_failed
    (s := { s with room := room }) (r.encode lib host value) hfail he
  refine ⟨stop, _, insert_of_error (withRoom_streamPtr hs room) happend, { s' with room := none },
    rfl, hfail', he', hflag, ?_⟩
  show FileHas lib s'.file.bytes object.index written ∧ EndsWithIndex lib s'.file.bytes object.index
  rw [hbytes]
  exact ⟨hhas, hends⟩

/-! ### ReadsFile -/

/-- The entries of the index point to blocks. -/
theorem FileHas.blockAt {file : List Byte} {index : BlocksIndex r}
    (h : FileHas lib file index written) {entry : r.Key × Int64T} (hmem : entry ∈ index.map.elems) :
    ∃ block, BlockAt file entry.2 block := by
  obtain ⟨made, -, hindexes, -⟩ := h.blocks
  obtain ⟨block, -, hat⟩ := hindexes.entry hmem
  exact ⟨block, hat⟩

/-- The stream that the subscript leaves, whether it returns or not. -/
theorem finalState_subscript (state : IndexedFileState r FileStream) (build : Build) (key : r.Key)
    (hs : state.streamPtr = some s) :
    (state.find key = none ∧ finalState (state.subscript build key) = state) ∨
      ∃ entry ∈ state.index.map.elems, state.find key = some entry ∧
        finalState (state.subscript build key) =
          { state with streamPtr := some (finalState (delayedRead build entry.2 s)) } := by
  unfold IndexedFileState.subscript
  rw [get_bind]
  cases hfind : state.find key with
  | none => exact Or.inl ⟨rfl, rfl⟩
  | some entry =>
    refine Or.inr ⟨entry, List.mem_of_find?_eq_some hfind, rfl, ?_⟩
    dsimp only
    cases hread : delayedRead build entry.2 s with
    | ok block s' => rw [stateOnStream_of_ok hs hread]; rfl
    | error stop s' => rw [stateOnStream_of_error hs hread]; rfl

/-- The object behind a read, on a device that takes `room` more bytes. -/
def IndexedFile.behindRead (object : IndexedFile r FileStream) (room : Option ℕ) (build : Build)
    (key : r.Key) : IndexedFile r FileStream :=
  IndexedFile.withRoom ⟨finalState ((object.withRoom room).toIndexedFileState.subscript build key),
    object.needWriteIndex⟩ none

/-- Reading through the object that writes. -/
theorem WriterOn.read (h : WriterOn lib object written) {room : Option ℕ} (build : Build)
    (key : r.Key) (hs : object.streamPtr = some s)
    (hroom : object.find key = none ∨ RoomFor room s.pending.length) :
    WriterOn lib (object.behindRead room build key) written := by
  obtain ⟨content, s', hs', hsound, -, hhas, hends⟩ := h
  cases hs.symm.trans hs'
  have hsound' : Sound content { s with room := room } := hsound
  have hptr := withRoom_streamPtr hs room
  unfold IndexedFile.behindRead
  rcases finalState_subscript (object.withRoom room).toIndexedFileState build key hptr with
    ⟨-, hfinal⟩ | ⟨entry, hmem, hfind, hfinal⟩
  · rw [hfinal]
    exact ⟨content, { s with room := none }, withRoom_streamPtr hptr none, hsound, rfl, hhas, hends⟩
  · have hfound : object.find key = some entry := hfind
    have hcovers : RoomFor room s.pending.length := hroom.resolve_left (by rw [hfound]; nofun)
    obtain ⟨block, hat⟩ := hhas.blockAt hmem
    obtain ⟨t, hread, ht, hnil⟩ := hsound'.delayedRead build hcovers hat
    rw [hfinal, hread]
    exact ⟨content, { t with room := none }, rfl, ht, rfl, hhas,
      fun hflag => ⟨hnil, (hends hflag).2⟩⟩

/-- Reading does not mend a stream that has failed. -/
theorem Stalled.read (h : Stalled lib object written) (room : Option ℕ) (build : Build)
    (key : r.Key) : Stalled lib (object.behindRead room build key) written := by
  obtain ⟨s, hs, hfail, he, hflag, hhas, hends⟩ := h
  have hptr := withRoom_streamPtr hs room
  unfold IndexedFile.behindRead
  rcases finalState_subscript (object.withRoom room).toIndexedFileState build key hptr with
    ⟨-, hfinal⟩ | ⟨entry, -, -, hfinal⟩
  · rw [hfinal]
    exact ⟨{ s with room := none }, withRoom_streamPtr hptr none, hfail, he, hflag, hhas, hends⟩
  · obtain ⟨stop, t, hread, hbytes, hfail', he'⟩ := delayedRead_of_failed build
      (s := { s with room := room }) entry.2 hfail he
    rw [hfinal, hread]
    refine ⟨{ t with room := none }, rfl, hfail', he', hflag, ?_⟩
    show FileHas lib t.file.bytes object.index written ∧ EndsWithIndex lib t.file.bytes object.index
    rw [hbytes]
    exact ⟨hhas, hends⟩

/-! ### Sessions -/

/-- A finished file that is opened for writing again. -/
theorem Finished.openBuffered {file : List Byte} (h : Finished lib file written) (build : Build)
    (heap : ℕ → Memory) (holds : ℕ → Bool) :
    ∃ index s, openIndexedOutputFile r build lib heap (opened (outputFile file false) holds) =
        .ok (index, false) s ∧ WriterOn lib ⟨⟨some s, index⟩, false⟩ written := by
  obtain ⟨index, hhas, hends⟩ := h
  obtain ⟨body, hfile⟩ := hhas.header
  obtain ⟨s, hopen, hs, hnil, -, -, hroom⟩ :=
    FileStream.openIndexedOutputFile_old build heap holds body hfile hends
  exact ⟨index, s, hopen, file, s, rfl, hs, hroom, hhas, fun _ => ⟨hnil, hends⟩⟩

/-- A destructor with an index to write, on a device that takes all of it. -/
theorem destroy_sound (room : Option ℕ) {indexBlock markerBlock : EncodedBlock}
    (hs : object.streamPtr = some s) (hsound : Sound content s)
    (hflag : object.needWriteIndex = true)
    (hindex : encodeMeta (r := r) lib host .blocksIndex object.index = .ok indexBlock)
    (hmarker : encodeMeta (r := r) lib host' .indexPositionMarker (markerAt r content.length) =
      .ok markerBlock)
    (hroom : RoomFor room (s.pending.length + (blockBytes indexBlock).length +
      (blockBytes markerBlock).length)) :
    ∃ object', (object.withRoom room).destroy lib host host' = .ok () object' ∧
      object'.closed = content ++ blockBytes indexBlock ++ blockBytes markerBlock := by
  have hsound' : Sound content { s with room := room } := hsound
  have hhanded := handedOver_le s.holds s.count 0 (blockBytes indexBlock).length
  have hfirst : RoomFor room
      (s.pending.length + handedOver s.holds s.count 0 (blockBytes indexBlock).length) :=
    hroom.mono (by omega)
  obtain ⟨device, pending, room', happend, hcontent, hrest⟩ := hsound'.rememberedAppend hfirst
  obtain ⟨device', pending', count', room'', hwrite, hcontent', hclosing⟩ :=
    writeBlock_behind markerBlock device pending s.holds (s.count + (blockBytes indexBlock).length)
      (hrest _ hroom)
  rw [← hindex] at happend
  rw [← hmarker] at hwrite
  refine ⟨_, destroy_of_ok (withRoom_streamPtr hs room) hflag happend hwrite, ?_⟩
  rw [← hcontent, ← hcontent']
  exact (sound_writing device' pending' s.holds count' room'').closed hclosing

/-- The end of a session that has changed something. -/
theorem WriterOn.destroy_changed (h : WriterOn lib object written) (hlib : KeepsMarkerSize lib)
    {room : Option ℕ} (host host' : Host) (hs : object.streamPtr = some s)
    (hflag : object.needWriteIndex = true) (hlt : s.content.length < 2 ^ 63)
    (hindex : IndexEncodable lib host object.index)
    (hroom : ∀ block, encodeMeta (r := r) lib host .blocksIndex object.index = .ok block →
      RoomFor room (s.pending.length + (blockBytes block).length + markerFullSize.toNat)) :
    ∃ object', (object.withRoom room).destroy lib host host' = .ok () object' ∧
      Finished lib object'.closed written := by
  obtain ⟨content, s', hs', hsound, -, hhas, -⟩ := h
  cases hs.symm.trans hs'
  rw [← hsound.content_eq] at hlt
  obtain ⟨indexBlock, markerBlock, hindexBlock, hmarkerBlock, hlen, hfinished⟩ :=
    hhas.finished hlib host' hlt hindex
  have hcovers := hroom indexBlock hindexBlock
  rw [markerFullSize_eq, ← hlen] at hcovers
  obtain ⟨object', hdestroy, hclosed⟩ :=
    destroy_sound room hs hsound hflag hindexBlock hmarkerBlock hcovers
  rw [← hclosed] at hfinished
  exact ⟨object', hdestroy, hfinished⟩

/-- The end of a session that has changed nothing. -/
theorem WriterOn.destroy_unchanged (h : WriterOn lib object written) (room : Option ℕ)
    (host host' : Host) (hflag : object.needWriteIndex = false) :
    (object.withRoom room).destroy lib host host' = .ok () (object.withRoom room) ∧
      Finished lib (object.withRoom room).closed written := by
  obtain ⟨content, s, hs, hsound, -, hhas, hends⟩ := h
  obtain ⟨hnil, hends⟩ := hends hflag
  have hcovers : RoomFor room s.pending.length := by
    rw [hnil]
    exact fun m _ => Nat.zero_le m
  have hsound' : Sound content { s with room := room } := hsound
  refine ⟨Pbsf.destroy_unchanged host host' hflag, object.index, ?_⟩
  unfold IndexedFile.closed
  rw [withRoom_streamPtr hs room]
  dsimp only
  rw [hsound'.closed hcovers]
  exact ⟨hhas, hends⟩

/-- Nor does the destructor write to a stream that has failed; what is pending is tried
    again. -/
theorem Stalled.destroy (h : Stalled lib object written) {room : Option ℕ} (host host' : Host)
    (hs : object.streamPtr = some s) (hroom : s.pending = [] ∨ room = some 0) :
    (object.withRoom room).destroy lib host host' = .ok () (object.withRoom room) ∧
      Finished lib (object.withRoom room).closed written := by
  obtain ⟨s', hs', -, -, hflag, hhas, hends⟩ := h
  cases hs.symm.trans hs'
  refine ⟨destroy_unchanged host host' hflag, object.index, ?_⟩
  have hclosed : FileStream.closed { s with room := room } = s.file.bytes :=
    closed_eq (s := { s with room := room }) hroom
  unfold IndexedFile.closed
  rw [withRoom_streamPtr hs room]
  dsimp only
  rw [hclosed]
  exact ⟨hhas, hends⟩

end Objects

/-! ## Programs -/

section Programs

variable {ι : Type} {r : KeyedRealm ι}

/-- Programs that use one file in turn, each for a session. -/
structure BufferedProgram {ι : Type} (r : KeyedRealm ι) where
  /-- The file as the last session left it. -/
  file : List Byte
  /-- A session has created the file, or truncated it. -/
  created : Bool
  /-- The object of the session that is going on. -/
  object : Option (IndexedFile r FileStream)

/-- A step of a program. Other than in `Operation`, the file is buffered, and the
    device takes no more than `room` bytes during the step. -/
inductive BufferedOperation {ι : Type} (r : KeyedRealm ι) where
  | openOutput (build : Build) (overwrite : Bool) (heap : ℕ → Memory) (holds : ℕ → Bool)
  | insert (room : Option ℕ) (host : Host) (key : r.Key) (value : r.Value)
  | read (room : Option ℕ) (build : Build) (key : r.Key)
  | close (room : Option ℕ) (host host' : Host)

/-- The file at first; nothing is known of it. -/
def BufferedProgram.start (r : KeyedRealm ι) (file : List Byte) : BufferedProgram r :=
  ⟨file, false, none⟩

/-- The session goes on with `object`. -/
def BufferedProgram.goOn (p : BufferedProgram r) (object : IndexedFile r FileStream) :
    BufferedProgram r :=
  { p with object := some object }

/-- A step. Exceptions of inserts and reads are caught. -/
def BufferedProgram.step (lib : Libraries) (operation : BufferedOperation r)
    (p : BufferedProgram r) : Except Stop (BufferedProgram r × List (Change r)) :=
  match operation, p.object with
  | .openOutput build overwrite heap holds, none =>
    match openIndexedOutputFile r build lib heap (opened (outputFile p.file overwrite) holds) with
    | .ok (index, isNew) s =>
      .ok ({ p with created := true }.goOn ⟨⟨some s, index⟩, isNew⟩,
        if isNew then [.truncated] else [])
    | .error stop _ => .error stop
  | .insert room host key value, some object =>
    match (object.withRoom room).insert lib host key value with
    | .ok () object' => .ok (p.goOn (object'.withRoom none), [.inserted key value])
    | .error (.throws _) object' => .ok (p.goOn (object'.withRoom none), [])
    | .error stop _ => .error stop
  | .read room build key, some object =>
    match (object.withRoom room).toIndexedFileState.subscript build key with
    | .ok _ _ | .error (.throws _) _ => .ok (p.goOn (object.behindRead room build key), [])
    | .error stop _ => .error stop
  | .close room host host', some object =>
    match (object.withRoom room).destroy lib host host' with
    | .ok () object' => .ok ({ p with file := object'.closed, object := none }, [])
    | .error stop _ => .error stop
  | _, _ => .error .undefinedBehaviour

/-- The steps come in the order of sessions, and the first session creates the file
    or truncates it. -/
def InSession (p : BufferedProgram r) : BufferedOperation r → Prop
  | .openOutput _ overwrite _ _ =>
    p.object = none ∧ (overwrite = true ∨ p.file = [] ∨ p.created = true)
  | .insert _ _ _ _ | .read _ _ _ | .close _ _ _ => ∃ object, p.object = some object

variable (lib : Libraries)

/-- What an insert into `object` must find, on the stream `s` and a device that takes
    no more than `room` bytes. A position has 63 bits. -/
inductive HarmlessInsert (object : IndexedFile r FileStream) (s : FileStream) (host : Host)
    (value : r.Value) : Option ℕ → Prop
  /-- The block cannot be made; the device takes what was pending before. -/
  | notEncoded {room : Option ℕ} {stop : Stop} (hencode : r.encode lib host value = .error stop)
      (hroom : RoomFor room s.pending.length) : HarmlessInsert object s host value room
  /-- The block is made and can be decoded again, and the device takes all that is
      handed over. -/
  | taken {room : Option ℕ} {block : EncodedBlock} {raw : Buffer}
      (hencode : r.encode lib host value = .ok block)
      (hroom : RoomFor room
        (s.pending.length + handedOver s.holds s.count 0 (blockBytes block).length))
      (hlt : s.content.length < 2 ^ 63) (hraw : raw.bytes = bytes (r.ty value.1) value.2)
      (hencodable : Encodable lib raw (envPreferredEncoding host.pbsfCompression)) :
      HarmlessInsert object s host value room
  /-- The flag is clear, and the device takes nothing of what is handed over. -/
  | nothing {block : EncodedBlock} (hencode : r.encode lib host value = .ok block)
      (hflag : object.needWriteIndex = false)
      (hhanded : 0 < handedOver s.holds s.count 0 (blockBytes block).length) :
      HarmlessInsert object s host value (some 0)

/-- What the destructor of `object` must find. -/
inductive HarmlessClose (object : IndexedFile r FileStream) (s : FileStream) (host : Host) :
    Option ℕ → Prop
  /-- The flag is set, the index can be decoded again, and the device takes everything. -/
  | changed {room : Option ℕ} (hflag : object.needWriteIndex = true)
      (hlt : s.content.length < 2 ^ 63) (hindex : IndexEncodable lib host object.index)
      (hroom : ∀ block, encodeMeta (r := r) lib host .blocksIndex object.index = .ok block →
        RoomFor room (s.pending.length + (blockBytes block).length + markerFullSize.toNat)) :
      HarmlessClose object s host room
  /-- The flag is clear. Something can be pending only where an insert has failed, and
      nothing of it is taken. -/
  | unchanged {room : Option ℕ} (hflag : object.needWriteIndex = false)
      (hroom : s.pending = [] ∨ room = some 0) : HarmlessClose object s host room

/-- The step does no harm to the file. To a stream that has failed no insert and no
    read gets through. -/
def Harmless (p : BufferedProgram r) : BufferedOperation r → Prop
  | .openOutput _ _ _ _ => True
  | .insert room host _ value => ∀ object s, p.object = some object → object.streamPtr = some s →
      s.file.fail = true ∨ HarmlessInsert lib object s host value room
  | .read room _ key => ∀ object s, p.object = some object → object.streamPtr = some s →
      s.file.fail = true ∨ object.find key = none ∨ RoomFor room s.pending.length
  | .close room host _ => ∀ object s, p.object = some object → object.streamPtr = some s →
      HarmlessClose lib object s host room

/-- A step that comes in its order and does no harm. -/
def Kept (p : BufferedProgram r) (operation : BufferedOperation r) : Prop :=
  InSession p operation ∧ Harmless lib p operation

/-- The invariant of programs whose steps do no harm. -/
structure KeptInv (past : List (Change r)) (p : BufferedProgram r) : Prop where
  writing : ∀ {object}, p.object = some object →
    WriterOn lib object (written past) ∨ Stalled lib object (written past)
  finished : p.object = none → p.created = true → Finished lib p.file (written past)

variable {lib} {past : List (Change r)} {p : BufferedProgram r}

theorem keptInv_goOn {object : IndexedFile r FileStream}
    (h : WriterOn lib object (written past) ∨ Stalled lib object (written past)) :
    KeptInv lib past (p.goOn object) where
  writing hobject := by
    cases hobject
    exact h
  finished := nofun

theorem WriterOn.not_failed {object : IndexedFile r FileStream} {written : List (r.Key × r.Value)}
    {s : FileStream} (h : WriterOn lib object written) (hs : object.streamPtr = some s) :
    s.file.fail = false := by
  obtain ⟨content, s', hs', ⟨device, hworking, -⟩, -⟩ := h
  cases hs.symm.trans hs'
  exact StdStream.fail_of_good hworking.good

/-- An opening that returns. -/
theorem step_openBuffered {build : Build} {overwrite : Bool} {heap : ℕ → Memory} {holds : ℕ → Bool}
    {index : BlocksIndex r} {isNew : Bool} {s : FileStream} (hnone : p.object = none)
    (h : openIndexedOutputFile r build lib heap (opened (outputFile p.file overwrite) holds) =
      .ok (index, isNew) s) :
    BufferedProgram.step lib (.openOutput build overwrite heap holds) p =
      .ok ({ p with created := true }.goOn ⟨⟨some s, index⟩, isNew⟩,
        if isNew then [.truncated] else []) := by
  unfold BufferedProgram.step
  rw [hnone]
  dsimp only
  rw [h]

theorem inSession_reopen (file : List Byte) (build : Build) (heap : ℕ → Memory) (holds : ℕ → Bool) :
    InSession (⟨file, true, none⟩ : BufferedProgram r) (.openOutput build false heap holds) :=
  ⟨rfl, Or.inr (Or.inr rfl)⟩

theorem kept_insert {object : IndexedFile r FileStream} {s : FileStream} {room : Option ℕ}
    {host : Host} {key : r.Key} {value : r.Value} (hobject : p.object = some object)
    (hs : object.streamPtr = some s) (h : HarmlessInsert lib object s host value room) :
    Kept lib p (.insert room host key value) := by
  refine ⟨⟨object, hobject⟩, fun object' s' hobject' hs' => Or.inr ?_⟩
  cases hobject.symm.trans hobject'
  cases hs.symm.trans hs'
  exact h

theorem kept_close {object : IndexedFile r FileStream} {s : FileStream} {room : Option ℕ}
    {host : Host} (host' : Host) (hobject : p.object = some object) (hs : object.streamPtr = some s)
    (h : HarmlessClose lib object s host room) : Kept lib p (.close room host host') := by
  refine ⟨⟨object, hobject⟩, fun object' s' hobject' hs' => ?_⟩
  cases hobject.symm.trans hobject'
  cases hs.symm.trans hs'
  exact h

section Steps

variable {object : IndexedFile r FileStream} (hobject : p.object = some object)

include hobject

theorem step_insertBuffered {room : Option ℕ} {host : Host} {key : r.Key} {value : r.Value}
    {object' : IndexedFile r FileStream}
    (h : (object.withRoom room).insert lib host key value = .ok () object') :
    BufferedProgram.step lib (.insert room host key value) p =
      .ok (p.goOn (object'.withRoom none), [.inserted key value]) := by
  unfold BufferedProgram.step
  rw [hobject]
  dsimp only
  rw [h]

theorem step_insert_of_throws {room : Option ℕ} {host : Host} {key : r.Key} {value : r.Value}
    {e : Exn} {object' : IndexedFile r FileStream}
    (h : (object.withRoom room).insert lib host key value = .error (.throws e) object') :
    BufferedProgram.step lib (.insert room host key value) p =
      .ok (p.goOn (object'.withRoom none), []) := by
  unfold BufferedProgram.step
  rw [hobject]
  dsimp only
  rw [h]

theorem step_closeBuffered {room : Option ℕ} {host host' : Host}
    {object' : IndexedFile r FileStream}
    (h : (object.withRoom room).destroy lib host host' = .ok () object') :
    BufferedProgram.step lib (.close room host host') p =
      .ok ({ p with file := object'.closed, object := none }, []) := by
  unfold BufferedProgram.step
  rw [hobject]
  dsimp only
  rw [h]

variable {p' : BufferedProgram r} {changes : List (Change r)}

/-- What goes on behind an insert that has failed. -/
theorem step_insert_of_error {room : Option ℕ} {host : Host} {key : r.Key} {value : r.Value}
    {stop : Stop} {object' : IndexedFile r FileStream}
    (hinsert : (object.withRoom room).insert lib host key value = .error stop object')
    (hstep : BufferedProgram.step lib (.insert room host key value) p = .ok (p', changes)) :
    p' = p.goOn (object'.withRoom none) ∧ changes = [] := by
  unfold BufferedProgram.step at hstep
  rw [hobject] at hstep
  dsimp only at hstep
  rw [hinsert] at hstep
  cases stop with
  | throws e =>
    cases hstep
    exact ⟨rfl, rfl⟩
  | undefinedBehaviour => cases hstep
  | outOfFuel => cases hstep

/-- What goes on behind a read. -/
theorem step_read_ok {room : Option ℕ} {build : Build} {key : r.Key}
    (hstep : BufferedProgram.step lib (.read room build key) p = .ok (p', changes)) :
    p' = p.goOn (object.behindRead room build key) ∧ changes = [] := by
  unfold BufferedProgram.step at hstep
  rw [hobject] at hstep
  dsimp only at hstep
  cases hread : (object.withRoom room).toIndexedFileState.subscript build key with
  | ok block state =>
    rw [hread] at hstep
    cases hstep
    exact ⟨rfl, rfl⟩
  | error stop state =>
    rw [hread] at hstep
    cases stop with
    | throws e =>
      cases hstep
      exact ⟨rfl, rfl⟩
    | undefinedBehaviour => cases hstep
    | outOfFuel => cases hstep

end Steps

/-- The invariant behind an opening. -/
theorem KeptInv.openOutput (h : KeptInv lib past p) (build : Build) {overwrite : Bool}
    (heap : ℕ → Memory) (holds : ℕ → Bool) (hnone : p.object = none)
    (hstart : overwrite = true ∨ p.file = [] ∨ p.created = true) :
    ∃ p' changes, BufferedProgram.step lib (.openOutput build overwrite heap holds) p =
      .ok (p', changes) ∧ KeptInv lib (past ++ changes) p' := by
  by_cases hnew : overwrite = true ∨ p.file = []
  · obtain ⟨s, hopen, hs, hroom⟩ :=
      FileStream.openIndexedOutputFile_new (r := r) build lib heap holds hnew
    refine ⟨_, [.truncated], step_openBuffered hnone hopen, keptInv_goOn (Or.inl ?_)⟩
    rw [written_truncated]
    exact ⟨headerBytes r.toRealm, s, rfl, hs, hroom, fileHas_header, nofun⟩
  · obtain ⟨hoverwrite, hfile⟩ := not_or.mp hnew
    have hcreated := (hstart.resolve_left hoverwrite).resolve_left hfile
    obtain rfl : overwrite = false := eq_false_of_ne_true hoverwrite
    obtain ⟨index, s, hopen, hwriter⟩ :=
      (h.finished hnone hcreated).openBuffered build heap holds
    refine ⟨_, [], step_openBuffered hnone hopen, ?_⟩
    rw [List.append_nil]
    exact keptInv_goOn (Or.inl hwriter)

/-- The invariant behind an insert that does no harm. -/
theorem KeptInv.insert (h : KeptInv lib past p) {room : Option ℕ} {host : Host} {key : r.Key}
    {value : r.Value} {object : IndexedFile r FileStream} (hobject : p.object = some object)
    (hharmless : Harmless lib p (.insert room host key value)) {p' : BufferedProgram r}
    {changes : List (Change r)}
    (hstep : BufferedProgram.step lib (.insert room host key value) p = .ok (p', changes)) :
    KeptInv lib (past ++ changes) p' := by
  rcases h.writing hobject with hwriter | hstalled
  · obtain ⟨content, s, hs, -⟩ := id hwriter
    have hinsert := (hharmless object s hobject hs).resolve_left (by
      rw [hwriter.not_failed hs]
      decide)
    cases hinsert with
    | notEncoded hencode hroom =>
      obtain ⟨object', hfails, hwriter'⟩ := hwriter.insert_notEncoded key hs hencode hroom
      obtain ⟨rfl, rfl⟩ := step_insert_of_error hobject hfails hstep
      rw [List.append_nil]
      exact keptInv_goOn (Or.inl hwriter')
    | taken hencode hroom hlt hraw hencodable =>
      obtain ⟨block, hblock, hid, hholds⟩ := holds_encodeBlock lib (r.ty value.1) value.2 host.fresh
        (r.lookupId value.1) _ hraw hencodable
      have hsame : r.encode lib host value = .ok block :=
        (encodeValue_eq lib (r.ty value.1) value.2 host _ hraw).trans hblock
      cases hencode.symm.trans hsame
      obtain ⟨object', hinserts, hwriter'⟩ :=
        hwriter.insert key hs hencode ⟨hid, hholds⟩ hroom hlt
      cases hstep.symm.trans (step_insertBuffered hobject hinserts)
      rw [← written_inserted] at hwriter'
      exact keptInv_goOn (Or.inl hwriter')
    | nothing hencode hflag hhanded =>
      obtain ⟨object', hfails, hstalled⟩ := hwriter.insert_nothing key hs hencode hflag hhanded
      obtain ⟨rfl, rfl⟩ := step_insert_of_error hobject hfails hstep
      rw [List.append_nil]
      exact keptInv_goOn (Or.inr hstalled)
  · obtain ⟨stop, object', hinsert, hstalled'⟩ := hstalled.insert room host key value
    obtain ⟨rfl, rfl⟩ := step_insert_of_error hobject hinsert hstep
    rw [List.append_nil]
    exact keptInv_goOn (Or.inr hstalled')

/-- The invariant behind a read. -/
theorem KeptInv.read (h : KeptInv lib past p) {room : Option ℕ} {build : Build} {key : r.Key}
    {object : IndexedFile r FileStream} (hobject : p.object = some object)
    (hharmless : Harmless lib p (.read room build key)) {p' : BufferedProgram r}
    {changes : List (Change r)}
    (hstep : BufferedProgram.step lib (.read room build key) p = .ok (p', changes)) :
    KeptInv lib (past ++ changes) p' := by
  obtain ⟨rfl, rfl⟩ := step_read_ok hobject hstep
  rw [List.append_nil]
  apply keptInv_goOn
  rcases h.writing hobject with hwriter | hstalled
  · obtain ⟨content, s, hs, -⟩ := id hwriter
    have hread := (hharmless object s hobject hs).resolve_left (by
      rw [hwriter.not_failed hs]
      decide)
    exact Or.inl (hwriter.read build key hs hread)
  · exact Or.inr (hstalled.read room build key)

/-- The end of a session. -/
theorem KeptInv.close (h : KeptInv lib past p) (hlib : KeepsMarkerSize lib) {room : Option ℕ}
    {host : Host} (host' : Host) {object : IndexedFile r FileStream}
    (hobject : p.object = some object) (hharmless : Harmless lib p (.close room host host')) :
    ∃ p', BufferedProgram.step lib (.close room host host') p = .ok (p', []) ∧
      KeptInv lib past p' := by
  have hclosed : ∃ object', (object.withRoom room).destroy lib host host' = .ok () object' ∧
      Finished lib object'.closed (written past) := by
    rcases h.writing hobject with hwriter | hstalled
    · obtain ⟨content, s, hs, -⟩ := id hwriter
      cases hharmless object s hobject hs with
      | changed hflag hlt hindex hroom =>
        exact hwriter.destroy_changed hlib host host' hs hflag hlt hindex hroom
      | unchanged hflag hroom => exact ⟨_, hwriter.destroy_unchanged room host host' hflag⟩
    · obtain ⟨s, hs, -, -, hflag, -⟩ := id hstalled
      cases hharmless object s hobject hs with
      | changed hflag' => cases hflag.symm.trans hflag'
      | unchanged hflag' hroom => exact ⟨_, hstalled.destroy host host' hs hroom⟩
  obtain ⟨object', hdestroy, hfinished⟩ := hclosed
  exact ⟨_, step_closeBuffered hobject hdestroy, nofun, fun _ _ => hfinished⟩

theorem KeptInv.step (h : KeptInv lib past p) (hlib : KeepsMarkerSize lib)
    {operation : BufferedOperation r} (hsession : InSession p operation)
    (hharmless : Harmless lib p operation) {p' : BufferedProgram r} {changes : List (Change r)}
    (hstep : BufferedProgram.step lib operation p = .ok (p', changes)) :
    KeptInv lib (past ++ changes) p' := by
  cases operation with
  | openOutput build overwrite heap holds =>
    obtain ⟨p'', changes', hopen, hinv⟩ := h.openOutput build heap holds hsession.1 hsession.2
    cases hstep.symm.trans hopen
    exact hinv
  | insert room host key value =>
    obtain ⟨object, hobject⟩ := hsession
    exact h.insert hobject hharmless hstep
  | read room build key =>
    obtain ⟨object, hobject⟩ := hsession
    exact h.read hobject hharmless hstep
  | close room host host' =>
    obtain ⟨object, hobject⟩ := hsession
    obtain ⟨p'', hclose, hinv⟩ := h.close hlib host' hobject hharmless
    cases hstep.symm.trans hclose
    rw [List.append_nil]
    exact hinv

theorem keptInv_of_runsTo (hlib : KeepsMarkerSize lib) {file : List Byte}
    (h : RunsTo (BufferedProgram.step lib) (Kept lib) (BufferedProgram.start r file) past p) :
    KeptInv lib past p :=
  h.invariant ⟨nofun, nofun⟩ fun hinv hadmitted hstep =>
    hinv.step hlib hadmitted.1 hadmitted.2 hstep

/-- Where no step does harm, the sessions close, and the file has the values whose
    inserts returned. -/
theorem failed_inserts (hlib : KeepsMarkerSize lib) {file : List Byte}
    (h : RunsTo (BufferedProgram.step lib) (Kept lib) (BufferedProgram.start r file) past p) :
    (∀ room host host', Kept lib p (.close room host host') →
      ∃ p', BufferedProgram.step lib (.close room host host') p = .ok (p', [])) ∧
    (p.object = none → p.created = true → ∀ build heap, ∃ index s,
      openIndexedInputFile r build lib heap (inputFile p.file) = .ok index s ∧ Working p.file s ∧
        ∀ s', Working p.file s' → Shows lib p.file ⟨some s', index⟩ (written past)) := by
  have hinv := keptInv_of_runsTo hlib h
  constructor
  · rintro room host host' ⟨⟨object, hobject⟩, hharmless⟩
    obtain ⟨p', hclose, -⟩ := hinv.close hlib host' hobject hharmless
    exact ⟨p', hclose⟩
  · intro hnone hcreated build heap
    exact (hinv.finished hnone hcreated).openInput build heap

end Programs

/-! ## A file that is lost -/

section Lost

variable {ι : Type} {r : KeyedRealm ι} {lib : Libraries} {file : List Byte}
  {written : List (r.Key × r.Value)}

/-- A finished file is opened for writing, and the device takes `m` bytes of the block
    of the first insert, and no more: they stay behind the marker. -/
theorem Finished.reopen_full (h : Finished lib file written) (build : Build) (heap : ℕ → Memory)
    (holds : ℕ → Bool) {host : Host} (key : r.Key) {value : r.Value} {block : EncodedBlock} {m : ℕ}
    (hencode : r.encode lib host value = .ok block)
    (hm : m < handedOver holds 0 0 (blockBytes block).length) :
    ∃ (object failed : IndexedFile r FileStream) (s : FileStream),
      BufferedProgram.step lib (.openOutput build false heap holds) ⟨file, true, none⟩ =
        .ok (⟨file, true, some object⟩, []) ∧
      object.needWriteIndex = false ∧ object.streamPtr = some s ∧ s.holds = holds ∧ s.count = 0 ∧
      (object.withRoom (some m)).insert lib host key value =
        .error (.throws .iosFailure) failed ∧
      failed.needWriteIndex = false ∧
      BufferedProgram.step lib (.close (some 0) host host)
          ⟨file, true, some (failed.withRoom none)⟩ =
        .ok (⟨file ++ (blockBytes block).take m, true, none⟩, []) := by
  obtain ⟨index, hhas, hends⟩ := h
  obtain ⟨body, hfile⟩ := hhas.header
  obtain ⟨s, hopen, hs, hnil, hholds, hcount, hroom⟩ :=
    FileStream.openIndexedOutputFile_old build heap holds body hfile hends
  have hwriter : WriterOn lib ⟨⟨some s, index⟩, false⟩ written :=
    ⟨file, s, rfl, hs, hroom, hhas, fun _ => ⟨hnil, hends⟩⟩
  have hm' : m < handedOver s.holds s.count 0 (blockBytes block).length := by
    rwa [hholds, hcount]
  obtain ⟨object', s', hinsert, rfl, hfile'⟩ := hwriter.insert_full key rfl hencode rfl hm'
  rw [← hs.content_eq] at hfile'
  refine ⟨⟨⟨some s, index⟩, false⟩, ⟨⟨some s', index⟩, false⟩, s, step_openBuffered rfl hopen, rfl,
    rfl, hholds, hcount, hinsert, rfl, ?_⟩
  have hclosed : FileStream.closed { s' with room := some 0 } =
      file ++ (blockBytes block).take m := by
    rw [closed_eq (Or.inr rfl)]
    show s'.file.bytes = _
    rw [hfile']
    rfl
  rw [step_closeBuffered rfl (destroy_unchanged host host rfl)]
  show Except.ok
    ((⟨FileStream.closed { s' with room := some 0 }, true, none⟩ : BufferedProgram r), []) = _
  rw [hclosed]

/-- A file is not opened whose last 19 bytes are the beginning of a longer block. -/
theorem openIndexedInputFile_torn (build : Build) (lib : Libraries) (heap : ℕ → Memory)
    {body before tail : List Byte} {block : EncodedBlock}
    (hfile : file = headerBytes r.toRealm ++ body) (hcut : file = before ++ tail)
    (hlen : tail.length = 19) (hpre : tail <+: blockBytes block) (hne : tail ≠ blockBytes block) :
    ∃ s, openIndexedInputFile r build lib heap (inputFile file) =
      .error (.throws .iosFailure) s := by
  have hopen := setExceptions_inputFile hfile
  have hworking := working_between (headerBytes r.toRealm) body
  rw [← hfile, hcut] at hworking
  have hseek : StdStream.seekgEnd (-(markerFullSize.toNat : ℤ))
      (StdStream.between (headerBytes r.toRealm) body true) =
        .ok () (StdStream.between before tail true) := by
    have hpos : ((StdStream.between (headerBytes r.toRealm) body true).bytes.length : ℤ) +
        -(markerFullSize.toNat : ℤ) = before.length := by
      rw [hworking.bytes_eq, markerFullSize_eq, List.length_append, hlen]
      omega
    unfold StdStream.seekgEnd
    rw [hpos, hworking.seekg]
  obtain ⟨stop, s, hparse, hstop⟩ := rejectsPrefix_encodedBlock build block
    (StdStream.between before tail true) tail (StdStream.between_ready before tail true) hpre hne
  refine ⟨s, ?_⟩
  have hread : readCurrentIndex r build lib heap
      (StdStream.between (headerBytes r.toRealm) body true) = .error stop s := by
    unfold readCurrentIndex
    rw [seekable_seekgEnd, bind_of_ok hseek, bind_of_error hparse]
  unfold openIndexedInputFile
  rw [bind_of_ok hopen, bind_of_ok (checkFile_between r.toRealm build body true), if_pos rfl, hread,
    hstop]
  rfl

end Lost

section Program

/-- A realm with bytes and with texts. -/
def textRealm : AbstractRealm Bool where
  type
    | false => BitVec (8 * 1)
    | true => Buffer
  ty
    | false => .arith (.bits 1 Nat.one_pos)
    | true => bufferTy
  lookupId
    | false => 7
    | true => 8
  lookupId_injective := by
    rintro (_ | _) (_ | _) h
    · rfl
    · exact absurd h (by decide)
    · exact absurd h (by decide)
    · rfl

/-- A file of values of either type, with bytes for keys. -/
def textFiles : KeyedRealm Bool :=
  { textRealm with
    id := 1
    key := false
    lt := fun a b : BitVec (8 * 1) => decide (a.toNat < b.toNat)
    strictWeak := strictWeak_toNat }

theorem nineThousand_le_maxElems : (List.replicate 9000 (7 : Byte)).length ≤ maxElems 1 := by
  rw [List.length_replicate, maxElems_one]
  decide

/-- A text that is longer than a buffer. -/
def longText : Buffer := Buffer.ofBytes (List.replicate 9000 7) nineThousand_le_maxElems

/-- A `std::filebuf` with room for 8191 bytes. -/
def buffer8191 (n : ℕ) : Bool := n % 8192 ≠ 8191

/-- The position of one block, behind the header. -/
def textPositions : List (textFiles.Key × Int64T) := [((1 : BitVec (8 * 1)), 8)]

theorem ascending_textPositions : Ascending (byKey textFiles.lt) textPositions :=
  List.pairwise_singleton _ _

theorem length_textPositions_lt : textPositions.length < 2 ^ 64 := Nat.one_lt_two_pow' 63

/-- The index of a file with one value. -/
def textIndex : BlocksIndex textFiles :=
  ⟨⟨textPositions, ascending_textPositions, length_textPositions_lt⟩⟩

/-- The header and the value. -/
def textBlocks : List Byte := headerBytes textFiles.toRealm ++ blockBytes sevenBlock

/-- The value of one byte. -/
def seven : textFiles.Value := ⟨false, (7 : BitVec (8 * 1))⟩

theorem length_textBlocks : textBlocks.length = 18 := by
  unfold textBlocks
  rw [List.length_append, length_headerBytes, length_sevenBlock]

theorem encode_seven : textFiles.encode Libraries.stored defaultHost seven = .ok sevenBlock :=
  encodeValue_defaultHost 7 (textFiles.ty false) rfl (by decide)

theorem encode_textIndex :
    encodeMeta (r := textFiles) Libraries.stored defaultHost .blocksIndex textIndex =
      .ok (plainBlock (-11) indexBuffer) :=
  encodeValue_defaultHost (-11) (BlocksIndex.ty textFiles) rfl (by decide)

theorem encode_textMarker :
    encodeMeta (r := textFiles) Libraries.stored defaultHost .indexPositionMarker
      (markerAt textFiles textBlocks.length) = .ok (plainBlock (-10) markerBuffer) := by
  have hraw : markerBuffer.bytes = bytes IndexPositionMarker.ty (markerAt textFiles (18 : ℕ)) := by
    rfl
  rw [length_textBlocks]
  exact encodeValue_defaultHost (-10) IndexPositionMarker.ty hraw (by decide)

/-- A first session inserts the byte, on a device that never fails. -/
theorem runsTo_closedText :
    RunsTo (BufferedProgram.step Libraries.stored) (Kept Libraries.stored)
      (BufferedProgram.start textFiles [])
      ([] ++ [.truncated] ++ [.inserted (1 : BitVec (8 * 1)) seven] ++ [])
      ⟨textBlocks ++ indexTail, true, none⟩ := by
  have hnew : false = true ∨ ([] : List Byte) = [] := Or.inr rfl
  obtain ⟨s, hopen, hs, -⟩ := FileStream.openIndexedOutputFile_new (r := textFiles)
    { rangeChecks := true } Libraries.stored (fun _ _ => 0) buffer8191 hnew
  have hkept : Kept Libraries.stored (BufferedProgram.start textFiles [])
      (.openOutput { rangeChecks := true } false (fun _ _ => 0) buffer8191) :=
    ⟨⟨rfl, Or.inr (Or.inl rfl)⟩, trivial⟩
  have hopened := RunsTo.init.step hkept (step_openBuffered rfl hopen)
  have hassign : (BlocksIndex.empty textFiles).assign (1 : BitVec (8 * 1))
      (headerBytes textFiles.toRealm).length = .ok textIndex := by
    rw [length_headerBytes]
    rfl
  have hptr : (⟨⟨some s, BlocksIndex.empty textFiles⟩, true⟩ :
      IndexedFile textFiles FileStream).streamPtr = some s := rfl
  obtain ⟨s', hinsert, hs'⟩ := insert_sound none hptr hs encode_seven hassign nofun
  have hharmless : HarmlessInsert Libraries.stored
      (⟨⟨some s, BlocksIndex.empty textFiles⟩, true⟩ : IndexedFile textFiles FileStream) s
      defaultHost seven none := by
    have hraw : (Buffer.ofBytes [7] one_le_maxElems).bytes =
        bytes (textFiles.ty false) (7 : BitVec (8 * 1)) := rfl
    refine .taken encode_seven nofun ?_ hraw
      (encodable_of_lt Libraries.stored _ (show 1 < 2 ^ 31 by decide))
    rw [← hs.content_eq, length_headerBytes]
    decide
  have hinserted := hopened.step (kept_insert rfl rfl hharmless) (step_insertBuffered rfl hinsert)
  have hcontent : textBlocks = FileStream.content { s' with room := none } := hs'.content_eq
  have hptr' : (⟨⟨some { s' with room := none }, textIndex⟩, true⟩ :
      IndexedFile textFiles FileStream).streamPtr = some { s' with room := none } := rfl
  obtain ⟨object, hdestroy, hclosed⟩ :=
    destroy_sound none hptr' hs' rfl encode_textIndex encode_textMarker nofun
  have hclose : HarmlessClose Libraries.stored
      (⟨⟨some { s' with room := none }, textIndex⟩, true⟩ : IndexedFile textFiles FileStream)
      { s' with room := none } defaultHost none := by
    refine .changed rfl ?_ ⟨indexBuffer, rfl, encodable_of_lt Libraries.stored _ (by decide)⟩
      fun _ _ => nofun
    rw [← hcontent, length_textBlocks]
    decide
  have hended := hinserted.step (kept_close defaultHost rfl rfl hclose)
    (step_closeBuffered rfl hdestroy)
  rw [hclosed, List.append_assoc] at hended
  exact hended

/-- The text to insert. -/
def long : textFiles.Value := ⟨true, longText⟩

/-- The block of the text does not fit into the buffer. -/
theorem encode_long :
    ∃ block, textFiles.encode Libraries.stored defaultHost long = .ok block ∧
      (blockBytes block).take 1 = [8] ∧
      1 < handedOver buffer8191 0 0 (blockBytes block).length := by
  have hlong : longText.bytes.length = 9000 := List.length_replicate
  have hten : (base128 longText.bytes.length).length ≤ 10 := by
    rw [hlong]
    decide
  have hbytes : bytes (textFiles.ty true) longText =
      base128 longText.bytes.length ++ longText.bytes := bytes_bufferTy longText
  have hlen : (bytes (textFiles.ty true) longText).length ≤ 9010 := by
    rw [hbytes, List.length_append]
    omega
  obtain ⟨raw, hraw⟩ : ∃ raw : Buffer, raw.bytes = bytes (textFiles.ty true) longText :=
    ⟨Buffer.ofBytes _ (le_trans hlen (by decide)), rfl⟩
  refine ⟨plainBlock 8 raw, ?_, ?_, ?_⟩
  · exact encodeValue_defaultHost 8 (textFiles.ty true) hraw (by rw [hraw]; omega)
  · rw [blockBytes_eq]
    rfl
  · have hblock : 8191 < (blockBytes (plainBlock 8 raw)).length := by
      have hcontent : (plainBlock 8 raw).content.bytes.length = raw.bytes.length := rfl
      rw [length_blockBytes, hcontent, hraw, hbytes, List.length_append]
      omega
    have hle := le_handedOver 0 0 hblock (show buffer8191 (0 + 8191) = false by decide)
    omega

/-- The end of the file behind the first byte of the marker, and one byte more. -/
def tornTail : List Byte :=
  [0xff, 1, 0, 0x89, 0x6e, 0x45, 0x87, 10, 18, 0, 0, 0, 0, 0, 0, 0, 7, 0, 8]

theorem eighteen_le_maxElems : 18 ≤ maxElems 1 := by decide

/-- A block that begins with it. -/
def tornBlock : EncodedBlock :=
  { contentType := 0x01ff, contentEncoding := 0x8900, contentChecksum := 0x0a87456e,
    content := Buffer.ofBytes [0, 0, 0, 0, 0, 0, 0, 7, 0, 8, 0, 0, 0, 0, 0, 0, 0, 0]
      eighteen_le_maxElems }

theorem blockBytes_marker :
    blockBytes (plainBlock (-10) markerBuffer) ++ [8] = 0xf6 :: tornTail := by
  rw [blockBytes_eq]
  decide +kernel

theorem tornTail_prefix : tornTail <+: blockBytes tornBlock := by
  rw [blockBytes_eq]
  decide

theorem openIndexedInputFile_tornText (build : Build) (heap : ℕ → Memory) :
    ∃ s, openIndexedInputFile textFiles build Libraries.stored heap
      (inputFile (textBlocks ++ indexTail ++ [8])) = .error (.throws .iosFailure) s := by
  have hcut : textBlocks ++ indexTail ++ [8] =
      textBlocks ++ blockBytes (plainBlock (-11) indexBuffer) ++ [0xf6] ++ tornTail := by
    unfold indexTail
    rw [List.append_assoc _ [0xf6] tornTail, List.singleton_append, ← blockBytes_marker]
    simp only [List.append_assoc]
  have hfile : textBlocks ++ indexTail ++ [8] =
      headerBytes textFiles.toRealm ++ (blockBytes sevenBlock ++ (indexTail ++ [8])) := by
    unfold textBlocks
    simp only [List.append_assoc]
  exact openIndexedInputFile_torn (r := textFiles) build Libraries.stored heap hfile hcut rfl
    tornTail_prefix (by decide)

theorem finished_text : Finished (r := textFiles) Libraries.stored (textBlocks ++ indexTail)
    [((1 : BitVec (8 * 1)), seven)] :=
  (keptInv_of_runsTo keepsMarkerSize_stored runsTo_closedText).finished rfl rfl

/-- A file with a value is opened again, and an insert throws when the device has taken
    one byte of the block of a text. With the object gone, the file is not opened any
    more. -/
theorem halfInsert_lost :
    ∃ past file object failed p,
      RunsTo (BufferedProgram.step Libraries.stored) InSession
        (BufferedProgram.start textFiles []) past ⟨file, true, some object⟩ ∧
      written past = [((1 : BitVec (8 * 1)), seven)] ∧
      (object.withRoom (some 1)).insert Libraries.stored defaultHost (2 : BitVec (8 * 1)) long =
        .error (.throws .iosFailure) failed ∧
      BufferedProgram.step Libraries.stored (.close (some 0) defaultHost defaultHost)
        ⟨file, true, some (failed.withRoom none)⟩ = .ok (p, []) ∧
      ∀ build heap, ∃ s, openIndexedInputFile textFiles build Libraries.stored heap
        (inputFile p.file) = .error (.throws .iosFailure) s := by
  obtain ⟨block, hencode, htake, hhanded⟩ := encode_long
  have hfinished := finished_text
  have hclosed := runsTo_closedText.mono fun p operation h => h.1
  have htorn := openIndexedInputFile_tornText
  generalize textBlocks ++ indexTail = file at hfinished hclosed htorn
  obtain ⟨object, failed, s, hopen, -, -, -, -, hinsert, -, hclose⟩ :=
    hfinished.reopen_full { rangeChecks := true } (fun _ _ => 0) buffer8191
      (2 : BitVec (8 * 1)) hencode hhanded
  rw [htake] at hclose
  exact ⟨_, file, object, failed, _, hclosed.step (inSession_reopen file _ _ _) hopen, rfl, hinsert,
    hclose, htorn⟩

/-- Nothing is lost if the device takes nothing. -/
theorem emptyInsert_kept :
    ∃ past p, RunsTo (BufferedProgram.step Libraries.stored) (Kept Libraries.stored)
        (BufferedProgram.start textFiles []) past p ∧
      written past = [((1 : BitVec (8 * 1)), seven)] ∧
      ∀ build heap, ∃ index s,
        openIndexedInputFile textFiles build Libraries.stored heap (inputFile p.file) = .ok index s ∧
          Working p.file s ∧ ∀ s', Working p.file s' →
            Shows Libraries.stored p.file ⟨some s', index⟩ (written past) := by
  obtain ⟨block, hencode, -, hhanded⟩ := encode_long
  have hpos : 0 < handedOver buffer8191 0 0 (blockBytes block).length := by omega
  have hfinished := finished_text
  have hclosed := runsTo_closedText
  generalize textBlocks ++ indexTail = file at hfinished hclosed
  obtain ⟨object, failed, s, hopen, hflag, hs, hholds, hcount, hinsert, hflag', hclose⟩ :=
    hfinished.reopen_full { rangeChecks := true } (fun _ _ => 0) buffer8191
      (2 : BitVec (8 * 1)) hencode hpos
  have hhanded' : 0 < handedOver s.holds s.count 0 (blockBytes block).length := by
    rwa [hholds, hcount]
  have hinsertable : Kept Libraries.stored ⟨file, true, some object⟩
      (.insert (some 0) defaultHost (2 : BitVec (8 * 1)) long) :=
    kept_insert rfl hs (.nothing hencode hflag hhanded')
  have hclosable : Kept Libraries.stored ⟨file, true, some (failed.withRoom none)⟩
      (.close (some 0) defaultHost defaultHost) := by
    refine ⟨⟨_, rfl⟩, fun object' s' hobject hs' => ?_⟩
    cases hobject
    exact .unchanged hflag' (Or.inr rfl)
  have hopened := hclosed.step ⟨inSession_reopen file _ _ _, trivial⟩ hopen
  have hinserted := hopened.step hinsertable (step_insert_of_throws rfl hinsert)
  have hended := hinserted.step hclosable hclose
  exact ⟨_, _, hended, rfl, (failed_inserts keepsMarkerSize_stored hended).2 rfl rfl⟩

end Program

end BambooShoot.Pbsf
