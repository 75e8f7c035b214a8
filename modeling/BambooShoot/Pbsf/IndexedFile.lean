import BambooShoot.Pbsf.SequentialFile
import BambooShoot.Pbss.Relational

/-!
# Indexed files

Model of `indexed-file.hh`: a file whose blocks are found by key. Behind its
blocks a writer leaves an index, a map from keys to positions, and behind that
a marker of known size with the position of the index.

Results:
* `rememberedAppend_outcome`, `rememberedAppend_eq`: what an append does to a
  stream, also to one that has failed and on a device that fills up;
* `readCurrentIndex_eq`: the index a marker at the end points to is read;
* `openIndexedOutputFile_ok`, `openIndexedOutputFile_new`: what opening a file
  leaves behind;
* `insert_outcome`, `destroy_outcome`: what an insert and a destructor come to.
-/

namespace BambooShoot.Pbsf

open BambooShoot.Lib BambooShoot.Pbss
open Source

/-! ## Index and marker -/

/-- `int64_t`. -/
abbrev Int64T := BitVec (8 * 8)

theorem sizeof_int16_pos : 0 < 2 := by decide

theorem sizeof_int64_pos : 0 < 8 := by decide

/-- The `Realm` and the `Key` of an indexed file. `Key` is registered in the
    realm, and `lt` is `std::less<Key>`. -/
structure KeyedRealm (ι : Type) extends Realm ι where
  key : ι
  lt : type key → type key → Bool
  strictWeak : StrictWeak lt

/-- `Key`. -/
abbrev KeyedRealm.Key {ι : Type} (r : KeyedRealm ι) : Type := r.type r.key

section Index

variable {ι : Type} (r : KeyedRealm ι)

/-- `std::map<Key, int64_t>`. -/
abbrev PositionMap : Type := OrdSet (byKey r.lt : r.Key × Int64T → r.Key × Int64T → Bool)

/-- `blocks_index<Key>` (lines 57–65). -/
structure BlocksIndex where
  map : PositionMap r

/-- A `std::pair<const Key, int64_t>` to serialize. -/
def PositionMap.entryTy : Ty (r.Key × Int64T) :=
  .stdTuple ⟨fun p => (p.1, p.2, ()), fun t => (t.1, t.2.1), fun _ => rfl, fun _ => rfl⟩
    (.cons (r.ty r.key) (.cons (.arith (.bits 8 sizeof_int64_pos)) .nil))

/-- `blocks_index<Key>` as a type to serialize. -/
def BlocksIndex.ty : Ty (BlocksIndex r) :=
  .tupleStruct ⟨fun index => (index.map, ()), fun t => ⟨t.1⟩, fun _ => rfl, fun _ => rfl⟩
    (.cons (.ordered (byKey r.lt) r.strictWeak.byKey (PositionMap.entryTy r)) .nil)

/-- `blocks_index<Key>()`. -/
def BlocksIndex.empty : BlocksIndex r := ⟨⟨[], List.Pairwise.nil, Nat.two_pow_pos 64⟩⟩

/-- `index_position_marker` (lines 67–76). -/
structure IndexPositionMarker where
  pos : Int64T
  keyid : Int16T

/-- `index_position_marker` as a type to serialize. -/
def IndexPositionMarker.ty : Ty IndexPositionMarker :=
  .tupleStruct ⟨fun marker => (marker.pos, marker.keyid, ()), fun t => ⟨t.1, t.2.1⟩,
      fun _ => rfl, fun _ => rfl⟩
    (.cons (.arith (.bits 8 sizeof_int64_pos)) (.cons (.arith (.bits 2 sizeof_int16_pos)) .nil))

/-- The types of `index_meta_realm<Key>`. -/
inductive MetaType where
  | indexPositionMarker
  | blocksIndex
  deriving DecidableEq

/-- `index_meta_realm<Key>` (lines 78–82). -/
def indexMetaRealm : AbstractRealm MetaType where
  type
    | .indexPositionMarker => IndexPositionMarker
    | .blocksIndex => BlocksIndex r
  ty
    | .indexPositionMarker => IndexPositionMarker.ty
    | .blocksIndex => BlocksIndex.ty r
  lookupId
    | .indexPositionMarker => -10
    | .blocksIndex => -11
  lookupId_injective := by
    rintro (_ | _) (_ | _) h
    · rfl
    · exact absurd h (by decide)
    · exact absurd h (by decide)
    · rfl

end Index

/-! ## Blocks by type -/

/-- `encoded_block_accessor<Realm>` (lines 84–104). -/
structure EncodedBlockAccessor {ι : Type} (r : AbstractRealm ι) where
  block : EncodedBlock

namespace EncodedBlockAccessor

variable {ι : Type} {r : AbstractRealm ι}

/-- `is<T>()`. -/
def is (accessor : EncodedBlockAccessor r) (i : ι) : Bool :=
  r.lookupId i == accessor.block.contentType

/-- `as<T>()`, which moves the block out. -/
def as (build : Build) (lib : Libraries) (fresh : Memory) (i : ι) :
    Run (EncodedBlockAccessor r) (r.type i) := do
  if !(← get).is i then raise .typeMismatchError
  else zoom block (fun block _ => ⟨block⟩) (parseFromBlock build lib fresh (r.ty i))

theorem is_iff (accessor : EncodedBlockAccessor r) (i : ι) :
    accessor.is i = true ↔ r.lookupId i = accessor.block.contentType := beq_iff_eq

/-- A block of the right type gives its value. -/
theorem outcome_as {accessor : EncodedBlockAccessor r} {lib : Libraries} {i : ι} {value : r.type i}
    (build : Build) (fresh : Memory) (hid : accessor.block.contentType = r.lookupId i)
    (h : Holds lib (r.ty i) accessor.block value) :
    outcome (as build lib fresh i accessor) = .ok value := by
  have his : accessor.is i = true := (is_iff accessor i).mpr hid.symm
  have hread := h build fresh
  unfold as
  rw [get_bind, his, Bool.not_true, if_neg Bool.false_ne_true]
  unfold readBlock at hread
  cases hparse : parseFromBlock build lib fresh (r.ty i) accessor.block with
  | ok v block =>
    rw [hparse] at hread
    rw [zoom_of_ok hparse]
    exact hread
  | error stop block =>
    rw [hparse] at hread
    cases hread

/-- A block of another type gives none. -/
theorem as_of_ne {accessor : EncodedBlockAccessor r} {i : ι} (build : Build) (lib : Libraries)
    (fresh : Memory) (h : accessor.block.contentType ≠ r.lookupId i) :
    as build lib fresh i accessor = .error (.throws .typeMismatchError) accessor := by
  have his : accessor.is i = false :=
    eq_false_of_ne_true fun his => h ((is_iff accessor i).mp his).symm
  unfold as
  rw [get_bind, his]
  rfl

end EncodedBlockAccessor

/-! ## Appending -/

section Append

/-- `remembered_append` (lines 112–119), with the block that `write_block` makes
    of its value. -/
def rememberedAppend {Stream : Type} [OutputStream Stream] [SeekableStream Stream]
    (encoded : Except Stop EncodedBlock) : Run Stream ℤ := do
  SeekableStream.seekpEnd
  let pos ← SeekableStream.tell
  writeBlock encoded
  return pos

/-- What an append to a stream that reports failures can come to. -/
inductive AppendOutcome (s : StdStream) :
    Except Stop EncodedBlock → EStateM.Result Stop StdStream ℤ → Prop
  | written {block : EncodedBlock} (hgood : s.good = true)
      (hroom : s.HasRoom (blockBytes block).length) :
      AppendOutcome s (.ok block)
        (.ok s.bytes.length ((StdStream.toEnd s).appended (blockBytes block)))
  | notEncoded {stop : Stop} : AppendOutcome s (.error stop) (.error stop (StdStream.toEnd s))
  | full {block : EncodedBlock} {room : ℕ} (hgood : s.good = true) (hroom : s.room = some room)
      (hlt : room < (blockBytes block).length) :
      AppendOutcome s (.ok block) (.error (.throws .iosFailure)
        { (StdStream.toEnd s).appended ((blockBytes block).take room) with badbit := true })
  | failed {block : EncodedBlock} (hgood : s.good = false) :
      AppendOutcome s (.ok block)
        (.error (.throws .iosFailure) { StdStream.toEnd s with failbit := true })

variable {s : StdStream}

/-- The first write of a block to a stream that has failed throws. -/
theorem writeBlock_of_not_good (h : s.good = false) (he : s.exceptions = true)
    (block : EncodedBlock) :
    writeBlock (.ok block) s = .error (.throws .iosFailure) { s with failbit := true } := by
  have hfirst : ∃ rest : Unit → Run StdStream Unit,
      writeBlock (.ok block) s = (StdStream.write (wordBytes block.contentType) >>= rest) s :=
    ⟨_, rfl⟩
  obtain ⟨rest, hrest⟩ := hfirst
  rw [hrest, bind_of_error (StdStream.write_of_not_good h he _)]

theorem writeBlock_eq (h : StdStream.Writable s) (block : EncodedBlock) :
    writeBlock (.ok block) s = StdStream.write (blockBytes block) s :=
  emits_writeBlock block s h

theorem rememberedAppend_outcome (he : s.exceptions = true) (encoded : Except Stop EncodedBlock) :
    AppendOutcome s encoded (rememberedAppend encoded s) := by
  unfold rememberedAppend
  rw [seekable_seekpEnd, seekable_tell, bind_of_ok (StdStream.seekpEnd_run s)]
  obtain ⟨pos, htell, hpos⟩ : ∃ pos : ℤ, StdStream.tell (StdStream.toEnd s) =
      .ok pos (StdStream.toEnd s) ∧ (s.good = true → pos = s.bytes.length) := by
    refine ⟨_, rfl, fun hgood => ?_⟩
    have htell := StdStream.tell_toEnd hgood
    injection htell
  rw [bind_of_ok htell]
  cases encoded with
  | error stop =>
    have hwrite : (writeBlock (.error stop) : Run StdStream Unit) (StdStream.toEnd s) =
      .error stop (StdStream.toEnd s) := rfl
    rw [bind_of_error hwrite]
    exact .notEncoded
  | ok block =>
    cases hgood : s.good with
    | false =>
      rw [bind_of_error (writeBlock_of_not_good ((StdStream.toEnd_good s).trans hgood)
        ((StdStream.toEnd_exceptions s).trans he) block)]
      exact .failed hgood
    | true =>
      have hend := StdStream.toEnd_writable hgood he
      by_cases hfit : s.HasRoom (blockBytes block).length
      · have hroom : (StdStream.toEnd s).HasRoom (blockBytes block).length := by
          intro r hr
          exact hfit r ((StdStream.toEnd_room s).symm.trans hr)
        have hwrite := (writeBlock_eq hend block).trans (StdStream.write_ok hend hroom)
        rw [bind_of_ok hwrite, hpos hgood]
        exact .written hgood hfit
      · obtain ⟨room, hroom, hlt⟩ := StdStream.exists_room_lt hfit
        have hwrite := (writeBlock_eq hend block).trans
          (StdStream.write_fail hend ((StdStream.toEnd_room s).trans hroom) hlt)
        rw [bind_of_error hwrite]
        exact .full hgood hroom hlt

/-- However an append ends, it leaves a part of the block behind the file. -/
theorem AppendOutcome.bytes {encoded : Except Stop EncodedBlock}
    {result : EStateM.Result Stop StdStream ℤ} (h : AppendOutcome s encoded result) :
    ∃ part, (finalState result).bytes = s.bytes ++ part ∧
      (finalState result).exceptions = s.exceptions ∧
      (part = [] ∨ ∃ block, encoded = .ok block ∧ part <+: blockBytes block) := by
  cases h with
  | @written block hgood hroom =>
    refine ⟨blockBytes block, ?_, StdStream.toEnd_exceptions s, Or.inr ⟨block, rfl, List.prefix_rfl⟩⟩
    show (StdStream.toEnd s).bytes ++ blockBytes block = _
    rw [StdStream.toEnd_bytes]
  | notEncoded =>
    refine ⟨[], ?_, StdStream.toEnd_exceptions s, Or.inl rfl⟩
    show (StdStream.toEnd s).bytes = _
    rw [StdStream.toEnd_bytes, List.append_nil]
  | @full block room hgood hroom hlt =>
    refine ⟨(blockBytes block).take room, ?_, StdStream.toEnd_exceptions s,
      Or.inr ⟨block, rfl, List.take_prefix _ _⟩⟩
    show (StdStream.toEnd s).bytes ++ (blockBytes block).take room = _
    rw [StdStream.toEnd_bytes]
  | failed hgood =>
    refine ⟨[], ?_, StdStream.toEnd_exceptions s, Or.inl rfl⟩
    show (StdStream.toEnd s).bytes = _
    rw [StdStream.toEnd_bytes, List.append_nil]

/-- An append that returns has appended the whole block, to a stream that still works. -/
theorem rememberedAppend_ok {encoded : Except Stop EncodedBlock} {pos : ℤ} {s' : StdStream}
    (he : s.exceptions = true) (h : rememberedAppend encoded s = .ok pos s') :
    ∃ block, encoded = .ok block ∧ s.good = true ∧ s.HasRoom (blockBytes block).length ∧
      pos = s.bytes.length ∧ s' = (StdStream.toEnd s).appended (blockBytes block) := by
  have houtcome := rememberedAppend_outcome he encoded
  rw [h] at houtcome
  cases houtcome with
  | @written block hgood hroom => exact ⟨block, rfl, hgood, hroom, rfl, rfl⟩

theorem rememberedAppend_eq {block : EncodedBlock} (hgood : s.good = true)
    (he : s.exceptions = true) (hroom : s.HasRoom (blockBytes block).length) :
    rememberedAppend (.ok block) s =
      .ok s.bytes.length ((StdStream.toEnd s).appended (blockBytes block)) := by
  have houtcome := rememberedAppend_outcome he (.ok block)
  generalize rememberedAppend (.ok block) s = result at houtcome ⊢
  cases houtcome with
  | written => rfl
  | full _ hfull hlt => exact absurd (hroom _ hfull) (by omega)
  | failed hfailed => rw [hgood] at hfailed; cases hfailed

end Append

/-! ## File objects -/

section File

variable {ι : Type} {r : KeyedRealm ι}

/-- `blocks_index<Key>::map[key] = pos`. -/
def BlocksIndex.assign (index : BlocksIndex r) (key : r.Key) (pos : ℤ) :
    Except Stop (BlocksIndex r) :=
  if h : (Lib.assign r.lt key (BitVec.ofInt _ pos) index.map.elems).length < 2 ^ 64 then
    .ok ⟨⟨_, assign_ascending r.strictWeak key _ index.map.ascending, h⟩⟩
  else .error (.throws .lengthError)

/-- `indexed_file_state<Key, Stream>` (lines 123–127), the virtual base of reader
    and writer. -/
structure IndexedFileState {ι : Type} (r : KeyedRealm ι) (Stream : Type := StdStream) where
  /-- `stream_ptr`, with the stream it owns. -/
  streamPtr : Option Stream
  index : BlocksIndex r

/-- `indexed_file<Key, Stream, Realm, true>` (lines 386–396), with the flag of
    `indexed_ofile`. -/
structure IndexedFile {ι : Type} (r : KeyedRealm ι) (Stream : Type := StdStream) extends
    IndexedFileState r Stream where
  /-- "Needed if file is new, or changed." -/
  needWriteIndex : Bool

/-- The bytes of the file behind `stream_ptr`. -/
def IndexedFileState.bytes (state : IndexedFileState r) : List Byte :=
  match state.streamPtr with
  | none => []
  | some s => s.bytes

variable {Stream : Type}

/-- A call on `*stream_ptr`. -/
def IndexedFileState.onStream {α : Type} (p : Run Stream α) : Run (IndexedFileState r Stream) α :=
  fun state =>
    match state.streamPtr with
    | none => .error .undefinedBehaviour state
    | some stream =>
      zoom (fun _ => stream) (fun stream state => { state with streamPtr := some stream }) p state

/-- The same on a file object. -/
def IndexedFile.onStream {α : Type} (p : Run Stream α) : Run (IndexedFile r Stream) α :=
  zoom IndexedFile.toIndexedFileState (fun state file => { file with toIndexedFileState := state })
    (IndexedFileState.onStream p)

section Write

variable [OutputStream Stream] [SeekableStream Stream] (lib : Libraries)

/-- The block that `write_block` makes of a value of `index_meta_realm<Key>`. -/
def encodeMeta (host : Host) (t : MetaType) (value : (indexMetaRealm r).type t) :
    Except Stop EncodedBlock :=
  encodeValue lib host ((indexMetaRealm r).lookupId t) ((indexMetaRealm r).ty t) value

/-- `indexed_ofile::insert` (lines 149–155). -/
def IndexedFile.insert (host : Host) (key : r.Key) (value : r.Value) :
    Run (IndexedFile r Stream) Unit := do
  let pos ← IndexedFile.onStream (rememberedAppend (r.encode lib host value))
  let index ← ofExcept ((← get).index.assign key pos)
  modify fun file => { file with index := index, needWriteIndex := true }

/-- `~indexed_ofile` (lines 139–147); its two calls of `write_block` find the
    programs `host` and `host'`. -/
def IndexedFile.destroy (host host' : Host) : Run (IndexedFile r Stream) Unit := do
  if (← get).needWriteIndex then
    let pos ← IndexedFile.onStream
      (rememberedAppend (encodeMeta (r := r) lib host .blocksIndex (← get).index))
    IndexedFile.onStream (writeBlock (encodeMeta (r := r) lib host' .indexPositionMarker
      ⟨BitVec.ofInt _ pos, r.lookupId r.key⟩))
  else pure ()

end Write

section Read

variable [InputStream Stream] [ForwardInputStream Stream] [SeekableStream Stream] (build : Build)
  (lib : Libraries)

/-- `size()`. -/
def IndexedFileState.size (state : IndexedFileState r) : SizeT := state.index.map.size

/-- `indices()`: the keys in the order of an iteration. -/
def IndexedFileState.indices (state : IndexedFileState r) : List r.Key :=
  state.index.map.elems.map Prod.fst

/-- `find(key)`, `none` for `end()`. -/
def IndexedFileState.find (state : IndexedFileState r Stream) (key : r.Key) :
    Option (r.Key × Int64T) :=
  state.index.map.elems.find? fun entry => Incomp r.lt entry.1 key

/-- `delayed_read_t` (lines 178–187). -/
def delayedRead (pos : Int64T) : Run Stream EncodedBlock := do
  SeekableStream.seekg pos.toInt
  parse build EncodedBlock.ty

/-- `operator[]` (lines 325–332), and the evaluation of the `lazy_value` it returns. -/
def IndexedFileState.subscript (key : r.Key) : Run (IndexedFileState r Stream) EncodedBlock := do
  match (← get).find key with
  | none => raise .keyMissingError
  | some entry => IndexedFileState.onStream (delayedRead build entry.2)

/-- `as<T>()` of a temporary. -/
def valueAs {κ : Type} (realm : AbstractRealm κ) (fresh : Memory) (i : κ) (block : EncodedBlock) :
    Except Stop (realm.type i) :=
  outcome (EncodedBlockAccessor.as build lib fresh i (⟨block⟩ : EncodedBlockAccessor realm))

/-- `marker_size` (lines 351–352). -/
def markerSize : SizeT := (fixedSize IndexPositionMarker.ty).getD 0

/-- `marker_full_size` (lines 353–358). -/
def markerFullSize : SizeT := 2 + 2 + 4 + varUintStaticSize markerSize + markerSize

variable (r) (heap : ℕ → Memory)

/-- `read_current_index` (lines 348–371). -/
def readCurrentIndex : Run Stream (BlocksIndex r) := do
  SeekableStream.seekgEnd (-(markerFullSize.toNat : ℤ))
  let block ← parse build EncodedBlock.ty
  let marker : IndexPositionMarker ←
    ofExcept (valueAs build lib (indexMetaRealm r) (heap 0) .indexPositionMarker block)
  if marker.keyid ≠ r.lookupId r.key then raise .keyMismatchError
  else
    SeekableStream.seekg marker.pos.toInt
    let block ← parse build EncodedBlock.ty
    ofExcept (valueAs build lib (indexMetaRealm r) (heap 1) .blocksIndex block)

/-- `open_indexed_output_file` (lines 402–423), on the stream it opens; it
    returns the index and `is_new`. -/
def openIndexedOutputFile [OutputStream Stream] : Run Stream (BlocksIndex r × Bool) := do
  SeekableStream.setExceptions
  if (← SeekableStream.tell) = 0 then
    writeHeader r.toRealm
    return (BlocksIndex.empty r, true)
  else
    SeekableStream.seekg 0
    if ← checkFile r.toRealm build then return (← readCurrentIndex r build lib heap, false)
    else raise .unknownRealmError

/-- `open_indexed_input_file` (lines 425–435), on the stream it opens. -/
def openIndexedInputFile : Run StdStream (BlocksIndex r) := do
  setExceptions
  if ← checkFile r.toRealm build then readCurrentIndex r build lib heap
  else raise .unknownRealmError

end Read

end File

/-! ## Calls on the stream -/

section OnStream

variable {ι : Type} {r : KeyedRealm ι} {Stream α : Type} {p : Run Stream α} {s s' : Stream} {a : α}
  {stop : Stop}

theorem stateOnStream_of_ok {state : IndexedFileState r Stream} (hs : state.streamPtr = some s)
    (h : p s = .ok a s') :
    IndexedFileState.onStream p state = .ok a { state with streamPtr := some s' } := by
  unfold IndexedFileState.onStream
  rw [hs]
  exact zoom_of_ok h

theorem stateOnStream_of_error {state : IndexedFileState r Stream} (hs : state.streamPtr = some s)
    (h : p s = .error stop s') :
    IndexedFileState.onStream p state = .error stop { state with streamPtr := some s' } := by
  unfold IndexedFileState.onStream
  rw [hs]
  exact zoom_of_error h

variable {file : IndexedFile r Stream}

theorem fileOnStream_of_ok (hs : file.streamPtr = some s) (h : p s = .ok a s') :
    IndexedFile.onStream p file = .ok a { file with streamPtr := some s' } :=
  zoom_of_ok (stateOnStream_of_ok hs h)

theorem fileOnStream_of_error (hs : file.streamPtr = some s) (h : p s = .error stop s') :
    IndexedFile.onStream p file = .error stop { file with streamPtr := some s' } :=
  zoom_of_error (stateOnStream_of_error hs h)

/-- A null pointer is dereferenced. -/
theorem fileOnStream_null (hs : file.streamPtr = none) :
    IndexedFile.onStream p file = .error .undefinedBehaviour file := by
  refine zoom_of_error ?_
  unfold IndexedFileState.onStream
  rw [hs]

end OnStream

/-! ## Reading -/

/-- A stream in working order on a file, at some position; it reports failures. -/
def Working (file : List Byte) (s : StdStream) : Prop :=
  ∃ pos, s = { bytes := file, pos := pos, exceptions := true }

/-- The block is in the file, at a position. -/
def BlockAt (file : List Byte) (pos : Int64T) (block : EncodedBlock) : Prop :=
  ∃ before after, file = before ++ (blockBytes block ++ after) ∧ pos.toInt = before.length

theorem BlockAt.append {file : List Byte} {pos : Int64T} {block : EncodedBlock}
    (h : BlockAt file pos block) (more : List Byte) : BlockAt (file ++ more) pos block := by
  obtain ⟨before, after, rfl, hpos⟩ := h
  exact ⟨before, after ++ more, by simp only [List.append_assoc], hpos⟩

theorem toInt_ofInt_of_lt {n : ℕ} (h : n < 2 ^ 63) : (BitVec.ofInt (8 * 8) n).toInt = n := by
  rw [BitVec.toInt_ofInt]
  exact Int.bmod_eq_of_le (by omega) (by omega)

/-- An appended block is where the file ended. -/
theorem blockAt_append {file : List Byte} (block : EncodedBlock) (h : file.length < 2 ^ 63) :
    BlockAt (file ++ blockBytes block) (BitVec.ofInt _ file.length) block :=
  ⟨file, [], by rw [List.append_nil], toInt_ofInt_of_lt h⟩

section Read

variable {file : List Byte} {s : StdStream}

theorem Working.good (h : Working file s) : s.good = true := by
  obtain ⟨pos, rfl⟩ := h
  rfl

theorem Working.exceptions (h : Working file s) : s.exceptions = true := by
  obtain ⟨pos, rfl⟩ := h
  rfl

theorem Working.hasRoom (h : Working file s) (n : ℕ) : s.HasRoom n := by
  obtain ⟨pos, rfl⟩ := h
  intro room hroom
  cases hroom

theorem Working.bytes_eq (h : Working file s) : s.bytes = file := by
  obtain ⟨pos, rfl⟩ := h
  rfl

theorem working_between (before rest : List Byte) :
    Working (before ++ rest) (StdStream.between before rest true) := ⟨before.length, rfl⟩

theorem working_endOf (file : List Byte) : Working file (StdStream.endOf file true) :=
  ⟨file.length, rfl⟩

theorem Working.seekg {before rest : List Byte} (h : Working (before ++ rest) s) :
    StdStream.seekg before.length s = .ok () (StdStream.between before rest true) := by
  obtain ⟨pos, rfl⟩ := h
  exact StdStream.seekg_between rfl rfl before rfl

variable (build : Build)

/-- A block is read where it is. -/
theorem delayedRead_eq {pos : Int64T} {block : EncodedBlock} (hs : Working file s)
    (h : BlockAt file pos block) :
    ∃ s', delayedRead build pos s = .ok block s' ∧ Working file s' := by
  obtain ⟨before, after, rfl, hpos⟩ := h
  have hparse := StdStream.consumes_between (consumes_encodedBlock build block) before after true
  refine ⟨_, ?_, (List.append_assoc _ _ _) ▸ working_between (before ++ blockBytes block) after⟩
  unfold delayedRead
  rw [seekable_seekg, hpos, bind_of_ok hs.seekg, hparse]

end Read

section Index

variable {ι : Type} {r : KeyedRealm ι} (lib : Libraries)

/-- The file ends with a marker that points to a block of the index. -/
structure EndsWithIndex (file : List Byte) (index : BlocksIndex r) : Prop where
  marked : ∃ before markerBlock indexBlock, ∃ marker : IndexPositionMarker,
    file = before ++ blockBytes markerBlock ∧ (blockBytes markerBlock).length = 19 ∧
    markerBlock.contentType = -10 ∧ Holds lib IndexPositionMarker.ty markerBlock marker ∧
    marker.keyid = r.lookupId r.key ∧ BlockAt file marker.pos indexBlock ∧
    indexBlock.contentType = -11 ∧ Holds lib (BlocksIndex.ty r) indexBlock index

variable {lib} {file : List Byte} {index : BlocksIndex r} {s : StdStream}

theorem markerFullSize_eq : markerFullSize.toNat = 19 := by decide

theorem valueAs_eq {κ : Type} {realm : AbstractRealm κ} {i : κ} {block : EncodedBlock}
    {value : realm.type i} (build : Build) (fresh : Memory)
    (hid : block.contentType = realm.lookupId i) (h : Holds lib (realm.ty i) block value) :
    valueAs build lib realm fresh i block = .ok value :=
  EncodedBlockAccessor.outcome_as build fresh hid h

/-- The index that the marker at the end points to is read. -/
theorem readCurrentIndex_eq (build : Build) (heap : ℕ → Memory) (hs : Working file s)
    (h : EndsWithIndex lib file index) :
    ∃ s', readCurrentIndex r build lib heap s = .ok index s' ∧ Working file s' := by
  obtain ⟨before, markerBlock, indexBlock, marker, hfile, hlen, hmarkerId, hmarker, hkey, hat,
    hindexId, hindex⟩ := h.marked
  have hseek : StdStream.seekgEnd (-(markerFullSize.toNat : ℤ)) s =
      .ok () (StdStream.between before (blockBytes markerBlock) true) := by
    have hpos : (s.bytes.length : ℤ) + -(markerFullSize.toNat : ℤ) = before.length := by
      rw [hs.bytes_eq, hfile, markerFullSize_eq, List.length_append, hlen]
      omega
    have hworking := hs
    rw [hfile] at hworking
    unfold StdStream.seekgEnd
    rw [hpos, hworking.seekg]
  have hparse : parse build EncodedBlock.ty (StdStream.between before (blockBytes markerBlock) true) =
      .ok markerBlock (StdStream.between (before ++ blockBytes markerBlock) [] true) := by
    have hconsumes :=
      StdStream.consumes_between (consumes_encodedBlock build markerBlock) before [] true
    rwa [List.append_nil] at hconsumes
  have hafter : Working file (StdStream.between (before ++ blockBytes markerBlock) [] true) := by
    have hworking := working_between (before ++ blockBytes markerBlock) []
    rw [List.append_nil] at hworking
    rwa [hfile]
  obtain ⟨s', hread, hs'⟩ := delayedRead_eq build hafter hat
  refine ⟨s', ?_, hs'⟩
  have hmarkerValue : valueAs build lib (indexMetaRealm r) (heap 0) .indexPositionMarker
      markerBlock = .ok marker := valueAs_eq build (heap 0) hmarkerId hmarker
  have hindexValue : valueAs build lib (indexMetaRealm r) (heap 1) .blocksIndex indexBlock =
      .ok index := valueAs_eq build (heap 1) hindexId hindex
  unfold delayedRead at hread
  obtain ⟨u, t, hseekIndex, hparseIndex⟩ := bind_eq_ok hread
  unfold readCurrentIndex
  rw [seekable_seekgEnd, bind_of_ok hseek, bind_of_ok hparse, hmarkerValue]
  show (if marker.keyid ≠ r.lookupId r.key then _ else _ : Run StdStream (BlocksIndex r)) _ = _
  rw [if_neg (not_not.mpr hkey), bind_of_ok hseekIndex, bind_of_ok hparseIndex, hindexValue]
  rfl

/-- Where the index is, it does not matter that the header has just been read. -/
theorem readCurrentIndex_behindHeader (build : Build) (heap : ℕ → Memory) (body : List Byte)
    (hfile : file = headerBytes r.toRealm ++ body) (h : EndsWithIndex lib file index) :
    ∃ s', readCurrentIndex r build lib heap
        (StdStream.between (headerBytes r.toRealm) body true) = .ok index s' ∧ Working file s' := by
  have hworking := working_between (headerBytes r.toRealm) body
  rw [← hfile] at hworking
  exact readCurrentIndex_eq build heap hworking h

/-- A file of the realm that ends with an index is opened for reading. -/
theorem openIndexedInputFile_eq (build : Build) (heap : ℕ → Memory) (body : List Byte)
    (hfile : file = headerBytes r.toRealm ++ body) (h : EndsWithIndex lib file index) :
    ∃ s', openIndexedInputFile r build lib heap (inputFile file) = .ok index s' ∧
      Working file s' := by
  have hopen := setExceptions_inputFile hfile
  obtain ⟨s', hread, hs'⟩ := readCurrentIndex_behindHeader build heap body hfile h
  refine ⟨s', ?_, hs'⟩
  unfold openIndexedInputFile
  rw [bind_of_ok hopen, bind_of_ok (checkFile_between r.toRealm build body true), if_pos rfl, hread]

/-- What is read of a file that is opened for writing and not truncated. -/
theorem readIndex_old (build : Build) (heap : ℕ → Memory) (body : List Byte)
    (hfile : file = headerBytes r.toRealm ++ body) (h : EndsWithIndex lib file index) :
    ∃ s', (StdStream.seekg 0 >>= fun _ => checkFile r.toRealm build >>= fun ok =>
        if ok = true then readCurrentIndex r build lib heap >>= fun index => pure (index, false)
        else raise .unknownRealmError) (StdStream.endOf file true) = .ok (index, false) s' ∧
      Working file s' := by
  have hseek : StdStream.seekg 0 (StdStream.endOf file true) =
      .ok () (StdStream.between [] (headerBytes r.toRealm ++ body) true) :=
    StdStream.seekg_between rfl rfl [] hfile
  obtain ⟨s', hread, hs'⟩ := readCurrentIndex_behindHeader build heap body hfile h
  refine ⟨s', ?_, hs'⟩
  rw [bind_of_ok hseek, bind_of_ok (checkFile_between r.toRealm build body true), if_pos rfl,
    bind_of_ok hread]
  rfl

/-- So it is for writing, if it is not to be truncated. -/
theorem openIndexedOutputFile_old (build : Build) (heap : ℕ → Memory) (body : List Byte)
    (hfile : file = headerBytes r.toRealm ++ body) (h : EndsWithIndex lib file index) :
    ∃ s', openIndexedOutputFile r build lib heap (outputFile file false) = .ok (index, false) s' ∧
      Working file s' := by
  have hlen : (file.length : ℤ) ≠ 0 := by
    rw [hfile, List.length_append, length_headerBytes]
    omega
  have hopen : setExceptions (outputFile file false) = .ok () (StdStream.endOf file true) := rfl
  have htell : StdStream.tell (StdStream.endOf file true) =
      .ok (file.length : ℤ) (StdStream.endOf file true) := rfl
  obtain ⟨s', hread, hs'⟩ := readIndex_old build heap body hfile h
  refine ⟨s', ?_, hs'⟩
  unfold openIndexedOutputFile
  rw [seekable_setExceptions, seekable_tell, seekable_seekg, bind_of_ok hopen, bind_of_ok htell,
    if_neg hlen, hread]

/-- A file that is new or truncated gets a header, and has no entries. -/
theorem openIndexedOutputFile_new (build : Build) (lib : Libraries) (heap : ℕ → Memory)
    {overwrite : Bool} (h : overwrite = true ∨ file = []) :
    openIndexedOutputFile r build lib heap (outputFile file overwrite) =
      .ok (BlocksIndex.empty r, true) (StdStream.endOf (headerBytes r.toRealm) true) := by
  have hopen : setExceptions (StdStream.endOf [] false) = .ok () (StdStream.endOf [] true) := rfl
  have htell : StdStream.tell (StdStream.endOf [] true) = .ok 0 (StdStream.endOf [] true) := rfl
  have hheader := writeHeader_endOf r.toRealm [] true
  rw [List.nil_append] at hheader
  unfold openIndexedOutputFile
  rw [outputFile_new h, seekable_setExceptions, seekable_tell, bind_of_ok hopen, bind_of_ok htell,
    if_pos rfl, bind_of_ok hheader]
  rfl

end Index

/-! ## Reading leaves the file alone -/

/-- A stream on the same file, with the same exceptions and the same damage. -/
structure SameFile (s t : StdStream) : Prop where
  bytes : t.bytes = s.bytes
  exceptions : t.exceptions = s.exceptions
  badbit : t.badbit = s.badbit

/-- The program changes neither the file nor what the stream reports. -/
def KeepsFile {α : Type} (p : Run StdStream α) : Prop := ∀ s, SameFile s (finalState (p s))

theorem SameFile.refl (s : StdStream) : SameFile s s := ⟨rfl, rfl, rfl⟩

theorem SameFile.trans {s t u : StdStream} (h : SameFile s t) (h' : SameFile t u) : SameFile s u :=
  ⟨h'.bytes.trans h.bytes, h'.exceptions.trans h.exceptions, h'.badbit.trans h.badbit⟩

theorem SameFile.raiseIfFailed {α : Type} (a : α) {s t : StdStream} (h : SameFile s t) :
    SameFile s (finalState (StdStream.raiseIfFailed a t)) := by
  unfold StdStream.raiseIfFailed
  split_ifs
  · exact h
  · exact h

namespace KeepsFile

variable {α β : Type}

theorem pure (a : α) : KeepsFile (Pure.pure a : Run StdStream α) := SameFile.refl

theorem throw (stop : Stop) : KeepsFile (MonadExcept.throw stop : Run StdStream α) :=
  SameFile.refl

theorem lift (x : Except Stop α) : KeepsFile (ofExcept x : Run StdStream α) := by
  cases x with
  | ok a => exact pure a
  | error stop => exact throw stop

theorem bind {p : Run StdStream α} {f : α → Run StdStream β} (hp : KeepsFile p)
    (hf : ∀ a, KeepsFile (f a)) : KeepsFile (p >>= f) := by
  intro s
  have hs := hp s
  cases h : p s with
  | ok a s' =>
    rw [h] at hs
    have hs' := hf a s'
    rw [bind_of_ok h]
    exact hs.trans hs'
  | error stop s' =>
    rw [h] at hs
    rw [bind_of_error h]
    exact hs

theorem get : KeepsFile StdStream.get := by
  intro s
  unfold StdStream.get
  split_ifs
  · split
    · exact ⟨rfl, rfl, rfl⟩
    · exact SameFile.raiseIfFailed none ⟨rfl, rfl, rfl⟩
  · exact SameFile.raiseIfFailed none ⟨rfl, rfl, rfl⟩

theorem read (count : ℤ) : KeepsFile (StdStream.read count) := by
  intro s
  unfold StdStream.read
  dsimp only
  split_ifs
  · exact ⟨rfl, rfl, rfl⟩
  · exact SameFile.raiseIfFailed _ ⟨rfl, rfl, rfl⟩
  · exact SameFile.raiseIfFailed _ ⟨rfl, rfl, rfl⟩

theorem ignore (count : ℤ) : KeepsFile (StdStream.ignore count) := by
  intro s
  unfold StdStream.ignore
  dsimp only
  split_ifs
  · exact ⟨rfl, rfl, rfl⟩
  · exact ⟨rfl, rfl, rfl⟩
  · exact SameFile.raiseIfFailed _ ⟨rfl, rfl, rfl⟩

theorem seekg (pos : ℤ) : KeepsFile (StdStream.seekg pos) := by
  intro s
  unfold StdStream.seekg
  dsimp only
  split_ifs
  · exact ⟨rfl, rfl, rfl⟩
  · exact SameFile.raiseIfFailed _ ⟨rfl, rfl, rfl⟩
  · exact SameFile.raiseIfFailed _ ⟨rfl, rfl, rfl⟩

theorem seekgEnd (off : ℤ) : KeepsFile (StdStream.seekgEnd off) := fun s => seekg _ s

theorem eofOf : KeepsFile (Pbss.eofOf : Run StdStream Bool) := SameFile.refl

theorem toSigned (build : Build) (n : SizeT) : KeepsFile (Pbss.toSigned build n) := by
  unfold Pbss.toSigned
  split_ifs
  · exact throw _
  · exact pure _

/-- Reading is respected by `parse`. -/
theorem respects (build : Build) :
    Respects build build fun _ _ _ (p : Run StdStream _) (_ : Run StdStream _) => KeepsFile p where
  sameThreshold := rfl
  of_any h := h
  to_any h := h
  pure := pure
  bind := bind
  undefined := throw _
  lengthError := throw _
  outOfFuel := throw _
  byte := by
    unfold parseByte
    apply bind get
    intro c
    cases c with
    | none => exact throw _
    | some c => exact pure c
  read n := by
    unfold readOrThrow
    apply bind (read n)
    intro got
    apply bind eofOf
    intro eof
    split_ifs
    · exact throw _
    · exact pure got
  get := get
  ignore n := by
    unfold ignoreLength
    exact bind (toSigned build n) fun k => ignore k

theorem parse (build : Build) (s : Ty α) : KeepsFile (Pbss.parse build s : Run StdStream α) := by
  intro stream
  exact related_parse (respects build) _ s stream

end KeepsFile

/-! ## What opening leaves behind -/

section Open

variable {ι : Type} (r : KeyedRealm ι) (build : Build) (lib : Libraries) (heap : ℕ → Memory)

theorem keepsFile_checkFile : KeepsFile (checkFile r.toRealm build) := by
  unfold checkFile
  exact KeepsFile.bind (KeepsFile.parse build _) fun header => KeepsFile.pure _

theorem keepsFile_readCurrentIndex : KeepsFile (readCurrentIndex r build lib heap) := by
  unfold readCurrentIndex
  apply KeepsFile.bind (KeepsFile.seekgEnd _)
  intro u
  apply KeepsFile.bind (KeepsFile.parse build _)
  intro block
  apply KeepsFile.bind (KeepsFile.lift _)
  intro marker
  split_ifs
  · exact KeepsFile.throw _
  · apply KeepsFile.bind (KeepsFile.seekg _)
    intro u
    apply KeepsFile.bind (KeepsFile.parse build _)
    intro block
    exact KeepsFile.lift _

variable {r build lib heap} {s s' : StdStream} {index : BlocksIndex r} {isNew : Bool}

/-- An opening that returns has written a header into an empty file, or nothing. -/
theorem openIndexedOutputFile_ok (hgood : s.good = true) (hend : s.pos = s.bytes.length)
    (h : openIndexedOutputFile r build lib heap s = .ok (index, isNew) s') :
    s'.exceptions = true ∧
      (isNew = true ∧ s.bytes = [] ∧ index = BlocksIndex.empty r ∧
          s'.bytes = headerBytes r.toRealm ∨
        isNew = false ∧ s.bytes ≠ [] ∧ s'.bytes = s.bytes) := by
  have hset : setExceptions s = .ok () { s with exceptions := true } := by
    have hfail := StdStream.fail_of_good hgood
    unfold setExceptions StdStream.raiseIfFailed
    rw [show StdStream.fail { s with exceptions := true } = false from hfail]
    rfl
  have htell : StdStream.tell { s with exceptions := true } =
      .ok (s.bytes.length : ℤ) { s with exceptions := true } := by
    have hfail := StdStream.fail_of_good hgood
    unfold StdStream.tell
    rw [show StdStream.fail { s with exceptions := true } = false from hfail]
    show EStateM.Result.ok (s.pos : ℤ) _ = _
    rw [hend]
  unfold openIndexedOutputFile at h
  rw [seekable_setExceptions, seekable_tell, seekable_seekg, bind_of_ok hset, bind_of_ok htell] at h
  split_ifs at h with hempty
  · have hnil : s.bytes = [] := List.length_eq_zero_iff.mp (by exact_mod_cast hempty)
    have hwritable : StdStream.Writable { s with exceptions := true } := ⟨hgood, hend, Or.inl rfl⟩
    have hheader : writeHeader r.toRealm { s with exceptions := true } =
        StdStream.write (headerBytes r.toRealm) { s with exceptions := true } :=
      emits_serialize FileHeader.ty (headerOf r.toRealm) _ hwritable
    obtain ⟨u, t, hwrite, hpure⟩ := bind_eq_ok h
    rw [hheader] at hwrite
    obtain ⟨-, rfl⟩ := StdStream.write_eq_ok hwritable hwrite
    cases hpure
    refine ⟨rfl, Or.inl ⟨rfl, hnil, rfl, ?_⟩⟩
    show s.bytes ++ headerBytes r.toRealm = _
    rw [hnil, List.nil_append]
  · have hne : s.bytes ≠ [] := fun hnil => hempty (by rw [hnil]; rfl)
    have hkeeps : KeepsFile (StdStream.seekg 0 >>= fun _ => checkFile r.toRealm build >>= fun ok =>
        if ok = true then readCurrentIndex r build lib heap >>= fun index => pure (index, false)
        else raise .unknownRealmError) := by
      apply KeepsFile.bind (KeepsFile.seekg 0)
      intro u
      apply KeepsFile.bind (keepsFile_checkFile r build)
      intro ok
      split_ifs
      · exact KeepsFile.bind (keepsFile_readCurrentIndex r build lib heap) fun index =>
          KeepsFile.pure _
      · exact KeepsFile.throw _
    have hkept := hkeeps { s with exceptions := true }
    rw [h] at hkept
    obtain ⟨u, t, hseek, h⟩ := bind_eq_ok h
    obtain ⟨ok, t', hcheck, h⟩ := bind_eq_ok h
    split_ifs at h
    · obtain ⟨index', t'', hread, hpure⟩ := bind_eq_ok h
      cases hpure
      exact ⟨hkept.exceptions, Or.inr ⟨rfl, hne, hkept.bytes⟩⟩
    · cases h

end Open

/-! ## Writing -/

section Write

variable {ι : Type} {r : KeyedRealm ι}

variable {Stream : Type} [OutputStream Stream] [SeekableStream Stream]

/-- What an insert comes to whose block is appended to `s`. -/
inductive InsertOutcome (file : IndexedFile r Stream) (s : Stream)
    (encoded : Except Stop EncodedBlock) (key : r.Key) :
    EStateM.Result Stop (IndexedFile r Stream) Unit → Prop
  | inserted {pos : ℤ} {s' : Stream} {index : BlocksIndex r}
      (happend : rememberedAppend encoded s = .ok pos s')
      (hassign : file.index.assign key pos = .ok index) :
      InsertOutcome file s encoded key (.ok () ⟨⟨some s', index⟩, true⟩)
  | notAppended {stop : Stop} {s' : Stream}
      (happend : rememberedAppend encoded s = .error stop s') :
      InsertOutcome file s encoded key (.error stop { file with streamPtr := some s' })
  | notAssigned {pos : ℤ} {s' : Stream} {stop : Stop}
      (happend : rememberedAppend encoded s = .ok pos s')
      (hassign : file.index.assign key pos = .error stop) :
      InsertOutcome file s encoded key (.error stop { file with streamPtr := some s' })

/-- What the destructor comes to that finds its flag set, on the stream `s`. -/
inductive DestroyOutcome (file : IndexedFile r Stream) (s : Stream)
    (encodedIndex : Except Stop EncodedBlock)
    (encodedMarker : ℤ → Except Stop EncodedBlock) :
    EStateM.Result Stop (IndexedFile r Stream) Unit → Prop
  | written {pos : ℤ} {s' s'' : Stream} (hindex : rememberedAppend encodedIndex s = .ok pos s')
      (hmarker : writeBlock (encodedMarker pos) s' = .ok () s'') :
      DestroyOutcome file s encodedIndex encodedMarker
        (.ok () { file with streamPtr := some s'' })
  | noIndex {stop : Stop} {s' : Stream} (hindex : rememberedAppend encodedIndex s = .error stop s') :
      DestroyOutcome file s encodedIndex encodedMarker
        (.error stop { file with streamPtr := some s' })
  | noMarker {pos : ℤ} {stop : Stop} {s' s'' : Stream}
      (hindex : rememberedAppend encodedIndex s = .ok pos s')
      (hmarker : writeBlock (encodedMarker pos) s' = .error stop s'') :
      DestroyOutcome file s encodedIndex encodedMarker
        (.error stop { file with streamPtr := some s'' })

section AnyStream

variable {lib : Libraries} {file : IndexedFile r Stream} {s : Stream}

/-- A block is appended and its position assigned. -/
theorem insert_of_ok {host : Host} {key : r.Key} {value : r.Value} {pos : ℤ} {s' : Stream}
    {index : BlocksIndex r} (hs : file.streamPtr = some s)
    (happend : rememberedAppend (r.encode lib host value) s = .ok pos s')
    (hassign : file.index.assign key pos = .ok index) :
    file.insert lib host key value = .ok () ⟨⟨some s', index⟩, true⟩ := by
  unfold IndexedFile.insert
  rw [bind_of_ok (fileOnStream_of_ok hs happend), get_bind, hassign]
  rfl

/-- An append that fails changes the stream at most. -/
theorem insert_of_error {host : Host} {key : r.Key} {value : r.Value} {stop : Stop}
    {s' : Stream} (hs : file.streamPtr = some s)
    (happend : rememberedAppend (r.encode lib host value) s = .error stop s') :
    file.insert lib host key value = .error stop { file with streamPtr := some s' } := by
  unfold IndexedFile.insert
  rw [bind_of_error (fileOnStream_of_error hs happend)]

theorem insert_outcome (lib : Libraries) (host : Host) (key : r.Key) (value : r.Value)
    (hs : file.streamPtr = some s) :
    InsertOutcome file s (r.encode lib host value) key (file.insert lib host key value) := by
  cases happend : rememberedAppend (r.encode lib host value) s with
  | error stop s' =>
    rw [insert_of_error hs happend]
    exact .notAppended happend
  | ok pos s' =>
    cases hassign : file.index.assign key pos with
    | ok index =>
      rw [insert_of_ok hs happend hassign]
      exact .inserted happend hassign
    | error stop =>
      have hinsert : file.insert lib host key value =
          .error stop { file with streamPtr := some s' } := by
        unfold IndexedFile.insert
        rw [bind_of_ok (fileOnStream_of_ok hs happend), get_bind, hassign]
        rfl
      rw [hinsert]
      exact .notAssigned happend hassign

/-- An insert on a null pointer. -/
theorem insert_null (host : Host) (key : r.Key) (value : r.Value) (hs : file.streamPtr = none) :
    file.insert lib host key value = .error .undefinedBehaviour file := by
  unfold IndexedFile.insert
  exact bind_of_error (fileOnStream_null hs)

/-- The marker for an index at `pos`. -/
def markerAt (r : KeyedRealm ι) (pos : ℤ) : IndexPositionMarker :=
  ⟨BitVec.ofInt _ pos, r.lookupId r.key⟩

theorem destroy_outcome (lib : Libraries) (host host' : Host) (hs : file.streamPtr = some s)
    (hflag : file.needWriteIndex = true) :
    DestroyOutcome file s (encodeMeta (r := r) lib host .blocksIndex file.index)
      (fun pos => encodeMeta (r := r) lib host' .indexPositionMarker (markerAt r pos))
      (file.destroy lib host host') := by
  unfold IndexedFile.destroy
  rw [get_bind, hflag, if_pos rfl, get_bind]
  cases hindex : rememberedAppend (encodeMeta (r := r) lib host .blocksIndex file.index) s with
  | error stop s' =>
    rw [bind_of_error (fileOnStream_of_error hs hindex)]
    exact .noIndex hindex
  | ok pos s' =>
    rw [bind_of_ok (fileOnStream_of_ok hs hindex)]
    have hat : (⟨BitVec.ofInt _ pos, r.lookupId r.key⟩ : IndexPositionMarker) = markerAt r pos :=
      rfl
    cases hmarker : writeBlock (encodeMeta (r := r) lib host' .indexPositionMarker
        (markerAt r pos)) s' with
    | error stop s'' =>
      rw [hat, fileOnStream_of_error rfl hmarker]
      exact .noMarker hindex hmarker
    | ok u s'' =>
      rw [hat, fileOnStream_of_ok rfl hmarker]
      exact .written hindex hmarker

/-- A destructor whose writes return. -/
theorem destroy_of_ok {host host' : Host} {pos : ℤ} {s' s'' : Stream} (hs : file.streamPtr = some s)
    (hflag : file.needWriteIndex = true)
    (hindex : rememberedAppend (encodeMeta (r := r) lib host .blocksIndex file.index) s = .ok pos s')
    (hmarker : writeBlock (encodeMeta (r := r) lib host' .indexPositionMarker (markerAt r pos)) s' =
      .ok () s'') :
    file.destroy lib host host' = .ok () { file with streamPtr := some s'' } := by
  have houtcome := destroy_outcome lib host host' hs hflag
  generalize file.destroy lib host host' = result at houtcome ⊢
  cases houtcome with
  | written hindex' hmarker' =>
    cases hindex.symm.trans hindex'
    cases hmarker.symm.trans hmarker'
    rfl
  | noIndex hindex' => cases hindex.symm.trans hindex'
  | noMarker hindex' hmarker' =>
    cases hindex.symm.trans hindex'
    cases hmarker.symm.trans hmarker'

/-- A file that needs no index is left as it is. -/
theorem destroy_unchanged (host host' : Host) (hflag : file.needWriteIndex = false) :
    file.destroy lib host host' = .ok () file := by
  unfold IndexedFile.destroy
  rw [get_bind, hflag]
  rfl

/-- A null pointer is dereferenced where the flag is set. -/
theorem destroy_null (host host' : Host) (hs : file.streamPtr = none)
    (hflag : file.needWriteIndex = true) :
    file.destroy lib host host' = .error .undefinedBehaviour file := by
  unfold IndexedFile.destroy
  rw [get_bind, hflag, if_pos rfl, get_bind]
  exact bind_of_error (fileOnStream_null hs)

end AnyStream

variable {lib : Libraries} {file : IndexedFile r} {s : StdStream}

/-- A destructor that returns has appended the index and its marker. -/
theorem destroy_ok {file' : IndexedFile r} {host host' : Host} (hs : file.streamPtr = some s)
    (he : s.exceptions = true) (hflag : file.needWriteIndex = true)
    (h : file.destroy lib host host' = .ok () file') :
    ∃ indexBlock markerBlock,
      encodeMeta (r := r) lib host .blocksIndex file.index = .ok indexBlock ∧
      encodeMeta (r := r) lib host' .indexPositionMarker (markerAt r s.bytes.length) =
        .ok markerBlock ∧
      file' = { file with
        streamPtr := some ((StdStream.toEnd s).appended
          (blockBytes indexBlock ++ blockBytes markerBlock)) } := by
  have houtcome := destroy_outcome lib host host' hs hflag
  rw [h] at houtcome
  cases houtcome with
  | @written pos s' s'' hindex hmarker =>
    obtain ⟨indexBlock, hib, hgood, -, rfl, rfl⟩ := rememberedAppend_ok he hindex
    have hwritable := (StdStream.toEnd_writable hgood he).appended (blockBytes indexBlock)
    cases hmb : encodeMeta (r := r) lib host' .indexPositionMarker (markerAt r s.bytes.length) with
    | error stop => rw [hmb] at hmarker; cases hmarker
    | ok markerBlock =>
      rw [hmb, writeBlock_eq hwritable] at hmarker
      obtain ⟨-, rfl⟩ := StdStream.write_eq_ok hwritable hmarker
      refine ⟨indexBlock, markerBlock, hib, rfl, ?_⟩
      rw [StdStream.appended_appended]

/-- An append to a stream in working order. -/
theorem Working.rememberedAppend {bs : List Byte} (h : Working bs s) (block : EncodedBlock) :
    ∃ s', Pbsf.rememberedAppend (.ok block) s = .ok (bs.length : ℤ) s' ∧
      StdStream.Writable s' ∧ Working (bs ++ blockBytes block) s' := by
  have happend := rememberedAppend_eq h.good h.exceptions (h.hasRoom (blockBytes block).length)
  rw [h.bytes_eq] at happend
  refine ⟨_, happend, (StdStream.toEnd_writable h.good h.exceptions).appended _, ?_⟩
  obtain ⟨pos, rfl⟩ := h
  exact ⟨bs.length + (blockBytes block).length, rfl⟩

/-- A write behind the last one. -/
theorem Working.writeBlock {bs : List Byte} (h : Working bs s) (hwritable : StdStream.Writable s)
    (block : EncodedBlock) :
    ∃ s', Pbsf.writeBlock (.ok block) s = .ok () s' ∧ Working (bs ++ blockBytes block) s' := by
  have hwrite := (writeBlock_eq hwritable block).trans
    (StdStream.write_ok hwritable (h.hasRoom (blockBytes block).length))
  refine ⟨_, hwrite, ?_⟩
  obtain ⟨pos, rfl⟩ := h
  exact ⟨pos + (blockBytes block).length, rfl⟩

theorem length_marker (marker : IndexPositionMarker) :
    (bytes IndexPositionMarker.ty marker).length = 10 := by
  show (wordBytes _ ++ (wordBytes _ ++ [])).length = 10
  simp

/-- The bytes of a marker fit everywhere. -/
theorem encodeMarker_ok (lib : Libraries) (host : Host) (marker : IndexPositionMarker) :
    ∃ block, encodeMeta (r := r) lib host .indexPositionMarker marker = .ok block ∧
      block.contentType = -10 ∧ Holds lib IndexPositionMarker.ty block marker := by
  have hlt : (bytes IndexPositionMarker.ty marker).length < 2 ^ 31 := by
    rw [length_marker]
    decide
  exact holds_encodeValue lib IndexPositionMarker.ty marker host (-10) hlt

/-- A destructor whose blocks are encoded writes them. -/
theorem destroy_eq {host host' : Host} {bs : List Byte} {indexBlock markerBlock : EncodedBlock}
    (hs : file.streamPtr = some s) (hworking : Working bs s) (hflag : file.needWriteIndex = true)
    (hindex : encodeMeta (r := r) lib host .blocksIndex file.index = .ok indexBlock)
    (hmarker : encodeMeta (r := r) lib host' .indexPositionMarker (markerAt r bs.length) =
      .ok markerBlock) :
    ∃ s', file.destroy lib host host' = .ok () { file with streamPtr := some s' } ∧
      Working (bs ++ (blockBytes indexBlock ++ blockBytes markerBlock)) s' := by
  obtain ⟨t, happend, hwritable, ht⟩ := hworking.rememberedAppend indexBlock
  obtain ⟨s', hwrite, hs'⟩ := ht.writeBlock hwritable markerBlock
  rw [List.append_assoc] at hs'
  rw [← hindex] at happend
  rw [← hmarker] at hwrite
  exact ⟨s', destroy_of_ok hs hflag happend hwrite, hs'⟩

end Write

/-! ## A small realm -/

theorem strictWeak_toNat :
    StrictWeak fun a b : BitVec (8 * 1) => decide (a.toNat < b.toNat) where
  asymm hab := by
    rw [decide_eq_true_eq] at hab
    rw [decide_eq_false_iff_not]
    omega
  negTrans hab hbc := by
    rw [decide_eq_false_iff_not] at *
    omega

/-- A file with keys and values of one byte. -/
def byteFiles : KeyedRealm Unit :=
  { byteRealm with
    id := 1
    key := ()
    lt := fun a b : BitVec (8 * 1) => decide (a.toNat < b.toNat)
    strictWeak := strictWeak_toNat }

/-- A program's environment that asks for no compression. -/
def plainHost : Host := ⟨some "identity", fun _ => 0⟩

end BambooShoot.Pbsf
