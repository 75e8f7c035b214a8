import BambooShoot.Pbsf.IndexedFile
import BambooShoot.Lib.Runs

/-!
# Sessions on an indexed file

What a file holds after any number of sessions that insert into it: `Indexes`
says that an index has, for every key, the position of the block that was
inserted last, `WriterAt` is the invariant of an object that is open for
writing, and `Finished` that of a file between two sessions.

Results:
* `Indexes.insert`, `Indexes.find_some`: one insert, and what is found behind it;
* `FileHas.shows`: what is read through an index;
* `WriterAt.insert`, `WriterAt.subscript`, `WriterAt.destroy`: the operations keep
  the invariant;
* `indexed_sessions`: a file gives back the values that were inserted last, after
  its sessions and at any point of them.
-/

namespace BambooShoot.Pbsf

open BambooShoot.Lib BambooShoot.Pbss

/-! ## What an index says -/

section Contents

variable {ι : Type} {r : KeyedRealm ι} {bs : List Byte} {index : BlocksIndex r}
  {past : List (r.Key × EncodedBlock)}

/-- For every key the index has the position of the block inserted last. -/
def Indexes (bs : List Byte) (index : BlocksIndex r) (past : List (r.Key × EncodedBlock)) : Prop :=
  ∃ stored : List (r.Key × Int64T × EncodedBlock),
    (stored.map fun e => (e.1, e.2.2)) = past ∧
    index.map.elems = assignAll r.lt (stored.map fun e => (e.1, e.2.1)) ∧
    ∀ e ∈ stored, BlockAt bs e.2.1 e.2.2

theorem indexes_empty (bs : List Byte) : Indexes bs (BlocksIndex.empty r) [] :=
  ⟨[], rfl, rfl, nofun⟩

theorem Indexes.append (h : Indexes bs index past) (more : List Byte) :
    Indexes (bs ++ more) index past := by
  obtain ⟨stored, hpast, helems, hat⟩ := h
  exact ⟨stored, hpast, helems, fun e he => (hat e he).append more⟩

/-- The map has room for as many entries as there can be blocks. -/
theorem assign_eq (index : BlocksIndex r) (key : r.Key) (pos : ℤ)
    (h : index.map.elems.length + 1 < 2 ^ 64) :
    ∃ index', index.assign key pos = .ok index' ∧
      index'.map.elems = Lib.assign r.lt key (BitVec.ofInt _ pos) index.map.elems := by
  have hlen := length_assign_le r.lt key (BitVec.ofInt (8 * 8) pos) index.map.elems
  unfold BlocksIndex.assign
  rw [dif_pos (lt_of_le_of_lt hlen h)]
  exact ⟨_, rfl, rfl⟩

theorem Indexes.length_le (h : Indexes bs index past) : index.map.elems.length ≤ past.length := by
  obtain ⟨stored, rfl, helems, -⟩ := h
  have hle : ∀ l : List (r.Key × Int64T), (assignAll r.lt l).length ≤ l.length := by
    intro l
    induction l using List.reverseRecOn with
    | nil => exact le_refl _
    | append_singleton l p ih =>
      have hassign := length_assign_le r.lt p.1 p.2 (assignAll r.lt l)
      rw [assignAll_concat, List.length_append, List.length_singleton]
      omega
  rw [helems]
  simpa using hle (stored.map fun e => (e.1, e.2.1))

/-- A block is appended and its position assigned. -/
theorem Indexes.insert (h : Indexes bs index past) (key : r.Key) (block : EncodedBlock)
    (hbs : bs.length < 2 ^ 63) (hpast : past.length < 2 ^ 63) :
    ∃ index', index.assign key bs.length = .ok index' ∧
      Indexes (bs ++ blockBytes block) index' (past ++ [(key, block)]) := by
  have hlen := h.length_le
  obtain ⟨index', hassign, helems'⟩ := assign_eq index key bs.length (by omega)
  obtain ⟨stored, rfl, helems, hat⟩ := h
  refine ⟨index', hassign, stored ++ [(key, BitVec.ofInt _ bs.length, block)], ?_, ?_, ?_⟩
  · rw [List.map_append]
    rfl
  · rw [List.map_append, List.map_singleton, assignAll_concat, helems', helems]
  · intro e he
    rcases List.mem_append.mp he with he | he
    · exact (hat e he).append _
    · rw [List.mem_singleton.mp he]
      exact blockAt_append block hbs

/-- The entries of the index point to the last blocks of their keys. -/
theorem Indexes.entry (h : Indexes bs index past) {entry : r.Key × Int64T}
    (hmem : entry ∈ index.map.elems) :
    ∃ block, lastValue r.lt entry.1 past = some block ∧ BlockAt bs entry.2 block := by
  obtain ⟨stored, rfl, helems, hat⟩ := h
  rw [helems] at hmem
  have hpos := lastValue_of_mem r.strictWeak hmem
  rw [lastValue_map (fun e : Int64T × EncodedBlock => e.1)] at hpos
  obtain ⟨e, he, hentry⟩ := Option.map_eq_some_iff.mp hpos
  obtain ⟨key, hkey, -⟩ := exists_mem_of_lastValue he
  refine ⟨e.2, ?_, hentry ▸ hat (key, e) hkey⟩
  rw [lastValue_map (fun e : Int64T × EncodedBlock => e.2), he]
  rfl

theorem Indexes.find_some (h : Indexes bs index past) {key : r.Key} {block : EncodedBlock}
    (hlast : lastValue r.lt key past = some block) (streamPtr : Option StdStream) :
    ∃ entry, IndexedFileState.find ⟨streamPtr, index⟩ key = some entry ∧
      BlockAt bs entry.2 block := by
  obtain ⟨stored, rfl, helems, hat⟩ := h
  rw [lastValue_map (fun e : Int64T × EncodedBlock => e.2)] at hlast
  obtain ⟨e, he, rfl⟩ := Option.map_eq_some_iff.mp hlast
  obtain ⟨key', hkey, -⟩ := exists_mem_of_lastValue he
  have hfound := find_assignAll r.strictWeak key (stored.map fun e => (e.1, e.2.1))
  rw [lastValue_map (fun e : Int64T × EncodedBlock => e.1), he, ← helems] at hfound
  obtain ⟨entry, hentry, hpos⟩ := Option.map_eq_some_iff.mp hfound
  exact ⟨entry, hentry, hpos ▸ hat (key', e) hkey⟩

theorem Indexes.find_none (h : Indexes bs index past) {key : r.Key}
    (hlast : lastValue r.lt key past = none) (streamPtr : Option StdStream) :
    IndexedFileState.find ⟨streamPtr, index⟩ key = none := by
  obtain ⟨stored, rfl, helems, -⟩ := h
  rw [lastValue_map (fun e : Int64T × EncodedBlock => e.2)] at hlast
  have hfound := find_assignAll r.strictWeak key (stored.map fun e => (e.1, e.2.1))
  rw [lastValue_map (fun e : Int64T × EncodedBlock => e.1), Option.map_eq_none_iff.mp hlast,
    ← helems] at hfound
  exact Option.map_eq_none_iff.mp hfound

/-- There is one entry for each key. -/
theorem Indexes.size (h : Indexes bs index past) (streamPtr : Option StdStream) :
    (IndexedFileState.size ⟨streamPtr, index⟩).toNat =
      distinctCount r.strictWeak (past.map Prod.fst) := by
  have hbounded := index.map.bounded
  obtain ⟨stored, rfl, helems, -⟩ := h
  show (BitVec.ofNat 64 index.map.elems.length).toNat = _
  rw [BitVec.toNat_ofNat, Nat.mod_eq_of_lt hbounded, helems, length_assignAll r.strictWeak,
    List.map_map, List.map_map]
  rfl

/-- The entries have the keys of the blocks that were inserted. -/
theorem Indexes.key_mem (h : Indexes bs index past) {entry : r.Key × Int64T}
    (hmem : entry ∈ index.map.elems) : entry.1 ∈ past.map Prod.fst := by
  obtain ⟨stored, rfl, helems, -⟩ := h
  rw [helems] at hmem
  have hkey := key_mem_assignAll hmem
  rw [List.map_map] at hkey ⊢
  exact hkey

theorem Indexes.exists_entry (h : Indexes bs index past) {key : r.Key}
    (hkey : key ∈ past.map Prod.fst) : ∃ entry ∈ index.map.elems, Incomp r.lt entry.1 key := by
  obtain ⟨stored, rfl, helems, -⟩ := h
  rw [helems]
  apply exists_mem_assignAll r.strictWeak
  rw [List.map_map] at hkey ⊢
  exact hkey

end Contents

/-! ## What a file holds -/

section Values

variable {ι : Type} {r : KeyedRealm ι} (lib : Libraries)

/-- The block was made of the value. -/
def BlockOf (r : KeyedRealm ι) (block : EncodedBlock) (value : r.Value) : Prop :=
  block.contentType = r.lookupId value.1 ∧ Holds lib (r.ty value.1) block value.2

/-- `is<T>()` is true for the type of the value only, and `as<T>()` returns it. -/
structure Gives (r : KeyedRealm ι) (block : EncodedBlock) (value : r.Value) : Prop where
  is_iff : ∀ i, EncodedBlockAccessor.is (⟨block⟩ : EncodedBlockAccessor r.toAbstractRealm) i = true ↔
    i = value.1
  as_eq : ∀ build fresh, valueAs build lib r.toAbstractRealm fresh value.1 block = .ok value.2

/-- What is seen through a file object of the values that were inserted. -/
structure Shows (file : List Byte) (state : IndexedFileState r) (written : List (r.Key × r.Value)) :
    Prop where
  size : state.size.toNat = distinctCount r.strictWeak (written.map Prod.fst)
  ascending : Ascending r.lt state.indices
  /-- An iteration comes to inserted keys only, -/
  inserted : ∀ key ∈ state.indices, key ∈ written.map Prod.fst
  /-- and to all of them, keys that are the same to `r.lt` being one. -/
  complete : ∀ key ∈ written.map Prod.fst, ∃ entry ∈ state.index.map.elems, Incomp r.lt entry.1 key
  /-- An iteration finds the last value of every key it comes to. -/
  iterated : ∀ build, ∀ entry ∈ state.index.map.elems, ∃ value block s,
    lastValue r.lt entry.1 written = some value ∧ Gives lib r block value ∧ Working file s ∧
      IndexedFileState.onStream (delayedRead build entry.2) state =
        .ok block { state with streamPtr := some s }
  /-- So does the subscript. -/
  found : ∀ build {key value}, lastValue r.lt key written = some value → ∃ block s,
    Gives lib r block value ∧ Working file s ∧
      state.subscript build key = .ok block { state with streamPtr := some s }
  /-- No other key is found. -/
  missing : ∀ build {key}, lastValue r.lt key written = none →
    state.subscript build key = .error (.throws .keyMissingError) state

/-- The file has the header of the realm, and the index its values. -/
structure FileHas (file : List Byte) (index : BlocksIndex r) (written : List (r.Key × r.Value)) :
    Prop where
  header : ∃ body, file = headerBytes r.toRealm ++ body
  length_le : written.length ≤ file.length
  blocks : ∃ made : List (r.Key × EncodedBlock × r.Value),
    written = made.map (fun e => (e.1, e.2.2)) ∧
    Indexes file index (made.map fun e => (e.1, e.2.1)) ∧ ∀ e ∈ made, BlockOf lib r e.2.1 e.2.2

/-- An object that is open for writing, on a stream in working order. If it has no
    index to write, the file ends with the one it has. -/
def WriterAt (object : IndexedFile r) (written : List (r.Key × r.Value)) : Prop :=
  ∃ file s, object.streamPtr = some s ∧ Working file s ∧ FileHas lib file object.index written ∧
    (object.needWriteIndex = false → EndsWithIndex lib file object.index)

/-- A file between two sessions. -/
def Finished (file : List Byte) (written : List (r.Key × r.Value)) : Prop :=
  ∃ index, FileHas lib file index written ∧ EndsWithIndex lib file index

variable {lib} {file : List Byte} {index : BlocksIndex r} {written : List (r.Key × r.Value)}
  {block : EncodedBlock} {value : r.Value}

theorem BlockOf.gives (h : BlockOf lib r block value) : Gives lib r block value where
  is_iff i := by
    rw [EncodedBlockAccessor.is_iff, h.1]
    exact r.lookupId_injective.eq_iff
  as_eq build fresh := valueAs_eq build fresh h.1 h.2

/-- The header alone, in front of no blocks. -/
theorem fileHas_header : FileHas lib (headerBytes r.toRealm) (BlocksIndex.empty r) [] :=
  ⟨⟨[], (List.append_nil _).symm⟩, Nat.zero_le _, [], rfl, indexes_empty _, nofun⟩

/-- An index has no more entries than values were inserted. -/
theorem FileHas.entries_le (h : FileHas lib file index written) :
    index.map.elems.length ≤ written.length := by
  obtain ⟨made, rfl, hindexes, -⟩ := h.blocks
  have hle := hindexes.length_le
  rw [List.length_map] at hle ⊢
  exact hle

theorem FileHas.append (h : FileHas lib file index written) (more : List Byte) :
    FileHas lib (file ++ more) index written := by
  obtain ⟨⟨body, rfl⟩, hlen, made, rfl, hindexes, hmade⟩ := h
  refine ⟨⟨body ++ more, List.append_assoc _ _ _⟩, ?_, made, rfl, hindexes.append more, hmade⟩
  rw [List.length_append]
  omega

/-- A value behind the file, and the position of its block in the index. -/
theorem FileHas.insert (h : FileHas lib file index written) (key : r.Key)
    (hblock : BlockOf lib r block value) (hlt : file.length < 2 ^ 63) :
    ∃ index', index.assign key file.length = .ok index' ∧
      FileHas lib (file ++ blockBytes block) index' (written ++ [(key, value)]) := by
  have happend := h.append (blockBytes block)
  have hwritten := h.length_le
  have hne : 0 < (blockBytes block).length := List.length_pos_iff.mpr (blockBytes_ne_nil block)
  obtain ⟨made, rfl, hindexes, hmade⟩ := h.blocks
  have hmadeLen : (made.map fun e => (e.1, e.2.1)).length < 2 ^ 63 := by
    rw [List.length_map] at hwritten ⊢
    omega
  obtain ⟨index', hassign, hindexes'⟩ := hindexes.insert key block hlt hmadeLen
  refine ⟨index', hassign, happend.header, ?_, made ++ [(key, block, value)], ?_, ?_, ?_⟩
  · rw [List.length_append, List.length_append, List.length_singleton]
    omega
  · rw [List.map_append]
    rfl
  · rw [List.map_append]
    exact hindexes'
  · intro e he
    rcases List.mem_append.mp he with he | he
    · exact hmade e he
    · rw [List.mem_singleton.mp he]
      exact hblock

theorem onStream_delayedRead {state : IndexedFileState r} {s : StdStream} {pos : Int64T}
    (build : Build) (hs : state.streamPtr = some s) (hworking : Working file s)
    (hat : BlockAt file pos block) :
    ∃ s', Working file s' ∧ IndexedFileState.onStream (delayedRead build pos) state =
      .ok block { state with streamPtr := some s' } := by
  obtain ⟨s', hread, hs'⟩ := delayedRead_eq build hworking hat
  exact ⟨s', hs', stateOnStream_of_ok hs hread⟩

/-- The values of a file are seen through every stream in working order. -/
theorem FileHas.shows (h : FileHas lib file index written) {s : StdStream} (hs : Working file s) :
    Shows lib file ⟨some s, index⟩ written := by
  obtain ⟨made, rfl, hindexes, hmade⟩ := h.blocks
  -- the block and the value that are inserted last under a key are inserted together
  have hlast : ∀ key, lastValue r.lt key (made.map fun e => (e.1, e.2.1)) =
        (lastValue r.lt key made).map (fun e => e.1) ∧
      lastValue r.lt key (made.map fun e => (e.1, e.2.2)) =
        (lastValue r.lt key made).map (fun e => e.2) :=
    fun key => ⟨lastValue_map (fun e : EncodedBlock × r.Value => e.1) key made,
      lastValue_map (fun e : EncodedBlock × r.Value => e.2) key made⟩
  have hkeys : (made.map fun e => (e.1, e.2.1)).map Prod.fst =
      (made.map fun e => (e.1, e.2.2)).map Prod.fst := by
    rw [List.map_map, List.map_map]
    rfl
  constructor
  · rw [hindexes.size, hkeys]
  · exact List.pairwise_map.mpr index.map.ascending
  · intro key hkey
    obtain ⟨entry, hentry, rfl⟩ := List.mem_map.mp hkey
    exact hkeys ▸ hindexes.key_mem hentry
  · intro key hkey
    exact hindexes.exists_entry (hkeys.symm ▸ hkey)
  · intro build entry hentry
    obtain ⟨block, hblock, hat⟩ := hindexes.entry hentry
    rw [(hlast entry.1).1] at hblock
    obtain ⟨e, he, rfl⟩ := Option.map_eq_some_iff.mp hblock
    obtain ⟨key, hkey, -⟩ := exists_mem_of_lastValue he
    obtain ⟨s', hs', hread⟩ := onStream_delayedRead build
      (show (⟨some s, index⟩ : IndexedFileState r).streamPtr = some s from rfl) hs hat
    refine ⟨e.2, e.1, s', ?_, (hmade _ hkey).gives, hs', hread⟩
    rw [(hlast entry.1).2, he]
    rfl
  · intro build key value hvalue
    rw [(hlast key).2] at hvalue
    obtain ⟨e, he, rfl⟩ := Option.map_eq_some_iff.mp hvalue
    have hblock : lastValue r.lt key (made.map fun e => (e.1, e.2.1)) = some e.1 := by
      rw [(hlast key).1, he]
      rfl
    obtain ⟨key', hkey', -⟩ := exists_mem_of_lastValue he
    obtain ⟨entry, hfind, hat⟩ := hindexes.find_some hblock (some s)
    obtain ⟨s', hs', hread⟩ := onStream_delayedRead build
      (show (⟨some s, index⟩ : IndexedFileState r).streamPtr = some s from rfl) hs hat
    refine ⟨e.1, s', (hmade _ hkey').gives, hs', ?_⟩
    unfold IndexedFileState.subscript
    rw [get_bind, hfind]
    exact hread
  · intro build key hnone
    rw [(hlast key).2, Option.map_eq_none_iff] at hnone
    have hblock : lastValue r.lt key (made.map fun e => (e.1, e.2.1)) = none := by
      rw [(hlast key).1, hnone]
      rfl
    have hfind := hindexes.find_none hblock (some s)
    unfold IndexedFileState.subscript
    rw [get_bind, hfind]
    rfl

end Values

/-! ## Operations -/

section Operations

variable {ι : Type} {r : KeyedRealm ι} (lib : Libraries)

/-- The compressors leave ten bytes, the size of a marker, no shorter. -/
def KeepsMarkerSize : Prop :=
  ∀ raw : Buffer, raw.bytes.length = 10 →
    (∀ fresh, 10 ≤ (zstdCompress lib.zstd fresh raw).bytes.length) ∧
      ∀ dst, lzoCompress lib.lzo raw = .ok dst → 10 ≤ dst.bytes.length

/-- The compressors undo what they make of the index. -/
def IndexEncodable (host : Host) (index : BlocksIndex r) : Prop :=
  ∃ raw : Buffer, raw.bytes = bytes (BlocksIndex.ty r) index ∧
    Encodable lib raw (envPreferredEncoding host.pbsfCompression)

variable {lib} {file : List Byte} {index : BlocksIndex r} {written : List (r.Key × r.Value)}
  {object : IndexedFile r}

theorem length_smallerBlock {id encoding : Int16T} {raw compressed : Buffer}
    (h : raw.bytes.length ≤ compressed.bytes.length) :
    (smallerBlock id raw encoding compressed).content.bytes.length = raw.bytes.length := by
  unfold smallerBlock
  split_ifs with hlt
  · rfl
  · show compressed.bytes.length = raw.bytes.length
    omega

/-- The block of a marker has the size that is computed for it. -/
theorem length_markerBlock (hlib : KeepsMarkerSize lib) {host : Host} {marker : IndexPositionMarker}
    {block : EncodedBlock}
    (h : encodeMeta (r := r) lib host .indexPositionMarker marker = .ok block) :
    (blockBytes block).length = 19 := by
  have hle : (bytes IndexPositionMarker.ty marker).length ≤ maxElems 1 := by
    rw [length_marker, maxElems_one]
    decide
  obtain ⟨raw, hraw⟩ : ∃ raw : Buffer, raw.bytes = bytes IndexPositionMarker.ty marker :=
    ⟨Buffer.ofBytes _ hle, rfl⟩
  have hencode : encodeBlock lib host.fresh (-10) raw
      (envPreferredEncoding host.pbsfCompression) = .ok block :=
    (encodeValue_eq lib IndexPositionMarker.ty marker host (-10) hraw).symm.trans h
  have hlen : raw.bytes.length = 10 := by rw [hraw, length_marker]
  obtain ⟨hzstd, hlzo⟩ := hlib raw hlen
  have hcontent : block.content.bytes.length = 10 := by
    unfold encodeBlock at hencode
    split_ifs at hencode
    · cases hencode
      exact hlen
    · cases hdst : lzoCompress lib.lzo raw with
      | error stop => rw [hdst] at hencode; cases hencode
      | ok dst =>
        rw [hdst] at hencode
        cases hencode
        exact (length_smallerBlock (le_of_eq_of_le hlen (hlzo dst hdst))).trans hlen
    · cases hencode
      exact (length_smallerBlock (le_of_eq_of_le hlen (hzstd host.fresh))).trans hlen
  rw [length_blockBytes, hcontent]
  rfl

/-- A new or truncated file. -/
theorem writerAt_new : WriterAt lib
    ⟨⟨some (StdStream.endOf (headerBytes r.toRealm) true), BlocksIndex.empty r⟩, true⟩ [] :=
  ⟨_, _, rfl, working_endOf _, fileHas_header, nofun⟩

/-- A finished file that is opened for writing again. -/
theorem Finished.openOutput (h : Finished lib file written) (build : Build) (heap : ℕ → Memory) :
    ∃ index s, openIndexedOutputFile r build lib heap (outputFile file false) =
        .ok (index, false) s ∧ WriterAt lib ⟨⟨some s, index⟩, false⟩ written := by
  obtain ⟨index, hhas, hends⟩ := h
  obtain ⟨body, hfile⟩ := hhas.header
  obtain ⟨s, hopen, hs⟩ := openIndexedOutputFile_old build heap body hfile hends
  exact ⟨index, s, hopen, file, s, rfl, hs, hhas, fun _ => hends⟩

/-- Reading a finished file. -/
theorem Finished.openInput (h : Finished lib file written) (build : Build) (heap : ℕ → Memory) :
    ∃ index s, openIndexedInputFile r build lib heap (inputFile file) = .ok index s ∧
      Working file s ∧ ∀ s', Working file s' → Shows lib file ⟨some s', index⟩ written := by
  obtain ⟨index, hhas, hends⟩ := h
  obtain ⟨body, hfile⟩ := hhas.header
  obtain ⟨s, hopen, hs⟩ := openIndexedInputFile_eq build heap body hfile hends
  exact ⟨index, s, hopen, hs, fun s' => hhas.shows⟩

theorem WriterAt.bytes_lt (h : WriterAt lib object written) (hlt : object.bytes.length < 2 ^ 63) :
    ∃ file s, object.streamPtr = some s ∧ Working file s ∧ FileHas lib file object.index written ∧
      (object.needWriteIndex = false → EndsWithIndex lib file object.index) ∧
      file.length < 2 ^ 63 := by
  obtain ⟨file, s, hs, hworking, hhas, hends⟩ := h
  refine ⟨file, s, hs, hworking, hhas, hends, ?_⟩
  unfold IndexedFileState.bytes at hlt
  rw [hs] at hlt
  exact hworking.bytes_eq ▸ hlt

/-- A value whose block can be made is inserted. -/
theorem WriterAt.insert (h : WriterAt lib object written) {host : Host} (key : r.Key)
    {value : r.Value} {block : EncodedBlock} (hencode : r.encode lib host value = .ok block)
    (hblock : BlockOf lib r block value) (hlt : object.bytes.length < 2 ^ 63) :
    ∃ object', object.insert lib host key value = .ok () object' ∧
      WriterAt lib object' (written ++ [(key, value)]) := by
  obtain ⟨file, s, hs, hworking, hhas, -, hlt⟩ := h.bytes_lt hlt
  obtain ⟨index', hassign, hhas'⟩ := hhas.insert key hblock hlt
  obtain ⟨s', happend, -, hs'⟩ := hworking.rememberedAppend block
  rw [← hencode] at happend
  exact ⟨_, insert_of_ok hs happend hassign, _, s', rfl, hs', hhas', nofun⟩

/-- Reading through the object that writes. -/
theorem WriterAt.subscript (h : WriterAt lib object written) (build : Build) (key : r.Key) :
    ∃ state, WriterAt lib { object with toIndexedFileState := state } written ∧
      ((∃ block, object.toIndexedFileState.subscript build key = .ok block state) ∨
        object.toIndexedFileState.subscript build key =
          .error (.throws .keyMissingError) state) := by
  obtain ⟨file, s, hs, hworking, hhas, hends⟩ := h
  have hstate : object.toIndexedFileState = ⟨some s, object.index⟩ := by rw [← hs]
  have hshows := hhas.shows hworking
  rw [hstate]
  cases hlast : lastValue r.lt key written with
  | none =>
    exact ⟨⟨some s, object.index⟩, ⟨file, s, rfl, hworking, hhas, hends⟩,
      Or.inr (hshows.missing build hlast)⟩
  | some value =>
    obtain ⟨block, s', -, hs', hread⟩ := hshows.found build hlast
    exact ⟨⟨some s', object.index⟩, ⟨file, s', rfl, hs', hhas, hends⟩, Or.inl ⟨block, hread⟩⟩

/-- The index and the marker, put behind the blocks of a file. -/
theorem FileHas.finished (h : FileHas lib file index written) (hlib : KeepsMarkerSize lib)
    {host : Host} (host' : Host) (hlt : file.length < 2 ^ 63)
    (hindex : IndexEncodable lib host index) :
    ∃ indexBlock markerBlock,
      encodeMeta (r := r) lib host .blocksIndex index = .ok indexBlock ∧
      encodeMeta (r := r) lib host' .indexPositionMarker (markerAt r file.length) = .ok markerBlock ∧
      (blockBytes markerBlock).length = 19 ∧
      Finished lib (file ++ blockBytes indexBlock ++ blockBytes markerBlock) written := by
  obtain ⟨raw, hraw, hencodable⟩ := hindex
  obtain ⟨indexBlock, hencode, hindexId, hholds⟩ := holds_encodeBlock lib (BlocksIndex.ty r)
    index host.fresh (-11) _ hraw hencodable
  have hencodeIndex : encodeMeta (r := r) lib host .blocksIndex index = .ok indexBlock :=
    (encodeValue_eq lib (BlocksIndex.ty r) index host (-11) hraw).trans hencode
  obtain ⟨markerBlock, hmarker, hmarkerId, hmarkerHolds⟩ :=
    encodeMarker_ok (r := r) lib host' (markerAt r file.length)
  have hlen := length_markerBlock hlib hmarker
  refine ⟨indexBlock, markerBlock, hencodeIndex, hmarker, hlen, index, (h.append _).append _, ?_⟩
  exact ⟨_, markerBlock, indexBlock, markerAt r file.length, rfl, hlen, hmarkerId, hmarkerHolds, rfl,
    (blockAt_append indexBlock hlt).append _, hindexId, hholds⟩

/-- The end of a session. -/
theorem WriterAt.destroy (h : WriterAt lib object written) (hlib : KeepsMarkerSize lib)
    (host host' : Host) (hlt : object.bytes.length < 2 ^ 63)
    (hindex : object.needWriteIndex = true → IndexEncodable lib host object.index) :
    ∃ object', object.destroy lib host host' = .ok () object' ∧
      Finished lib object'.bytes written := by
  obtain ⟨file, s, hs, hworking, hhas, hends, hlt⟩ := h.bytes_lt hlt
  cases hflag : object.needWriteIndex with
  | false =>
    refine ⟨object, destroy_unchanged host host' hflag, object.index, ?_⟩
    have hbytes : object.bytes = file := by
      unfold IndexedFileState.bytes
      rw [hs]
      exact hworking.bytes_eq
    rw [hbytes]
    exact ⟨hhas, hends hflag⟩
  | true =>
    obtain ⟨indexBlock, markerBlock, hindexBlock, hmarkerBlock, -, hfinished⟩ :=
      hhas.finished hlib host' hlt (hindex hflag)
    obtain ⟨s', hdestroy, hs'⟩ := destroy_eq hs hworking hflag hindexBlock hmarkerBlock
    refine ⟨_, hdestroy, ?_⟩
    have hbytes : IndexedFileState.bytes (⟨some s', object.index⟩ : IndexedFileState r) =
        file ++ blockBytes indexBlock ++ blockBytes markerBlock :=
      hs'.bytes_eq.trans (List.append_assoc _ _ _).symm
    rw [hbytes]
    exact hfinished

end Operations

/-! ## Programs -/

section Programs

variable {ι : Type} {r : KeyedRealm ι}

/-- Programs that use one file in turn, each for a session. -/
structure Program {ι : Type} (r : KeyedRealm ι) where
  /-- The file as the last session left it. -/
  file : List Byte
  /-- A session has created the file, or truncated it. -/
  created : Bool
  /-- The object of the session that is going on. -/
  object : Option (IndexedFile r)

/-- A step of a program, on a device that never fails. -/
inductive Operation {ι : Type} (r : KeyedRealm ι) where
  | openOutput (build : Build) (overwrite : Bool) (heap : ℕ → Memory)
  | insert (host : Host) (key : r.Key) (value : r.Value)
  | read (build : Build) (key : r.Key)
  | close (host host' : Host)

/-- What a step does to the values in the file. -/
inductive Change {ι : Type} (r : KeyedRealm ι) where
  | truncated
  | inserted (key : r.Key) (value : r.Value)

/-- The file at first; nothing is known of it. -/
def Program.start (r : KeyedRealm ι) (file : List Byte) : Program r := ⟨file, false, none⟩

/-- The session goes on with `object`. -/
def Program.goOn (p : Program r) (object : IndexedFile r) : Program r :=
  { p with object := some object }

/-- A step. Exceptions of inserts and reads are caught. -/
def Program.step (lib : Libraries) (operation : Operation r) (p : Program r) :
    Except Stop (Program r × List (Change r)) :=
  match operation, p.object with
  | .openOutput build overwrite heap, none =>
    match openIndexedOutputFile r build lib heap (outputFile p.file overwrite) with
    | .ok (index, isNew) s =>
      .ok ({ p with created := true }.goOn ⟨⟨some s, index⟩, isNew⟩,
        if isNew then [.truncated] else [])
    | .error stop _ => .error stop
  | .insert host key value, some object =>
    match object.insert lib host key value with
    | .ok () object' => .ok (p.goOn object', [.inserted key value])
    | .error (.throws _) object' => .ok (p.goOn object', [])
    | .error stop _ => .error stop
  | .read build key, some object =>
    match object.toIndexedFileState.subscript build key with
    | .ok _ state | .error (.throws _) state =>
      .ok (p.goOn { object with toIndexedFileState := state }, [])
    | .error stop _ => .error stop
  | .close host host', some object =>
    match object.destroy lib host host' with
    | .ok () object' => .ok ({ p with file := object'.bytes, object := none }, [])
    | .error stop _ => .error stop
  | _, _ => .error .undefinedBehaviour

/-- The values that were inserted since the file was truncated last. -/
def written (changes : List (Change r)) : List (r.Key × r.Value) :=
  changes.foldl (fun values change => match change with
    | .truncated => []
    | .inserted key value => values ++ [(key, value)]) []

theorem written_truncated (past : List (Change r)) : written (past ++ [.truncated]) = [] := by
  unfold written
  rw [List.foldl_append]
  rfl

theorem written_inserted (past : List (Change r)) (key : r.Key) (value : r.Value) :
    written (past ++ [.inserted key value]) = written past ++ [(key, value)] := by
  unfold written
  rw [List.foldl_append]
  rfl

/-- The steps of programs that keep to one realm and one `Key`: the first session
    creates the file or truncates it, nothing fails, and no serialization exceeds
    what its encoding can hold. A position has 63 bits. -/
def Admitted (lib : Libraries) (p : Program r) : Operation r → Prop
  | .openOutput _ overwrite _ =>
    p.object = none ∧ (overwrite = true ∨ p.file = [] ∨ p.created = true)
  | .insert _ _ value =>
    (bytes (r.ty value.1) value.2).length < 2 ^ 31 ∧
      ∃ object, p.object = some object ∧ object.bytes.length < 2 ^ 63
  | .read _ _ => ∃ object, p.object = some object
  | .close host _ =>
    ∃ object, p.object = some object ∧ object.bytes.length < 2 ^ 63 ∧
      (object.needWriteIndex = true → IndexEncodable lib host object.index)

/-- What an admitted step does. -/
def Operation.changes (p : Program r) : Operation r → List (Change r)
  | .openOutput _ overwrite _ => if overwrite = true ∨ p.file = [] then [.truncated] else []
  | .insert _ key value => [.inserted key value]
  | .read _ _ | .close _ _ => []

/-- The invariant of such programs. -/
structure FileInv (lib : Libraries) (past : List (Change r)) (p : Program r) : Prop where
  writing : ∀ {object}, p.object = some object → WriterAt lib object (written past)
  finished : p.object = none → p.created = true → Finished lib p.file (written past)

variable {lib : Libraries} {past : List (Change r)} {p : Program r}

theorem fileInv_goOn {object : IndexedFile r} (h : WriterAt lib object (written past)) :
    FileInv lib past (p.goOn object) where
  writing hobject := by
    cases hobject
    exact h
  finished := nofun

/-- An opening that returns. -/
theorem step_openOutput {build : Build} {overwrite : Bool} {heap : ℕ → Memory}
    {index : BlocksIndex r} {isNew : Bool} {s : StdStream} (hnone : p.object = none)
    (h : openIndexedOutputFile r build lib heap (outputFile p.file overwrite) =
      .ok (index, isNew) s) :
    Program.step lib (.openOutput build overwrite heap) p =
      .ok ({ p with created := true }.goOn ⟨⟨some s, index⟩, isNew⟩,
        if isNew then [.truncated] else []) := by
  unfold Program.step
  rw [hnone]
  dsimp only
  rw [h]

section Open

variable {object : IndexedFile r} (hobject : p.object = some object)

include hobject

theorem step_insert {host : Host} {key : r.Key} {value : r.Value} {object' : IndexedFile r}
    (h : object.insert lib host key value = .ok () object') :
    Program.step lib (.insert host key value) p = .ok (p.goOn object', [.inserted key value]) := by
  unfold Program.step
  rw [hobject]
  dsimp only
  rw [h]

theorem step_read {build : Build} {key : r.Key} {state : IndexedFileState r}
    (h : (∃ block, object.toIndexedFileState.subscript build key = .ok block state) ∨
      ∃ e, object.toIndexedFileState.subscript build key = .error (.throws e) state) :
    Program.step lib (.read build key) p =
      .ok (p.goOn { object with toIndexedFileState := state }, []) := by
  unfold Program.step
  rw [hobject]
  dsimp only
  rcases h with ⟨block, h⟩ | ⟨e, h⟩
  · rw [h]
  · rw [h]

theorem step_close {host host' : Host} {object' : IndexedFile r}
    (h : object.destroy lib host host' = .ok () object') :
    Program.step lib (.close host host') p =
      .ok ({ p with file := object'.bytes, object := none }, []) := by
  unfold Program.step
  rw [hobject]
  dsimp only
  rw [h]

end Open

/-- An opening keeps the invariant. -/
theorem FileInv.openOutput (h : FileInv lib past p) (build : Build) {overwrite : Bool}
    (heap : ℕ → Memory) (hnone : p.object = none)
    (hstart : overwrite = true ∨ p.file = [] ∨ p.created = true) :
    ∃ p' changes, Program.step lib (.openOutput build overwrite heap) p = .ok (p', changes) ∧
      changes = Operation.changes p (.openOutput build overwrite heap) ∧
      FileInv lib (past ++ changes) p' := by
  by_cases hnew : overwrite = true ∨ p.file = []
  · have hopen := openIndexedOutputFile_new (r := r) build lib heap hnew
    refine ⟨_, [.truncated], step_openOutput hnone hopen, (if_pos hnew).symm, fileInv_goOn ?_⟩
    rw [written_truncated]
    exact writerAt_new
  · obtain ⟨hoverwrite, hfile⟩ := not_or.mp hnew
    have hcreated := (hstart.resolve_left hoverwrite).resolve_left hfile
    obtain rfl : overwrite = false := eq_false_of_ne_true hoverwrite
    obtain ⟨index, s, hopen, hwriter⟩ := (h.finished hnone hcreated).openOutput build heap
    refine ⟨_, [], step_openOutput hnone hopen, (if_neg hnew).symm, ?_⟩
    rw [List.append_nil]
    exact fileInv_goOn hwriter

/-- So does a read. -/
theorem FileInv.read (h : FileInv lib past p) (build : Build) (key : r.Key)
    {object : IndexedFile r} (hobject : p.object = some object) :
    ∃ p', Program.step lib (.read build key) p = .ok (p', []) ∧ FileInv lib past p' := by
  obtain ⟨state, hwriter, hread⟩ := (h.writing hobject).subscript build key
  exact ⟨_, step_read hobject (hread.imp_right fun h => ⟨_, h⟩), fileInv_goOn hwriter⟩

/-- And the end of a session. -/
theorem FileInv.close (h : FileInv lib past p) (hlib : KeepsMarkerSize lib) {host : Host}
    (host' : Host) {object : IndexedFile r} (hobject : p.object = some object)
    (hlt : object.bytes.length < 2 ^ 63)
    (hindex : object.needWriteIndex = true → IndexEncodable lib host object.index) :
    ∃ p', Program.step lib (.close host host') p = .ok (p', []) ∧ FileInv lib past p' := by
  obtain ⟨object', hdestroy, hfinished⟩ := (h.writing hobject).destroy hlib host host' hlt hindex
  exact ⟨_, step_close hobject hdestroy, nofun, fun _ _ => hfinished⟩

/-- An admitted step returns, and keeps the invariant. -/
theorem FileInv.step (h : FileInv lib past p) (hlib : KeepsMarkerSize lib) {operation : Operation r}
    (hadmitted : Admitted lib p operation) :
    ∃ p', Program.step lib operation p = .ok (p', operation.changes p) ∧
      FileInv lib (past ++ operation.changes p) p' := by
  cases operation with
  | openOutput build overwrite heap =>
    obtain ⟨p', _, hstep, rfl, hinv⟩ := h.openOutput build heap hadmitted.1 hadmitted.2
    exact ⟨p', hstep, hinv⟩
  | insert host key value =>
    obtain ⟨hvalue, object, hobject, hlt⟩ := hadmitted
    obtain ⟨block, hencode, hblock⟩ := holds_encodeValue lib (r.ty value.1) value.2 host
      (r.lookupId value.1) hvalue
    obtain ⟨object', hinsert, hwriter⟩ := (h.writing hobject).insert key hencode hblock hlt
    refine ⟨_, step_insert hobject hinsert, fileInv_goOn ?_⟩
    show WriterAt lib _ (written (past ++ [.inserted key value]))
    rw [written_inserted]
    exact hwriter
  | read build key =>
    obtain ⟨object, hobject⟩ := hadmitted
    obtain ⟨p', hstep, hinv⟩ := h.read build key hobject
    exact ⟨p', hstep, (List.append_nil past).symm ▸ hinv⟩
  | close host host' =>
    obtain ⟨object, hobject, hlt, hindex⟩ := hadmitted
    obtain ⟨p', hstep, hinv⟩ := h.close hlib host' hobject hlt hindex
    exact ⟨p', hstep, (List.append_nil past).symm ▸ hinv⟩

/-- All runs of such programs keep it. -/
theorem fileInv_of_runsTo (hlib : KeepsMarkerSize lib) {file : List Byte}
    (h : RunsTo (Program.step lib) (Admitted lib) (Program.start r file) past p) :
    FileInv lib past p := by
  refine h.invariant ⟨nofun, nofun⟩ ?_
  intro past events p p' operation hinv hadmitted hstep
  obtain ⟨p'', hstep', hinv'⟩ := hinv.step hlib hadmitted
  cases hstep.symm.trans hstep'
  exact hinv'

/-- Sessions on one file: no admitted step fails. Between them the file can be
    opened for reading, and during a session it is read through its object; either
    way it shows the values that were inserted last. -/
theorem indexed_sessions (hlib : KeepsMarkerSize lib) {file : List Byte}
    (h : RunsTo (Program.step lib) (Admitted lib) (Program.start r file) past p) :
    (∀ operation, Admitted lib p operation →
      ∃ p', Program.step lib operation p = .ok (p', operation.changes p)) ∧
    (∀ object, p.object = some object →
      Shows lib object.bytes object.toIndexedFileState (written past)) ∧
    (p.object = none → p.created = true → ∀ build heap, ∃ index s,
      openIndexedInputFile r build lib heap (inputFile p.file) = .ok index s ∧ Working p.file s ∧
        ∀ s', Working p.file s' → Shows lib p.file ⟨some s', index⟩ (written past)) := by
  have hinv := fileInv_of_runsTo hlib h
  refine ⟨?_, ?_, ?_⟩
  · intro operation hadmitted
    obtain ⟨p', hstep, -⟩ := hinv.step hlib hadmitted
    exact ⟨p', hstep⟩
  · intro object hobject
    obtain ⟨file, s, hs, hworking, hhas, -⟩ := hinv.writing hobject
    have hstate : object.toIndexedFileState = ⟨some s, object.index⟩ := by rw [← hs]
    have hbytes : object.bytes = file := by
      rw [hstate]
      exact hworking.bytes_eq
    rw [hbytes, hstate]
    exact hhas.shows hworking
  · intro hnone hcreated build heap
    exact (hinv.finished hnone hcreated).openInput build heap

end Programs

/-! ## A session -/

section Session

theorem keepsMarkerSize_stored : KeepsMarkerSize Libraries.stored := by
  intro raw hraw
  constructor
  · intro fresh
    have hlt := lt_length_zstdCompress_stored fresh (show raw.bytes.length < 2 ^ 31 by omega)
    rw [hraw] at hlt
    exact le_of_lt hlt
  · intro dst hdst
    rcases lzoCompress_eq Lzo.stored raw with ⟨-, out, dst', hdst', hbytes, hout⟩ | ⟨-, herror⟩
    · cases hdst.symm.trans hdst'
      have hlen := congrArg List.length (LzoStatus.ok.inj hout)
      rw [hraw, List.length_take, List.length_drop] at hlen
      rw [hbytes, List.length_append, length_wordBytes]
      omega
    · cases herror.symm.trans hdst

/-- A program's environment that leaves the choice of the encoding open. -/
def defaultHost : Host := ⟨none, fun _ => 0⟩

/-- A block that is not compressed. -/
def plainBlock (id : Int16T) (raw : Buffer) : EncodedBlock :=
  { contentType := id, contentEncoding := encodingIdentity, contentChecksum := crc32c raw.bytes,
    content := raw }

/-- What becomes of a short value. -/
theorem encodeValue_defaultHost {α : Type} (id : Int16T) (s : Ty α) {value : α} {raw : Buffer}
    (hraw : raw.bytes = bytes s value) (h : raw.bytes.length < 2 ^ 31) :
    encodeValue Libraries.stored defaultHost id s value = .ok (plainBlock id raw) := by
  have hlt := lt_length_zstdCompress_stored defaultHost.fresh h
  rw [encodeValue_eq Libraries.stored s value defaultHost id hraw]
  show Except.ok (smallerBlock id raw encodingZstd
    (zstdCompress Zstd.stored defaultHost.fresh raw)) = _
  unfold smallerBlock
  rw [if_pos hlt]
  rfl

/-- A session on a new file. -/
def newFile : Program byteFiles :=
  { Program.start byteFiles [] with created := true }.goOn
    ⟨⟨some (StdStream.endOf (headerBytes byteFiles.toRealm) true), BlocksIndex.empty byteFiles⟩, true⟩

theorem one_le_maxElems : [(7 : Byte)].length ≤ maxElems 1 := by decide

/-- The block of a value. -/
def sevenBlock : EncodedBlock := plainBlock 7 (Buffer.ofBytes [7] one_le_maxElems)

theorem length_sevenBlock : (blockBytes sevenBlock).length = 10 := by
  rw [length_blockBytes]
  rfl

theorem ten_le_maxElems : 10 ≤ maxElems 1 := by decide

/-- What is serialized into the block of an index with one entry. -/
def indexBuffer : Buffer := Buffer.ofBytes [1, 1, 8, 0, 0, 0, 0, 0, 0, 0] ten_le_maxElems

/-- What is serialized into the block of the marker. -/
def markerBuffer : Buffer := Buffer.ofBytes [18, 0, 0, 0, 0, 0, 0, 0, 7, 0] ten_le_maxElems

/-- The blocks of an index and a marker. -/
def indexTail : List Byte :=
  blockBytes (plainBlock (-11) indexBuffer) ++ blockBytes (plainBlock (-10) markerBuffer)

theorem length_indexTail : indexTail.length = 38 := by
  unfold indexTail
  rw [List.length_append, length_blockBytes, length_blockBytes]
  rfl

/-- The index that has the position of the block. -/
def filledIndex : BlocksIndex byteFiles :=
  ⟨⟨[((1 : BitVec (8 * 1)), 8)], List.pairwise_singleton _ _, Nat.one_lt_two_pow' 63⟩⟩

/-- The object after an insert. -/
def filledObject : IndexedFile byteFiles :=
  ⟨⟨some (StdStream.endOf (headerBytes byteFiles.toRealm ++ blockBytes sevenBlock) true),
    filledIndex⟩, true⟩

/-- The session after it. -/
def filledFile : Program byteFiles := newFile.goOn filledObject

theorem step_openNew (build : Build) (heap : ℕ → Memory) :
    Program.step Libraries.stored (.openOutput build true heap) (Program.start byteFiles []) =
      .ok (newFile, [.truncated]) :=
  step_openOutput rfl (openIndexedOutputFile_new build Libraries.stored heap (Or.inl rfl))

/-- The object on a new file. -/
def emptyObject : IndexedFile byteFiles :=
  ⟨⟨some (StdStream.endOf (headerBytes byteFiles.toRealm) true), BlocksIndex.empty byteFiles⟩, true⟩

theorem insert_emptyObject :
    emptyObject.insert Libraries.stored defaultHost (1 : BitVec (8 * 1)) ⟨(), (7 : BitVec (8 * 1))⟩ =
      .ok () filledObject := by
  have hencode : byteFiles.encode Libraries.stored defaultHost ⟨(), (7 : BitVec (8 * 1))⟩ =
      .ok sevenBlock := encodeValue_defaultHost 7 (byteFiles.ty ()) rfl (by decide)
  have hroom : StdStream.HasRoom (StdStream.endOf (headerBytes byteFiles.toRealm) true)
      (blockBytes sevenBlock).length := nofun
  have happend := rememberedAppend_eq rfl rfl hroom
  rw [← hencode] at happend
  have hassign : (BlocksIndex.empty byteFiles).assign (1 : BitVec (8 * 1)) 8 = .ok filledIndex := by
    rfl
  have hstream : (StdStream.toEnd (StdStream.endOf (headerBytes byteFiles.toRealm) true)).appended
      (blockBytes sevenBlock) =
        StdStream.endOf (headerBytes byteFiles.toRealm ++ blockBytes sevenBlock) true := by
    unfold StdStream.endOf
    rw [List.length_append]
    rfl
  have hptr : emptyObject.streamPtr =
      some (StdStream.endOf (headerBytes byteFiles.toRealm) true) := rfl
  rw [hstream] at happend
  exact insert_of_ok hptr happend hassign

theorem step_newFile :
    Program.step Libraries.stored (.insert defaultHost (1 : BitVec (8 * 1))
      ⟨(), (7 : BitVec (8 * 1))⟩) newFile =
      .ok (filledFile, [.inserted (1 : BitVec (8 * 1)) ⟨(), (7 : BitVec (8 * 1))⟩]) :=
  step_insert (p := newFile) rfl insert_emptyObject

theorem admitted_newFile : Admitted Libraries.stored newFile
    (.insert defaultHost (1 : BitVec (8 * 1)) ⟨(), (7 : BitVec (8 * 1))⟩) :=
  ⟨by decide, _, rfl, by decide⟩

/-- The run of the session. -/
theorem runsTo_filledFile :
    RunsTo (Program.step Libraries.stored) (Admitted Libraries.stored) (Program.start byteFiles [])
      ([] ++ [.truncated] ++ [.inserted (1 : BitVec (8 * 1)) ⟨(), (7 : BitVec (8 * 1))⟩])
      filledFile := by
  have hopened : RunsTo (Program.step Libraries.stored) (Admitted Libraries.stored)
      (Program.start byteFiles []) ([] ++ [.truncated]) newFile :=
    RunsTo.init.step (a := .openOutput { rangeChecks := true } true fun _ _ => 0)
      ⟨rfl, Or.inl rfl⟩ (step_openNew _ _)
  exact hopened.step admitted_newFile step_newFile

theorem indexEncodable_filledFile : IndexEncodable Libraries.stored defaultHost filledIndex :=
  ⟨indexBuffer, rfl, encodable_of_lt Libraries.stored _ (by decide)⟩

theorem admitted_filledFile :
    Admitted Libraries.stored filledFile (.close defaultHost defaultHost) :=
  ⟨_, rfl, by decide, fun _ => indexEncodable_filledFile⟩

/-- The file with the value, its index and its marker. -/
def closedFile : List Byte := headerBytes byteFiles.toRealm ++ blockBytes sevenBlock ++ indexTail

theorem length_closedFile : closedFile.length = 56 := by
  unfold closedFile
  rw [List.length_append, List.length_append, length_headerBytes, length_sevenBlock,
    length_indexTail]

/-- It can be closed. -/
theorem destroy_filledObject :
    ∃ object, filledObject.destroy Libraries.stored defaultHost defaultHost = .ok () object ∧
      object.bytes = closedFile := by
  have hindex : encodeMeta (r := byteFiles) Libraries.stored defaultHost .blocksIndex
      filledObject.index = .ok (plainBlock (-11) indexBuffer) :=
    encodeValue_defaultHost (-11) (BlocksIndex.ty byteFiles) rfl (by decide)
  have hraw : markerBuffer.bytes = bytes IndexPositionMarker.ty (markerAt byteFiles (18 : ℕ)) := by
    rfl
  have hlen : (headerBytes byteFiles.toRealm ++ blockBytes sevenBlock).length = 18 := by
    rw [List.length_append, length_headerBytes, length_sevenBlock]
  have hmarker : encodeMeta (r := byteFiles) Libraries.stored defaultHost .indexPositionMarker
      (markerAt byteFiles (headerBytes byteFiles.toRealm ++ blockBytes sevenBlock).length) =
        .ok (plainBlock (-10) markerBuffer) := by
    rw [hlen]
    exact encodeValue_defaultHost (-10) IndexPositionMarker.ty hraw (by decide)
  obtain ⟨s, hdestroy, hs⟩ := destroy_eq rfl (working_endOf _) rfl hindex hmarker
  exact ⟨_, hdestroy, hs.bytes_eq⟩

theorem step_filledFile :
    Program.step Libraries.stored (.close defaultHost defaultHost) filledFile =
      .ok (⟨closedFile, true, none⟩, []) := by
  obtain ⟨object, hdestroy, hbytes⟩ := destroy_filledObject
  rw [step_close (p := filledFile) rfl hdestroy, hbytes]
  rfl

/-- A new file with one value, closed and opened again. -/
theorem filledFile_reopened :
    ∃ past p, RunsTo (Program.step Libraries.stored) (Admitted Libraries.stored)
        (Program.start byteFiles []) past p ∧
      written past = [((1 : BitVec (8 * 1)), ⟨(), (7 : BitVec (8 * 1))⟩)] ∧
      ∀ build heap, ∃ index s,
        openIndexedInputFile byteFiles build Libraries.stored heap (inputFile p.file) = .ok index s ∧
          Working p.file s ∧ ∀ s', Working p.file s' →
            Shows Libraries.stored p.file ⟨some s', index⟩ (written past) := by
  have hclosed := runsTo_filledFile.step admitted_filledFile step_filledFile
  exact ⟨_, _, hclosed, rfl, (indexed_sessions keepsMarkerSize_stored hclosed).2.2 rfl rfl⟩

end Session

end BambooShoot.Pbsf
