import BambooShoot.Pbsf.DataBlock
import BambooShoot.Pbss.Truncation

/-!
# Realms and blocks of values

Model of `realm.hh`, of the serialization of `EncodedBlock` (`defs.hh`,
lines 100–119) and of `write_block` and `parse_from_block` (`data-block.hh`,
lines 44–76).

Results:
* `emits_writeBlock`: `write_block` writes one block;
* `holds_encodeValue`: a value whose serialization is shorter than 2 GiB is
  found again in its block;
* `consumes_encodedBlock`, `rejectsPrefix_encodedBlock`: blocks delimit
  themselves, and a part of one is recognized.
-/

namespace BambooShoot.Pbsf

open BambooShoot.Lib BambooShoot.Pbss

/-! ## Blocks in a stream -/

/-- `PBSS_TUPLE_MEMBERS` of `EncodedBlock`. -/
def EncodedBlock.members : EncodedBlock ≃ Int16T × Int16T × UInt32T × Buffer × Unit where
  toFun block :=
    (block.contentType, block.contentEncoding, block.contentChecksum, block.content, ())
  invFun t := ⟨t.1, t.2.1, t.2.2.1, t.2.2.2.1⟩
  left_inv _ := rfl
  right_inv _ := rfl

/-- `pbss::buffer` as a type to serialize. -/
def bufferTy : Ty Buffer := .contiguous 1 Nat.one_pos false

/-- `EncodedBlock` as a type to serialize. -/
def EncodedBlock.ty : Ty EncodedBlock :=
  .tupleStruct EncodedBlock.members
    (.cons (.arith (.bits 2 (by decide)))
      (.cons (.arith (.bits 2 (by decide)))
        (.cons (.arith (.bits 4 (by decide)))
          (.cons bufferTy .nil))))

/-- A block in a file. -/
def blockBytes (block : EncodedBlock) : List Byte := bytes EncodedBlock.ty block

theorem wordBytes_byte (b : BitVec (8 * 1)) : wordBytes b = [b] := by
  show [BitVec.ofNat 8 b.toNat] = [b]
  rw [BitVec.ofNat_toNat]
  rfl

theorem bytes_bufferTy (content : Buffer) :
    bytes bufferTy content = base128 content.bytes.length ++ content.bytes := by
  have hlen : content.elems.length ≤ 2 ^ 63 - 1 := content.length_le
  have hsize : content.size.toNat = content.elems.length := by
    rw [Vec.size, BitVec.toNat_ofNat]
    exact Nat.mod_eq_of_lt (by omega)
  have hbytes : content.elems.flatMap wordBytes = content.bytes := by
    unfold Buffer.bytes
    induction content.elems with
    | nil => rfl
    | cons b bs ih => rw [List.flatMap_cons, ih, wordBytes_byte, List.singleton_append]
  unfold bufferTy
  rw [bytes, hsize, hbytes]
  rfl

/-- The layout of `doc/file.md`, "Data block". -/
theorem blockBytes_eq (block : EncodedBlock) :
    blockBytes block = wordBytes block.contentType ++ (wordBytes block.contentEncoding ++
      (wordBytes block.contentChecksum ++
        (base128 block.content.bytes.length ++ block.content.bytes))) := by
  show wordBytes block.contentType ++ (wordBytes block.contentEncoding ++
    (wordBytes block.contentChecksum ++ (bytes bufferTy block.content ++ []))) = _
  rw [List.append_nil, bytes_bufferTy]

theorem length_blockBytes (block : EncodedBlock) :
    (blockBytes block).length =
      8 + (base128 block.content.bytes.length).length + block.content.bytes.length := by
  rw [blockBytes_eq]
  simp only [List.length_append, length_wordBytes]
  omega

theorem blockBytes_ne_nil (block : EncodedBlock) : blockBytes block ≠ [] := by
  intro h
  have hlen := length_blockBytes block
  rw [h, List.length_nil] at hlen
  omega

section Stream

variable {σ : Type} [InputStream σ] [ForwardInputStream σ]

/-- No loop of the parser of blocks depends on its fuel. -/
theorem settles_encodedBlock (build : Build) :
    Settles fun fuel => (Fuel.parse build fuel EncodedBlock.ty : Run σ EncodedBlock) := by
  have hcontent : Settles fun fuel => (Fuel.parse build fuel bufferTy : Run σ Buffer) :=
    (settles_readVarUint 64).bind fun size => settles_parseElemsBulk 1 false size
  have hlast := hcontent.bind fun v => (Settles.pure ()).bind fun u => Settles.pure (v, u)
  have hchecksum := (settles_readPrim (.bits 4 (by decide))).bind fun v =>
    hlast.bind fun vs => Settles.pure (v, vs)
  have hencoding := (settles_readPrim (.bits 2 (by decide))).bind fun v =>
    hchecksum.bind fun vs => Settles.pure (v, vs)
  have htype := (settles_readPrim (.bits 2 (by decide))).bind fun v =>
    hencoding.bind fun vs => Settles.pure (v, vs)
  exact htype.bind fun t => Settles.pure (EncodedBlock.members.symm t)

variable [LawfulInputStream σ] (build : Build)

theorem consumes_encodedBlock (block : EncodedBlock) :
    Consumes (parse build EncodedBlock.ty : Run σ _) (blockBytes block) block :=
  consumes_parse_self build EncodedBlock.ty block

/-- A stream that ends inside of a block is noticed. -/
theorem rejectsPrefix_encodedBlock (block : EncodedBlock) :
    RejectsPrefix (parse build EncodedBlock.ty : Run σ _) (blockBytes block) := by
  apply rejectsPrefix_parse (settles_encodedBlock build)
  apply rejects_tupleStruct
  apply rejectsTuple_cons (rejects_arith _)
  apply rejectsTuple_cons (rejects_arith _)
  apply rejectsTuple_cons (rejects_arith _)
  apply rejectsTuple_cons (rejects_contiguous _ _)
  exact rejectsTuple_nil

end Stream

/-! ## Realms -/

/-- `abstract_realm<entries...>`: the types `type_entry<id, T>` registers, named
    by `ι`, with their ids. -/
structure AbstractRealm (ι : Type) where
  type : ι → Type
  ty : (i : ι) → Ty (type i)
  /-- `lookup_id<T>`. -/
  lookupId : ι → Int16T
  lookupId_injective : Function.Injective lookupId

/-- `realm<id, entries...>`. -/
structure Realm (ι : Type) extends AbstractRealm ι where
  id : UInt32T

/-! ## Writing -/

/-- `env_preferred_encoding()` (`data-block.cc`, lines 34–51), on the value of
    `PBSF_COMPRESSION`. -/
def envPreferredEncoding (pref : Option String) : Int16T :=
  match pref with
  | none => encodingZstd
  | some pref =>
    let pref := pref.map Char.toLower
    if pref = "identity" then encodingIdentity
    else if pref = "lzo" then encodingLzo
    else if pref = "zstd" then encodingZstd
    else encodingZstd

/-- What a program that writes blocks finds: its environment, and memory. -/
structure Host where
  /-- `getenv("PBSF_COMPRESSION")`. -/
  pbsfCompression : Option String
  fresh : Memory

/-- The bytes of a buffer of which some may never have been written. -/
def Memory.read (fresh : Memory) (memory : List (Option Byte)) : List Byte :=
  memory.zipIdx.map fun (byte, i) => byte.getD (fresh i)

theorem Memory.read_map_some (fresh : Memory) (bs : List Byte) : fresh.read (bs.map some) = bs := by
  unfold Memory.read
  rw [List.zipIdx_map, List.map_map]
  exact List.zipIdx_map_fst 0 bs

section Write

variable (lib : Libraries) (host : Host)

/-- `encode_block(id, pbss::serialize_to_buffer(value))`, the block that
    `write_block` serializes (line 49). -/
def encodeValue {α : Type} (id : Int16T) (s : Ty α) (value : α) : Except Stop EncodedBlock := do
  let memory ← serializeToBuffer s value
  let raw := host.fresh.read memory
  if h : raw.length ≤ maxElems 1 then
    encodeBlock lib host.fresh id (Buffer.ofBytes raw h)
      (envPreferredEncoding host.pbsfCompression)
  else throw (.throws .lengthError)

variable {lib host} in
theorem encodeValue_contentType {α : Type} {id : Int16T} {s : Ty α} {value : α}
    {block : EncodedBlock} (h : encodeValue lib host id s value = .ok block) :
    block.contentType = id := by
  unfold encodeValue at h
  cases hserialize : serializeToBuffer s value with
  | error stop => rw [hserialize] at h; cases h
  | ok memory =>
    rw [hserialize] at h
    have hblock : (if hle : (host.fresh.read memory).length ≤ maxElems 1 then
        encodeBlock lib host.fresh id (Buffer.ofBytes _ hle)
          (envPreferredEncoding host.pbsfCompression)
      else .error (.throws .lengthError)) = .ok block := h
    split_ifs at hblock
    exact encodeBlock_contentType hblock

/-- `serialize(stream, block)` for a block that is still to be made
    (`data-block.hh`, line 49): nothing is written if that fails. -/
def writeBlock {ω : Type} [OutputStream ω] (encoded : Except Stop EncodedBlock) : Run ω Unit := do
  let block ← ofExcept encoded
  serialize EncodedBlock.ty block

variable {lib host}

theorem emits_writeBlock {ω : Type} [OutputStream ω] [LawfulOutputStream ω] (block : EncodedBlock) :
    Emits (writeBlock (.ok block) : Run ω Unit) (blockBytes block) := by
  intro s hgood
  exact emits_serialize EncodedBlock.ty block s hgood

end Write

/-! ## Reading -/

section Read

variable (build : Build) (lib : Libraries) (fresh : Memory)

/-- `parse_from_buffer<T>(buf)` (`pbss.hh`, lines 159–166). -/
def parseFromBuffer {α : Type} (s : Ty α) (buf : Buffer) : Except Stop α :=
  outcome (parse build s (CharRangeReader.ofBytes buf.bytes))

/-- `parse_from_block<T>` (`data-block.hh`, lines 68–74), on the block it
    moves from. -/
def parseFromBlock {α : Type} (s : Ty α) : Run EncodedBlock α := do
  let raw ← decodeBlock lib fresh
  ofExcept (parseFromBuffer build s raw)

/-- What decoding and parsing `block` gives. -/
def readBlock {α : Type} (s : Ty α) (block : EncodedBlock) : Except Stop α :=
  outcome (parseFromBlock build lib fresh s block)

end Read

/-- A block that is read has been decoded. -/
theorem decodeBlock_of_readBlock {build : Build} {lib : Libraries} {fresh : Memory} {α : Type}
    {s : Ty α} {block : EncodedBlock} {v : α} (h : readBlock build lib fresh s block = .ok v) :
    ∃ raw moved, decodeBlock lib fresh block = .ok raw moved := by
  unfold readBlock parseFromBlock at h
  cases hdecode : decodeBlock lib fresh block with
  | ok raw moved => exact ⟨raw, moved, rfl⟩
  | error stop moved =>
    rw [bind_of_error hdecode] at h
    cases h

/-- The block holds `value`, whatever program reads it. -/
def Holds (lib : Libraries) {α : Type} (s : Ty α) (block : EncodedBlock) (value : α) : Prop :=
  ∀ build fresh, readBlock build lib fresh s block = .ok value

theorem parseFromBuffer_bytes (build : Build) {α : Type} (s : Ty α) {value : α} {buf : Buffer}
    (h : buf.bytes = bytes s value) : parseFromBuffer build s buf = .ok value := by
  have hready := CharRangeReader.between_ready [] (bytes s value ++ [])
  have hparse := (consumes_parse_self (σ := CharRangeReader) build s value).run hready
  unfold parseFromBuffer CharRangeReader.ofBytes
  rw [List.append_nil] at hparse
  rw [h, hparse, outcome]

/-- Buffers below 2 GiB are encodable. -/
theorem encodable_of_lt (lib : Libraries) {raw : Buffer} (encoding : Int16T)
    (h : raw.bytes.length < 2 ^ 31) : Encodable lib raw encoding := by
  unfold Encodable
  split_ifs
  · rw [maxElems_one]
    omega
  · split
    · omega
    · next e _ =>
      have := e.lt
      omega

section Holds

variable (lib : Libraries) {α : Type} (s : Ty α) (value : α)

/-- An encodable value is found again in its block. -/
theorem holds_encodeBlock (fresh : Memory) (id encoding : Int16T) {raw : Buffer}
    (hraw : raw.bytes = bytes s value) (h : Encodable lib raw encoding) :
    ∃ block, encodeBlock lib fresh id raw encoding = .ok block ∧ block.contentType = id ∧
      Holds lib s block value := by
  have htrips := fun fresh' => roundTrips_of_encodable lib raw encoding fresh fresh' id h
  obtain ⟨block, _, hencode, _, hid, -, -⟩ := htrips fresh
  refine ⟨block, hencode, hid, ?_⟩
  intro build fresh'
  obtain ⟨block', moved, hencode', hdecode, -, -, -⟩ := htrips fresh'
  cases hencode.symm.trans hencode'
  unfold readBlock parseFromBlock
  rw [bind_of_ok hdecode, parseFromBuffer_bytes build s hraw]
  rfl

/-- What is encoded is the serialization, where that fits into memory. -/
theorem encodeValue_eq (host : Host) (id : Int16T) {raw : Buffer}
    (hraw : raw.bytes = bytes s value) :
    encodeValue lib host id s value =
      encodeBlock lib host.fresh id raw (envPreferredEncoding host.pbsfCompression) := by
  have hle : (bytes s value).length ≤ maxElems 1 := by
    rw [← hraw]
    exact raw.bounded
  have hserialize : serializeToBuffer s value = .ok ((bytes s value).map some) := by
    have hlt := maxElems_lt 1
    unfold serializeToBuffer
    rw [serializeToMemory_eq s value (by omega), if_neg (by omega)]
  have hbuffer : Buffer.ofBytes (bytes s value) hle = raw := Vec.ext hraw.symm
  unfold encodeValue
  rw [hserialize]
  show (if h : (host.fresh.read ((bytes s value).map some)).length ≤ maxElems 1 then _ else _) = _
  simp only [Memory.read_map_some]
  rw [dif_pos hle, hbuffer]

/-- A value whose serialization is shorter than 2 GiB is found again. -/
theorem holds_encodeValue (host : Host) (id : Int16T) (h : (bytes s value).length < 2 ^ 31) :
    ∃ block, encodeValue lib host id s value = .ok block ∧ block.contentType = id ∧
      Holds lib s block value := by
  have hle : (bytes s value).length ≤ maxElems 1 := by
    rw [maxElems_one]
    omega
  have hraw : (Buffer.ofBytes (bytes s value) hle).bytes = bytes s value := rfl
  rw [encodeValue_eq lib s value host id hraw]
  exact holds_encodeBlock lib s value host.fresh id _ hraw (encodable_of_lt lib _ h)

end Holds

end BambooShoot.Pbsf
