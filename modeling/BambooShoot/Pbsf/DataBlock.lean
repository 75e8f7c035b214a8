import BambooShoot.Pbsf.Compression
import BambooShoot.Pbsf.Crc32

/-!
# Encoded blocks

Model of `EncodedBlock` (`defs.hh`, lines 100–119) and of `encode_block` and
`decode_block` (`data-block.cc`, lines 53–103).

Results:
* `decodeBlock_eq`: what `decode_block` makes of a block whose checksum is right,
  encoding by encoding;
* `encodable_iff`: decoding undoes encoding exactly for the `Encodable`
  buffers. What an `int` cannot hold the size of is stored in a block that
  cannot be decoded.
-/

namespace BambooShoot.Pbsf

open BambooShoot.Lib BambooShoot.Pbss

/-- `int16_t`. -/
abbrev Int16T := BitVec (8 * 2)

/-- `uint32_t`. -/
abbrev UInt32T := BitVec (8 * 4)

theorem sizeof_uint32_pos : 0 < 4 := by decide

/-- `PBSF_ENCODING_IDENTITY`. -/
def encodingIdentity : Int16T := 1

/-- `PBSF_ENCODING_LZO`. -/
def encodingLzo : Int16T := 2

/-- `PBSF_ENCODING_ZSTD`. -/
def encodingZstd : Int16T := 5

/-- An empty buffer, as a move leaves one behind. -/
def emptyBuffer : Buffer := Buffer.ofBytes [] (Nat.zero_le _)

/-- `EncodedBlock`. -/
structure EncodedBlock where
  contentType : Int16T := 1
  contentEncoding : Int16T := 1
  contentChecksum : UInt32T := 0
  content : Buffer := emptyBuffer

/-- The compression libraries the program is linked with. -/
structure Libraries where
  zstd : Zstd
  lzo : Lzo

/-- The end of the cases of `encode_block` that compress (lines 63–69 and
    74–80): the compressed buffer, unless it is longer than the original. -/
def smallerBlock (id : Int16T) (raw : Buffer) (encoding : Int16T) (compressed : Buffer) :
    EncodedBlock :=
  if compressed.bytes.length > raw.bytes.length then
    { contentType := id, contentEncoding := encodingIdentity,
      contentChecksum := crc32c raw.bytes, content := raw }
  else
    { contentType := id, contentEncoding := encoding,
      contentChecksum := crc32c compressed.bytes, content := compressed }

/-- `encode_block(id, raw, encoding)` (lines 53–87). -/
def encodeBlock (lib : Libraries) (fresh : Memory) (id : Int16T) (raw : Buffer)
    (encoding : Int16T) : Except Stop EncodedBlock :=
  if encoding = encodingIdentity then
    .ok { contentType := id, contentEncoding := encodingIdentity,
          contentChecksum := crc32c raw.bytes, content := raw }
  else if encoding = encodingLzo then
    (lzoCompress lib.lzo raw).map (smallerBlock id raw encodingLzo)
  else
    -- `case PBSF_ENCODING_ZSTD`, which the default case starts again with
    .ok (smallerBlock id raw encodingZstd (zstdCompress lib.zstd fresh raw))

/-- `decode_block(std::move(block))` (lines 89–103): only the identity moves
    the content out. -/
def decodeBlock (lib : Libraries) (fresh : Memory) : Run EncodedBlock Buffer := do
  let block ← get
  if block.contentChecksum ≠ crc32c block.content.bytes then raise .badChecksumError
  else if block.contentEncoding = encodingIdentity then
    set { block with content := emptyBuffer }
    pure block.content
  else if block.contentEncoding = encodingLzo then ofExcept (lzoDecompress lib.lzo block.content)
  else if block.contentEncoding = encodingZstd then
    ofExcept (zstdDecompress lib.zstd fresh block.content)
  else raise .unknownEncodingError

/-- A block carries the id it was encoded with. -/
theorem encodeBlock_contentType {lib : Libraries} {fresh : Memory} {id encoding : Int16T}
    {raw : Buffer} {block : EncodedBlock} (h : encodeBlock lib fresh id raw encoding = .ok block) :
    block.contentType = id := by
  have hsmaller : ∀ encoding compressed,
      (smallerBlock id raw encoding compressed).contentType = id := by
    intro encoding compressed
    unfold smallerBlock
    split_ifs
    · rfl
    · rfl
  unfold encodeBlock at h
  split_ifs at h
  · cases h
    rfl
  · cases hlzo : lzoCompress lib.lzo raw with
    | ok compressed =>
      rw [hlzo] at h
      cases h
      exact hsmaller _ _
    | error stop => rw [hlzo] at h; cases h
  · cases h
    exact hsmaller _ _

/-- The length of a compressed buffer does not depend on fresh memory, -/
theorem length_zstdCompress (z : Zstd) (fresh fresh' : Memory) (src : Buffer) :
    (zstdCompress z fresh src).bytes.length = (zstdCompress z fresh' src).bytes.length := by
  cases h : z.compress (zstdCapacity src.bytes.length) src.bytes with
  | ok frame => rw [zstdCompress_ok fresh h, zstdCompress_ok fresh' h]
  | error e =>
    rw [zstdCompress_error fresh h, zstdCompress_error fresh' h, Memory.length_fill,
      Memory.length_fill]

/-- nor does that of a block. -/
theorem length_encodeBlock {lib : Libraries} {fresh fresh' : Memory} {id encoding : Int16T}
    {raw : Buffer} {block block' : EncodedBlock}
    (h : encodeBlock lib fresh id raw encoding = .ok block)
    (h' : encodeBlock lib fresh' id raw encoding = .ok block') :
    block.content.bytes.length = block'.content.bytes.length := by
  unfold encodeBlock at h h'
  split_ifs at h h' with hid hlzo
  · cases h
    cases h'
    rfl
  · cases h.symm.trans h'
    rfl
  · cases h
    cases h'
    have hlen := length_zstdCompress lib.zstd fresh fresh' raw
    unfold smallerBlock
    rw [hlen]
    split_ifs
    · rfl
    · exact hlen

/-- Nor does it decide whether there is one. -/
theorem exists_encodeBlock {lib : Libraries} {fresh : Memory} (fresh' : Memory)
    {id encoding : Int16T} {raw : Buffer} {block : EncodedBlock}
    (h : encodeBlock lib fresh id raw encoding = .ok block) :
    ∃ block', encodeBlock lib fresh' id raw encoding = .ok block' := by
  unfold encodeBlock at h ⊢
  split_ifs at h ⊢ with hid hlzo
  · exact ⟨_, rfl⟩
  · exact ⟨_, h⟩
  · exact ⟨_, rfl⟩

/-! ## Decoding what was encoded -/

/-- `decode_block` undoes `encode_block` on `raw`: the block keeps its type,
    its encoding is one `decode_block` accepts and it is no longer than `raw`. -/
def RoundTrips (lib : Libraries) (fresh fresh' : Memory) (id : Int16T) (raw : Buffer)
    (encoding : Int16T) : Prop :=
  ∃ block moved, encodeBlock lib fresh id raw encoding = .ok block ∧
    decodeBlock lib fresh' block = .ok raw moved ∧
    block.contentType = id ∧
    block.contentEncoding ∈ [encodingIdentity, encodingLzo, encodingZstd] ∧
    block.content.bytes.length ≤ raw.bytes.length

/-- The buffers that survive: LZO needs room for its worst case, and Zstandard
    a size below `2 ^ 31`. From there on the `int` is negative, and
    `ZSTD_decompress` is told a capacity of almost `2 ^ 64`: up to `2 ^ 32` a buffer
    survives if its frame is too long to be stored, or is decompressed all the
    same. If `ZSTD_compress` fails the buffer has to be shorter than the length its
    error code is taken for. -/
def Encodable (lib : Libraries) (raw : Buffer) (encoding : Int16T) : Prop :=
  if encoding = encodingIdentity then True
  else if encoding = encodingLzo then
    raw.bytes.length + raw.bytes.length / 16 + 75 ≤ maxElems 1
  else
    match lib.zstd.compress (zstdCapacity raw.bytes.length) raw.bytes with
    | .ok frame => raw.bytes.length < 2 ^ 31 ∨ raw.bytes.length < 2 ^ 32 ∧
        (raw.bytes.length < frame.length + 4 ∨
          lib.zstd.decompress (2 ^ 64 - 2 ^ 32 + raw.bytes.length) frame = .ok raw.bytes)
    | .error e => raw.bytes.length + e.code < 2 ^ 32 + 4

section Decode

variable (lib : Libraries) (fresh : Memory) (id : Int16T)

/-- A block is decoded by its encoding. -/
theorem decodeBlock_eq (encoding : Int16T) (content : Buffer) :
    decodeBlock lib fresh ⟨id, encoding, crc32c content.bytes, content⟩ =
      if encoding = encodingIdentity then
        .ok content ⟨id, encoding, crc32c content.bytes, emptyBuffer⟩
      else
        (ofExcept (if encoding = encodingLzo then lzoDecompress lib.lzo content
          else if encoding = encodingZstd then zstdDecompress lib.zstd fresh content
          else .error (.throws .unknownEncodingError)) : Run EncodedBlock Buffer)
        ⟨id, encoding, crc32c content.bytes, content⟩ := by
  show (if crc32c content.bytes ≠ crc32c content.bytes then _ else _ : Run EncodedBlock Buffer) _ = _
  rw [if_neg (not_not.mpr rfl)]
  split_ifs <;> rfl

theorem decodeBlock_identity (raw : Buffer) :
    ∃ moved, decodeBlock lib fresh ⟨id, encodingIdentity, crc32c raw.bytes, raw⟩ =
      .ok raw moved := by
  rw [decodeBlock_eq]
  exact ⟨_, if_pos rfl⟩

variable {lib fresh id}

/-- The choice between a buffer and what it was compressed to. -/
theorem smallerBlock_cases (raw : Buffer) (encoding : Int16T) (compressed : Buffer) :
    (raw.bytes.length < compressed.bytes.length ∧ smallerBlock id raw encoding compressed =
        ⟨id, encodingIdentity, crc32c raw.bytes, raw⟩) ∨
      (compressed.bytes.length ≤ raw.bytes.length ∧ smallerBlock id raw encoding compressed =
        ⟨id, encoding, crc32c compressed.bytes, compressed⟩) := by
  unfold smallerBlock
  split_ifs with h
  · exact Or.inl ⟨h, rfl⟩
  · exact Or.inr ⟨not_lt.mp h, rfl⟩

/-- The longer of the two is never stored, so only the compressed one has to
    be decoded. -/
theorem roundTrips_smallerBlock {fresh' : Memory} {raw : Buffer} {encoding' : Int16T}
    (encoding : Int16T) (compressed : Buffer)
    (hmem : encoding ∈ [encodingIdentity, encodingLzo, encodingZstd])
    (hencode : encodeBlock lib fresh id raw encoding' =
      .ok (smallerBlock id raw encoding compressed))
    (hdecode : compressed.bytes.length ≤ raw.bytes.length →
      ∃ moved, decodeBlock lib fresh' ⟨id, encoding, crc32c compressed.bytes, compressed⟩ =
        .ok raw moved) :
    RoundTrips lib fresh fresh' id raw encoding' := by
  unfold RoundTrips
  rw [hencode]
  rcases smallerBlock_cases raw encoding compressed with ⟨_, hblock⟩ | ⟨hle, hblock⟩
  · obtain ⟨moved, hmoved⟩ := decodeBlock_identity lib fresh' id raw
    rw [hblock]
    exact ⟨_, moved, rfl, hmoved, rfl, List.mem_cons_self, le_refl _⟩
  · obtain ⟨moved, hmoved⟩ := hdecode hle
    rw [hblock]
    exact ⟨_, moved, rfl, hmoved, rfl, hmem, hle⟩

end Decode

/-! ## Which buffers survive -/

section Zstandard

variable {lib : Libraries} {raw : Buffer}

theorem toNat_zstdBlockSize (n : ℕ) : (zstdBlockSize n).toNat = n % 2 ^ 32 := BitVec.toNat_ofNat _ _

/-- A size that an `int` holds is the same as a `size_t` again. -/
theorem toNat_signExtend_of_lt {n : ℕ} (h : n < 2 ^ 31) :
    ((zstdBlockSize n).signExtend 64).toNat = n := by
  have hn := toNat_zstdBlockSize n
  have hmsb : (zstdBlockSize n).msb = false := by
    rw [BitVec.msb_eq_decide]
    simp only [decide_eq_false_iff_not, hn]
    omega
  rw [BitVec.toNat_signExtend, BitVec.toNat_setWidth, hn, hmsb]
  simp only [Bool.false_eq_true, if_false]
  omega

/-- One that it does not hold becomes a negative `int` and a huge `size_t`. -/
theorem toNat_signExtend_of_ge {n : ℕ} (hge : 2 ^ 31 ≤ n) (hlt : n < 2 ^ 32) :
    ((zstdBlockSize n).signExtend 64).toNat = 2 ^ 64 - 2 ^ 32 + n := by
  have hn := toNat_zstdBlockSize n
  have hmsb : (zstdBlockSize n).msb = true := by
    rw [BitVec.msb_eq_decide]
    simp only [decide_eq_true_eq, hn]
    omega
  rw [BitVec.toNat_signExtend, BitVec.toNat_setWidth, hn, hmsb]
  simp only [if_true]
  omega

/-- From `2 ^ 32` on the wrapped capacity leaves no frame longer than `n`. -/
theorem zstdCapacity_add_four_le {n : ℕ} (h : 2 ^ 32 ≤ n) : zstdCapacity n + 4 ≤ n := by
  have hcap := zstdCapacity_lt n
  by_cases hn : 2 ^ 32 + 3 ≤ n
  · omega
  · have hsmall : zstdCapacity n ≤ 66 := by
      obtain rfl | rfl | rfl : n = 2 ^ 32 ∨ n = 2 ^ 32 + 1 ∨ n = 2 ^ 32 + 2 := by omega
      · decide
      · decide
      · decide
    omega

/-- The block of a frame is decoded if its size is right and the frame decompressed. -/
theorem decodeBlock_frame {fresh fresh' : Memory} {id : Int16T} {frame : List Byte}
    (hcompress : lib.zstd.compress (zstdCapacity raw.bytes.length) raw.bytes = .ok frame)
    (hlen : raw.bytes.length < 2 ^ 32)
    (hframe : lib.zstd.decompress ((zstdBlockSize raw.bytes.length).signExtend 64).toNat frame =
      .ok raw.bytes) :
    ∃ moved, decodeBlock lib fresh' ⟨id, encodingZstd,
      crc32c (zstdCompress lib.zstd fresh raw).bytes, zstdCompress lib.zstd fresh raw⟩ =
        .ok raw moved := by
  have hsize : raw.bytes.length = (zstdBlockSize raw.bytes.length).toNat := by
    rw [toNat_zstdBlockSize]
    omega
  have hdec := zstdDecompressFrame_ok fresh' hframe hsize
  rw [← zstdDecompress_prefix lib.zstd fresh' _ (zstdCompress_ok fresh hcompress)] at hdec
  rw [decodeBlock_eq, if_neg (by decide), if_neg (by decide), if_pos rfl, hdec]
  exact ⟨_, rfl⟩

/-- What is decoded from a block of Zstandard comes out of its frame. -/
theorem decodeBlock_zstd {fresh : Memory} {id : Int16T} {content dst : Buffer}
    {size : BitVec (8 * 4)} {frame : List Byte} {moved : EncodedBlock}
    (hcontent : content.bytes = wordBytes size ++ frame)
    (h : decodeBlock lib fresh ⟨id, encodingZstd, crc32c content.bytes, content⟩ = .ok dst moved) :
    zstdDecompressFrame lib.zstd fresh size frame = .ok dst := by
  rw [decodeBlock_eq, if_neg (by decide), if_neg (by decide), if_pos rfl,
    zstdDecompress_prefix lib.zstd fresh size hcontent] at h
  cases hd : zstdDecompressFrame lib.zstd fresh size frame with
  | ok dst' =>
    rw [hd, ofExcept_ok] at h
    cases h
    rfl
  | error e =>
    rw [hd, ofExcept_error] at h
    cases h

/-- A frame that is stored and decoded has a size below `2 ^ 32`, and gives back what
    it was made of. -/
theorem frame_of_decodeBlock {fresh fresh' : Memory} {id : Int16T} {frame : List Byte}
    {dst : Buffer} {moved : EncodedBlock}
    (hcompress : lib.zstd.compress (zstdCapacity raw.bytes.length) raw.bytes = .ok frame)
    (hstored : frame.length + 4 ≤ raw.bytes.length)
    (hdecode : decodeBlock lib fresh'
      (smallerBlock id raw encodingZstd (zstdCompress lib.zstd fresh raw)) = .ok dst moved) :
    raw.bytes.length < 2 ^ 32 ∧
      lib.zstd.decompress ((zstdBlockSize raw.bytes.length).signExtend 64).toNat frame =
        .ok raw.bytes := by
  have hbytes := zstdCompress_ok fresh hcompress
  rcases smallerBlock_cases raw encodingZstd (zstdCompress lib.zstd fresh raw) with
    ⟨hlt, _⟩ | ⟨_, hblock⟩
  · rw [hbytes, List.length_append, length_wordBytes] at hlt
    omega
  · rw [hblock] at hdecode
    obtain ⟨-, content, hcontent, hle⟩ := exists_decompress (decodeBlock_zstd hbytes hdecode)
    cases lib.zstd.eq_of_decompress hcompress hcontent
    rw [toNat_zstdBlockSize] at hle
    exact ⟨by omega, hcontent⟩

/-- A block that holds zeros in place of a frame is not decoded at all. -/
theorem lt_of_decodeBlock_error {fresh' : Memory} {id : Int16T} {e : ZstdError} {dst : Buffer}
    {moved : EncodedBlock}
    (hcompress : lib.zstd.compress (zstdCapacity raw.bytes.length) raw.bytes = .error e)
    (hdecode : decodeBlock lib fresh'
      (smallerBlock id raw encodingZstd (zstdCompress lib.zstd (fun _ => 0) raw)) =
        .ok dst moved) :
    raw.bytes.length + e.code < 2 ^ 32 + 4 := by
  by_contra hge
  have he := e.lt
  have hbytes := zstdCompress_error (fun _ => 0) hcompress
  rcases smallerBlock_cases raw encodingZstd (zstdCompress lib.zstd (fun _ => 0) raw) with
    ⟨hlt, _⟩ | ⟨_, hblock⟩
  · rw [hbytes, Memory.length_fill] at hlt
    omega
  · have hsize : 2 ^ 32 - e.code + 4 =
        (wordBytes (zstdBlockSize raw.bytes.length)).length + (2 ^ 32 - e.code) := by
      rw [length_wordBytes]
      omega
    rw [hsize, Memory.fill_zero] at hbytes
    rw [hblock] at hdecode
    obtain ⟨-, content, hcontent, -⟩ := exists_decompress (decodeBlock_zstd hbytes hdecode)
    obtain ⟨e', he'⟩ := lib.zstd.decompress_zeros
      ((zstdBlockSize raw.bytes.length).signExtend 64).toNat
      (show 4 ≤ 2 ^ 32 - e.code by omega)
    cases hcontent.symm.trans he'

end Zstandard

section Encodable

variable (lib : Libraries) (raw : Buffer) (encoding : Int16T)

/-- Encodable buffers survive, whatever fresh memory holds. -/
theorem roundTrips_of_encodable (fresh fresh' : Memory) (id : Int16T)
    (h : Encodable lib raw encoding) : RoundTrips lib fresh fresh' id raw encoding := by
  unfold Encodable at h
  split_ifs at h with hid hlzo
  · subst hid
    obtain ⟨moved, hmoved⟩ := decodeBlock_identity lib fresh' id raw
    exact ⟨_, moved, if_pos rfl, hmoved, rfl, List.mem_cons_self, le_refl _⟩
  · subst hlzo
    rcases lzoCompress_eq lib.lzo raw with ⟨_, out, dst, hdst, hbytes, hout⟩ | ⟨hgt, _⟩
    · apply roundTrips_smallerBlock encodingLzo dst (by decide)
      · unfold encodeBlock
        rw [if_neg (by decide), if_pos rfl, hdst]
        rfl
      · intro _
        rw [decodeBlock_eq, if_neg (by decide), if_pos rfl,
          lzoDecompress_prefix lib.lzo hbytes hout]
        exact ⟨_, rfl⟩
    · omega
  · apply roundTrips_smallerBlock encodingZstd (zstdCompress lib.zstd fresh raw) (by decide)
    · unfold encodeBlock
      rw [if_neg hid, if_neg hlzo]
    · intro hle
      cases hcompress : lib.zstd.compress (zstdCapacity raw.bytes.length) raw.bytes with
      | ok frame =>
        simp only [hcompress] at h
        rw [zstdCompress_ok fresh hcompress, List.length_append, length_wordBytes] at hle
        by_cases hsmall : raw.bytes.length < 2 ^ 31
        · have hsize := toNat_signExtend_of_lt hsmall
          exact decodeBlock_frame hcompress (by omega)
            (lib.zstd.decompress_compress hcompress hsize.ge (by omega))
        · -- the size is negative, and the frame is stored
          obtain ⟨hlt, hframe⟩ := h.resolve_left hsmall
          have hdec := hframe.resolve_left (by omega)
          rw [← toNat_signExtend_of_ge (not_lt.mp hsmall) hlt] at hdec
          exact decodeBlock_frame hcompress hlt hdec
      | error e =>
        -- the error is taken for a length greater than that of `raw`
        simp only [hcompress] at h
        have he := e.lt
        rw [zstdCompress_error fresh hcompress, Memory.length_fill] at hle
        omega

/-- A block that was made where memory holds zeros is decoded, to whatever it may
    be, for encodable buffers only. -/
theorem encodable_of_decodeBlock {fresh' : Memory} {id : Int16T} {block moved : EncodedBlock}
    {dst : Buffer} (hencode : encodeBlock lib (fun _ => 0) id raw encoding = .ok block)
    (hdecode : decodeBlock lib fresh' block = .ok dst moved) : Encodable lib raw encoding := by
  unfold encodeBlock at hencode
  unfold Encodable
  split_ifs at hencode ⊢ with hid hlzo
  · rcases lzoCompress_eq lib.lzo raw with ⟨hle, _⟩ | ⟨_, herror⟩
    · exact hle
    · rw [herror] at hencode
      cases hencode
  · cases hencode
    cases hcompress : lib.zstd.compress (zstdCapacity raw.bytes.length) raw.bytes with
    | error e => exact lt_of_decodeBlock_error hcompress hdecode
    | ok frame =>
      have hcap := lib.zstd.length_compress hcompress
      by_cases hsmall : raw.bytes.length < 2 ^ 31
      · exact Or.inl hsmall
      · refine Or.inr ?_
        by_cases hstored : raw.bytes.length < frame.length + 4
        · refine ⟨?_, Or.inl hstored⟩
          by_contra hge
          have hwrapped := zstdCapacity_add_four_le (not_lt.mp hge)
          omega
        · obtain ⟨hlt, hframe⟩ := frame_of_decodeBlock hcompress (not_lt.mp hstored) hdecode
          rw [toNat_signExtend_of_ge (not_lt.mp hsmall) hlt] at hframe
          exact ⟨hlt, Or.inr hframe⟩

theorem encodable_of_roundTrips {fresh' : Memory} (id : Int16T)
    (h : RoundTrips lib (fun _ => 0) fresh' id raw encoding) : Encodable lib raw encoding := by
  obtain ⟨block, moved, hencode, hdecode, -⟩ := h
  exact encodable_of_decodeBlock lib raw encoding hencode hdecode

/-- `decode_block` undoes `encode_block` exactly on the encodable buffers. -/
theorem encodable_iff (id : Int16T) :
    (∀ fresh fresh', RoundTrips lib fresh fresh' id raw encoding) ↔ Encodable lib raw encoding :=
  ⟨fun h => encodable_of_roundTrips lib raw encoding id (h _ fun _ => 0),
    fun h fresh fresh' => roundTrips_of_encodable lib raw encoding fresh fresh' id h⟩

end Encodable

/-! ## Libraries for small inputs -/

/-- The frame Zstandard makes of a short `src` that does not compress: magic
    number, descriptor, size, and one raw block. -/
def storedFrame (src : List Byte) : List Byte :=
  [0x28, 0xb5, 0x2f, 0xfd, 0x20, BitVec.ofNat 8 src.length] ++
    leBytes 3 (8 * src.length + 1) ++ src

theorem drop_storedFrame (src : List Byte) : (storedFrame src).drop 9 = src := by
  unfold storedFrame
  apply List.drop_left'
  simp

/-- Zstandard with frames of at most 255 bytes. -/
def Zstd.stored : Zstd where
  compress dstCapacity src :=
    if src.length < 256 ∧ (storedFrame src).length ≤ dstCapacity then .ok (storedFrame src)
    else .error ⟨70, by decide, by decide⟩
  decompress dstCapacity frame :=
    if frame = storedFrame (frame.drop 9) ∧ (frame.drop 9).length ≤ dstCapacity then
      .ok (frame.drop 9)
    else .error (⟨10, by decide, by decide⟩, 0)
  length_compress h := by
    split_ifs at h with hif
    cases h
    exact hif.2
  decompress_compress h hm _ := by
    split_ifs at h
    cases h
    rw [drop_storedFrame, if_pos ⟨rfl, hm⟩]
  eq_of_decompress h hd := by
    split_ifs at h
    cases h
    rw [drop_storedFrame] at hd
    split_ifs at hd
    cases hd
    rfl
  decompress_zeros m n hn := by
    refine ⟨_, if_neg ?_⟩
    rintro ⟨h, -⟩
    obtain ⟨k, rfl⟩ : ∃ k, n = k + 1 := ⟨n - 1, by omega⟩
    rw [List.replicate_succ, storedFrame] at h
    exact absurd (List.head_eq_of_cons_eq h) (by decide)

/-- Nothing gets shorter in such a frame. -/
theorem lt_length_zstdCompress_stored {raw : Buffer} (fresh : Memory)
    (h : raw.bytes.length < 2 ^ 31) :
    raw.bytes.length < (zstdCompress Zstd.stored fresh raw).bytes.length := by
  cases hcompress : Zstd.stored.compress (zstdCapacity raw.bytes.length) raw.bytes with
  | ok frame =>
    have hframe : frame = storedFrame raw.bytes := by
      have hif : (if raw.bytes.length < 256 ∧
          (storedFrame raw.bytes).length ≤ zstdCapacity raw.bytes.length then
          .ok (storedFrame raw.bytes) else .error _ : Except ZstdError (List Byte)) = .ok frame :=
        hcompress
      split_ifs at hif
      cases hif
      rfl
    have hlen := congrArg List.length (zstdCompress_ok fresh hcompress)
    rw [List.length_append, length_wordBytes, hframe, storedFrame, List.length_append] at hlen
    omega
  | error e =>
    have hlen := congrArg List.length (zstdCompress_error fresh hcompress)
    have he := e.lt
    rw [Memory.length_fill] at hlen
    omega

/-- LZO on inputs of which it makes one run of literals. -/
def Lzo.stored : Lzo where
  compress src := some (BitVec.ofNat 8 (17 + src.length) :: src ++ [0x11, 0, 0])
  decompress src := .ok ((src.drop 1).take (src.length - 4))
  exists_compress src := by
    refine ⟨_, rfl, ?_, ?_⟩
    · simp only [List.cons_append, List.length_cons, List.length_append, List.length_nil]
      omega
    · simp

/-- Both of them. -/
def Libraries.stored : Libraries := ⟨Zstd.stored, Lzo.stored⟩

/-- `n` bytes of zeros. -/
def zeroBuffer (n : ℕ) (h : n ≤ maxElems 1) : Buffer :=
  Buffer.ofBytes (List.replicate n 0) (by rwa [List.length_replicate])

theorem length_zeroBuffer (n : ℕ) (h : n ≤ maxElems 1) : (zeroBuffer n h).bytes.length = n :=
  List.length_replicate

theorem not_encodable_stored {raw : Buffer} (h : 2 ^ 32 ≤ raw.bytes.length) :
    ¬ Encodable Libraries.stored raw encodingZstd := by
  have hcompress : Libraries.stored.zstd.compress (zstdCapacity raw.bytes.length) raw.bytes =
      .error ⟨70, by decide, by decide⟩ :=
    if_neg fun h => by
      have := h.1
      omega
  unfold Encodable
  rw [if_neg (by decide), if_neg (by decide)]
  simp only [hcompress]
  omega

/-- The size of four gigabytes is stored as 0, and the error of a compressor
    that is given room for nothing as the length of a block. -/
theorem fourGigabytes_lost :
    ¬ ∀ fresh fresh', RoundTrips Libraries.stored fresh fresh' 7
      (zeroBuffer (2 ^ 32) (by decide)) encodingZstd := by
  intro h
  have hlen := length_zeroBuffer (2 ^ 32) (by decide)
  generalize zeroBuffer (2 ^ 32) (by decide) = raw at h hlen
  exact not_encodable_stored (le_of_eq hlen.symm)
    (encodable_of_roundTrips Libraries.stored raw encodingZstd 7 (h _ fun _ => 0))

end BambooShoot.Pbsf
