import BambooShoot.Pbsf.BufferSafety

/-!
# The declared size of a compressed block

A compressed content begins with the size of what it was made from. Both
wrappers allocate that many bytes; `lzo_decompress` compares them with what the
library reports (`lzo-wrap.cc`, lines 81–82), `zstd_decompress` does not
(`zstd-wrap.cc`, lines 57–64).

Result: `decodesExactly_iff`, the blocks of which `decode_block` returns all
that was decompressed, and nothing else.
-/

namespace BambooShoot.Pbsf

open BambooShoot.Lib BambooShoot.Pbss

/-- The size in front of a content. -/
def declaredSize (block : EncodedBlock) : ℕ :=
  let src := block.content.bytes
  if block.contentEncoding = encodingLzo then (wordOfBytes 8 (src.take 8)).toNat
  else if block.contentEncoding = encodingZstd then (wordOfBytes 4 (src.take 4)).toNat
  else src.length

/-- What the decompressor reports when `decode_block` calls it; the identity has none. -/
def reported (lib : Libraries) (block : EncodedBlock) : Option (List Byte) :=
  let src := block.content.bytes
  if block.contentEncoding = encodingIdentity then some src
  else if block.contentEncoding = encodingLzo then
    match lib.lzo.decompress (src.drop 8) with
    | .ok content => some content
    | _ => none
  else if block.contentEncoding = encodingZstd then
    (lib.zstd.decompress ((wordOfBytes 4 (src.take 4)).signExtend 64).toNat (src.drop 4)).toOption
  else none

/-- What is really behind the size: Zstandard gets all the room it needs. -/
def RealContent (lib : Libraries) (block : EncodedBlock) (content : List Byte) : Prop :=
  let src := block.content.bytes
  if block.contentEncoding = encodingIdentity then content = src
  else if block.contentEncoding = encodingLzo then
    8 ≤ src.length ∧ lib.lzo.decompress (src.drop 8) = .ok content
  else if block.contentEncoding = encodingZstd then
    4 ≤ src.length ∧ ∃ room, lib.zstd.decompress room (src.drop 4) = .ok content
  else False

/-- `decode_block` returns only what was decompressed, all of it, and throws
    where the declared size is another one. -/
structure DecodesExactly (lib : Libraries) (block : EncodedBlock) : Prop where
  returned : ∀ fresh dst, outcome (decodeBlock lib fresh block) = .ok dst →
    reported lib block = some dst.bytes ∧ dst.bytes.length = declaredSize block
  rejected : ∀ content, RealContent lib block content → content.length ≠ declaredSize block →
    ∀ fresh, ∃ e, outcome (decodeBlock lib fresh block) = .error (.throws e)

/-- The wrong size is noticed: LZO is told no size but its result is compared with
    it, Zstandard has to refuse the frame by itself. -/
def Refused (lib : Libraries) (block : EncodedBlock) (content : List Byte) : Prop :=
  let src := block.content.bytes
  if block.contentEncoding = encodingLzo then
    content.length < declaredSize block ∨ maxElems 1 < declaredSize block
  else if block.contentEncoding = encodingZstd then
    ∃ e stored, stored ≤ declaredSize block ∧
      lib.zstd.decompress ((wordOfBytes 4 (src.take 4)).signExtend 64).toNat (src.drop 4) =
        .error (e, stored)
  else False

/-- The checksum is wrong, or the declared size is right or its error noticed. -/
def SizeChecked (lib : Libraries) (block : EncodedBlock) : Prop :=
  block.contentChecksum ≠ crc32c block.content.bytes ∨
    ∀ content, RealContent lib block content →
      content.length = declaredSize block ∨ Refused lib block content

/-! ## The wrappers -/

section Wrappers

variable {lib : Libraries} {id : Int16T} {sum : UInt32T} {src : Buffer}

/-- An LZO content is returned only at its declared size. -/
theorem lzoDecompress_ok_iff {l : Lzo} {dst : Buffer} (h8 : 8 ≤ src.bytes.length) :
    lzoDecompress l src = .ok dst ↔
      (wordOfBytes 8 (src.bytes.take 8)).toNat ≤ maxElems 1 ∧
        l.decompress (src.bytes.drop 8) = .ok dst.bytes ∧
        dst.bytes.length = (wordOfBytes 8 (src.bytes.take 8)).toNat := by
  unfold lzoDecompress
  rw [if_neg (by omega)]
  constructor
  · intro h
    dsimp only at h
    split_ifs at h with hmax
    refine ⟨hmax, ?_⟩
    cases hdec : l.decompress (src.bytes.drop 8) with
    | ok content =>
      simp only [hdec] at h
      split_ifs at h with hle hlen
      cases h
      exact ⟨rfl, hlen⟩
    | error stored =>
      simp only [hdec] at h
      split_ifs at h
    | overrun =>
      simp only [hdec] at h
      cases h
  · rintro ⟨hmax, hdec, hlen⟩
    simp only [dif_pos hmax, hdec, hlen, le_refl, if_true, dif_pos]
    rfl

/-- A wrong size in front of an LZO content is an exception if it leaves room enough. -/
theorem lzoDecompress_throws_iff {l : Lzo} {content : List Byte} (h8 : 8 ≤ src.bytes.length)
    (hdec : l.decompress (src.bytes.drop 8) = .ok content)
    (hne : content.length ≠ (wordOfBytes 8 (src.bytes.take 8)).toNat) :
    (∃ e, lzoDecompress l src = .error (.throws e)) ↔
      content.length < (wordOfBytes 8 (src.bytes.take 8)).toNat ∨
        maxElems 1 < (wordOfBytes 8 (src.bytes.take 8)).toNat := by
  unfold lzoDecompress
  rw [if_neg (by omega)]
  by_cases hmax : (wordOfBytes 8 (src.bytes.take 8)).toNat ≤ maxElems 1
  · simp only [dif_pos hmax, hdec, dif_neg hne]
    by_cases hle : content.length ≤ (wordOfBytes 8 (src.bytes.take 8)).toNat
    · rw [if_pos hle]
      exact iff_of_true ⟨_, rfl⟩ (Or.inl (by omega))
    · rw [if_neg hle]
      exact iff_of_false (by rintro ⟨e, he⟩; cases he) (by omega)
  · simp only [dif_neg hmax]
    exact iff_of_true ⟨_, rfl⟩ (Or.inr (by omega))

/-- Whatever a frame holds, its buffer is returned at the declared size. -/
theorem zstdDecompress_ok_iff {z : Zstd} {fresh : Memory} {dst : Buffer}
    (h4 : 4 ≤ src.bytes.length) :
    zstdDecompress z fresh src = .ok dst ↔
      ∃ content,
        z.decompress ((wordOfBytes 4 (src.bytes.take 4)).signExtend 64).toNat (src.bytes.drop 4) =
          .ok content ∧
        content.length ≤ (wordOfBytes 4 (src.bytes.take 4)).toNat ∧
        dst.bytes = fresh.fill content (wordOfBytes 4 (src.bytes.take 4)).toNat := by
  unfold zstdDecompress zstdDecompressFrame
  rw [if_neg (by omega)]
  cases z.decompress ((wordOfBytes 4 (src.bytes.take 4)).signExtend 64).toNat (src.bytes.drop 4) with
  | ok content =>
    dsimp only
    split_ifs with hle
    · constructor
      · intro h
        cases h
        exact ⟨content, rfl, hle, rfl⟩
      · rintro ⟨_, hcontent, -, hdst⟩
        cases hcontent
        exact congrArg Except.ok (Vec.ext hdst.symm)
    · refine iff_of_false (fun h => by cases h) ?_
      rintro ⟨_, hcontent, hle', -⟩
      cases hcontent
      exact hle hle'
  | error err =>
    refine iff_of_false (fun h => ?_) (by rintro ⟨_, hcontent, -⟩; cases hcontent)
    dsimp only at h
    split_ifs at h

/-- An exception of `zstd_decompress` is one of the library. -/
theorem zstdDecompress_throws_iff {z : Zstd} {fresh : Memory} (h4 : 4 ≤ src.bytes.length) :
    (∃ e, zstdDecompress z fresh src = .error (.throws e)) ↔
      ∃ e stored, stored ≤ (wordOfBytes 4 (src.bytes.take 4)).toNat ∧
        z.decompress ((wordOfBytes 4 (src.bytes.take 4)).signExtend 64).toNat (src.bytes.drop 4) =
          .error (e, stored) := by
  unfold zstdDecompress zstdDecompressFrame
  rw [if_neg (by omega)]
  cases z.decompress ((wordOfBytes 4 (src.bytes.take 4)).signExtend 64).toNat (src.bytes.drop 4) with
  | ok content =>
    refine iff_of_false ?_ (by rintro ⟨_, _, -, h⟩; cases h)
    rintro ⟨e, h⟩
    dsimp only at h
    split_ifs at h
    cases h
  | error err =>
    dsimp only
    split_ifs with hle
    · exact iff_of_true ⟨_, rfl⟩ ⟨err.1, err.2, hle, rfl⟩
    · refine iff_of_false (by rintro ⟨e, h⟩; cases h) ?_
      rintro ⟨_, _, hle', h⟩
      cases h
      exact hle hle'

end Wrappers

/-! ## `decode_block` -/

/-- A block with another checksum is rejected. -/
theorem outcome_decodeBlock_badChecksum {lib : Libraries} (fresh : Memory) {block : EncodedBlock}
    (h : block.contentChecksum ≠ crc32c block.content.bytes) :
    outcome (decodeBlock lib fresh block) = .error (.throws .badChecksumError) := by
  show outcome ((if block.contentChecksum ≠ crc32c block.content.bytes then _ else _ :
    Run EncodedBlock Buffer) _) = _
  rw [if_pos h]
  rfl

theorem outcome_decodeBlock_of_checksum (lib : Libraries) (fresh : Memory) {block : EncodedBlock}
    (h : block.contentChecksum = crc32c block.content.bytes) :
    outcome (decodeBlock lib fresh block) =
      if block.contentEncoding = encodingIdentity then .ok block.content
      else if block.contentEncoding = encodingLzo then lzoDecompress lib.lzo block.content
      else if block.contentEncoding = encodingZstd then zstdDecompress lib.zstd fresh block.content
      else .error (.throws .unknownEncodingError) := by
  obtain ⟨id, encoding, checksum, content⟩ := block
  obtain rfl : checksum = crc32c content.bytes := h
  exact outcome_decodeBlock id encoding content fresh

section Exactly

variable {lib : Libraries} {block : EncodedBlock}

/-- The size in front of a frame has to be right, or Zstandard to refuse the frame:
    behind the end of its content the buffer is fresh memory. -/
theorem decodesExactly_zstd_iff (hsum : block.contentChecksum = crc32c block.content.bytes)
    (henc : block.contentEncoding = encodingZstd) :
    DecodesExactly lib block ↔ ∀ content, RealContent lib block content →
      content.length = declaredSize block ∨ Refused lib block content := by
  have hout (fresh : Memory) : outcome (decodeBlock lib fresh block) =
      zstdDecompress lib.zstd fresh block.content := by
    rw [outcome_decodeBlock_of_checksum lib fresh hsum, henc, if_neg (by decide),
      if_neg (by decide), if_pos rfl]
  have hsize : declaredSize block = (wordOfBytes 4 (block.content.bytes.take 4)).toNat := by
    unfold declaredSize
    rw [henc, if_neg (by decide), if_pos rfl]
  have hreal (content : List Byte) : RealContent lib block content ↔
      4 ≤ block.content.bytes.length ∧
        ∃ room, lib.zstd.decompress room (block.content.bytes.drop 4) = .ok content := by
    unfold RealContent
    rw [henc, if_neg (by decide), if_neg (by decide), if_pos rfl]
  have hrefused (content : List Byte) (h4 : 4 ≤ block.content.bytes.length) (fresh : Memory) :
      Refused lib block content ↔
        ∃ e, zstdDecompress lib.zstd fresh block.content = .error (.throws e) := by
    rw [zstdDecompress_throws_iff h4, ← hsize]
    unfold Refused
    rw [henc, if_neg (by decide), if_pos rfl]
  constructor
  · intro h content hcontent
    by_cases hlen : content.length = declaredSize block
    · exact Or.inl hlen
    · have hthrows := h.rejected content hcontent hlen fun _ => 0
      rw [hout] at hthrows
      exact Or.inr ((hrefused content ((hreal content).1 hcontent).1 _).2 hthrows)
  · intro h
    constructor
    · intro fresh dst hdst
      rw [hout] at hdst
      have h4 : 4 ≤ block.content.bytes.length := by
        by_contra hshort
        unfold zstdDecompress at hdst
        rw [if_pos (by omega)] at hdst
        cases hdst
      obtain ⟨content, hdec, -, hbytes⟩ := (zstdDecompress_ok_iff h4).1 hdst
      have hlen : content.length = declaredSize block := by
        refine (h content ((hreal content).2 ⟨h4, _, hdec⟩)).resolve_right fun hrefuse => ?_
        obtain ⟨e, he⟩ := (hrefused content h4 fresh).1 hrefuse
        rw [he] at hdst
        cases hdst
      rw [← hsize, Memory.fill_eq fresh hlen] at hbytes
      unfold reported
      rw [henc, if_neg (by decide), if_neg (by decide), if_pos rfl, hdec, hbytes]
      exact ⟨rfl, hlen⟩
    · intro content hcontent hlen fresh
      rw [hout]
      exact (hrefused content ((hreal content).1 hcontent).1 fresh).1
        ((h content hcontent).resolve_left hlen)

/-- LZO notices a size that is too large; one that is too small it stores behind. -/
theorem decodesExactly_lzo_iff (hsum : block.contentChecksum = crc32c block.content.bytes)
    (henc : block.contentEncoding = encodingLzo) :
    DecodesExactly lib block ↔ ∀ content, RealContent lib block content →
      content.length = declaredSize block ∨ Refused lib block content := by
  have hout (fresh : Memory) : outcome (decodeBlock lib fresh block) =
      lzoDecompress lib.lzo block.content := by
    rw [outcome_decodeBlock_of_checksum lib fresh hsum, henc, if_neg (by decide), if_pos rfl]
  have hsize : declaredSize block = (wordOfBytes 8 (block.content.bytes.take 8)).toNat := by
    unfold declaredSize
    rw [henc, if_pos rfl]
  have hreal (content : List Byte) : RealContent lib block content ↔
      8 ≤ block.content.bytes.length ∧
        lib.lzo.decompress (block.content.bytes.drop 8) = .ok content := by
    unfold RealContent
    rw [henc, if_neg (by decide), if_pos rfl]
  have hrefused {content : List Byte} (h : RealContent lib block content)
      (hlen : content.length ≠ declaredSize block) :
      Refused lib block content ↔
        ∃ e, lzoDecompress lib.lzo block.content = .error (.throws e) := by
    obtain ⟨h8, hdec⟩ := (hreal content).1 h
    rw [hsize] at hlen
    rw [lzoDecompress_throws_iff h8 hdec hlen, ← hsize]
    unfold Refused
    rw [henc, if_pos rfl]
  constructor
  · intro h content hcontent
    by_cases hlen : content.length = declaredSize block
    · exact Or.inl hlen
    · have hthrows := h.rejected content hcontent hlen fun _ => 0
      rw [hout] at hthrows
      exact Or.inr ((hrefused hcontent hlen).2 hthrows)
  · intro h
    constructor
    · intro fresh dst hdst
      rw [hout] at hdst
      have h8 : 8 ≤ block.content.bytes.length := by
        by_contra hshort
        unfold lzoDecompress at hdst
        rw [if_pos (by omega)] at hdst
        cases hdst
      obtain ⟨-, hdec, hlen⟩ := (lzoDecompress_ok_iff h8).1 hdst
      unfold reported
      rw [henc, if_neg (by decide), if_pos rfl, hdec]
      exact ⟨rfl, hlen.trans hsize.symm⟩
    · intro content hcontent hlen fresh
      rw [hout]
      exact (hrefused hcontent hlen).1 ((h content hcontent).resolve_left hlen)

/-- The blocks of which `decode_block` returns all that was decompressed and
    nothing else. -/
theorem decodesExactly_iff (lib : Libraries) (block : EncodedBlock) :
    DecodesExactly lib block ↔ SizeChecked lib block := by
  unfold SizeChecked
  by_cases hsum : block.contentChecksum = crc32c block.content.bytes
  · rw [or_iff_right (not_not_intro hsum)]
    by_cases hlzo : block.contentEncoding = encodingLzo
    · exact decodesExactly_lzo_iff hsum hlzo
    by_cases hzstd : block.contentEncoding = encodingZstd
    · exact decodesExactly_zstd_iff hsum hzstd
    -- nothing to decompress
    have hsize : declaredSize block = block.content.bytes.length := by
      unfold declaredSize
      rw [if_neg hlzo, if_neg hzstd]
    have hreal {content : List Byte} (h : RealContent lib block content) :
        content.length = declaredSize block := by
      unfold RealContent at h
      simp only [if_neg hlzo, if_neg hzstd] at h
      split_ifs at h
      rw [h, hsize]
    refine iff_of_true ⟨fun fresh dst hdst => ?_, fun content h hne => absurd (hreal h) hne⟩
      fun content h => Or.inl (hreal h)
    rw [outcome_decodeBlock_of_checksum lib fresh hsum, if_neg hlzo, if_neg hzstd] at hdst
    unfold reported
    split_ifs at hdst ⊢ with hid
    cases hdst
    exact ⟨rfl, hsize.symm⟩
  · refine iff_of_true ⟨fun fresh dst hdst => ?_, fun content _ _ fresh => ?_⟩ (Or.inl hsum)
    · rw [outcome_decodeBlock_badChecksum fresh hsum] at hdst
      cases hdst
    · exact ⟨_, outcome_decodeBlock_badChecksum fresh hsum⟩

end Exactly

theorem length_longerContent :
    (wordBytes (2 : BitVec (8 * 4)) ++ storedFrame [9]).length ≤ maxElems 1 := by decide

/-- The byte 9 as Zstandard stores it, behind the size 2. -/
def longerBlock : EncodedBlock where
  contentType := 7
  contentEncoding := encodingZstd
  contentChecksum := crc32c (wordBytes (2 : BitVec (8 * 4)) ++ storedFrame [9])
  content := Buffer.ofBytes (wordBytes (2 : BitVec (8 * 4)) ++ storedFrame [9]) length_longerContent

theorem longerBlock_decompress (room : ℕ) (h : 1 ≤ room) :
    Zstd.stored.decompress room (longerBlock.content.bytes.drop 4) = .ok [9] :=
  if_pos ⟨rfl, h⟩

/-- One byte is decompressed and returned with one that is not. -/
theorem longerBlock_returned :
    reported Libraries.stored longerBlock = some [9] ∧
      (∀ fresh, ∃ dst, outcome (decodeBlock Libraries.stored fresh longerBlock) = .ok dst ∧
        dst.bytes = [9, fresh 1]) ∧
      ¬ DecodesExactly Libraries.stored longerBlock := by
  have hlen : 4 ≤ longerBlock.content.bytes.length := by decide
  have hreported : reported Libraries.stored longerBlock = some [9] :=
    congrArg Except.toOption (longerBlock_decompress 2 (by decide))
  have hout (fresh : Memory) : outcome (decodeBlock Libraries.stored fresh longerBlock) =
      zstdDecompress Zstd.stored fresh longerBlock.content := by
    rw [outcome_decodeBlock_of_checksum _ fresh rfl]
    rfl
  have hreturned (fresh : Memory) :
      ∃ dst, outcome (decodeBlock Libraries.stored fresh longerBlock) = .ok dst ∧
        dst.bytes = [9, fresh 1] := by
    refine ⟨Buffer.ofBytes [9, fresh 1] (show 2 ≤ maxElems 1 by decide), ?_, rfl⟩
    rw [hout]
    exact (zstdDecompress_ok_iff hlen).2 ⟨[9], longerBlock_decompress 2 (by decide), by decide, rfl⟩
  refine ⟨hreported, hreturned, fun h => ?_⟩
  obtain ⟨dst, hdst, hbytes⟩ := hreturned fun _ => 0
  have hsame := (h.returned _ dst hdst).1
  rw [hreported, hbytes] at hsame
  cases hsame

end BambooShoot.Pbsf
