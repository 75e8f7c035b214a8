import BambooShoot.Pbsf.DataBlock

/-!
# Decoding blocks that nobody encoded

What `decode_block` does with the buffers of a block whose checksum is right and
whose content is arbitrary: the size in front of a compressed content
(`zstd-wrap.cc`, lines 53–63; `lzo-wrap.cc`, lines 71–82) is taken on trust.

Result: `staysInside_iff`, the blocks on which the wrappers stay inside of their
buffers.
-/

namespace BambooShoot.Pbsf

open BambooShoot.Lib BambooShoot.Pbss

/-! ## What the decompressors are told -/

/-- `ZSTD_decompress` stores at most as many bytes as it is told to have room for. -/
def Zstd.Bounded (z : Zstd) : Prop :=
  ∀ n src, match z.decompress n src with
    | .ok content => content.length ≤ n
    | .error (_, stored) => stored ≤ n

/-- The sizes that a wrapper passes to its library: `sizeBytes` bytes of the
    content hold the size, `srcSize` is what it takes for the length of the
    rest, and the destination has `allocated` bytes. -/
structure DecompressorCall where
  sizeBytes : ℕ
  srcSize : SizeT
  allocated : ℕ
  told : SizeT

/-- The call of `zstd_decompress` (lines 57–61): `out_size` is an `int`, once cast to
    `unsigned` and once to `size_t`. -/
def zstdCall (src : Buffer) : DecompressorCall where
  sizeBytes := 4
  srcSize := BitVec.ofNat 64 src.bytes.length - 4
  allocated := (wordOfBytes 4 (src.bytes.take 4)).toNat
  told := (wordOfBytes 4 (src.bytes.take 4)).signExtend 64

/-- The call of `lzo_decompress` (lines 75–82). -/
def lzoCall (src : Buffer) : DecompressorCall where
  sizeBytes := 8
  srcSize := BitVec.ofNat 64 src.bytes.length - 8
  allocated := (wordOfBytes 8 (src.bytes.take 8)).toNat
  told := wordOfBytes 8 (src.bytes.take 8)

/-- The call that `decode_block` makes for an encoding. -/
def decompressorCall (encoding : Int16T) (content : Buffer) : Option DecompressorCall :=
  if encoding = encodingIdentity then none
  else if encoding = encodingLzo then some (lzoCall content)
  else if encoding = encodingZstd then some (zstdCall content)
  else none

/-- `decode_block` of a block with the right checksum throws or returns, the
    library is given the rest of the content and no more room than there is. -/
structure StaysInside (lib : Libraries) (id encoding : Int16T) (content : Buffer) : Prop where
  ends : ∀ fresh stop,
    outcome (decodeBlock lib fresh ⟨id, encoding, crc32c content.bytes, content⟩) = .error stop →
      ∃ e, stop = .throws e
  call : ∀ call, decompressorCall encoding content = some call →
    call.sizeBytes + call.srcSize.toNat = content.bytes.length ∧ call.told.toNat ≤ call.allocated

/-- The content has room for its size. Zstandard wants a size that is not
    negative as an `int`; `lzo1x_decompress`, which is told no size, must stop by
    itself in front of the ends of both buffers. -/
def Decodable (lib : Libraries) (encoding : Int16T) (content : Buffer) : Prop :=
  if encoding = encodingIdentity then True
  else if encoding = encodingLzo then
    8 ≤ content.bytes.length ∧
      (maxElems 1 < (wordOfBytes 8 (content.bytes.take 8)).toNat ∨
        match lib.lzo.decompress (content.bytes.drop 8) with
        | .ok out => out.length ≤ (wordOfBytes 8 (content.bytes.take 8)).toNat
        | .error stored => stored ≤ (wordOfBytes 8 (content.bytes.take 8)).toNat
        | .overrun => False)
  else if encoding = encodingZstd then
    4 ≤ content.bytes.length ∧ (wordOfBytes 4 (content.bytes.take 4)).toNat < 2 ^ 31
  else True

/-! ## The wrappers -/

/-- A call that throws if it does not return. -/
def Throws (r : Except Stop Buffer) : Prop := ∀ stop, r = .error stop → ∃ e, stop = .throws e

theorem throws_ok (b : Buffer) : Throws (.ok b) := by
  intro stop h
  cases h

theorem throws_error (e : Exn) : Throws (.error (.throws e)) := by
  intro stop h
  cases h
  exact ⟨e, rfl⟩

theorem not_throws_undefined : ¬ Throws (.error .undefinedBehaviour) := by
  intro h
  obtain ⟨e, he⟩ := h _ rfl
  cases he

section Wrappers

variable {src : Buffer}

/-- The length of the rest is right exactly if there is a rest. -/
theorem srcSize_eq_iff {k : ℕ} (hk : k < 2 ^ 63) (src : Buffer) :
    k + (BitVec.ofNat 64 src.bytes.length - BitVec.ofNat 64 k).toNat = src.bytes.length ↔
      k ≤ src.bytes.length := by
  have hlen := src.length_le
  rw [BitVec.toNat_sub, BitVec.toNat_ofNat, BitVec.toNat_ofNat]
  omega

theorem throws_lzoDecompress_iff (l : Lzo) (hlen : 8 ≤ src.bytes.length) :
    Throws (lzoDecompress l src) ↔
      maxElems 1 < (wordOfBytes 8 (src.bytes.take 8)).toNat ∨
        match l.decompress (src.bytes.drop 8) with
        | .ok out => out.length ≤ (wordOfBytes 8 (src.bytes.take 8)).toNat
        | .error stored => stored ≤ (wordOfBytes 8 (src.bytes.take 8)).toNat
        | .overrun => False := by
  unfold lzoDecompress
  rw [if_neg (by omega)]
  by_cases hmax : (wordOfBytes 8 (src.bytes.take 8)).toNat ≤ maxElems 1
  · simp only [dif_pos hmax]
    rw [or_iff_right (by omega)]
    cases l.decompress (src.bytes.drop 8) with
    | ok out =>
      dsimp only
      split_ifs with hle heq
      · exact iff_of_true (throws_ok _) hle
      · exact iff_of_true (throws_error _) hle
      · exact iff_of_false not_throws_undefined hle
    | error stored =>
      dsimp only
      split_ifs with hle
      · exact iff_of_true (throws_error _) hle
      · exact iff_of_false not_throws_undefined hle
    | overrun => exact iff_of_false not_throws_undefined id
  · simp only [dif_neg hmax]
    exact iff_of_true (throws_error _) (Or.inl (by omega))

/-- The `int` is not negative exactly if both casts give the same number. -/
theorem told_le_iff (size : BitVec (8 * 4)) :
    (size.signExtend 64).toNat ≤ size.toNat ↔ size.toNat < 2 ^ 31 := by
  have hlt := size.isLt
  rw [BitVec.toNat_signExtend, BitVec.toNat_setWidth]
  cases hmsb : size.msb with
  | true =>
    have hge := BitVec.msb_eq_true_iff_two_mul_ge.mp hmsb
    simp only [if_true]
    omega
  | false =>
    have hlow := BitVec.msb_eq_false_iff_two_mul_lt.mp hmsb
    simp only [Bool.false_eq_true, if_false]
    omega

theorem throws_zstdDecompress {z : Zstd} (hz : z.Bounded) (fresh : Memory)
    (hlen : 4 ≤ src.bytes.length) (hsize : (wordOfBytes 4 (src.bytes.take 4)).toNat < 2 ^ 31) :
    Throws (zstdDecompress z fresh src) := by
  have htold := (told_le_iff _).mpr hsize
  have hbound := hz ((wordOfBytes 4 (src.bytes.take 4)).signExtend 64).toNat (src.bytes.drop 4)
  unfold zstdDecompress zstdDecompressFrame
  rw [if_neg (by omega)]
  cases hres : z.decompress ((wordOfBytes 4 (src.bytes.take 4)).signExtend 64).toNat
      (src.bytes.drop 4) with
  | ok content =>
    rw [hres] at hbound
    simp only [if_pos (hbound.trans htold)]
    exact throws_ok _
  | error err =>
    rw [hres] at hbound
    simp only [if_pos (hbound.trans htold)]
    exact throws_error _

end Wrappers

/-! ## `decode_block` -/

section Decode

variable {lib : Libraries} (id encoding : Int16T) (content : Buffer)

theorem outcome_decodeBlock (fresh : Memory) :
    outcome (decodeBlock lib fresh ⟨id, encoding, crc32c content.bytes, content⟩) =
      if encoding = encodingIdentity then .ok content
      else if encoding = encodingLzo then lzoDecompress lib.lzo content
      else if encoding = encodingZstd then zstdDecompress lib.zstd fresh content
      else .error (.throws .unknownEncodingError) := by
  rw [decodeBlock_eq]
  split_ifs
  · rfl
  · cases lzoDecompress lib.lzo content <;> rfl
  · cases zstdDecompress lib.zstd fresh content <;> rfl
  · rfl

/-- Decoding stays inside of its buffers exactly on the blocks whose content
    holds a size that can be trusted. -/
theorem staysInside_iff (hz : lib.zstd.Bounded) :
    StaysInside lib id encoding content ↔ Decodable lib encoding content := by
  have hends : (∀ fresh stop,
      outcome (decodeBlock lib fresh ⟨id, encoding, crc32c content.bytes, content⟩) = .error stop →
        ∃ e, stop = .throws e) ↔
      ∀ fresh, Throws (if encoding = encodingIdentity then .ok content
        else if encoding = encodingLzo then lzoDecompress lib.lzo content
        else if encoding = encodingZstd then zstdDecompress lib.zstd fresh content
        else .error (.throws .unknownEncodingError)) := by
    simp only [outcome_decodeBlock]
    rfl
  unfold Decodable
  constructor
  · rintro ⟨h, hcall⟩
    have hthrows := hends.mp h
    unfold decompressorCall at hcall
    split_ifs at hthrows hcall ⊢ with hid hlzo hzstd
    · have hlen := (srcSize_eq_iff (k := 8) (by norm_num) content).mp (hcall _ rfl).1
      exact ⟨hlen, (throws_lzoDecompress_iff lib.lzo hlen).mp (hthrows fun _ => 0)⟩
    · have hlen := (srcSize_eq_iff (k := 4) (by norm_num) content).mp (hcall _ rfl).1
      exact ⟨hlen, (told_le_iff _).mp (hcall _ rfl).2⟩
  · intro h
    refine ⟨hends.mpr fun fresh => ?_, fun call hcall => ?_⟩
    · split_ifs at h ⊢ with hid hlzo hzstd
      · exact throws_ok content
      · exact (throws_lzoDecompress_iff lib.lzo h.1).mpr h.2
      · exact throws_zstdDecompress hz fresh h.1 h.2
      · exact throws_error _
    · unfold decompressorCall at hcall
      split_ifs at h hcall with hid hlzo hzstd
      · cases hcall
        exact ⟨(srcSize_eq_iff (k := 8) (by norm_num) content).mpr h.1, le_refl _⟩
      · cases hcall
        exact ⟨(srcSize_eq_iff (k := 4) (by norm_num) content).mpr h.1, (told_le_iff _).mpr h.2⟩

end Decode

/-! ## Two blocks -/

theorem bounded_stored : Zstd.stored.Bounded := by
  intro n src
  show match (if src = storedFrame (src.drop 9) ∧ (src.drop 9).length ≤ n then
      Except.ok (src.drop 9) else Except.error (_, 0) : Except (ZstdError × ℕ) (List Byte)) with
    | .ok content => content.length ≤ n
    | .error (_, stored) => stored ≤ n
  split_ifs with h
  · exact h.2
  · exact Nat.zero_le n

/-- The byte 9 as Zstandard stores it. -/
theorem staysInside_nine :
    StaysInside Libraries.stored 7 encodingZstd
      (Buffer.ofBytes (wordBytes (1 : BitVec (8 * 4)) ++ storedFrame [9]) (by decide)) :=
  (staysInside_iff 7 encodingZstd _ bounded_stored).mpr (by
    unfold Decodable
    rw [if_neg (by decide), if_neg (by decide), if_pos rfl]
    decide)

/-- A block without content is read behind its end. -/
theorem emptyContent_not_inside : ¬ StaysInside Libraries.stored 7 encodingZstd emptyBuffer := by
  intro h
  have hlen := (h.call _ rfl).1
  exact absurd hlen (by decide)

end BambooShoot.Pbsf
