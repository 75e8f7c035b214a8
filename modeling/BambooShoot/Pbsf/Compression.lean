import BambooShoot.Pbss.Stream
import BambooShoot.Pbss.Types

/-!
# Compression

Models of `zstd-wrap.cc` and `lzo-wrap.cc`. The two libraries behind them are
parameters, `Zstd` and `Lzo`, with what their documentation promises; what the
wrappers leave unset in a buffer is `fresh` memory.

Results:
* `zstdCompress_ok`, `zstdCompress_error`: the bytes `zstd_compress` returns,
  also where its `int`s wrap and where it takes an error code for a length;
* `zstdDecompress_prefix`, `lzoDecompress_prefix`: reading them back;
* `lzoCompress_eq`: `lzo_compress` fails only where its buffer is too large.
-/

namespace BambooShoot.Pbsf

open BambooShoot.Lib BambooShoot.Pbss

/-! ## Libraries -/

/-- An error of Zstandard: `ZSTD_isError` takes the results above
    `-ZSTD_error_maxCode` for one. -/
structure ZstdError where
  code : ℕ
  pos : 0 < code
  lt : code < 120

/-- The result of a function of Zstandard that fails. -/
def ZstdError.result (e : ZstdError) : SizeT := BitVec.ofInt 64 (-e.code)

/-- `ZSTD_compress` (at one level) and `ZSTD_decompress`. A call stores the
    bytes it returns; a decompression that fails has stored some number of bytes.
    A capacity from `2 ^ 63` on is that of no object, and `ZSTD_decompressFrame`
    wraps around when it adds one to `dst` (`zstd_decompress.c`, line 1537): it may
    fail then, whatever the frame. -/
structure Zstd where
  compress : (dstCapacity : ℕ) → (src : List Byte) → Except ZstdError (List Byte)
  decompress : (dstCapacity : ℕ) → (src : List Byte) → Except (ZstdError × ℕ) (List Byte)
  length_compress : ∀ {n src frame}, compress n src = .ok frame → frame.length ≤ n
  decompress_compress : ∀ {n m src frame}, compress n src = .ok frame → src.length ≤ m →
    m < 2 ^ 63 → decompress m frame = .ok src
  /-- Nothing else comes out of a frame. -/
  eq_of_decompress : ∀ {n m src frame content}, compress n src = .ok frame →
    decompress m frame = .ok content → content = src
  /-- A frame begins with a magic number, which is not zero. -/
  decompress_zeros : ∀ m {n}, 4 ≤ n → ∃ e, decompress m (List.replicate n 0) = .error e

/-- How `lzo1x_decompress` ends: it knows the size of neither of its buffers. -/
inductive LzoStatus where
  | ok (content : List Byte)
  | error (stored : ℕ)
  /-- It reads behind its input, or copies from in front of its output. -/
  | overrun

/-- `lzo1x_1_compress`, `none` where it is not `LZO_E_OK`, and `lzo1x_decompress`. -/
structure Lzo where
  compress : List Byte → Option (List Byte)
  decompress : List Byte → LzoStatus
  exists_compress : ∀ src, ∃ out, compress src = some out ∧
    out.length ≤ src.length + src.length / 16 + 67 ∧ decompress out = .ok src

/-! ## Memory -/

/-- What fresh memory happens to hold, byte by byte. -/
abbrev Memory := ℕ → Byte

/-- `n` bytes of memory, of which the first ones have been set to `bs`. -/
def Memory.fill (fresh : Memory) (bs : List Byte) (n : ℕ) : List Byte :=
  bs.take n ++ (List.range' bs.length (n - bs.length)).map fresh

@[simp] theorem Memory.length_fill (fresh : Memory) (bs : List Byte) (n : ℕ) :
    (fresh.fill bs n).length = n := by
  simp only [Memory.fill, List.length_append, List.length_take, List.length_map,
    List.length_range']
  omega

theorem Memory.fill_eq (fresh : Memory) {bs : List Byte} {n : ℕ} (h : bs.length = n) :
    fresh.fill bs n = bs := by
  unfold Memory.fill
  simp [← h]

/-- Memory of zeros. -/
theorem Memory.fill_zero (bs : List Byte) (n : ℕ) :
    Memory.fill (fun _ => 0) bs (bs.length + n) = bs ++ List.replicate n 0 := by
  unfold Memory.fill
  rw [List.take_of_length_le (by omega), Nat.add_sub_cancel_left]
  simp [List.map_const']

/-! ## Zstandard -/

/-- `ZSTD_compressBound(srcSize)`. -/
def zstdCompressBound (srcSize : SizeT) : SizeT :=
  srcSize + (srcSize >>> 8) +
    if srcSize < 128 * 1024 then (128 * 1024 - srcSize) >>> 11 else 0

/-- `input_size` of `zstd_compress` (line 36): a `size_t` as a
    `zstd_block_size_t`, which is an `int`. -/
def zstdBlockSize (size : ℕ) : BitVec (8 * 4) := BitVec.ofNat _ size

/-- `static_cast<unsigned>(ZSTD_compressBound(input_size))` (line 38). -/
def zstdCapacity (size : ℕ) : ℕ :=
  ((zstdCompressBound ((zstdBlockSize size).signExtend 64)).setWidth 32).toNat

theorem zstdCapacity_lt (size : ℕ) : zstdCapacity size < 2 ^ 32 := BitVec.isLt _

/-- `zstd_compress` (lines 33–49). Nothing tests `out_size`: a result that
    reports an error is taken for a length. -/
def zstdCompress (z : Zstd) (fresh : Memory) (src : Buffer) : Buffer :=
  let inputSize := zstdBlockSize src.bytes.length
  let res := z.compress (zstdCapacity src.bytes.length) src.bytes
  let stored := match res with
    | .ok frame => frame
    | .error _ => []
  let outSize : BitVec 32 := match res with
    | .ok frame => BitVec.ofNat 32 frame.length
    | .error e => e.result.setWidth 32
  Buffer.ofBytes (fresh.fill (wordBytes inputSize ++ stored) (outSize.toNat + 4)) (by
    have := outSize.isLt
    rw [Memory.length_fill, maxElems_one]
    omega)

/-- `zstd_decompress` behind the size (lines 57–64). The library is told the
    size as the `int` it was stored as. -/
def zstdDecompressFrame (z : Zstd) (fresh : Memory) (outSize : BitVec (8 * 4))
    (frame : List Byte) : Except Stop Buffer :=
  match z.decompress (outSize.signExtend 64).toNat frame with
  | .ok content =>
    if content.length ≤ outSize.toNat then
      .ok (Buffer.ofBytes (fresh.fill content outSize.toNat) (by
        have := outSize.isLt
        rw [Memory.length_fill, maxElems_one]
        omega))
    else .error .undefinedBehaviour
  | .error (e, stored) =>
    if stored ≤ outSize.toNat then
      .error (.throws (.runtimeError
        ("Zstd decompress detected malformed data with error code " ++ toString e.result.toNat)))
    else .error .undefinedBehaviour

/-- `zstd_decompress` (lines 51–65): `std::copy` reads four bytes whatever the
    size of `src`. -/
def zstdDecompress (z : Zstd) (fresh : Memory) (src : Buffer) : Except Stop Buffer :=
  if src.bytes.length < 4 then .error .undefinedBehaviour
  else zstdDecompressFrame z fresh (wordOfBytes 4 (src.bytes.take 4)) (src.bytes.drop 4)

theorem ZstdError.toNat_result (e : ZstdError) :
    (e.result.setWidth 32).toNat = 2 ^ 32 - e.code := by
  have hpos := e.pos
  have hlt := e.lt
  unfold ZstdError.result
  simp only [BitVec.toNat_setWidth, BitVec.toNat_ofInt]
  omega

/-- What `zstd_compress` returns when `ZSTD_compress` succeeds. -/
theorem zstdCompress_ok {z : Zstd} (fresh : Memory) {src : Buffer} {frame : List Byte}
    (h : z.compress (zstdCapacity src.bytes.length) src.bytes = .ok frame) :
    (zstdCompress z fresh src).bytes = wordBytes (zstdBlockSize src.bytes.length) ++ frame := by
  have hlen := z.length_compress h
  have hcap := zstdCapacity_lt src.bytes.length
  unfold zstdCompress
  simp only [h]
  apply Memory.fill_eq
  rw [List.length_append, length_wordBytes, BitVec.toNat_ofNat, Nat.mod_eq_of_lt (by omega)]
  omega

/-- What it returns when `ZSTD_compress` fails. -/
theorem zstdCompress_error {z : Zstd} (fresh : Memory) {src : Buffer} {e : ZstdError}
    (h : z.compress (zstdCapacity src.bytes.length) src.bytes = .error e) :
    (zstdCompress z fresh src).bytes =
      fresh.fill (wordBytes (zstdBlockSize src.bytes.length)) (2 ^ 32 - e.code + 4) := by
  unfold zstdCompress
  simp only [h, List.append_nil, e.toNat_result]
  rfl

/-- `zstd_decompress` on a size and a frame. -/
theorem zstdDecompress_prefix (z : Zstd) (fresh : Memory) {src : Buffer} (size : BitVec (8 * 4))
    {frame : List Byte} (h : src.bytes = wordBytes size ++ frame) :
    zstdDecompress z fresh src = zstdDecompressFrame z fresh size frame := by
  have h4 : (wordBytes size).length = 4 := length_wordBytes size
  have hlen : ¬ src.bytes.length < 4 := by
    rw [h, List.length_append, h4]
    omega
  unfold zstdDecompress
  rw [if_neg hlen, h, List.take_left' h4, List.drop_left' h4, wordOfBytes_wordBytes]

/-- A frame that fills the buffer. -/
theorem zstdDecompressFrame_ok {z : Zstd} (fresh : Memory) {size : BitVec (8 * 4)}
    {frame : List Byte} {content : Buffer}
    (h : z.decompress (size.signExtend 64).toNat frame = .ok content.bytes)
    (hsize : content.bytes.length = size.toNat) :
    zstdDecompressFrame z fresh size frame = .ok content := by
  unfold zstdDecompressFrame
  simp only [h, if_pos (le_of_eq hsize)]
  apply congrArg
  apply Vec.ext
  exact Memory.fill_eq fresh hsize

/-- What `zstd_decompress` returns has come out of the frame, and has the stored size. -/
theorem exists_decompress {z : Zstd} {fresh : Memory} {size : BitVec (8 * 4)}
    {frame : List Byte} {dst : Buffer} (h : zstdDecompressFrame z fresh size frame = .ok dst) :
    dst.bytes.length = size.toNat ∧ ∃ content,
      z.decompress (size.signExtend 64).toNat frame = .ok content ∧ content.length ≤ size.toNat := by
  unfold zstdDecompressFrame at h
  split at h
  · next content hcontent =>
    split_ifs at h with hle
    cases h
    exact ⟨Memory.length_fill _ _ _, content, hcontent, hle⟩
  · split_ifs at h

/-! ## LZO -/

/-- `max_compressed_size` (lines 41–44). -/
def maxCompressedSize (size : SizeT) : SizeT := size + size / 16 + 64 + 3

theorem toNat_maxCompressedSize {n : ℕ} (h : n ≤ 2 ^ 63 - 1) :
    (maxCompressedSize (BitVec.ofNat 64 n)).toNat = n + n / 16 + 67 := by
  unfold maxCompressedSize
  have h16 : (16 : SizeT).toNat = 16 := rfl
  have h64 : (64 : SizeT).toNat = 64 := rfl
  have h3 : (3 : SizeT).toNat = 3 := rfl
  rw [BitVec.toNat_add, BitVec.toNat_add, BitVec.toNat_add, BitVec.toNat_udiv, BitVec.toNat_ofNat,
    h16, h64, h3]
  omega

/-- `lzo_compress` (lines 46–67). -/
def lzoCompress (l : Lzo) (src : Buffer) : Except Stop Buffer :=
  let inputSize : BitVec (8 * 8) := BitVec.ofNat _ src.bytes.length
  let capacity := maxCompressedSize inputSize
  if (8 + capacity).toNat > maxElems 1 then .error (.throws .lengthError)
  else
    match l.compress src.bytes with
    | none => .error (.throws (.runtimeError "lzo1x_1_compress() failed"))
    | some out =>
      if h : (wordBytes inputSize ++ out).length ≤ maxElems 1 ∧ out.length ≤ capacity.toNat then
        .ok (Buffer.ofBytes (wordBytes inputSize ++ out) h.1)
      else .error .undefinedBehaviour

/-- `lzo_decompress` (lines 69–86). -/
def lzoDecompress (l : Lzo) (src : Buffer) : Except Stop Buffer :=
  -- `std::copy` reads eight bytes whatever the size of `src`
  if src.bytes.length < 8 then .error .undefinedBehaviour
  else
    let outSize : BitVec (8 * 8) := wordOfBytes 8 (src.bytes.take 8)
    if h : outSize.toNat ≤ maxElems 1 then
      match l.decompress (src.bytes.drop 8) with
      | .ok content =>
        if content.length ≤ outSize.toNat then
          if hlen : content.length = outSize.toNat then
            .ok (Buffer.ofBytes content (hlen ▸ h))
          else .error (.throws (.runtimeError "lzo1x_decompress() failed"))
        else .error .undefinedBehaviour
      | .error stored =>
        if stored ≤ outSize.toNat then
          .error (.throws (.runtimeError "lzo1x_decompress() failed"))
        else .error .undefinedBehaviour
      | .overrun => .error .undefinedBehaviour
    else .error (.throws .lengthError)

/-- `lzo_compress` succeeds exactly when its buffer can be allocated. -/
theorem lzoCompress_eq (l : Lzo) (src : Buffer) :
    (src.bytes.length + src.bytes.length / 16 + 75 ≤ maxElems 1 ∧
      ∃ out dst, lzoCompress l src = .ok dst ∧
        dst.bytes = wordBytes (BitVec.ofNat (8 * 8) src.bytes.length) ++ out ∧
        l.decompress out = .ok src.bytes) ∨
    (maxElems 1 < src.bytes.length + src.bytes.length / 16 + 75 ∧
      lzoCompress l src = .error (.throws .lengthError)) := by
  have hb := src.length_le
  have hcap := toNat_maxCompressedSize hb
  obtain ⟨out, hout, hlen, hdec⟩ := l.exists_compress src.bytes
  have hsize : (8 + maxCompressedSize (BitVec.ofNat 64 src.bytes.length)).toNat =
      src.bytes.length + src.bytes.length / 16 + 75 := by
    rw [BitVec.toNat_add, hcap]
    simp only [BitVec.toNat_ofNat, BitVec.ofNat_eq_ofNat]
    omega
  unfold lzoCompress
  by_cases hle : src.bytes.length + src.bytes.length / 16 + 75 ≤ maxElems 1
  · have hfit : (wordBytes (BitVec.ofNat (8 * 8) src.bytes.length) ++ out).length ≤ maxElems 1 ∧
        out.length ≤ (maxCompressedSize (BitVec.ofNat 64 src.bytes.length)).toNat := by
      rw [List.length_append, length_wordBytes, hcap]
      exact ⟨by omega, hlen⟩
    refine Or.inl ⟨hle, out, Buffer.ofBytes _ hfit.1, ?_, rfl, hdec⟩
    simp only [hout]
    rw [if_neg (by rw [hsize]; omega), dif_pos hfit]
  · exact Or.inr ⟨by omega, if_pos (by rw [hsize]; omega)⟩

/-- `lzo_decompress` on a size and what LZO made of `content`. -/
theorem lzoDecompress_prefix (l : Lzo) {src content : Buffer} {out : List Byte}
    (h : src.bytes = wordBytes (BitVec.ofNat (8 * 8) content.bytes.length) ++ out)
    (hout : l.decompress out = .ok content.bytes) : lzoDecompress l src = .ok content := by
  have h8 : (wordBytes (BitVec.ofNat (8 * 8) content.bytes.length)).length = 8 := length_wordBytes _
  have hb := content.length_le
  have hsize : (BitVec.ofNat (8 * 8) content.bytes.length).toNat = content.bytes.length := by
    rw [BitVec.toNat_ofNat, Nat.mod_eq_of_lt (by omega)]
  have hlen : ¬ src.bytes.length < 8 := by
    rw [h, List.length_append, h8]
    omega
  unfold lzoDecompress
  rw [if_neg hlen]
  simp only [h, List.take_left' h8, List.drop_left' h8, wordOfBytes_wordBytes, hout, hsize]
  rw [dif_pos (le_of_le_of_eq hb maxElems_one.symm), if_pos (le_refl _), dif_pos trivial]
  rfl

end BambooShoot.Pbsf
