import BambooShoot.Lib.CrcDistance
import BambooShoot.Pbsf.Checksum
import Mathlib.NumberTheory.LucasLehmer

/-!
# How many flipped bits a block survives unnoticed

`decode_block` compares the CRC-32C of the content with the checksum stored in
front of it (`data-block.cc`, lines 86–89). Here the content and that stored
checksum are both open to damage.

* `minimalPeriod_castagnoli`: the register comes round after `2 ^ 31 - 1` bits,
  no earlier;
* `decodeBlock_fewFlips_iff`: one, two or three flipped bits are always noticed
  exactly where the content is shorter than 2²⁸ - 4 bytes;
* `decodeBlock_oddFlips`: an odd number of them is, at any length.
-/

namespace BambooShoot.Pbsf

open BambooShoot.Lib BambooShoot.Pbss

/-! ## The period of the register -/

theorem prime_period : (2 ^ 31 - 1).Prime :=
  lucas_lehmer_sufficiency 31 (by norm_num) (by norm_num)

theorem parity_castagnoli : parity castagnoli = true := by decide +kernel

/-- `2 ^ 31` moves are one move. -/
theorem iterate_castagnoli : (bitStep castagnoli)^[2 ^ 31] castagnoli =
    bitStep castagnoli castagnoli := by
  have hsquares : combine castagnoli 0 (square^[31] (columns (bitStep castagnoli))) =
      bitStep castagnoli castagnoli := by decide +kernel
  rw [iterate_two_pow (bitStep_xor castagnoli), combine_columns (iterate_xor (bitStep_xor _) _)]
    at hsquares
  exact hsquares

theorem minimalPeriod_castagnoli :
    Function.minimalPeriod (bitStep castagnoli) castagnoli = 2 ^ 31 - 1 := by
  have hperiod : Function.IsPeriodicPt (bitStep castagnoli) (2 ^ 31 - 1) castagnoli := by
    have hround := iterate_castagnoli
    rw [show 2 ^ 31 = (2 ^ 31 - 1) + 1 by rfl, Function.iterate_succ_apply'] at hround
    exact bitSteps_injective castagnoli_msb 1 hround
  have hmoves : bitStep castagnoli castagnoli ≠ castagnoli := by decide +kernel
  rcases (Nat.dvd_prime prime_period).1 hperiod.minimalPeriod_dvd with hone | h
  · exact absurd (Function.minimalPeriod_eq_one_iff_isFixedPt.1 hone) hmoves
  · exact h

/-! ## The bits of a stored block -/

/-- The bits the checksum speaks about: those of the content and its own. -/
def EncodedBlock.protectedBits (block : EncodedBlock) : List Bool :=
  block.content.bytes.flatMap byteBits ++ (List.range 32).map block.contentChecksum.getLsbD

/-- The number of bits in which two blocks differ, in content and checksum. -/
def flips (block damaged : EncodedBlock) : ℕ :=
  (bitDiff block.protectedBits damaged.protectedBits).count true

theorem length_flatMap_byteBits (bytes : List Byte) :
    (bytes.flatMap byteBits).length = 8 * bytes.length := by
  induction bytes with
  | nil => rfl
  | cons b bytes ih =>
    rw [List.flatMap_cons, List.length_append, ih, List.length_cons]
    simp only [byteBits, List.length_map, List.length_range]
    omega

theorem length_protectedBits (block : EncodedBlock) :
    block.protectedBits.length = 8 * block.content.bytes.length + 32 := by
  simp only [EncodedBlock.protectedBits, List.length_append, length_flatMap_byteBits,
    List.length_map, List.length_range]

theorem crc32c_eq_foldl (bytes : List Byte) : crc32c bytes =
    ~~~((bytes.flatMap byteBits).foldl (shiftIn castagnoli) 0xFFFFFFFF#32) := by
  have hbits := crcBits_eq_foldl castagnoli 0xFFFFFFFF#32 0#32 bytes (by omega)
  rw [crcBits, BitVec.xor_zero, BitVec.xor_zero, ← foldl_crc32cStep] at hbits
  rw [hbits]
  rfl

theorem xor_xor_xor_cancel (x y v : BitVec 32) : (x ^^^ v) ^^^ (y ^^^ v) = x ^^^ y := by
  rw [BitVec.xor_comm y v, BitVec.xor_assoc, ← BitVec.xor_assoc v, BitVec.xor_self,
    BitVec.zero_xor]

/-- What differs between two strings is the difference of their checksums. -/
theorem syndrome_content {a b : List Byte} (h : a.length = b.length) :
    syndrome castagnoli (bitDiff (a.flatMap byteBits) (b.flatMap byteBits)) =
      crc32c a ^^^ crc32c b := by
  have hbits : (a.flatMap byteBits).length = (b.flatMap byteBits).length := by
    rw [length_flatMap_byteBits, length_flatMap_byteBits, h]
  have hxor := foldl_shiftIn_xor castagnoli 0xFFFFFFFF#32 0xFFFFFFFF#32 hbits
  rw [BitVec.xor_self] at hxor
  rw [syndrome, hxor, crc32c_eq_foldl, crc32c_eq_foldl]
  rw [← BitVec.xor_allOnes, ← BitVec.xor_allOnes]
  exact (xor_xor_xor_cancel _ _ _).symm

/-- The checksum of a damaged block is right exactly where the damage leaves the
    register clear. -/
theorem checksum_eq_iff {block damaged : EncodedBlock}
    (hsum : block.contentChecksum = crc32c block.content.bytes)
    (hlen : damaged.content.bytes.length = block.content.bytes.length) :
    damaged.contentChecksum = crc32c damaged.content.bytes ↔
      syndrome castagnoli (bitDiff block.protectedBits damaged.protectedBits) = 0#32 := by
  have hparts : bitDiff block.protectedBits damaged.protectedBits =
      bitDiff (block.content.bytes.flatMap byteBits) (damaged.content.bytes.flatMap byteBits) ++
        (List.range 32).map (block.contentChecksum ^^^ damaged.contentChecksum).getLsbD := by
    unfold bitDiff EncodedBlock.protectedBits
    rw [List.zipWith_append (by simp only [length_flatMap_byteBits, hlen]), List.zipWith_map,
      List.zipWith_self]
    congr 1
    refine List.map_congr_left fun i _ => ?_
    rw [BitVec.getLsbD_xor]
  have hrest : crc32c block.content.bytes ^^^ crc32c damaged.content.bytes ^^^
      (crc32c block.content.bytes ^^^ damaged.contentChecksum) =
        crc32c damaged.content.bytes ^^^ damaged.contentChecksum := by
    rw [BitVec.xor_comm (crc32c block.content.bytes), BitVec.xor_comm (crc32c block.content.bytes)]
    exact xor_xor_xor_cancel _ _ _
  rw [hparts, syndrome, List.foldl_append, ← syndrome, syndrome_content hlen.symm,
    foldl_shiftIn castagnoli _ _ (BitVec.isLt _), hsum, hrest]
  constructor
  · intro h
    rw [h, BitVec.xor_self, bitSteps_eq_iterate, iterate_bitStep_zero]
  · intro h
    exact (BitVec.xor_eq_zero_iff.1 (eq_zero_of_bitSteps castagnoli_msb h)).symm

/-! ## Blocks with given bits -/

theorem exists_word {n : ℕ} {bits : List Bool} (h : bits.length = n) :
    ∃ v : BitVec n, (List.range n).map v.getLsbD = bits := by
  subst h
  refine ⟨BitVec.ofBoolListLE bits, List.ext_getElem (by simp) fun i hi hi' => ?_⟩
  rw [List.getElem_map, List.getElem_range, BitVec.getLsbD_ofBoolListLE,
    List.getD_eq_getElem?_getD, List.getElem?_eq_getElem hi', Option.getD_some]

theorem exists_bytes {n : ℕ} {bits : List Bool} (h : bits.length = 8 * n) :
    ∃ bytes : List Byte, bytes.length = n ∧ bytes.flatMap byteBits = bits := by
  induction n generalizing bits with
  | zero => exact ⟨[], rfl, (List.length_eq_zero_iff.1 h).symm⟩
  | succ n ih =>
    have hdrop : (bits.drop 8).length = 8 * n := by
      rw [List.length_drop]
      omega
    have htake : (bits.take 8).length = 8 := by
      rw [List.length_take]
      omega
    obtain ⟨bytes, hlen, hbytes⟩ := ih hdrop
    obtain ⟨b, hb⟩ := exists_word htake
    refine ⟨b :: bytes, by rw [List.length_cons, hlen], ?_⟩
    rw [List.flatMap_cons, hbytes, show byteBits b = bits.take 8 from hb, List.take_append_drop]

/-- Any bits can be flipped. -/
theorem exists_damaged (block : EncodedBlock) {bits : List Bool}
    (h : bits.length = 8 * block.content.bytes.length + 32) :
    ∃ content crc, content.bytes.length = block.content.bytes.length ∧
      bitDiff block.protectedBits
        { block with content := content, contentChecksum := crc }.protectedBits = bits := by
  have hdiff : (bitDiff block.protectedBits bits).length = 8 * block.content.bytes.length + 32 := by
    simp only [bitDiff, List.length_zipWith, length_protectedBits, h, Nat.min_self]
  have htake : ((bitDiff block.protectedBits bits).take (8 * block.content.bytes.length)).length =
      8 * block.content.bytes.length := by
    rw [List.length_take]
    omega
  have hdrop : ((bitDiff block.protectedBits bits).drop (8 * block.content.bytes.length)).length =
      32 := by
    rw [List.length_drop]
    omega
  obtain ⟨bytes, hlen, hbytes⟩ := exists_bytes htake
  obtain ⟨crc, hcrc⟩ := exists_word hdrop
  refine ⟨Buffer.ofBytes bytes (hlen ▸ block.content.bounded), crc, hlen, ?_⟩
  have hbits : EncodedBlock.protectedBits { block with
      content := Buffer.ofBytes bytes (hlen ▸ block.content.bounded), contentChecksum := crc } =
        bitDiff block.protectedBits bits := by
    show bytes.flatMap byteBits ++ (List.range 32).map crc.getLsbD = _
    rw [hbytes, hcrc, List.take_append_drop]
  rw [hbits]
  exact bitDiff_bitDiff (by rw [h, length_protectedBits])

/-! ## What `decode_block` notices -/

theorem lzoDecompress_ne_badChecksum (l : Lzo) (src : Buffer) :
    lzoDecompress l src ≠ .error (.throws .badChecksumError) := by
  unfold lzoDecompress
  intro h
  split at h
  · cases h
  dsimp only at h
  split at h
  · split at h
    · split_ifs at h
      · cases h
      · cases h
    · split_ifs at h
      · cases h
      · cases h
    · cases h
  · cases h

theorem zstdDecompress_ne_badChecksum (z : Zstd) (fresh : Memory) (src : Buffer) :
    zstdDecompress z fresh src ≠ .error (.throws .badChecksumError) := by
  unfold zstdDecompress
  intro h
  split at h
  · cases h
  unfold zstdDecompressFrame at h
  split at h
  · split_ifs at h
    cases h
  · split_ifs at h
    · cases h
    · cases h

/-- `decode_block` reports a bad checksum exactly where the stored one is wrong. -/
theorem decodeBlock_badChecksum_iff (lib : Libraries) (fresh : Memory) (block : EncodedBlock) :
    decodeBlock lib fresh block = .error (.throws .badChecksumError) block ↔
      block.contentChecksum ≠ crc32c block.content.bytes := by
  constructor
  · intro h hsum
    rw [show block = ⟨block.contentType, block.contentEncoding, crc32c block.content.bytes,
      block.content⟩ from hsum ▸ rfl, decodeBlock_eq] at h
    split_ifs at h
    · cases hlzo : lzoDecompress lib.lzo block.content with
      | ok dst => rw [hlzo] at h; cases h
      | error stop =>
        rw [hlzo] at h
        cases h
        exact lzoDecompress_ne_badChecksum _ _ hlzo
    · cases hzstd : zstdDecompress lib.zstd fresh block.content with
      | ok dst => rw [hzstd] at h; cases h
      | error stop =>
        rw [hzstd] at h
        cases h
        exact zstdDecompress_ne_badChecksum _ _ _ hzstd
    · cases h
  · intro h
    show (if block.contentChecksum ≠ crc32c block.content.bytes then _ else _ :
      Run EncodedBlock Buffer) _ = _
    rw [if_pos h]
    rfl

theorem length_bitDiff_protectedBits {block damaged : EncodedBlock}
    (hlen : damaged.content.bytes.length = block.content.bytes.length) :
    (bitDiff block.protectedBits damaged.protectedBits).length =
      8 * block.content.bytes.length + 32 := by
  simp only [bitDiff, List.length_zipWith, length_protectedBits, hlen, Nat.min_self]

/-- `damaged` is `block` after a change of its content, which keeps its length,
    or of its checksum. -/
structure DamagedFrom (block damaged : EncodedBlock) : Prop where
  contentType : damaged.contentType = block.contentType
  contentEncoding : damaged.contentEncoding = block.contentEncoding
  length : damaged.content.bytes.length = block.content.bytes.length

/-- A stored block in which one, two or three bits of the content or of the
    checksum are flipped is rejected, whichever bits they are, exactly where its
    content is shorter than 2²⁸ - 4 bytes. -/
theorem decodeBlock_fewFlips_iff (lib : Libraries) (fresh : Memory) (block : EncodedBlock)
    (hsum : block.contentChecksum = crc32c block.content.bytes) :
    (∀ damaged, DamagedFrom block damaged → 1 ≤ flips block damaged → flips block damaged ≤ 3 →
      decodeBlock lib fresh damaged = .error (.throws .badChecksumError) damaged) ↔
    block.content.bytes.length < 2 ^ 28 - 4 := by
  constructor
  · intro h
    by_contra hlong
    -- the first bit of the content and one a whole period behind it
    have htwoBits : (twoBits 0 (2 ^ 31 - 2)
        (8 * block.content.bytes.length + 32 - 2 ^ 31)).length =
          8 * block.content.bytes.length + 32 := by
      rw [length_twoBits]
      omega
    obtain ⟨content, crc, hlen, hbits⟩ := exists_damaged block htwoBits
    have hunseen : crc = crc32c content.bytes := by
      have hiff := @checksum_eq_iff block { block with content, contentChecksum := crc } hsum hlen
      refine hiff.2 ?_
      rw [hbits, syndrome_two_eq_zero_iff castagnoli_msb,
        Function.isPeriodicPt_iff_minimalPeriod_dvd, minimalPeriod_castagnoli]
      exact dvd_refl _
    have htwo : flips block { block with content, contentChecksum := crc } = 2 := by
      rw [flips, hbits, count_twoBits]
    have hnoticed := h { block with content, contentChecksum := crc } ⟨rfl, rfl, hlen⟩
      (by rw [htwo]; omega) (by rw [htwo]; omega)
    exact (decodeBlock_badChecksum_iff lib fresh _).1 hnoticed hunseen
  · intro hshort damaged hdamaged hpos hfew
    rw [decodeBlock_badChecksum_iff, Ne, checksum_eq_iff hsum hdamaged.length]
    refine syndrome_ne_zero parity_castagnoli castagnoli_msb ?_ hpos hfew
    rw [length_bitDiff_protectedBits hdamaged.length, minimalPeriod_castagnoli]
    omega

/-- Two bits of the third byte are flipped. -/
theorem decodeBlock_fewFlips_six :
    decodeBlock Libraries.stored (fun _ => 0)
        ⟨7, encodingIdentity, crc32c [1, 2, 3, 4, 5, 6], sixBytes 1 2 0 4 5 6⟩ =
      .error (.throws .badChecksumError)
        ⟨7, encodingIdentity, crc32c [1, 2, 3, 4, 5, 6], sixBytes 1 2 0 4 5 6⟩ :=
  (decodeBlock_fewFlips_iff Libraries.stored (fun _ => 0)
    ⟨7, encodingIdentity, crc32c [1, 2, 3, 4, 5, 6], sixBytes 1 2 3 4 5 6⟩ rfl).2 (by decide) _
    ⟨rfl, rfl, rfl⟩ (by decide +kernel) (by decide +kernel)

/-- An odd number of flipped bits is never missed, however long the content is. -/
theorem decodeBlock_oddFlips (lib : Libraries) (fresh : Memory) {block damaged : EncodedBlock}
    (hsum : block.contentChecksum = crc32c block.content.bytes)
    (hdamaged : DamagedFrom block damaged) (hodd : flips block damaged % 2 = 1) :
    decodeBlock lib fresh damaged = .error (.throws .badChecksumError) damaged := by
  rw [decodeBlock_badChecksum_iff, Ne, checksum_eq_iff hsum hdamaged.length]
  exact syndrome_ne_zero_of_odd parity_castagnoli hodd

/-- Three bits of the third byte are flipped. -/
theorem decodeBlock_oddFlips_six :
    decodeBlock Libraries.stored (fun _ => 0)
        ⟨7, encodingIdentity, crc32c [1, 2, 3, 4, 5, 6], sixBytes 1 2 4 4 5 6⟩ =
      .error (.throws .badChecksumError)
        ⟨7, encodingIdentity, crc32c [1, 2, 3, 4, 5, 6], sixBytes 1 2 4 4 5 6⟩ :=
  @decodeBlock_oddFlips Libraries.stored (fun _ => 0)
    ⟨7, encodingIdentity, crc32c [1, 2, 3, 4, 5, 6], sixBytes 1 2 3 4 5 6⟩ _
    rfl ⟨rfl, rfl, rfl⟩ (by decide +kernel)

end BambooShoot.Pbsf
