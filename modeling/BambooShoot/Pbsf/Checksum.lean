import BambooShoot.Lib.Crc
import BambooShoot.Pbsf.DataBlock

/-!
# The checksum of a block is CRC-32C

`crc32c_generic` (`crc-32.cc`, lines 97–172) against the definition of
CRC-32C bit by bit (`file.md`, "Content-Checksum"), and what `decode_block`
detects by it.

* `crc32Tab_get`: all 256 entries of the table;
* `crc32cGeneric_eq_crcBits`: the function is the definition;
* `decodeBlock_burst`: a change inside four consecutive bytes never passes.
-/

namespace BambooShoot.Pbsf

open BambooShoot.Lib BambooShoot.Pbss

/-- The polynomial of CRC-32C, reflected: bit 0 belongs to the highest power. -/
def castagnoli : BitVec 32 := BitVec.reverse 0x1EDC6F41#32

theorem castagnoli_eq : castagnoli = 0x82F63B78#32 := by decide +kernel

theorem castagnoli_msb : castagnoli.msb = true := by decide +kernel

theorem crc32Tab_toList : crc32Tab.toList =
    (List.range 256).map fun i => bitSteps 0x82F63B78#32 8 (BitVec.ofNat 32 i) := by
  decide +kernel

/-- Every entry of the table is eight moves of its index. -/
theorem crc32Tab_get : ∀ i : Fin 256,
    crc32Tab.get i = bitSteps castagnoli 8 (BitVec.ofNat 32 i) := by
  intro i
  have hentry : crc32Tab.toList[i.val]? =
      some (bitSteps 0x82F63B78#32 8 (BitVec.ofNat 32 i)) := by
    rw [crc32Tab_toList, List.getElem?_map, List.getElem?_range i.isLt]
    rfl
  rw [Vector.getElem?_toList, Vector.getElem?_eq_getElem i.isLt, ← castagnoli_eq] at hentry
  exact Option.some.inj hentry

/-- One lookup of the source is one byte of the definition. -/
theorem crc32cStep_eq (crc : BitVec 32) (byte : Byte) :
    crc32cStep crc byte = byteStep castagnoli crc byte := by
  have hindex : ((crc ^^^ byte.setWidth 32) &&& 0xff).toNat =
      (crc ^^^ byte.setWidth 32).toNat % 2 ^ 8 := by
    rw [BitVec.toNat_and]
    exact Nat.and_two_pow_sub_one_eq_mod _ 8
  have hshift : (crc ^^^ byte.setWidth 32) >>> 8 = crc >>> 8 := by
    apply BitVec.eq_of_getLsbD_eq
    intro i _
    simp
  show crc32Tab.get _ ^^^ (crc >>> 8) = bitSteps castagnoli 8 (crc ^^^ byte.setWidth 32)
  rw [crc32Tab_get, bitSteps_split castagnoli (crc ^^^ byte.setWidth 32), hshift]
  simp only [hindex]

theorem foldl_crc32cStep (crc : BitVec 32) (str : List Byte) :
    str.foldl crc32cStep crc = str.foldl (byteStep castagnoli) crc := by
  have : crc32cStep = byteStep castagnoli := by
    funext crc byte
    exact crc32cStep_eq crc byte
  rw [this]

/-- `crc32c_generic` computes the CRC-32C of its argument: polynomial
    0x1EDC6F41, reflected, the register all ones at the start and inverted at
    the end. -/
theorem crc32cGeneric_eq_crcBits :
    BitVec.reverse 0x1EDC6F41#32 = 0x82F63B78#32 ∧
    ∀ str : List Byte,
      crc32cGeneric str = crcBits 0x82F63B78#32 0xFFFFFFFF#32 0xFFFFFFFF#32 str := by
  refine ⟨castagnoli_eq, fun str => ?_⟩
  rw [← castagnoli_eq, crcBits_eq_foldl _ _ _ _ (by omega), ← foldl_crc32cStep]
  show ~~~(str.foldl crc32cStep 0xFFFFFFFF#32) = _
  exact (BitVec.xor_allOnes).symm

/-- The string of `test-crc32.cc`. -/
example : crc32cGeneric ((List.range 26).map fun i => BitVec.ofNat 8 (97 + i)) = 0x9ee6ef25 := by
  decide +kernel

/-! ## Bursts -/

/-- The checksum tells apart strings that differ in at most four bytes in a row. -/
theorem crc32c_burst {a b front back : List Byte} (hlen : a.length = b.length)
    (hburst : a.length ≤ 4) (h : crc32c (front ++ a ++ back) = crc32c (front ++ b ++ back)) :
    a = b := by
  have hfold : (front ++ a ++ back).foldl crc32cStep 0xFFFFFFFF =
      (front ++ b ++ back).foldl crc32cStep 0xFFFFFFFF := BitVec.not_inj.1 h
  simp only [foldl_crc32cStep, List.foldl_append] at hfold
  have hmiddle := foldl_byteStep_left_injective castagnoli_msb back hfold
  exact foldl_byteStep_injective castagnoli_msb _ hlen (by omega) hmiddle

/-- A string is what is before the window `[k, k + n)`, what is in it and what is
    after it. -/
theorem take_window_drop (l : List Byte) (k n : ℕ) :
    l.take k ++ (l.drop k).take n ++ l.drop (k + n) = l := by
  rw [← List.drop_drop, List.append_assoc, List.take_append_drop, List.take_append_drop]

/-- Strings that agree outside of `[k, k + n)` share what is before and after it. -/
theorem split_window {a b : List Byte} {k n : ℕ}
    (h : ∀ i, i < k ∨ k + n ≤ i → a[i]? = b[i]?) :
    a = a.take k ++ (a.drop k).take n ++ a.drop (k + n) ∧
      b = a.take k ++ (b.drop k).take n ++ a.drop (k + n) := by
  have htake : b.take k = a.take k := by
    apply List.ext_getElem?
    intro i
    rcases Nat.lt_or_ge i k with hi | hi
    · rw [List.getElem?_take_of_lt hi, List.getElem?_take_of_lt hi, h i (.inl hi)]
    · rw [List.getElem?_take_eq_none hi, List.getElem?_take_eq_none hi]
  have hdrop : b.drop (k + n) = a.drop (k + n) := by
    apply List.ext_getElem?
    intro i
    rw [List.getElem?_drop, List.getElem?_drop, h _ (.inr (by omega))]
  refine ⟨(take_window_drop a k n).symm, ?_⟩
  rw [← htake, ← hdrop]
  exact (take_window_drop b k n).symm

/-- A block whose content was changed inside a window of four bytes after its
    checksum was taken is not decoded. -/
theorem decodeBlock_burst (lib : Libraries) (fresh : Memory) (block : EncodedBlock)
    (content : Buffer) (k : ℕ) (hsum : block.contentChecksum = crc32c block.content.bytes)
    (hlen : content.bytes.length = block.content.bytes.length)
    (hwindow : ∀ i, i < k ∨ k + 4 ≤ i → content.bytes[i]? = block.content.bytes[i]?)
    (hdiff : content.bytes ≠ block.content.bytes) :
    decodeBlock lib fresh { block with content := content } =
      .error (.throws .badChecksumError) { block with content := content } := by
  obtain ⟨hnew, hold⟩ := split_window hwindow
  have hchecksum : crc32c block.content.bytes ≠ crc32c content.bytes := by
    intro h
    rw [hnew, hold] at h
    have hmiddle := crc32c_burst (by simp [hlen]) (by simp) h
    exact hdiff (hnew.trans (hmiddle ▸ hold.symm))
  show (if block.contentChecksum ≠ crc32c content.bytes then _ else _ :
    Run EncodedBlock Buffer) _ = _
  rw [hsum, if_pos hchecksum]
  rfl

theorem six_le_maxElems (a b c d e f : Byte) : [a, b, c, d, e, f].length ≤ maxElems 1 :=
  show 6 ≤ maxElems 1 by decide

/-- A buffer of six bytes. -/
def sixBytes (a b c d e f : Byte) : Buffer :=
  Buffer.ofBytes [a, b, c, d, e, f] (six_le_maxElems _ _ _ _ _ _)

/-- Four bytes of six are overwritten. -/
theorem decodeBlock_burst_six :
    decodeBlock Libraries.stored (fun _ => 0)
        ⟨7, encodingIdentity, crc32c [1, 2, 3, 4, 5, 6], sixBytes 1 0 0 0 0 6⟩ =
      .error (.throws .badChecksumError)
        ⟨7, encodingIdentity, crc32c [1, 2, 3, 4, 5, 6], sixBytes 1 0 0 0 0 6⟩ := by
  refine decodeBlock_burst Libraries.stored (fun _ => 0)
    ⟨7, encodingIdentity, crc32c [1, 2, 3, 4, 5, 6], sixBytes 1 2 3 4 5 6⟩
    (sixBytes 1 0 0 0 0 6) 1 rfl rfl ?_ (by decide)
  rintro (_ | i) (h | h)
  · rfl
  · omega
  · omega
  · obtain ⟨j, rfl⟩ : ∃ j, i = j + 4 := ⟨i - 4, by omega⟩
    rfl

end BambooShoot.Pbsf
