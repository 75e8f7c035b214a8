import BambooShoot.Pbsf.Checksum

/-!
# The checksum with SSE 4.2

`crc32c_sse` (`crc-32.cc`, lines 41–93): a buffer is read byte by byte up to the
first address that is a multiple of eight, then by words of eight bytes, then by
bytes again. Addresses are 64 bits wide and wrap; the loops test pointers for
inequality and end, here, with their fuel.

Result: `crc32cSse_eq`, the value is that of `crc32c_generic`, every byte is read
once and in order, and every word that is read is aligned and inside the buffer
(`ReadsOnce`).
-/

namespace BambooShoot.Pbsf

open BambooShoot.Lib BambooShoot.Pbss

/-! ## Memory -/

abbrev Address := BitVec 64

/-- A buffer in memory. The last word of the address space is no part of any: a
    program has addresses below `2 ^ 47`. -/
structure Region where
  start : Address
  bytes : List Byte
  below : start.toNat + bytes.length + 8 ≤ 2 ^ 64

/-- The address of byte `i`. -/
def Region.at (region : Region) (i : ℕ) : Address := region.start + BitVec.ofNat 64 i

/-- What has been read: the address of every byte, and of every word of eight bytes. -/
structure Reads where
  visited : List Address := []
  words : List Address := []

/-- `*ptr` of a `const char*`. -/
def loadByte (region : Region) (ptr : Address) : Run Reads Byte :=
  match region.bytes[(ptr - region.start).toNat]? with
  | some byte => do
    modify fun r => { r with visited := r.visited ++ [ptr] }
    pure byte
  | none => throw .undefinedBehaviour

/-- `*ptr` of a `const uint64_t*`, which has to be aligned. -/
def loadWord (region : Region) (ptr : Address) : Run Reads (BitVec (8 * 8)) :=
  let bytes := (region.bytes.drop (ptr - region.start).toNat).take 8
  if ptr.toNat % 8 = 0 ∧ bytes.length = 8 then do
    modify fun r =>
      { visited := r.visited ++ (List.range 8).map fun i => ptr + BitVec.ofNat 64 i,
        words := r.words ++ [ptr] }
    pure (wordOfBytes 8 bytes)
  else throw .undefinedBehaviour

/-! ## `crc32c_sse` -/

/-- `_mm_crc32_u8`. -/
def mmCrc32U8 (crc : BitVec 32) (v : Byte) : BitVec 32 := byteStep castagnoli crc v

/-- `_mm_crc32_u64`: the low 32 bits of `crc` count, and those of the result. -/
def mmCrc32U64 (crc : BitVec 64) (v : BitVec (8 * 8)) : BitVec 64 :=
  ((wordBytes v).foldl (byteStep castagnoli) (crc.setWidth 32)).setWidth 64

/-- `sse_update_crc32c_8` (lines 41–45). -/
def sseUpdateCrc32c8 (region : Region) : ℕ → BitVec 32 → Address → Address → Run Reads (BitVec 32)
  | 0, _, _, _ => throw .outOfFuel
  | fuel + 1, acc, first, last =>
    if first = last then pure acc
    else do
      let byte ← loadByte region first
      sseUpdateCrc32c8 region fuel (mmCrc32U8 acc byte) (first + 1) last

/-- `sse_update_crc32c_64` (lines 47–51). -/
def sseUpdateCrc32c64 (region : Region) : ℕ → BitVec 32 → Address → Address → Run Reads (BitVec 32)
  | 0, _, _, _ => throw .outOfFuel
  | fuel + 1, acc, first, last =>
    if first = last then pure acc
    else do
      let word ← loadWord region first
      sseUpdateCrc32c64 region fuel ((mmCrc32U64 (acc.setWidth 64) word).setWidth 32) (first + 8) last

/-- `align_ceil<align>(ptr)` (lines 53–59). -/
def alignCeil (align ptr : Address) : Address :=
  let add := align - 1
  let mask := ~~~add
  (ptr + add) &&& mask

/-- `align_floor<align>(ptr)` (lines 61–66). -/
def alignFloor (align ptr : Address) : Address :=
  let mask := ~~~(align - 1)
  ptr &&& mask

/-- `crc32c_sse(str, count)` (lines 76–93). -/
def crc32cSse (fuel : ℕ) (region : Region) : Run Reads (BitVec 32) := do
  let first := region.start
  let last := first + BitVec.ofNat 64 region.bytes.length
  let alignedBegin := alignCeil 8 first
  let alignedEnd := alignFloor 8 last
  let acc ← (
    if alignedBegin > last then sseUpdateCrc32c8 region fuel 0xFFFFFFFF first last
    else do
      let acc ← sseUpdateCrc32c8 region fuel 0xFFFFFFFF first alignedBegin
      let acc ← sseUpdateCrc32c64 region fuel acc alignedBegin alignedEnd
      sseUpdateCrc32c8 region fuel acc alignedEnd last)
  pure (~~~acc)

/-- `crc32c(str, count)` (lines 174–185) where it is built with SSE 4.2. -/
def crc32cCompute (hasSse42 : Bool) (fuel : ℕ) (region : Region) : Run Reads (BitVec 32) :=
  if hasSse42 then crc32cSse fuel region else pure (crc32cGeneric region.bytes)

/-! ## Addresses -/

section Addresses

variable {region : Region}

theorem Region.toNat_at {i : ℕ} (h : i ≤ region.bytes.length) :
    (region.at i).toNat = region.start.toNat + i := by
  have hbelow := region.below
  unfold Region.at
  rw [BitVec.toNat_add, BitVec.toNat_ofNat]
  omega

theorem Region.at_sub {i : ℕ} (h : i ≤ region.bytes.length) :
    (region.at i - region.start).toNat = i := by
  have hbelow := region.below
  rw [BitVec.toNat_sub, Region.toNat_at h]
  omega

theorem Region.at_add (i k : ℕ) : region.at i + BitVec.ofNat 64 k = region.at (i + k) := by
  unfold Region.at
  rw [BitVec.ofNat_add, BitVec.add_assoc]

theorem Region.at_ne {i j : ℕ} (hij : i < j) (h : j ≤ region.bytes.length) :
    region.at i ≠ region.at j := by
  intro heq
  have hnat := congrArg BitVec.toNat heq
  rw [Region.toNat_at (by omega), Region.toNat_at h] at hnat
  omega

theorem Region.eq_at {ptr : Address} {i : ℕ} (h : i ≤ region.bytes.length)
    (hptr : ptr.toNat = region.start.toNat + i) : ptr = region.at i :=
  BitVec.eq_of_toNat_eq (hptr.trans (Region.toNat_at h).symm)

/-- Clearing the three low bits rounds down. -/
theorem toNat_alignFloor (ptr : Address) : (alignFloor 8 ptr).toNat = ptr.toNat / 8 * 8 := by
  have hmask : alignFloor 8 ptr = (ptr >>> 3) <<< 3 := by
    apply BitVec.eq_of_getLsbD_eq
    intro i hi
    have hbit : (~~~((8 : Address) - 1)).getLsbD i = decide (3 ≤ i) := by
      have : ∀ i : Fin 64, (~~~((8 : Address) - 1)).getLsbD i = decide (3 ≤ (i : ℕ)) := by decide
      exact this ⟨i, hi⟩
    unfold alignFloor
    rw [BitVec.getLsbD_and, hbit]
    by_cases h3 : 3 ≤ i
    · simp [h3, hi, show ¬ i < 3 by omega]
    · simp [h3, show i < 3 by omega]
  have hlt := ptr.isLt
  rw [hmask, BitVec.toNat_shiftLeft, BitVec.toNat_ushiftRight, Nat.shiftLeft_eq,
    Nat.shiftRight_eq_div_pow]
  omega

theorem toNat_alignCeil {ptr : Address} (h : ptr.toNat + 8 ≤ 2 ^ 64) :
    (alignCeil 8 ptr).toNat = (ptr.toNat + 7) / 8 * 8 := by
  have hadd : (ptr + ((8 : Address) - 1)).toNat = ptr.toNat + 7 := by
    have h7 : ((8 : Address) - 1).toNat = 7 := by decide
    rw [BitVec.toNat_add, h7]
    omega
  show (alignFloor 8 (ptr + ((8 : Address) - 1))).toNat = _
  rw [toNat_alignFloor, hadd]

end Addresses

/-! ## The loops -/

section Loops

variable {region : Region}

theorem loadByte_at {i : ℕ} (h : i < region.bytes.length) (r : Reads) :
    loadByte region (region.at i) r =
      .ok region.bytes[i] { r with visited := r.visited ++ [region.at i] } := by
  unfold loadByte
  rw [Region.at_sub (by omega), List.getElem?_eq_getElem h]
  rfl

theorem loadWord_at {i : ℕ} (h : i + 8 ≤ region.bytes.length)
    (halign : (region.start.toNat + i) % 8 = 0) (r : Reads) :
    loadWord region (region.at i) r =
      .ok (wordOfBytes 8 ((region.bytes.drop i).take 8))
        ⟨r.visited ++ (List.range' i 8).map region.at, r.words ++ [region.at i]⟩ := by
  have hvisited : (List.range 8).map (fun k => region.at i + BitVec.ofNat 64 k) =
      (List.range' i 8).map region.at := by
    simp only [Region.at_add, List.range'_eq_map_range, List.map_map]
    rfl
  have hlen : ((region.bytes.drop i).take 8).length = 8 := by
    rw [List.length_take, List.length_drop]
    omega
  have hat : (region.at i).toNat = region.start.toNat + i := Region.toNat_at (by omega)
  unfold loadWord
  rw [Region.at_sub (by omega)]
  show (if _ then _ else _ : Run Reads _) r = _
  rw [if_pos ⟨by rw [hat, halign], hlen⟩, ← hvisited]
  rfl

/-- The loop over bytes reads `n` bytes, one after the other. -/
theorem sseUpdateCrc32c8_eq (region : Region) {fuel n : ℕ} (hfuel : n < fuel) {i : ℕ}
    (h : i + n ≤ region.bytes.length) (acc : BitVec 32) (r : Reads) :
    sseUpdateCrc32c8 region fuel acc (region.at i) (region.at (i + n)) r =
      .ok (((region.bytes.drop i).take n).foldl crc32cStep acc)
        { r with visited := r.visited ++ (List.range' i n).map region.at } := by
  obtain ⟨fuel, rfl⟩ : ∃ k, fuel = k + 1 := ⟨fuel - 1, by omega⟩
  induction n generalizing fuel i acc r with
  | zero =>
    show (if region.at i = region.at i then _ else _ : Run Reads _) r = _
    rw [if_pos rfl]
    simp only [List.range'_zero, List.map_nil, List.append_nil]
    rfl
  | succ n ih =>
    obtain ⟨fuel, rfl⟩ : ∃ k, fuel = k + 1 := ⟨fuel - 1, by omega⟩
    have hnext : region.at i + 1 = region.at (i + 1) := Region.at_add i 1
    have hbytes : region.bytes.drop i = region.bytes[i] :: region.bytes.drop (i + 1) :=
      List.drop_eq_getElem_cons (by omega)
    have hrest := ih (i := i + 1) (by omega) (mmCrc32U8 acc region.bytes[i])
      { r with visited := r.visited ++ [region.at i] } fuel (by omega)
    show (if region.at i = region.at (i + (n + 1)) then _ else _ : Run Reads _) r = _
    rw [if_neg (Region.at_ne (by omega) h), bind_of_ok (loadByte_at (by omega) r), hnext,
      show i + (n + 1) = i + 1 + n by omega, hrest, hbytes, List.take_succ_cons, List.foldl_cons,
      crc32cStep_eq, List.range'_succ, List.map_cons, List.append_assoc]
    rfl

/-- The loop over words reads `n` words, each as its eight bytes. -/
theorem sseUpdateCrc32c64_eq (region : Region) {fuel n : ℕ} (hfuel : n < fuel) {i : ℕ}
    (h : i + 8 * n ≤ region.bytes.length) (halign : (region.start.toNat + i) % 8 = 0)
    (acc : BitVec 32) (r : Reads) :
    sseUpdateCrc32c64 region fuel acc (region.at i) (region.at (i + 8 * n)) r =
      .ok (((region.bytes.drop i).take (8 * n)).foldl crc32cStep acc)
        ⟨r.visited ++ (List.range' i (8 * n)).map region.at,
          r.words ++ (List.range n).map fun k => region.at (i + 8 * k)⟩ := by
  obtain ⟨fuel, rfl⟩ : ∃ k, fuel = k + 1 := ⟨fuel - 1, by omega⟩
  induction n generalizing fuel i acc r with
  | zero =>
    show (if region.at i = region.at i then _ else _ : Run Reads _) r = _
    rw [if_pos rfl]
    simp only [Nat.mul_zero, List.range'_zero, List.map_nil, List.append_nil, List.range_zero]
    rfl
  | succ n ih =>
    obtain ⟨fuel, rfl⟩ : ∃ k, fuel = k + 1 := ⟨fuel - 1, by omega⟩
    have hnext : region.at i + 8 = region.at (i + 8) := Region.at_add i 8
    have hlen : ((region.bytes.drop i).take 8).length = 8 := by
      rw [List.length_take, List.length_drop]
      omega
    have hword : (mmCrc32U64 (acc.setWidth 64)
        (wordOfBytes 8 ((region.bytes.drop i).take 8))).setWidth 32 =
          ((region.bytes.drop i).take 8).foldl crc32cStep acc := by
      unfold mmCrc32U64
      rw [wordBytes_wordOfBytes hlen, foldl_crc32cStep]
      simp
    have hbytes : (region.bytes.drop i).take (8 * (n + 1)) =
        (region.bytes.drop i).take 8 ++ (region.bytes.drop (i + 8)).take (8 * n) := by
      rw [Nat.mul_add, Nat.add_comm, Nat.mul_one, List.take_add, List.drop_drop]
    have hrange : List.range' i (8 * (n + 1)) = List.range' i 8 ++ List.range' (i + 8) (8 * n) := by
      rw [Nat.mul_add, Nat.add_comm, Nat.mul_one, ← List.range'_append_1]
    have hwords : (List.range (n + 1)).map (fun k => region.at (i + 8 * k)) =
        region.at i :: (List.range n).map fun k => region.at (i + 8 + 8 * k) := by
      rw [List.range_succ_eq_map, List.map_cons, List.map_map]
      congr 1
      refine List.map_congr_left fun k _ => ?_
      show region.at (i + 8 * (k + 1)) = _
      rw [Nat.mul_add, Nat.mul_one, Nat.add_comm (8 * k), Nat.add_assoc]
    have hrest := ih (i := i + 8) (by omega) (by omega)
      (((region.bytes.drop i).take 8).foldl crc32cStep acc)
      ⟨r.visited ++ (List.range' i 8).map region.at, r.words ++ [region.at i]⟩ fuel (by omega)
    show (if region.at i = region.at (i + 8 * (n + 1)) then _ else _ : Run Reads _) r = _
    rw [if_neg (Region.at_ne (by omega) h), bind_of_ok (loadWord_at (by omega) halign r), hnext,
      hword, show i + 8 * (n + 1) = i + 8 + 8 * n by omega, hrest, hbytes, hrange, hwords,
      List.foldl_append, List.map_append, List.append_assoc, List.append_assoc]
    rfl

end Loops

/-- What a call of `crc32c_sse` has to show for itself: the value of
    `crc32c_generic`, every byte once and in order, every word aligned and inside
    the buffer. -/
def ReadsOnce (region : Region) (result : EStateM.Result Stop Reads (BitVec 32)) : Prop :=
  ∃ reads, result = .ok (crc32cGeneric region.bytes) reads ∧
    reads.visited = (List.range region.bytes.length).map region.at ∧
    ∀ ptr ∈ reads.words, ptr.toNat % 8 = 0 ∧ region.start.toNat ≤ ptr.toNat ∧
      ptr.toNat + 8 ≤ region.start.toNat + region.bytes.length

section Call

variable {region : Region} {fuel : ℕ}

theorem Region.at_zero (region : Region) : region.at 0 = region.start := BitVec.add_zero _

/-- No multiple of eight in the buffer or at its end: one loop over bytes. -/
theorem readsOnce_of_gt (hfuel : region.bytes.length < fuel)
    (h : alignCeil 8 region.start > region.at region.bytes.length) :
    ReadsOnce region (crc32cSse fuel region {}) := by
  have hloop := sseUpdateCrc32c8_eq region hfuel (i := 0) (by omega) 0xFFFFFFFF {}
  rw [Nat.zero_add, Region.at_zero, List.drop_zero, List.take_length] at hloop
  refine ⟨{ visited := (List.range' 0 region.bytes.length).map region.at }, ?_, ?_, ?_⟩
  · show ((if alignCeil 8 region.start > region.at region.bytes.length then
      sseUpdateCrc32c8 region fuel 0xFFFFFFFF region.start (region.at region.bytes.length)
      else _) >>= fun acc => pure (~~~acc) : Run Reads (BitVec 32)) {} = _
    rw [if_pos h, bind_of_ok hloop]
    rfl
  · rw [List.range_eq_range']
  · intro ptr hptr
    cases hptr

/-- The positions up to `i`, the next `n` and the next `k` are all up to `i + n + k`. -/
theorem range_three (i n k : ℕ) :
    List.range' 0 i ++ List.range' i n ++ List.range' (i + n) k = List.range (i + n + k) := by
  have htwo : List.range' 0 i ++ List.range' (0 + i) n = List.range' 0 (i + n) :=
    List.range'_append_1
  have hthree : List.range' 0 (i + n) ++ List.range' (0 + (i + n)) k =
      List.range' 0 (i + n + k) := List.range'_append_1
  rw [Nat.zero_add] at htwo hthree
  rw [htwo, hthree, List.range_eq_range']

/-- Otherwise the buffer is cut at its first and its last multiple of eight. -/
theorem readsOnce_of_cuts (hfuel : region.bytes.length < fuel) {i n : ℕ}
    (hle : i + 8 * n ≤ region.bytes.length) (halign : (region.start.toNat + i) % 8 = 0)
    (hbegin : alignCeil 8 region.start = region.at i)
    (hend : alignFloor 8 (region.at region.bytes.length) = region.at (i + 8 * n)) :
    ReadsOnce region (crc32cSse fuel region {}) := by
  have hgt : ¬ region.at i > region.at region.bytes.length := by
    rw [gt_iff_lt, BitVec.lt_def, Region.toNat_at (le_refl _), Region.toNat_at (by omega)]
    omega
  obtain ⟨k, hk⟩ : ∃ k, region.bytes.length = i + 8 * n + k := ⟨_, (Nat.add_sub_of_le hle).symm⟩
  -- the three loops
  have hfirst := sseUpdateCrc32c8_eq region (show i < fuel by omega) (i := 0) (by omega) 0xFFFFFFFF {}
  have hwords := sseUpdateCrc32c64_eq region (show n < fuel by omega) hle
    halign ((region.bytes.take i).foldl crc32cStep 0xFFFFFFFF)
    { visited := (List.range' 0 i).map region.at }
  have hlast := sseUpdateCrc32c8_eq region (show k < fuel by omega)
    (i := i + 8 * n) (by omega) (((region.bytes.drop i).take (8 * n)).foldl crc32cStep
      ((region.bytes.take i).foldl crc32cStep 0xFFFFFFFF))
    ⟨(List.range' 0 i).map region.at ++ (List.range' i (8 * n)).map region.at,
      (List.range n).map fun k => region.at (i + 8 * k)⟩
  rw [Nat.zero_add, Region.at_zero, List.drop_zero] at hfirst
  rw [← hk] at hlast
  have hbytes : region.bytes = region.bytes.take i ++ (region.bytes.drop i).take (8 * n) ++
      (region.bytes.drop (i + 8 * n)).take k := by
    have htail : (region.bytes.drop (i + 8 * n)).take k = region.bytes.drop (i + 8 * n) := by
      apply List.take_of_length_le
      rw [List.length_drop]
      omega
    rw [htail]
    exact (take_window_drop region.bytes i (8 * n)).symm
  have hvalue : ~~~(((region.bytes.drop (i + 8 * n)).take k).foldl crc32cStep
      (((region.bytes.drop i).take (8 * n)).foldl crc32cStep
        ((region.bytes.take i).foldl crc32cStep 0xFFFFFFFF))) = crc32cGeneric region.bytes := by
    conv_rhs => rw [hbytes]
    rw [crc32cGeneric, List.foldl_append, List.foldl_append]
  refine ⟨⟨(List.range' 0 i).map region.at ++ (List.range' i (8 * n)).map region.at ++
    (List.range' (i + 8 * n) k).map region.at, (List.range n).map fun k => region.at (i + 8 * k)⟩,
    ?_, ?_, ?_⟩
  · show ((if alignCeil 8 region.start > region.at region.bytes.length then _ else
      sseUpdateCrc32c8 region fuel 0xFFFFFFFF region.start (alignCeil 8 region.start) >>= fun acc =>
        sseUpdateCrc32c64 region fuel acc (alignCeil 8 region.start)
          (alignFloor 8 (region.at region.bytes.length)) >>= fun acc =>
        sseUpdateCrc32c8 region fuel acc (alignFloor 8 (region.at region.bytes.length))
          (region.at region.bytes.length)) >>= fun acc => pure (~~~acc) : Run Reads (BitVec 32)) {} = _
    rw [hbegin, hend, if_neg hgt, bind_of_ok
      ((bind_of_ok hfirst).trans ((bind_of_ok hwords).trans hlast)), ← hvalue]
    rfl
  · show (List.range' 0 i).map region.at ++ (List.range' i (8 * n)).map region.at ++
      (List.range' (i + 8 * n) k).map region.at = _
    rw [← List.map_append, ← List.map_append, range_three, hk]
  · intro ptr hptr
    obtain ⟨j, hj, rfl⟩ := List.mem_map.1 (show ptr ∈ (List.range n).map _ from hptr)
    have hj : j < n := List.mem_range.1 hj
    have hlen : i + 8 * j + 8 ≤ region.bytes.length := by omega
    have hptr : (region.at (i + 8 * j)).toNat = region.start.toNat + (i + 8 * j) :=
      Region.toNat_at (by omega)
    rw [hptr]
    omega

end Call

/-- One loop or three. -/
theorem readsOnce_crc32cSse (region : Region) {fuel : ℕ} (hfuel : region.bytes.length < fuel) :
    ReadsOnce region (crc32cSse fuel region {}) := by
  have hbelow := region.below
  have hbegin : (alignCeil 8 region.start).toNat = (region.start.toNat + 7) / 8 * 8 :=
    toNat_alignCeil (by omega)
  have hend := toNat_alignFloor (region.at region.bytes.length)
  have hlast := Region.toNat_at (le_refl region.bytes.length)
  rw [hlast] at hend
  by_cases hgt : alignCeil 8 region.start > region.at region.bytes.length
  · exact readsOnce_of_gt hfuel hgt
  · rw [gt_iff_lt, BitVec.lt_def, hlast, hbegin] at hgt
    obtain ⟨i, hi⟩ : ∃ i, (region.start.toNat + 7) / 8 * 8 = region.start.toNat + i :=
      ⟨_, (Nat.add_sub_of_le (by omega)).symm⟩
    obtain ⟨n, hn⟩ : ∃ n, (region.start.toNat + region.bytes.length) / 8 =
        (region.start.toNat + 7) / 8 + n := ⟨_, (Nat.add_sub_of_le (by omega)).symm⟩
    exact readsOnce_of_cuts hfuel (i := i) (n := n) (by omega) (by omega)
      (Region.eq_at (by omega) (by omega)) (Region.eq_at (by omega) (by omega))

/-- `crc32c_sse` agrees with `crc32c_generic` on every buffer, so that the
    checksum of a block does not depend on the processor. -/
theorem crc32cSse_eq (region : Region) {fuel : ℕ} (hfuel : region.bytes.length < fuel) :
    ReadsOnce region (crc32cSse fuel region {}) ∧
    ∀ hasSse42, ∃ reads,
      crc32cCompute hasSse42 fuel region {} = .ok (crc32c region.bytes) reads := by
  have hsse := readsOnce_crc32cSse region hfuel
  refine ⟨hsse, fun hasSse42 => ?_⟩
  cases hasSse42 with
  | false => exact ⟨{}, rfl⟩
  | true =>
    obtain ⟨reads, hreads, -, -⟩ := hsse
    exact ⟨reads, hreads⟩

theorem twentyBytes_below : (13 : Address).toNat +
    ((List.range 20).map (BitVec.ofNat 8)).length + 8 ≤ 2 ^ 64 := by decide

/-- Twenty bytes from address 13 on: three of them before the first word, one
    after the last. -/
def twentyBytes : Region := ⟨13, (List.range 20).map (BitVec.ofNat 8), twentyBytes_below⟩

theorem crc32cSse_twentyBytes :
    ReadsOnce twentyBytes (crc32cSse 21 twentyBytes {}) ∧
    ∀ hasSse42, ∃ reads,
      crc32cCompute hasSse42 21 twentyBytes {} = .ok (crc32c twentyBytes.bytes) reads :=
  crc32cSse_eq twentyBytes (by decide)

end BambooShoot.Pbsf
