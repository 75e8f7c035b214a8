import BambooShoot.Lib.Radix

/-!
# Reflected cyclic redundancy checks

A check of any width `w ≥ 1` with polynomial `poly` (reflected: the highest
coefficient in bit 0), one message bit at a time, least significant first.

* `crcBits`: the definition, as a fold over the bits of the message;
* `bitSteps_xor`: the register moves linearly;
* `foldl_shiftIn`: reading the `k` low bits of `v` is `k` steps of `crc ^^^ v`;
* `bitSteps_split`: `k` steps as a table entry and a shift;
* `bitSteps_injective`, `foldl_byteStep_injective`: with the top bit of `poly`
  set no two registers, and no two words of `w` bits, are confused.
-/

namespace BambooShoot.Lib

variable {w : ℕ}

/-! ## The definition -/

/-- One message bit enters the register. -/
def shiftIn (poly crc : BitVec w) (bit : Bool) : BitVec w :=
  (crc >>> 1) ^^^ (if (crc.getLsbD 0 ^^ bit) = true then poly else 0#w)

/-- The bits of a byte, least significant first. -/
def byteBits (b : Byte) : List Bool := (List.range 8).map b.getLsbD

/-- The check of a byte string: initial register `start`, final xor `last`. -/
def crcBits (poly start last : BitVec w) (bytes : List Byte) : BitVec w :=
  (bytes.flatMap byteBits).foldl (shiftIn poly) start ^^^ last

/-! ## Steps of the register -/

/-- The register moves by one place, no message bit entering. -/
def bitStep (poly crc : BitVec w) : BitVec w :=
  (crc >>> 1) ^^^ (if crc.getLsbD 0 = true then poly else 0#w)

/-- `k` moves. -/
def bitSteps (poly : BitVec w) : ℕ → BitVec w → BitVec w
  | 0, crc => crc
  | k + 1, crc => bitSteps poly k (bitStep poly crc)

theorem bitSteps_add (poly crc : BitVec w) (j k : ℕ) :
    bitSteps poly (j + k) crc = bitSteps poly k (bitSteps poly j crc) := by
  induction j generalizing crc with
  | zero => simp [bitSteps]
  | succ j ih =>
    rw [Nat.add_right_comm]
    exact ih (bitStep poly crc)

/-- A bit enters by moving the register it was mixed into. -/
theorem bitStep_xor_eq_shiftIn (poly crc v : BitVec w) :
    bitStep poly (crc ^^^ v) = shiftIn poly crc (v.getLsbD 0) ^^^ (v >>> 1) := by
  unfold bitStep shiftIn
  rw [BitVec.getLsbD_xor, BitVec.ushiftRight_xor_distrib, BitVec.xor_assoc, BitVec.xor_assoc,
    BitVec.xor_comm (v >>> 1)]

theorem bitStep_xor (poly a b : BitVec w) :
    bitStep poly (a ^^^ b) = bitStep poly a ^^^ bitStep poly b := by
  unfold bitStep
  rw [BitVec.getLsbD_xor, BitVec.ushiftRight_xor_distrib]
  cases a.getLsbD 0 <;> cases b.getLsbD 0 <;>
    ext i hi <;> simp [Bool.xor_comm, Bool.xor_left_comm]

theorem bitSteps_xor (poly a b : BitVec w) (k : ℕ) :
    bitSteps poly k (a ^^^ b) = bitSteps poly k a ^^^ bitSteps poly k b := by
  induction k generalizing a b with
  | zero => rfl
  | succ k ih =>
    show bitSteps poly k (bitStep poly (a ^^^ b)) = _
    rw [bitStep_xor, ih]
    rfl

/-- While the bits shifted out are clear, the register only shifts. -/
theorem bitSteps_of_clear (poly : BitVec w) {k : ℕ} {crc : BitVec w}
    (h : ∀ i < k, crc.getLsbD i = false) : bitSteps poly k crc = crc >>> k := by
  induction k generalizing crc with
  | zero => simp [bitSteps]
  | succ k ih =>
    have hstep : bitStep poly crc = crc >>> 1 := by simp [bitStep, h 0 (by omega)]
    have hclear : ∀ i < k, (crc >>> 1).getLsbD i = false := fun i hi => by
      simpa [Nat.add_comm] using h (i + 1) (by omega)
    show bitSteps poly k (bitStep poly crc) = _
    rw [hstep, ih hclear, ← BitVec.shiftRight_add, Nat.add_comm]

theorem bitSteps_shiftLeft (poly v : BitVec w) {k : ℕ} (h : v.toNat * 2 ^ k < 2 ^ w) :
    bitSteps poly k (v <<< k) = v := by
  rw [bitSteps_of_clear poly fun i hi => by simp [hi]]
  apply BitVec.eq_of_toNat_eq
  rw [BitVec.toNat_ushiftRight, BitVec.toNat_shiftLeft, Nat.shiftLeft_eq, Nat.mod_eq_of_lt h,
    Nat.shiftRight_eq_div_pow, Nat.mul_div_cancel _ (Nat.two_pow_pos k)]

/-- `k` moves are a table lookup of the `k` low bits and a shift of the others. -/
theorem bitSteps_split (poly crc : BitVec w) (k : ℕ) :
    bitSteps poly k crc =
      bitSteps poly k (BitVec.ofNat w (crc.toNat % 2 ^ k)) ^^^ (crc >>> k) := by
  have hlow (i : ℕ) : (BitVec.ofNat w (crc.toNat % 2 ^ k)).getLsbD i =
      (decide (i < k) && crc.getLsbD i) := by
    by_cases hi : i < w
    · simp [BitVec.getLsbD, BitVec.toNat_ofNat, Nat.testBit_mod_two_pow, hi]
    · simp [BitVec.getLsbD_of_ge _ i (Nat.le_of_not_lt hi)]
  -- the register without its low bits
  have hclear : ∀ i < k, (crc ^^^ BitVec.ofNat w (crc.toNat % 2 ^ k)).getLsbD i = false := by
    intro i hi
    rw [BitVec.getLsbD_xor, hlow, decide_eq_true hi, Bool.true_and, Bool.xor_self]
  have hhigh : (crc ^^^ BitVec.ofNat w (crc.toNat % 2 ^ k)) >>> k = crc >>> k := by
    apply BitVec.eq_of_getLsbD_eq
    intro i _
    simp [hlow]
  calc bitSteps poly k crc
      = bitSteps poly k (BitVec.ofNat w (crc.toNat % 2 ^ k) ^^^
          (crc ^^^ BitVec.ofNat w (crc.toNat % 2 ^ k))) := by
        rw [BitVec.xor_comm crc, ← BitVec.xor_assoc, BitVec.xor_self, BitVec.zero_xor]
    _ = bitSteps poly k (BitVec.ofNat w (crc.toNat % 2 ^ k)) ^^^
          (crc ^^^ BitVec.ofNat w (crc.toNat % 2 ^ k)) >>> k := by
        rw [bitSteps_xor, bitSteps_of_clear poly hclear]
    _ = _ := by rw [hhigh]

/-- Reading the `k` low bits of `v`, when it has no others, is `k` moves of the
register mixed with it. -/
theorem foldl_shiftIn (poly crc v : BitVec w) {k : ℕ} (h : v.toNat < 2 ^ k) :
    ((List.range k).map v.getLsbD).foldl (shiftIn poly) crc = bitSteps poly k (crc ^^^ v) := by
  induction k generalizing crc v with
  | zero =>
    have hv : v = 0#w := BitVec.eq_of_toNat_eq (by simpa using h)
    simp [hv, bitSteps]
  | succ k ih =>
    have hshift : (v >>> 1).toNat < 2 ^ k := by
      rw [BitVec.toNat_ushiftRight, Nat.shiftRight_eq_div_pow]
      omega
    have hbits : (List.range k).map (v.getLsbD ∘ Nat.succ) =
        (List.range k).map (v >>> 1).getLsbD := by
      refine List.map_congr_left fun i _ => ?_
      simp [Nat.add_comm]
    show _ = bitSteps poly k (bitStep poly (crc ^^^ v))
    rw [List.range_succ_eq_map, List.map_cons, List.map_map, List.foldl_cons, hbits,
      ih _ _ hshift, bitStep_xor_eq_shiftIn]

/-! ## Bytes -/

/-- One byte enters the register, low bit first. -/
def byteStep (poly crc : BitVec w) (b : Byte) : BitVec w :=
  bitSteps poly 8 (crc ^^^ b.setWidth w)

theorem foldl_byteBits (poly crc : BitVec w) (b : Byte) (hw : 8 ≤ w) :
    (byteBits b).foldl (shiftIn poly) crc = byteStep poly crc b := by
  have hlt : (b.setWidth w).toNat < 2 ^ 8 := by
    rw [BitVec.toNat_setWidth_of_le hw]
    exact b.isLt
  have hbits : byteBits b = (List.range 8).map (b.setWidth w).getLsbD := by
    refine List.map_congr_left fun i hi => ?_
    have : i < 8 := List.mem_range.1 hi
    simp [show i < w by omega]
  rw [hbits, foldl_shiftIn poly crc _ hlt, byteStep]

/-- The definition byte by byte. -/
theorem crcBits_eq_foldl (poly start last : BitVec w) (bytes : List Byte) (hw : 8 ≤ w) :
    crcBits poly start last bytes = bytes.foldl (byteStep poly) start ^^^ last := by
  unfold crcBits
  congr 1
  induction bytes generalizing start with
  | nil => rfl
  | cons b bytes ih =>
    rw [List.flatMap_cons, List.foldl_append, foldl_byteBits poly start b hw, ih, List.foldl_cons]

/-- A byte string as one little-endian word, as far as the register goes. -/
def registerWord (w : ℕ) (bytes : List Byte) : BitVec w := BitVec.ofNat w (leValue bytes)

theorem foldl_byteStep (poly crc : BitVec w) {bytes : List Byte} (h : 8 * bytes.length ≤ w) :
    bytes.foldl (byteStep poly) crc =
      bitSteps poly (8 * bytes.length) (crc ^^^ registerWord w bytes) := by
  induction bytes generalizing crc with
  | nil => simp [bitSteps, registerWord]
  | cons b bytes ih =>
    rw [List.length_cons] at h
    have hpow : 256 ^ bytes.length * 2 ^ 8 ≤ 2 ^ w := by
      rw [show (256 : ℕ) = 2 ^ 8 from rfl, ← pow_mul, ← pow_add]
      exact Nat.pow_le_pow_right (by omega) (by omega)
    have hlt : leValue bytes * 2 ^ 8 < 2 ^ w :=
      lt_of_lt_of_le ((Nat.mul_lt_mul_right (by omega)).2 (leValue_lt bytes)) hpow
    have hword : (registerWord w bytes).toNat = leValue bytes :=
      Nat.mod_eq_of_lt (by omega)
    have hcons : registerWord w (b :: bytes) = b.setWidth w ^^^ (registerWord w bytes <<< 8) := by
      apply BitVec.eq_of_getLsbD_eq
      intro i hi
      have hval : leValue (b :: bytes) = 2 ^ 8 * leValue bytes + b.toNat := by
        rw [leValue_cons]
        omega
      simp only [registerWord, BitVec.getLsbD_ofNat, BitVec.getLsbD_xor, BitVec.getLsbD_setWidth,
        BitVec.getLsbD_shiftLeft, hi, decide_true, Bool.true_and, hval,
        Nat.testBit_two_pow_mul_add _ b.isLt]
      by_cases hi8 : i < 8
      · simp [hi8, BitVec.getLsbD]
      · simp [hi8, BitVec.getLsbD_of_ge b i (by omega), show i - 8 < w by omega]
    calc (b :: bytes).foldl (byteStep poly) crc
        = bitSteps poly (8 * bytes.length)
            (byteStep poly crc b ^^^ registerWord w bytes) := ih _ (by omega)
      _ = bitSteps poly (8 * bytes.length)
            (bitSteps poly 8 (crc ^^^ registerWord w (b :: bytes))) := by
          rw [hcons, ← BitVec.xor_assoc, bitSteps_xor poly (crc ^^^ b.setWidth w),
            bitSteps_shiftLeft poly _ (by rwa [hword])]
          rfl
      _ = _ := by rw [← bitSteps_add, List.length_cons, Nat.mul_add, Nat.add_comm]

/-! ## What a check tells apart -/

section Injective

variable {poly : BitVec w} (hpoly : poly.msb = true)
include hpoly

theorem eq_zero_of_bitStep {x : BitVec w} (h : bitStep poly x = 0#w) : x = 0#w := by
  have hw : 0 < w := by
    by_contra h0
    obtain rfl : w = 0 := by omega
    simp [BitVec.msb_eq_getLsbD_last] at hpoly
  unfold bitStep at h
  -- the bit shifted out is clear: the shifted register has no top bit
  have hbit : x.getLsbD 0 = false := by
    by_contra hset
    rw [Bool.not_eq_false] at hset
    rw [if_pos hset] at h
    have htop := congrArg BitVec.msb h
    rw [BitVec.msb_xor, hpoly] at htop
    simp [BitVec.msb_eq_getLsbD_last, BitVec.getLsbD_of_ge x (1 + (w - 1)) (by omega)] at htop
  rw [hbit, if_neg (by simp), BitVec.xor_zero] at h
  apply BitVec.eq_of_getLsbD_eq
  intro i _
  cases i with
  | zero => simp [hbit]
  | succ i =>
    have hi := congrArg (fun v : BitVec w => v.getLsbD i) h
    simpa [Nat.add_comm] using hi

theorem eq_zero_of_bitSteps {x : BitVec w} {k : ℕ} (h : bitSteps poly k x = 0#w) : x = 0#w := by
  induction k generalizing x with
  | zero => exact h
  | succ k ih => exact eq_zero_of_bitStep hpoly (ih h)

theorem bitSteps_injective (k : ℕ) : Function.Injective (bitSteps poly k) := by
  intro a b h
  have hzero : bitSteps poly k (a ^^^ b) = 0#w := by
    rw [bitSteps_xor, h, BitVec.xor_self]
  exact BitVec.xor_eq_zero_iff.1 (eq_zero_of_bitSteps hpoly hzero)

/-- Two registers stay apart whatever is read next. -/
theorem foldl_byteStep_left_injective (bytes : List Byte) :
    Function.Injective fun crc => bytes.foldl (byteStep poly) crc := by
  induction bytes with
  | nil => exact fun a b h => h
  | cons b bytes ih =>
    intro x y h
    have hstep := bitSteps_injective hpoly 8 (ih h)
    exact (BitVec.xor_left_inj _).1 hstep

/-- Two strings of at most `w` bits move a register apart. -/
theorem foldl_byteStep_injective (crc : BitVec w) {a b : List Byte} (hlen : a.length = b.length)
    (hw : 8 * a.length ≤ w) (h : a.foldl (byteStep poly) crc = b.foldl (byteStep poly) crc) :
    a = b := by
  rw [foldl_byteStep poly crc hw, foldl_byteStep poly crc (hlen ▸ hw), hlen] at h
  have hword : registerWord w a = registerWord w b :=
    (BitVec.xor_right_inj _).1 (bitSteps_injective hpoly _ h)
  have hsmall {l : List Byte} (hl : 8 * l.length ≤ w) : leValue l < 2 ^ w := by
    refine lt_of_lt_of_le (leValue_lt l) ?_
    rw [show (256 : ℕ) = 2 ^ 8 from rfl, ← pow_mul]
    exact Nat.pow_le_pow_right (by omega) hl
  have hvalue : leValue a = leValue b := by
    have := congrArg BitVec.toNat hword
    simpa [registerWord, Nat.mod_eq_of_lt (hsmall hw), Nat.mod_eq_of_lt (hsmall (hlen ▸ hw))]
      using this
  rw [← leBytes_leValue a, ← leBytes_leValue b, hlen, hvalue]

end Injective

end BambooShoot.Lib
