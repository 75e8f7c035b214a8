import BambooShoot.Lib.Crc
import Mathlib.Dynamics.PeriodicPts.Lemmas

/-!
# How many changed bits a reflected check tells

The register moves linearly, so two messages of one length differ in their
checks by the check of the bits in which they differ (`syndrome`).

* `foldl_shiftIn_xor`: that linearity;
* `parity_syndrome`: with an odd number of coefficients in `poly`, the number of
  changed bits modulo two is in the register, so no odd number goes unseen;
* `syndrome_two_eq_zero_iff`: two changed bits go unseen exactly where their
  distance is a period of the register;
* `iterate_two_pow`: a linear register moved `2 ^ k` places by `k` squarings.
-/

namespace BambooShoot.Lib

variable {w : ℕ}

/-! ## Linearity -/

/-- The register after `bits`, from a clear one. -/
def syndrome (poly : BitVec w) (bits : List Bool) : BitVec w := bits.foldl (shiftIn poly) 0#w

/-- The places in which two bit strings differ. -/
def bitDiff (a b : List Bool) : List Bool := List.zipWith xor a b

theorem bitDiff_bitDiff {a e : List Bool} (h : e.length = a.length) :
    bitDiff a (bitDiff a e) = e := by
  induction a generalizing e with
  | nil => exact (List.length_eq_zero_iff.1 h).symm
  | cons x a ih =>
    cases e with
    | nil => rfl
    | cons y e =>
      show (x ^^ (x ^^ y)) :: bitDiff a (bitDiff a e) = _
      rw [ih (Nat.succ.inj h), ← Bool.xor_assoc, Bool.xor_self, Bool.false_xor]

theorem shiftIn_false (poly crc : BitVec w) : shiftIn poly crc false = bitStep poly crc := by
  simp [shiftIn, bitStep]

theorem shiftIn_true (poly crc : BitVec w) :
    shiftIn poly crc true = bitStep poly crc ^^^ poly := by
  unfold shiftIn bitStep
  cases crc.getLsbD 0 <;> ext i hi <;> simp

theorem shiftIn_xor (poly x y : BitVec w) (a b : Bool) :
    shiftIn poly (x ^^^ y) (a ^^ b) = shiftIn poly x a ^^^ shiftIn poly y b := by
  cases a <;> cases b <;>
    simp only [Bool.xor_false, Bool.false_xor, Bool.xor_self, shiftIn_false, shiftIn_true,
      bitStep_xor]
  · ac_rfl
  · ac_rfl
  · rw [BitVec.xor_assoc, ← BitVec.xor_assoc poly, BitVec.xor_comm poly (bitStep poly y),
      BitVec.xor_assoc, BitVec.xor_self, BitVec.xor_zero]

theorem foldl_shiftIn_xor (poly x y : BitVec w) {a b : List Bool} (h : a.length = b.length) :
    (bitDiff a b).foldl (shiftIn poly) (x ^^^ y) =
      a.foldl (shiftIn poly) x ^^^ b.foldl (shiftIn poly) y := by
  induction a generalizing x y b with
  | nil =>
    obtain rfl := List.length_eq_zero_iff.1 h.symm
    rfl
  | cons a as ih =>
    cases b with
    | nil => simp at h
    | cons b bs =>
      show (bitDiff as bs).foldl (shiftIn poly) (shiftIn poly (x ^^^ y) (a ^^ b)) = _
      rw [shiftIn_xor, ih _ _ (Nat.succ.inj h), List.foldl_cons, List.foldl_cons]

theorem bitSteps_eq_iterate (poly : BitVec w) (k : ℕ) :
    bitSteps poly k = (bitStep poly)^[k] := by
  induction k with
  | zero => rfl
  | succ k ih =>
    funext crc
    exact congrFun ih (bitStep poly crc)

/-- A run of unchanged bits only moves the register. -/
theorem foldl_shiftIn_replicate (poly crc : BitVec w) (k : ℕ) :
    (List.replicate k false).foldl (shiftIn poly) crc = (bitStep poly)^[k] crc := by
  induction k generalizing crc with
  | zero => rfl
  | succ k ih =>
    rw [List.replicate_succ, List.foldl_cons, ih, shiftIn_false]
    rfl

theorem bitStep_zero (poly : BitVec w) : bitStep poly 0#w = 0#w := by simp [bitStep]

theorem iterate_bitStep_zero (poly : BitVec w) (k : ℕ) : (bitStep poly)^[k] 0#w = 0#w :=
  Function.iterate_fixed (bitStep_zero poly) k

/-! ## An odd number of changed bits -/

/-- Whether an odd number of the bits is set. -/
def oddBits (bits : List Bool) : Bool := bits.foldr xor false

theorem oddBits_append (a b : List Bool) : oddBits (a ++ b) = (oddBits a ^^ oddBits b) := by
  induction a with
  | nil => simp [oddBits]
  | cons x a ih =>
    show (x ^^ oddBits (a ++ b)) = ((x ^^ oddBits a) ^^ oddBits b)
    rw [ih, Bool.xor_assoc]

theorem oddBits_eq (bits : List Bool) : oddBits bits = decide (bits.count true % 2 = 1) := by
  induction bits with
  | nil => rfl
  | cons b bits ih =>
    show (b ^^ oddBits bits) = _
    rw [ih]
    cases b with
    | false => simp
    | true =>
      rw [List.count_cons_self, Bool.true_xor, ← decide_not]
      exact decide_eq_decide.2 (by omega)

/-- The parity of a register. -/
def parity (v : BitVec w) : Bool := oddBits ((List.range w).map v.getLsbD)

theorem parity_zero : parity 0#w = false := by
  have hbits : (List.range w).map (0#w).getLsbD = List.replicate w false := by
    simp [List.eq_replicate_iff]
  rw [parity, hbits, oddBits_eq]
  simp [List.count_replicate]

theorem parity_xor (a b : BitVec w) : parity (a ^^^ b) = (parity a ^^ parity b) := by
  unfold parity
  induction List.range w with
  | nil => rfl
  | cons i l ih =>
    show ((a ^^^ b).getLsbD i ^^ oddBits (l.map (a ^^^ b).getLsbD)) =
      ((a.getLsbD i ^^ oddBits (l.map a.getLsbD)) ^^ (b.getLsbD i ^^ oddBits (l.map b.getLsbD)))
    rw [ih, BitVec.getLsbD_xor, Bool.xor_assoc, Bool.xor_assoc,
      Bool.xor_left_comm (b.getLsbD i)]

/-- A shift loses the lowest bit. -/
theorem parity_ushiftRight_one (v : BitVec w) : parity (v >>> 1) = (parity v ^^ v.getLsbD 0) := by
  cases w with
  | zero => simp [parity, oddBits]
  | succ n =>
    have hv : parity v = (v.getLsbD 0 ^^ oddBits ((List.range n).map fun i => v.getLsbD (i + 1))) := by
      unfold parity
      rw [List.range_succ_eq_map, List.map_cons, List.map_map]
      rfl
    have hshift : parity (v >>> 1) = oddBits ((List.range n).map fun i => v.getLsbD (i + 1)) := by
      have htop : (v >>> 1).getLsbD n = false := by simp
      have hlow : (List.range n).map (v >>> 1).getLsbD =
          (List.range n).map fun i => v.getLsbD (i + 1) := by
        refine List.map_congr_left fun i _ => ?_
        rw [BitVec.getLsbD_ushiftRight, Nat.add_comm 1 i]
      unfold parity
      rw [List.range_succ, List.map_append, oddBits_append, List.map_singleton, htop, hlow]
      exact Bool.xor_false _
    rw [hshift, hv, Bool.xor_comm (v.getLsbD 0), Bool.xor_assoc, Bool.xor_self, Bool.xor_false]

theorem parity_shiftIn {poly : BitVec w} (hpoly : parity poly = true) (crc : BitVec w)
    (bit : Bool) : parity (shiftIn poly crc bit) = (parity crc ^^ bit) := by
  unfold shiftIn
  rw [parity_xor, parity_ushiftRight_one]
  cases crc.getLsbD 0 <;> cases bit <;> simp [hpoly, parity_zero]

theorem parity_foldl_shiftIn {poly : BitVec w} (hpoly : parity poly = true) (crc : BitVec w)
    (bits : List Bool) :
    parity (bits.foldl (shiftIn poly) crc) = (parity crc ^^ oddBits bits) := by
  induction bits generalizing crc with
  | nil => simp [oddBits]
  | cons b bits ih =>
    rw [List.foldl_cons, ih, parity_shiftIn hpoly, Bool.xor_assoc]
    rfl

/-- The register keeps the number of changed bits modulo two. -/
theorem parity_syndrome {poly : BitVec w} (hpoly : parity poly = true) (bits : List Bool) :
    parity (syndrome poly bits) = oddBits bits := by
  rw [syndrome, parity_foldl_shiftIn hpoly, parity_zero, Bool.false_xor]

theorem syndrome_ne_zero_of_odd {poly : BitVec w} (hpoly : parity poly = true) {bits : List Bool}
    (h : bits.count true % 2 = 1) : syndrome poly bits ≠ 0#w := by
  intro hzero
  have hparity := parity_syndrome hpoly bits
  rw [hzero, parity_zero, oddBits_eq, decide_eq_true h] at hparity
  exact Bool.false_ne_true hparity

/-! ## Two changed bits -/

/-- Bits of which exactly two are set, `gap + 1` places apart. -/
def twoBits (before gap behind : ℕ) : List Bool :=
  List.replicate before false ++ true :: (List.replicate gap false ++
    true :: List.replicate behind false)

theorem eq_replicate_of_count_eq_zero {bits : List Bool} (h : bits.count true = 0) :
    bits = List.replicate bits.length false := by
  rw [List.eq_replicate_iff]
  refine ⟨rfl, fun b hb => ?_⟩
  cases b with
  | false => rfl
  | true => exact absurd hb (List.count_eq_zero.1 h)

/-- Where a bit is set, there is a first one. -/
theorem exists_first_true {bits : List Bool} {n : ℕ} (h : bits.count true = n + 1) :
    ∃ k rest, bits = List.replicate k false ++ true :: rest ∧ rest.count true = n := by
  induction bits with
  | nil => simp at h
  | cons b bits ih =>
    cases b with
    | true =>
      rw [List.count_cons_self] at h
      exact ⟨0, bits, rfl, Nat.succ.inj h⟩
    | false =>
      rw [List.count_cons_of_ne (by decide)] at h
      obtain ⟨k, rest, rfl, hrest⟩ := ih h
      exact ⟨k + 1, rest, rfl, hrest⟩

theorem exists_twoBits {bits : List Bool} (h : bits.count true = 2) :
    ∃ before gap behind, bits = twoBits before gap behind := by
  obtain ⟨before, rest, rfl, hrest⟩ := exists_first_true h
  obtain ⟨gap, last, rfl, hlast⟩ := exists_first_true hrest
  rw [eq_replicate_of_count_eq_zero hlast]
  exact ⟨before, gap, _, rfl⟩

theorem length_twoBits (before gap behind : ℕ) :
    (twoBits before gap behind).length = before + gap + behind + 2 := by
  simp only [twoBits, List.length_append, List.length_replicate, List.length_cons]
  omega

theorem count_twoBits (before gap behind : ℕ) : (twoBits before gap behind).count true = 2 := by
  simp [twoBits, List.count_replicate]

theorem syndrome_twoBits (poly : BitVec w) (before gap behind : ℕ) :
    syndrome poly (twoBits before gap behind) =
      (bitStep poly)^[behind] ((bitStep poly)^[gap + 1] poly ^^^ poly) := by
  unfold syndrome twoBits
  rw [List.foldl_append, foldl_shiftIn_replicate, iterate_bitStep_zero, List.foldl_cons,
    List.foldl_append, shiftIn_true, bitStep_zero, BitVec.zero_xor, foldl_shiftIn_replicate,
    List.foldl_cons, shiftIn_true, foldl_shiftIn_replicate, Function.iterate_succ_apply']

/-- Two changed bits go unseen exactly where the register comes round from one
    to the other. -/
theorem syndrome_two_eq_zero_iff {poly : BitVec w} (hpoly : poly.msb = true)
    (before gap behind : ℕ) : syndrome poly (twoBits before gap behind) = 0#w ↔
      Function.IsPeriodicPt (bitStep poly) (gap + 1) poly := by
  rw [syndrome_twoBits]
  constructor
  · intro h
    rw [← bitSteps_eq_iterate] at h
    exact BitVec.xor_eq_zero_iff.1 (eq_zero_of_bitSteps hpoly h)
  · intro h
    rw [h, BitVec.xor_self, iterate_bitStep_zero]

/-- Within one period of the register one, two and three changed bits are seen. -/
theorem syndrome_ne_zero {poly : BitVec w} (hodd : parity poly = true) (hpoly : poly.msb = true)
    {bits : List Bool} (hlen : bits.length ≤ Function.minimalPeriod (bitStep poly) poly)
    (hpos : 0 < bits.count true) (hcount : bits.count true ≤ 3) : syndrome poly bits ≠ 0#w := by
  rcases Nat.mod_two_eq_zero_or_one (bits.count true) with heven | hone
  · obtain ⟨before, gap, behind, rfl⟩ := exists_twoBits (show bits.count true = 2 by omega)
    rw [length_twoBits] at hlen
    rw [Ne, syndrome_two_eq_zero_iff hpoly]
    exact Function.not_isPeriodicPt_of_pos_of_lt_minimalPeriod (Nat.succ_ne_zero gap) (by omega)
  · exact syndrome_ne_zero_of_odd hodd hone

/-! ## Moving far -/

/-- What a linear map of registers does to the single bits. -/
def columns (f : BitVec w → BitVec w) : List (BitVec w) :=
  (List.range w).map fun i => f (BitVec.twoPow w i)

/-- The sum of the columns `i, i + 1, …` that are bits of `v`. -/
def combine (v : BitVec w) : ℕ → List (BitVec w) → BitVec w
  | _, [] => 0#w
  | i, c :: cs => (if v.getLsbD i = true then c else 0#w) ^^^ combine v (i + 1) cs

/-- The columns of a map applied twice. -/
def square (cols : List (BitVec w)) : List (BitVec w) := cols.map fun c => combine c 0 cols

/-- The low `n` bits of `v`, one by one. -/
theorem combine_range' (f : BitVec w → BitVec w)
    (hf : ∀ a b, f (a ^^^ b) = f a ^^^ f b) (v : BitVec w) (i n : ℕ) :
    combine v i ((List.range' i n).map fun j => f (BitVec.twoPow w j)) =
      f (combine v i ((List.range' i n).map fun j => BitVec.twoPow w j)) := by
  have hzero : f 0#w = 0#w := by
    have := hf 0#w 0#w
    rwa [BitVec.xor_self, BitVec.xor_self] at this
  induction n generalizing i with
  | zero => exact hzero.symm
  | succ n ih =>
    rw [List.range'_succ]
    simp only [List.map_cons, combine, hf, ih (i + 1)]
    split
    · rfl
    · rw [hzero]

theorem getLsbD_combine (v : BitVec w) (i n k : ℕ) :
    (combine v i ((List.range' i n).map fun j => BitVec.twoPow w j)).getLsbD k =
      (v.getLsbD k && decide (i ≤ k ∧ k < i + n)) := by
  induction n generalizing i with
  | zero => simp [combine]
  | succ n ih =>
    rw [List.range'_succ]
    simp only [List.map_cons, combine, BitVec.getLsbD_xor, ih (i + 1)]
    by_cases hk : k = i
    · subst hk
      cases hv : v.getLsbD k with
      | false => simp
      | true =>
        have hw : k < w := by
          by_contra hge
          rw [BitVec.getLsbD_of_ge v k (by omega)] at hv
          exact Bool.false_ne_true hv
        simp [hw]
    · have hbit : (if v.getLsbD i = true then BitVec.twoPow w i else 0#w).getLsbD k = false := by
        split
        · simp [BitVec.getLsbD_twoPow, Ne.symm hk]
        · simp
      rw [hbit, Bool.false_xor]
      congr 1
      exact decide_eq_decide.2 (by omega)

/-- A linear map is known by its columns. -/
theorem combine_columns {f : BitVec w → BitVec w} (hf : ∀ a b, f (a ^^^ b) = f a ^^^ f b)
    (v : BitVec w) : combine v 0 (columns f) = f v := by
  unfold columns
  rw [List.range_eq_range', combine_range' f hf]
  congr 1
  apply BitVec.eq_of_getLsbD_eq
  intro k hk
  rw [getLsbD_combine]
  simp [hk]

theorem square_columns {f : BitVec w → BitVec w} (hf : ∀ a b, f (a ^^^ b) = f a ^^^ f b) :
    square (columns f) = columns (f ∘ f) := by
  unfold square
  rw [List.map_congr_left fun c _ => combine_columns hf c]
  unfold columns
  rw [List.map_map]
  rfl

theorem iterate_xor {f : BitVec w → BitVec w} (hf : ∀ a b, f (a ^^^ b) = f a ^^^ f b) (n : ℕ)
    (a b : BitVec w) : f^[n] (a ^^^ b) = f^[n] a ^^^ f^[n] b := by
  induction n generalizing a b with
  | zero => rfl
  | succ n ih => rw [Function.iterate_succ_apply, hf, ih]; rfl

/-- `2 ^ k` moves are `k` squarings. -/
theorem iterate_two_pow {f : BitVec w → BitVec w} (hf : ∀ a b, f (a ^^^ b) = f a ^^^ f b) (k : ℕ) :
    square^[k] (columns f) = columns (f^[2 ^ k]) := by
  induction k with
  | zero => rfl
  | succ k ih =>
    have hdouble : f^[2 ^ k] ∘ f^[2 ^ k] = f^[2 ^ (k + 1)] := by
      rw [← Function.iterate_add]
      congr 1
      ring
    rw [Function.iterate_succ_apply', ih, square_columns (iterate_xor hf _), hdouble]

end BambooShoot.Lib
