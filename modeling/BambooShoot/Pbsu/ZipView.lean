import Mathlib.Data.Fintype.Basic
import Mathlib.Data.List.OfFn

/-!
# `zip` as a random-access view

The operators of `zip_iterator_impl` on random-access iterators
(`range-util.hh`, lines 65–155 and 217–301) and the range `zip` makes of them.
An iterator holds one position in every range. Where one of them reaches the end
of its range `_check_end` moves all to their own ends; `--` does not know how far.

Results:
* `begin_add`: the iterators `z.begin() + k`, whatever the lengths;
* `faithful_iff`: all laws of a random-access range hold exactly if a range is
  empty or all have the same length.
-/

namespace BambooShoot.Pbsu

/-! ## Model -/

/-- A `zip_iterator` over `n + 1` ranges; an iterator of a range is a position. -/
@[ext] structure ZipIterator (n : ℕ) where
  begins : Fin (n + 1) → ℤ
  ends : Fin (n + 1) → ℤ

namespace ZipIterator

variable {n : ℕ}

/-- `tuple_any_equal` (lines 65–82). -/
def tupleAnyEqual (a b : Fin (n + 1) → ℤ) : Bool := decide (∃ i, a i = b i)

/-- `_check_end` (lines 108–113). -/
def checkEnd (z : ZipIterator n) : ZipIterator n :=
  if tupleAnyEqual z.begins z.ends then { z with begins := z.ends } else z

/-- The constructor (lines 102–106). -/
def make (b e : Fin (n + 1) → ℤ) : ZipIterator n := checkEnd ⟨b, e⟩

/-- `operator*` (lines 115–119): the elements at the positions. -/
def deref {α : Fin (n + 1) → Type} (ranges : ∀ i, List (α i)) (z : ZipIterator n) (i : Fin (n + 1)) :
    Option (α i) :=
  if 0 ≤ z.begins i then (ranges i)[(z.begins i).toNat]? else none

/-- `operator++` (lines 121–127). -/
def increment (z : ZipIterator n) : ZipIterator n :=
  checkEnd { z with begins := fun i => z.begins i + 1 }

/-- `operator--` (lines 217–224). -/
def decrement (z : ZipIterator n) : ZipIterator n := { z with begins := fun i => z.begins i - 1 }

/-- `operator+=` (lines 236–244). -/
def addAssign (z : ZipIterator n) (k : ℤ) : ZipIterator n :=
  checkEnd { z with begins := fun i => z.begins i + k }

/-- `operator-=` (lines 246–253). -/
def subAssign (z : ZipIterator n) (k : ℤ) : ZipIterator n :=
  { z with begins := fun i => z.begins i - k }

/-- `operator+` (lines 255–270). -/
def add (z : ZipIterator n) (k : ℤ) : ZipIterator n := z.addAssign k

/-- `operator-` with a number (lines 272–279). -/
def sub (z : ZipIterator n) (k : ℤ) : ZipIterator n := z.subAssign k

/-- `operator-` with an iterator (lines 281–288): the first components. -/
def difference (b a : ZipIterator n) : ℤ :=
  b.begins ⟨0, Nat.succ_pos n⟩ - a.begins ⟨0, Nat.succ_pos n⟩

/-- `operator==` (lines 163–169). -/
def eq (a b : ZipIterator n) : Bool := decide (a.begins = b.begins)

end ZipIterator

open ZipIterator

section Zip

variable {n : ℕ} {α : Fin (n + 1) → Type} (ranges : ∀ i, List (α i))

/-- `end(ranges)...` -/
def zipEnds (i : Fin (n + 1)) : ℤ := (ranges i).length

/-- `zip(ranges...).begin()` (lines 290–298). -/
def zipBegin : ZipIterator n := make (fun _ => 0) (zipEnds ranges)

/-- `zip(ranges...).end()`. -/
def zipEnd : ZipIterator n := make (zipEnds ranges) (zipEnds ranges)

/-- `zip(ranges...).size()` (`range.hh`, lines 71–76). -/
def zipSize : ℕ := (difference (zipEnd ranges) (zipBegin ranges)).toNat

/-- The length of the shortest range. -/
def shortest : ℕ := (List.ofFn fun i => (ranges i).length).min?.getD 0

/-- The laws of a random-access view of the `shortest ranges` tuples. -/
structure Faithful : Prop where
  size : zipSize ranges = shortest ranges
  distance : difference (zipEnd ranges) (zipBegin ranges) = shortest ranges
  deref : ∀ k < shortest ranges, ∀ i, deref ranges ((zipBegin ranges).add k) i = (ranges i)[k]?
  last : eq ((zipBegin ranges).add (shortest ranges)) (zipEnd ranges) = true
  addAssign : ∀ k j, k + j ≤ shortest ranges →
    eq (((zipBegin ranges).add k).addAssign j) (increment^[j] ((zipBegin ranges).add k)) = true
  decrement : ∀ k < shortest ranges,
    eq (decrement (increment ((zipBegin ranges).add k))) ((zipBegin ranges).add k) = true

/-! ## Positions -/

variable {ranges}

theorem shortest_min (ranges : ∀ i, List (α i)) :
    (List.ofFn fun i => (ranges i).length).min? = some (shortest ranges) := by
  have hne : (List.ofFn fun i => (ranges i).length) ≠ [] := by
    rw [List.ofFn_succ]
    exact List.cons_ne_nil _ _
  obtain ⟨m, hm⟩ := Option.isSome_iff_exists.1 (List.isSome_min?_of_ne_nil hne)
  unfold shortest
  rw [hm]
  rfl

theorem shortest_le (i : Fin (n + 1)) : shortest ranges ≤ (ranges i).length :=
  (List.min?_eq_some_iff.1 (shortest_min ranges)).2 _ (List.mem_ofFn.2 ⟨i, rfl⟩)

theorem lt_length (ranges : ∀ i, List (α i)) (k : Fin (shortest ranges)) (i : Fin (n + 1)) :
    k < (ranges i).length := lt_of_lt_of_le k.isLt (shortest_le i)

theorem exists_shortest (ranges : ∀ i, List (α i)) : ∃ i, (ranges i).length = shortest ranges :=
  List.mem_ofFn.1 (List.min?_eq_some_iff.1 (shortest_min ranges)).1

/-- The iterator in front of the `k`-th tuple: in front of the end all positions
    are `k`, at the end each is that of its own range. -/
def zipAt (ranges : ∀ i, List (α i)) (k : ℕ) : ZipIterator n where
  begins i := if k < shortest ranges then k else (ranges i).length
  ends := zipEnds ranges

/-- `_check_end` at the same position in every range. -/
theorem checkEnd_const {k : ℕ} (hk : k ≤ shortest ranges) :
    checkEnd ⟨fun _ => (k : ℤ), zipEnds ranges⟩ = zipAt ranges k := by
  unfold checkEnd tupleAnyEqual zipAt zipEnds
  by_cases hlt : k < shortest ranges
  · have hnone : ¬ ∃ i, (k : ℤ) = ((ranges i).length : ℤ) := by
      rintro ⟨i, hi⟩
      have hle : shortest ranges ≤ (ranges i).length := shortest_le i
      omega
    simp only [hnone, decide_false, Bool.false_eq_true, if_false, hlt, if_true]
  · obtain ⟨i, hi⟩ := exists_shortest ranges
    have hsome : ∃ i, (k : ℤ) = ((ranges i).length : ℤ) := ⟨i, by omega⟩
    simp only [hsome, decide_true, if_true, hlt, if_false]

/-- `_check_end` at the end. -/
theorem checkEnd_ends (b : Fin (n + 1) → ℤ) (h : ∃ i, b i = zipEnds ranges i) :
    checkEnd ⟨b, zipEnds ranges⟩ = ⟨zipEnds ranges, zipEnds ranges⟩ := by
  unfold checkEnd tupleAnyEqual
  simp only [h, decide_true, if_true]

theorem zipAt_of_le {k : ℕ} (h : shortest ranges ≤ k) :
    zipAt ranges k = ⟨zipEnds ranges, zipEnds ranges⟩ := by
  unfold zipAt
  simp only [not_lt.2 h, if_false]
  rfl

theorem zipEnd_eq (ranges : ∀ i, List (α i)) : zipEnd ranges = zipAt ranges (shortest ranges) := by
  rw [zipAt_of_le (le_refl _)]
  exact checkEnd_ends _ ⟨0, rfl⟩

theorem zipBegin_eq (ranges : ∀ i, List (α i)) : zipBegin ranges = zipAt ranges 0 :=
  checkEnd_const (Nat.zero_le _)

/-- `+= j` from the `k`-th tuple on. -/
theorem addAssign_zipAt {k j : ℕ} (h : k + j ≤ shortest ranges) :
    (zipAt ranges k).addAssign j = zipAt ranges (k + j) := by
  by_cases hlt : k < shortest ranges
  · have hbegins : (fun i => (zipAt ranges k).begins i + (j : ℤ)) = fun _ => ((k + j : ℕ) : ℤ) := by
      funext i
      unfold zipAt
      simp only [hlt, if_true]
      omega
    show checkEnd ⟨fun i => (zipAt ranges k).begins i + (j : ℤ), zipEnds ranges⟩ = _
    rw [hbegins]
    exact checkEnd_const h
  · obtain rfl : j = 0 := by omega
    rw [zipAt_of_le (k := k + 0) (by omega), zipAt_of_le (by omega)]
    exact checkEnd_ends _ ⟨0, by
      show zipEnds ranges 0 + ((0 : ℕ) : ℤ) = zipEnds ranges 0
      omega⟩

theorem begin_add {k : ℕ} (h : k ≤ shortest ranges) :
    (zipBegin ranges).add k = zipAt ranges k := by
  rw [zipBegin_eq]
  have hadd : (zipAt ranges 0).addAssign k = zipAt ranges (0 + k) := addAssign_zipAt (by omega)
  rwa [Nat.zero_add] at hadd

theorem increment_zipAt {k : ℕ} (h : k < shortest ranges) :
    increment (zipAt ranges k) = zipAt ranges (k + 1) := by
  have hadd : (zipAt ranges k).addAssign (1 : ℕ) = zipAt ranges (k + 1) := addAssign_zipAt h
  exact hadd

theorem iterate_increment_zipAt {k j : ℕ} (h : k + j ≤ shortest ranges) :
    increment^[j] (zipAt ranges k) = zipAt ranges (k + j) := by
  induction j generalizing k with
  | zero => rfl
  | succ j ih =>
    rw [Function.iterate_succ_apply, increment_zipAt (by omega), ih (by omega), Nat.add_right_comm]
    rfl

theorem eq_iff (a b : ZipIterator n) : eq a b = true ↔ a.begins = b.begins := decide_eq_true_iff

/-- The elements at `z.begin() + k` are the `k`-th of the ranges. -/
theorem deref_zipAt {k : ℕ} (h : k < shortest ranges) (i : Fin (n + 1)) :
    deref ranges (zipAt ranges k) i = (ranges i)[k]? := by
  have hbegins : (zipAt ranges k).begins i = (k : ℤ) := if_pos h
  unfold ZipIterator.deref
  rw [hbegins, if_pos (Int.natCast_nonneg k), Int.toNat_natCast]

/-- `--` undoes `++` unless `++` reached the end of ranges of different lengths. -/
theorem decrement_increment_iff {k : ℕ} (h : k < shortest ranges) :
    eq (decrement (increment (zipAt ranges k))) (zipAt ranges k) = true ↔
      k + 1 < shortest ranges ∨ ∀ i, (ranges i).length = shortest ranges := by
  rw [eq_iff, increment_zipAt h]
  have hbegins (i : Fin (n + 1)) : (zipAt ranges k).begins i = (k : ℤ) := if_pos h
  by_cases hlt : k + 1 < shortest ranges
  · refine iff_of_true ?_ (Or.inl hlt)
    funext i
    have hnext : (zipAt ranges (k + 1)).begins i = ((k + 1 : ℕ) : ℤ) := if_pos hlt
    show (zipAt ranges (k + 1)).begins i - 1 = _
    rw [hnext, hbegins]
    omega
  · have hnext (i : Fin (n + 1)) : (zipAt ranges (k + 1)).begins i = ((ranges i).length : ℤ) :=
      if_neg hlt
    rw [or_iff_right hlt]
    constructor
    · intro heq i
      have hi : (zipAt ranges (k + 1)).begins i - 1 = (zipAt ranges k).begins i := congrFun heq i
      rw [hnext, hbegins] at hi
      omega
    · intro hall
      funext i
      show (zipAt ranges (k + 1)).begins i - 1 = _
      rw [hnext, hbegins, hall]
      omega

/-- The first component of the distance. -/
theorem difference_eq (ranges : ∀ i, List (α i)) :
    difference (zipEnd ranges) (zipBegin ranges) =
      if shortest ranges = 0 then 0 else ((ranges 0).length : ℤ) := by
  rw [zipEnd_eq, zipBegin_eq]
  show (zipAt ranges (shortest ranges)).begins 0 - (zipAt ranges 0).begins 0 = _
  unfold zipAt
  rcases Nat.eq_zero_or_pos (shortest ranges) with h0 | hpos
  · simp only [h0, lt_irrefl, if_false, if_true]
    omega
  · simp only [lt_irrefl, if_false, hpos, if_true, if_neg (Nat.ne_of_gt hpos)]
    omega

/-- It is the shortest length if that is zero, or if all have this length. -/
theorem difference_eq_shortest
    (h : shortest ranges = 0 ∨ ∀ i, (ranges i).length = shortest ranges) :
    difference (zipEnd ranges) (zipBegin ranges) = shortest ranges := by
  rw [difference_eq]
  rcases h with h0 | hall
  · rw [if_pos h0, h0]
    rfl
  · split_ifs with h0
    · rw [h0]
      rfl
    · rw [hall 0]

theorem exists_eq_nil_iff (ranges : ∀ i, List (α i)) :
    (∃ i, ranges i = []) ↔ shortest ranges = 0 := by
  constructor
  · rintro ⟨i, hi⟩
    have hle : shortest ranges ≤ (ranges i).length := shortest_le i
    rw [hi] at hle
    exact Nat.le_zero.1 hle
  · intro h0
    obtain ⟨i, hi⟩ := exists_shortest ranges
    exact ⟨i, List.length_eq_zero_iff.1 (hi.trans h0)⟩

theorem equal_lengths_iff (ranges : ∀ i, List (α i)) :
    (∀ i, (ranges i).length = (ranges 0).length) ↔ ∀ i, (ranges i).length = shortest ranges := by
  constructor
  · intro h i
    obtain ⟨j, hj⟩ := exists_shortest ranges
    rw [h i, ← h j, hj]
  · intro h i
    rw [h i, h 0]

/-- `zip` is a random-access view exactly if a range is empty or all have the
    same length. -/
theorem faithful_iff (ranges : ∀ i, List (α i)) :
    Faithful ranges ↔ (∃ i, ranges i = []) ∨ ∀ i, (ranges i).length = (ranges 0).length := by
  rw [exists_eq_nil_iff, equal_lengths_iff]
  constructor
  · intro h
    rcases Nat.eq_zero_or_pos (shortest ranges) with h0 | hpos
    · exact Or.inl h0
    · -- the last tuple: its successor is the end
      have hdec := h.decrement (shortest ranges - 1) (by omega)
      rw [begin_add (by omega), decrement_increment_iff (by omega)] at hdec
      exact Or.inr (hdec.resolve_left (by omega))
  · intro h
    have hdistance := difference_eq_shortest h
    exact
      { size := by
          unfold zipSize
          rw [hdistance, Int.toNat_natCast]
        distance := hdistance
        deref := fun k hk i => by
          rw [begin_add hk.le]
          exact deref_zipAt hk i
        last := by
          rw [begin_add (le_refl _), zipEnd_eq, eq_iff]
        addAssign := fun k j hkj => by
          rw [begin_add (by omega), addAssign_zipAt hkj, iterate_increment_zipAt hkj, eq_iff]
        decrement := fun k hk => by
          rw [begin_add hk.le, decrement_increment_iff hk]
          exact Or.inr (h.resolve_left (by omega)) }

end Zip

/-- Ranges of three and of four elements: the decremented end is not the last pair. -/
theorem threeFour_not_faithful :
    ¬ Faithful (n := 1) (α := fun _ => ℕ) fun i => if i = 0 then [1, 2, 3] else [4, 3, 2, 1] := by
  intro h
  have hsize : shortest (n := 1) (α := fun _ => ℕ)
      (fun i => if i = 0 then [1, 2, 3] else [4, 3, 2, 1]) = 3 := by decide
  have hdec := h.decrement 2 (by omega)
  rw [begin_add (by omega), decrement_increment_iff (by omega), hsize] at hdec
  have hfour := hdec.resolve_left (by decide) 1
  exact absurd hfour (by decide)

end BambooShoot.Pbsu
