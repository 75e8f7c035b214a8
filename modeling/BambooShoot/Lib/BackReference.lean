import Mathlib.Data.List.Basic

/-!
# Back references

What a decompressor of the Lempel–Ziv family does to its output, over elements
of any type.

* `copyBack`: a copy that may read what it has just written;
* `copyBack_take`: where the elements of a source repeat those `off` places
  back, such a copy continues the source;
* `commonPrefix`: how far two strings agree.
-/

namespace BambooShoot.Lib

variable {α : Type}

/-- `n` elements are copied one by one from `off` places back. -/
def copyBack (off : ℕ) : ℕ → List α → List α
  | 0, out => out
  | n + 1, out => copyBack off n (out ++ out[out.length - off]?.toList)

/-- A copy of what the source repeats continues the source. -/
theorem copyBack_take {src : List α} {off n p : ℕ} (hpos : 0 < off) (hoff : off ≤ p)
    (hlen : p + n ≤ src.length) (h : ∀ k < n, src[p + k]? = src[p - off + k]?) :
    copyBack off n (src.take p) = src.take (p + n) := by
  induction n generalizing p with
  | zero => rfl
  | succ n ih =>
    have hp : p < src.length := by omega
    have hlast : (src.take p)[(src.take p).length - off]?.toList = [src[p]] := by
      have h0 := h 0 (by omega)
      rw [Nat.add_zero, Nat.add_zero, List.getElem?_eq_getElem hp] at h0
      rw [List.length_take, Nat.min_eq_left (Nat.le_of_lt hp), List.getElem?_take_of_lt (by omega), ← h0,
        Option.toList_some]
    have hnext : ∀ k < n, src[p + 1 + k]? = src[p + 1 - off + k]? := by
      intro k hk
      have hk' := h (k + 1) (by omega)
      rwa [show p + (k + 1) = p + 1 + k by omega,
        show p - off + (k + 1) = p + 1 - off + k by omega] at hk'
    show copyBack off n (src.take p ++ _) = _
    rw [hlast, List.take_append_getElem hp, ih (by omega) (by omega) hnext]
    congr 1
    omega

/-- The number of elements two strings have in common before they differ. -/
def commonPrefix [DecidableEq α] : List α → List α → ℕ
  | a :: as, b :: bs => if a = b then commonPrefix as bs + 1 else 0
  | _, _ => 0

theorem commonPrefix_le [DecidableEq α] (as bs : List α) : commonPrefix as bs ≤ as.length := by
  induction as generalizing bs with
  | nil => simp [commonPrefix]
  | cons a as ih =>
    cases bs with
    | nil => simp [commonPrefix]
    | cons b bs =>
      have := ih bs
      simp only [commonPrefix, List.length_cons]
      split <;> omega

theorem getElem?_of_lt_commonPrefix [DecidableEq α] {as bs : List α} {k : ℕ}
    (h : k < commonPrefix as bs) : as[k]? = bs[k]? := by
  induction as generalizing bs k with
  | nil => simp [commonPrefix] at h
  | cons a as ih =>
    cases bs with
    | nil => simp [commonPrefix] at h
    | cons b bs =>
      simp only [commonPrefix] at h
      split at h
      · rename_i hab
        cases k with
        | zero => rw [hab]; rfl
        | succ k => exact ih (Nat.succ_lt_succ_iff.1 h)
      · omega

end BambooShoot.Lib
