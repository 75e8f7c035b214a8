import Mathlib.Data.Nat.Digits.Lemmas
import Mathlib.Tactic.Ring
import Mathlib.Tactic.Linarith

/-!
# Numbers as byte strings

Two ways to write a natural number as bytes, least significant first:

* `leBytes k n`: exactly `k` base-256 digits (fixed-width little endian);
* `base128 n`: the shortest string of base-128 digits, every byte but the last
  with its top bit set (variable-length encoding).

Results: `leValue_leBytes` and `leBytes_leValue` (inverse on `k`-byte strings),
`base128_of_lt`, `base128_of_ge` and `base128_induction` (the digits one by one)
and `base128_length_le_iff` (the length of the shortest encoding).
-/

namespace BambooShoot.Lib

open Nat (ofDigits)

/-- A byte of a stream. -/
abbrev Byte := BitVec 8

/-! ## Fixed width -/

/-- The `k` low base-256 digits of `n`. -/
def leBytes : ℕ → ℕ → List Byte
  | 0, _ => []
  | k + 1, n => BitVec.ofNat 8 n :: leBytes k (n / 256)

/-- The number a byte string denotes in base 256. -/
def leValue (bs : List Byte) : ℕ := ofDigits 256 (bs.map BitVec.toNat)

@[simp] theorem length_leBytes (k n : ℕ) : (leBytes k n).length = k := by
  induction k generalizing n with
  | zero => rfl
  | succ k ih => simp [leBytes, ih]

@[simp] theorem leValue_nil : leValue [] = 0 := rfl

@[simp] theorem leValue_cons (b : Byte) (bs : List Byte) :
    leValue (b :: bs) = b.toNat + 256 * leValue bs := by
  simp [leValue, Nat.ofDigits_cons]

theorem leValue_leBytes (k n : ℕ) : leValue (leBytes k n) = n % 256 ^ k := by
  induction k generalizing n with
  | zero => simp [leBytes, Nat.mod_one]
  | succ k ih =>
    have hmod := Nat.mod_mul (x := n) (a := 256) (b := 256 ^ k)
    rw [leBytes, leValue_cons, ih, BitVec.toNat_ofNat, pow_succ' 256 k, hmod]

theorem leValue_lt (bs : List Byte) : leValue bs < 256 ^ bs.length := by
  induction bs with
  | nil => simp
  | cons b bs ih =>
    have hb := b.isLt
    rw [leValue_cons, List.length_cons, pow_succ']
    omega

theorem leBytes_leValue (bs : List Byte) : leBytes bs.length (leValue bs) = bs := by
  induction bs with
  | nil => rfl
  | cons b bs ih =>
    have hb := b.isLt
    have h1 : BitVec.ofNat 8 (b.toNat + 256 * leValue bs) = b := by
      apply BitVec.eq_of_toNat_eq
      rw [BitVec.toNat_ofNat]
      omega
    have h2 : (b.toNat + 256 * leValue bs) / 256 = leValue bs := by omega
    rw [List.length_cons, leBytes, leValue_cons, h1, h2, ih]

theorem take_leBytes {j k : ℕ} (h : j ≤ k) (n : ℕ) : (leBytes k n).take j = leBytes j n := by
  induction j generalizing k n with
  | zero => rfl
  | succ j ih =>
    obtain ⟨k, rfl⟩ : ∃ k', k = k' + 1 := ⟨k - 1, by omega⟩
    rw [leBytes, List.take_succ_cons, ih (by omega), leBytes]

/-- The object representation of a `k`-byte word on a little-endian machine. -/
def wordBytes {k : ℕ} (x : BitVec (8 * k)) : List Byte := leBytes k x.toNat

/-- The word that `bs` represents. -/
def wordOfBytes (k : ℕ) (bs : List Byte) : BitVec (8 * k) := BitVec.ofNat (8 * k) (leValue bs)

@[simp] theorem length_wordBytes {k : ℕ} (x : BitVec (8 * k)) : (wordBytes x).length = k :=
  length_leBytes k _

theorem wordOfBytes_wordBytes {k : ℕ} (x : BitVec (8 * k)) : wordOfBytes k (wordBytes x) = x := by
  have hpow : 256 ^ k = 2 ^ (8 * k) := by rw [pow_mul]; rfl
  apply BitVec.eq_of_toNat_eq
  rw [wordOfBytes, wordBytes, BitVec.toNat_ofNat, leValue_leBytes, hpow, Nat.mod_mod,
    Nat.mod_eq_of_lt x.isLt]

theorem wordBytes_wordOfBytes {k : ℕ} {bs : List Byte} (h : bs.length = k) :
    wordBytes (wordOfBytes k bs) = bs := by
  subst h
  have hlt : leValue bs < 2 ^ (8 * bs.length) := by
    rw [pow_mul]
    exact leValue_lt bs
  rw [wordBytes, wordOfBytes, BitVec.toNat_ofNat, Nat.mod_eq_of_lt hlt, leBytes_leValue]

/-! ## Variable length -/

/-- The base-128 digits of `n`, at most `fuel + 1` of them. -/
def base128Digits : ℕ → ℕ → List Byte
  | 0, n => [BitVec.ofNat 8 n]
  | fuel + 1, n =>
    if n < 128 then [BitVec.ofNat 8 n]
    else BitVec.ofNat 8 (n % 128 + 128) :: base128Digits fuel (n / 128)

/-- The shortest base-128 encoding of `n`. -/
def base128 (n : ℕ) : List Byte := base128Digits n n

theorem base128Digits_eq {fuel n : ℕ} (h : n ≤ fuel) : base128Digits fuel n = base128 n := by
  induction fuel using Nat.strongRecOn generalizing n with
  | ind fuel ih =>
    rw [base128]
    rcases fuel with _ | fuel
    · rw [Nat.le_zero.mp h]
    · rcases n with _ | n
      · rfl
      · rw [base128Digits, base128Digits]
        split_ifs
        · rfl
        · rw [ih fuel (by omega) (by omega), ih n (by omega) (by omega)]

theorem base128_of_lt {n : ℕ} (h : n < 128) : base128 n = [BitVec.ofNat 8 n] := by
  rw [base128]
  cases n with
  | zero => rfl
  | succ n => rw [base128Digits, if_pos h]

theorem base128_of_ge {n : ℕ} (h : 128 ≤ n) :
    base128 n = BitVec.ofNat 8 (n % 128 + 128) :: base128 (n / 128) := by
  obtain ⟨n, rfl⟩ : ∃ m, n = m + 1 := ⟨n - 1, by omega⟩
  rw [base128, base128Digits, if_neg (by omega), base128Digits_eq (by omega)]

/-- Induction along the base-128 digits of a number. -/
theorem base128_induction {motive : ℕ → Prop} (last : ∀ n, n < 128 → motive n)
    (more : ∀ n, 128 ≤ n → motive (n / 128) → motive n) (n : ℕ) : motive n := by
  induction n using Nat.strongRecOn with
  | ind n ih =>
    by_cases h : n < 128
    · exact last n h
    · exact more n (by omega) (ih (n / 128) (by omega))

theorem base128_ne_nil (n : ℕ) : base128 n ≠ [] := by
  by_cases h : n < 128
  · rw [base128_of_lt h]
    exact List.cons_ne_nil _ _
  · rw [base128_of_ge (by omega)]
    exact List.cons_ne_nil _ _

theorem base128_length_pos (n : ℕ) : 0 < (base128 n).length :=
  List.length_pos_iff.mpr (base128_ne_nil n)

/-- `k + 1` bytes are enough exactly for the numbers below `128 ^ (k + 1)`. -/
theorem base128_length_le_iff (n k : ℕ) : (base128 n).length ≤ k + 1 ↔ n < 128 ^ (k + 1) := by
  induction k generalizing n with
  | zero =>
    by_cases h : n < 128
    · simp [base128_of_lt h, h]
    · have := base128_length_pos (n / 128)
      rw [base128_of_ge (by omega), List.length_cons]
      omega
  | succ k ih =>
    by_cases h : n < 128
    · have hpow : 128 ^ 1 ≤ 128 ^ (k + 1 + 1) := Nat.pow_le_pow_right (by norm_num) (by omega)
      rw [base128_of_lt h, List.length_singleton]
      omega
    · rw [base128_of_ge (by omega), List.length_cons, Nat.add_le_add_iff_right, ih,
        Nat.div_lt_iff_lt_mul (by norm_num), ← pow_succ]

/-- A `w`-bit number takes at most `⌈w / 7⌉` bytes. -/
theorem base128_length_le {n k : ℕ} (h : n < 128 ^ (k + 1)) : (base128 n).length ≤ k + 1 :=
  (base128_length_le_iff n k).mpr h

end BambooShoot.Lib
