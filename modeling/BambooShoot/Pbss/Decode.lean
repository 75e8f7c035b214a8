import BambooShoot.Pbss.CharRange
import BambooShoot.Pbss.VarUint

/-!
# Reading numbers from arbitrary bytes

`read_var_uint` (`pbss-var-uint.hh`, lines 46–61) on input that no
`write_var_uint` needs to have written: an encoding may be padded with zero
groups, may denote a number that does not fit, or may not end at all.

Results:
* `encodedPart_base128`, `denoted_base128`, `length_base128_denoted_le`: the
  encoding of `write_var_uint` is the shortest one of its number;
* `readVarUintLoop_ok`, `readVarUintLoop_end`, `readVarUintLoop_undefined`: what
  the loop does;
* `consumes_readVarUint_bytes`: an encoding that fits is read for the number it
  denotes, padded or not;
* `readsExactly_iff`: the inputs that are read exactly.
-/

namespace BambooShoot.Pbss

open BambooShoot.Lib
open Source Measured

/-! ## What bytes denote -/

/-- The bytes of the number at the start of `bs`, up to the first one with the
    top bit clear. -/
def encodedPart : List Byte → Option (List Byte)
  | [] => none
  | c :: bs => if 128 ≤ c.toNat then (encodedPart bs).map (c :: ·) else some [c]

/-- The number made up of the low seven bits of each byte
    (`doc/serialization.md`, lines 52–57). -/
def denoted (bs : List Byte) : ℕ := Nat.ofDigits 128 (bs.map fun c => (c &&& 0x7f).toNat)

@[simp] theorem denoted_nil : denoted [] = 0 := rfl

@[simp] theorem denoted_cons (c : Byte) (bs : List Byte) :
    denoted (c :: bs) = c.toNat % 128 + 128 * denoted bs := by
  rw [denoted, List.map_cons, Nat.ofDigits_cons, toNat_and_7f (le_refl 8)]
  rfl

theorem encodedPart_more {c : Byte} (h : 128 ≤ c.toNat) (bs : List Byte) :
    encodedPart (c :: bs) = (encodedPart bs).map (c :: ·) := by
  rw [encodedPart, if_pos h]

theorem encodedPart_last {c : Byte} (h : ¬ 128 ≤ c.toNat) (bs : List Byte) :
    encodedPart (c :: bs) = some [c] := by
  rw [encodedPart, if_neg h]

/-- What follows the number does not matter. -/
theorem encodedPart_append {bs p : List Byte} (h : encodedPart bs = some p) (rest : List Byte) :
    encodedPart (bs ++ rest) = some p := by
  induction bs generalizing p with
  | nil => cases h
  | cons c bs ih =>
    rw [List.cons_append]
    by_cases hc : 128 ≤ c.toNat
    · rw [encodedPart_more hc] at h ⊢
      obtain ⟨q, hq, rfl⟩ := Option.map_eq_some_iff.mp h
      rw [ih hq, Option.map_some]
    · rw [encodedPart_last hc] at h ⊢
      exact h

theorem encodedPart_length_le {bs p : List Byte} (h : encodedPart bs = some p) :
    p.length ≤ bs.length := by
  induction bs generalizing p with
  | nil => cases h
  | cons c bs ih =>
    by_cases hc : 128 ≤ c.toNat
    · rw [encodedPart_more hc] at h
      obtain ⟨q, hq, rfl⟩ := Option.map_eq_some_iff.mp h
      exact Nat.succ_le_succ (ih hq)
    · rw [encodedPart_last hc] at h
      cases h
      simp

/-! ## The shortest encoding -/

theorem encodedPart_base128 (n : ℕ) : encodedPart (base128 n) = some (base128 n) := by
  induction n using base128_induction with
  | last n hlt =>
    have hn : (BitVec.ofNat 8 n).toNat = n := Nat.mod_eq_of_lt (by omega)
    rw [base128_of_lt hlt, encodedPart_last (by rw [hn]; omega)]
  | more n hge ih =>
    have hn : (BitVec.ofNat 8 (n % 128 + 128)).toNat = n % 128 + 128 := Nat.mod_eq_of_lt (by omega)
    rw [base128_of_ge hge, encodedPart_more (by rw [hn]; omega), ih, Option.map_some]

theorem denoted_base128 (n : ℕ) : denoted (base128 n) = n := by
  induction n using base128_induction with
  | last n hlt =>
    have hn : (BitVec.ofNat 8 n).toNat = n := Nat.mod_eq_of_lt (by omega)
    rw [base128_of_lt hlt, denoted_cons, hn, denoted_nil]
    omega
  | more n hge ih =>
    have hn : (BitVec.ofNat 8 (n % 128 + 128)).toNat = n % 128 + 128 := Nat.mod_eq_of_lt (by omega)
    rw [base128_of_ge hge, denoted_cons, hn, ih]
    omega

theorem denoted_lt (bs : List Byte) : denoted bs < 128 ^ bs.length := by
  induction bs with
  | nil => exact Nat.one_pos
  | cons c bs ih =>
    rw [denoted_cons, List.length_cons, pow_succ']
    omega

/-- No encoding of a number is shorter than that of `write_var_uint`. -/
theorem length_base128_denoted_le {bs : List Byte} (h : bs ≠ []) :
    (base128 (denoted bs)).length ≤ bs.length := by
  obtain ⟨c, bs, rfl⟩ := List.exists_cons_of_ne_nil h
  exact base128_length_le (denoted_lt (c :: bs))

/-! ## The loop -/

/-- No shift over the bytes of a number is undefined, from `offset` on. -/
def ShiftsDefined (w : ℕ) : ℕ → List Byte → Prop
  | _, [] => True
  | offset, c :: bs =>
    ¬ shiftUndefined w offset ∧ (128 ≤ c.toNat → ShiftsDefined w (offset + 7) bs)

section Loop

variable {σ : Type} [InputStream σ] [ForwardInputStream σ] [LawfulInputStream σ] {w : ℕ}

/-- One round: the digit is added above the `offset` bits already read. -/
theorem readVarUintLoop_cons {s : σ} {c : Byte} {bs : List Byte} (hs : Ready s (c :: bs))
    (fuel : ℕ) {a offset : ℕ} (ha : a < 2 ^ offset) :
    readVarUintLoop w (fuel + 1) (BitVec.ofNat w a) offset s =
      if shiftUndefined w offset then .error .undefinedBehaviour (advance 1 s)
      else if 128 ≤ c.toNat then
        readVarUintLoop w fuel (BitVec.ofNat w (a + c.toNat % 128 * 2 ^ offset)) (offset + 7)
          (advance 1 s)
      else .ok (BitVec.ofNat w (a + c.toNat % 128 * 2 ^ offset)) (advance 1 s) := by
  have hor : BitVec.ofNat w a ||| BitVec.ofNat w (c.toNat % 128 * 2 ^ offset) =
      BitVec.ofNat w (a + c.toNat % 128 * 2 ^ offset) := by
    have := Nat.two_pow_add_eq_or_of_lt ha (c.toNat % 128)
    rw [← BitVec.ofNat_or, Nat.or_comm, Nat.mul_comm, ← this, Nat.add_comm]
  conv_lhs => unfold readVarUintLoop
  rw [bind_of_ok (LawfulInputStream.get_ready hs)]
  simp only [toNat_and_7f (le_refl 8), hor, and_80_ne_zero_iff]
  split_ifs <;> rfl

theorem digit_lt {a offset : ℕ} (ha : a < 2 ^ offset) (c : Byte) :
    a + c.toNat % 128 * 2 ^ offset < 2 ^ (offset + 7) := by
  have hle : c.toNat % 128 * 2 ^ offset ≤ 127 * 2 ^ offset := Nat.mul_le_mul_right _ (by omega)
  have hpow : 2 ^ (offset + 7) = 128 * 2 ^ offset := by rw [pow_add]; ring
  omega

theorem denoted_cons_shift (a offset : ℕ) (c : Byte) (bs : List Byte) :
    a + denoted (c :: bs) * 2 ^ offset =
      a + c.toNat % 128 * 2 ^ offset + denoted bs * 2 ^ (offset + 7) := by
  rw [denoted_cons, pow_add]
  ring

/-- A number that ends in the stream is read, as far as it fits. -/
theorem readVarUintLoop_ok {s : σ} {bs p : List Byte} (hs : Ready s bs)
    (hp : encodedPart bs = some p) {a offset fuel : ℕ} (ha : a < 2 ^ offset)
    (hfuel : p.length ≤ fuel) (hdefined : ShiftsDefined w offset bs) :
    readVarUintLoop w fuel (BitVec.ofNat w a) offset s =
      .ok (BitVec.ofNat w (a + denoted p * 2 ^ offset)) (advance p.length s) := by
  induction bs generalizing s p a offset fuel with
  | nil => cases hp
  | cons c bs ih =>
    by_cases hc : 128 ≤ c.toNat
    · rw [encodedPart_more hc] at hp
      obtain ⟨q, hq, rfl⟩ := Option.map_eq_some_iff.mp hp
      rw [List.length_cons] at hfuel
      obtain ⟨fuel, rfl⟩ : ∃ f, fuel = f + 1 := ⟨fuel - 1, by omega⟩
      rw [readVarUintLoop_cons hs fuel ha, if_neg hdefined.1, if_pos hc,
        ih (ready_tail hs) hq (digit_lt ha c) (Nat.le_of_succ_le_succ hfuel) (hdefined.2 hc),
        denoted_cons_shift, ← advance_add, List.length_cons, Nat.add_comm 1]
    · rw [encodedPart_last hc] at hp
      cases hp
      rw [List.length_singleton] at hfuel
      obtain ⟨fuel, rfl⟩ : ∃ f, fuel = f + 1 := ⟨fuel - 1, by omega⟩
      rw [readVarUintLoop_cons hs fuel ha, if_neg hdefined.1, if_neg hc, denoted_cons_shift,
        denoted_nil, Nat.zero_mul]
      rfl

/-- A stream that ends first is noticed. -/
theorem readVarUintLoop_end {s : σ} {bs : List Byte} (hs : Ready s bs)
    (hp : encodedPart bs = none) {a offset fuel : ℕ} (ha : a < 2 ^ offset)
    (hfuel : bs.length < fuel) (hdefined : ShiftsDefined w offset bs) :
    ∃ s', readVarUintLoop w fuel (BitVec.ofNat w a) offset s =
      .error (.throws (LawfulInputStream.eofError s)) s' := by
  induction bs generalizing s a offset fuel with
  | nil =>
    obtain ⟨fuel, rfl⟩ : ∃ f, fuel = f + 1 := ⟨fuel - 1, by omega⟩
    unfold readVarUintLoop
    rcases LawfulInputStream.get_end hs with ⟨heof, s', hget⟩ | ⟨s', hget⟩
    · exact ⟨s', by rw [bind_of_ok hget, heof]; rfl⟩
    · exact ⟨s', bind_of_error hget⟩
  | cons c bs ih =>
    obtain ⟨fuel, rfl⟩ : ∃ f, fuel = f + 1 := ⟨fuel - 1, by omega⟩
    rw [List.length_cons] at hfuel
    rw [readVarUintLoop_cons hs fuel ha, if_neg hdefined.1]
    by_cases hc : 128 ≤ c.toNat
    · rw [encodedPart_more hc, Option.map_eq_none_iff] at hp
      obtain ⟨s', hs'⟩ := ih (ready_tail hs) hp (digit_lt ha c)
        (Nat.lt_of_succ_lt_succ hfuel) (hdefined.2 hc)
      rw [LawfulInputStream.eofError_advance] at hs'
      rw [if_pos hc]
      exact ⟨s', hs'⟩
    · rw [encodedPart_last hc] at hp
      cases hp

/-- A shift by too much is reached. -/
theorem readVarUintLoop_undefined {s : σ} {bs : List Byte} (hs : Ready s bs) {a offset fuel : ℕ}
    (ha : a < 2 ^ offset) (hfuel : bs.length < fuel) (hdefined : ¬ ShiftsDefined w offset bs) :
    ∃ s', readVarUintLoop w fuel (BitVec.ofNat w a) offset s = .error .undefinedBehaviour s' := by
  induction bs generalizing s a offset fuel with
  | nil => exact absurd trivial hdefined
  | cons c bs ih =>
    obtain ⟨fuel, rfl⟩ : ∃ f, fuel = f + 1 := ⟨fuel - 1, by omega⟩
    rw [List.length_cons] at hfuel
    rw [readVarUintLoop_cons hs fuel ha]
    split_ifs with hshift hc
    · exact ⟨_, rfl⟩
    · exact ih (ready_tail hs) (digit_lt ha c) (Nat.lt_of_succ_lt_succ hfuel) fun h =>
        hdefined ⟨hshift, fun _ => h⟩
    · exact absurd ⟨hshift, fun h => absurd h hc⟩ hdefined

end Loop

/-! ## Which shifts are defined -/

/-- The bytes that the loop reads. -/
def bytesRead (bs : List Byte) : List Byte := (encodedPart bs).getD bs

theorem bytesRead_more {c : Byte} (h : 128 ≤ c.toNat) (bs : List Byte) :
    bytesRead (c :: bs) = c :: bytesRead bs := by
  rw [bytesRead, bytesRead, encodedPart_more h]
  cases encodedPart bs with
  | none => rfl
  | some p => rfl

theorem bytesRead_last {c : Byte} (h : ¬ 128 ≤ c.toNat) (bs : List Byte) :
    bytesRead (c :: bs) = [c] := by
  rw [bytesRead, encodedPart_last h]
  rfl

/-- Shifts are defined over as many bytes as the promoted operand has room for
    digits. -/
theorem shiftsDefined_iff {w : ℕ} {bs : List Byte} {offset : ℕ} :
    ShiftsDefined w offset bs ↔
      (bytesRead bs ≠ [] → offset + 7 * ((bytesRead bs).length - 1) < max w 32) := by
  induction bs generalizing offset with
  | nil => exact iff_of_true trivial fun h => absurd rfl h
  | cons c bs ih =>
    rw [ShiftsDefined, shiftUndefined, not_le]
    by_cases hc : 128 ≤ c.toNat
    · rw [bytesRead_more hc, imp_iff_right (List.cons_ne_nil _ _), List.length_cons]
      constructor
      · rintro ⟨hoffset, hrest⟩
        have hlen := ih.mp (hrest hc)
        by_cases hnil : bytesRead bs = []
        · rw [hnil]
          exact hoffset
        · have hlt := hlen hnil
          have hpos := List.length_pos_iff.mpr hnil
          omega
      · intro hlt
        refine ⟨by omega, fun _ => ih.mpr fun hne => ?_⟩
        have hpos := List.length_pos_iff.mpr hne
        omega
    · rw [bytesRead_last hc]
      simp [hc]

/-! ## Exactness -/

section Exact

variable {σ : Type} [InputStream σ] [ForwardInputStream σ] [LawfulInputStream σ] (w : ℕ)

/-- `read_var_uint` on a stream in front of `bs` returns the number that they
    start with, or throws if no number ends in them. -/
def ReadsExactly (s : σ) (bs : List Byte) : Prop :=
  match encodedPart bs with
  | some p => ∃ n, readVarUint (left s + 1) w s = .ok n (advance p.length s) ∧ n.toNat = denoted p
  | none => ∃ s', readVarUint (left s + 1) w s = .error (.throws (LawfulInputStream.eofError s)) s'

/-- The number that `bs` start with has at most as many bytes as `max w 32` bits
    take, and `w` bits hold it. Where no number ends, there are no more bytes. -/
def FitsWidth (bs : List Byte) : Prop :=
  match encodedPart bs with
  | some p => 7 * (p.length - 1) < max w 32 ∧ denoted p < 2 ^ w
  | none => 7 * (bs.length - 1) < max w 32

variable {w} {s : σ} {bs : List Byte}

/-- From the start. -/
theorem shiftsDefined_zero_iff :
    ShiftsDefined w 0 bs ↔ 7 * ((bytesRead bs).length - 1) < max w 32 := by
  rw [shiftsDefined_iff, Nat.zero_add]
  constructor
  · intro h
    by_cases hnil : bytesRead bs = []
    · rw [hnil]
      exact lt_of_lt_of_le (by norm_num) (le_max_right w 32)
    · exact h hnil
  · exact fun h _ => h

theorem shiftsDefined_of_fits (h : FitsWidth w bs) : ShiftsDefined w 0 bs := by
  rw [shiftsDefined_zero_iff]
  unfold FitsWidth at h
  unfold bytesRead
  cases hp : encodedPart bs with
  | none =>
    rw [hp] at h
    exact h
  | some p =>
    rw [hp] at h
    exact h.1

/-- An input on which `read_var_uint` has a meaning has few bytes. -/
theorem fits_of_readsExactly (hs : Ready s bs) (h : ReadsExactly w s bs) : FitsWidth w bs := by
  have hfuel : bs.length < left s + 1 := by
    rw [LawfulInputStream.left_ready hs]
    exact Nat.lt_succ_self _
  by_cases hdefined : ShiftsDefined w 0 bs
  · have hcount := shiftsDefined_zero_iff.mp hdefined
    unfold bytesRead at hcount
    unfold ReadsExactly at h
    unfold FitsWidth
    cases hp : encodedPart bs with
    | none =>
      rw [hp] at hcount
      exact hcount
    | some p =>
      rw [hp] at h hcount
      obtain ⟨n, -, hn⟩ := h
      refine ⟨hcount, ?_⟩
      rw [← hn]
      exact n.isLt
  · -- an undefined shift is neither of the two outcomes
    obtain ⟨s', hundefined⟩ := readVarUintLoop_undefined (w := w) (a := 0) hs (by norm_num) hfuel
      hdefined
    unfold ReadsExactly readVarUint at h
    cases hp : encodedPart bs with
    | none =>
      rw [hp] at h
      obtain ⟨s'', h⟩ := h
      cases h.symm.trans hundefined
    | some p =>
      rw [hp] at h
      obtain ⟨n, h, -⟩ := h
      cases h.symm.trans hundefined

theorem readsExactly_of_fits (hs : Ready s bs) (h : FitsWidth w bs) : ReadsExactly w s bs := by
  have hfuel : bs.length < left s + 1 := by
    rw [LawfulInputStream.left_ready hs]
    exact Nat.lt_succ_self _
  have hdefined := shiftsDefined_of_fits h
  unfold ReadsExactly readVarUint
  unfold FitsWidth at h
  cases hp : encodedPart bs with
  | none => exact readVarUintLoop_end (a := 0) hs hp (by norm_num) hfuel hdefined
  | some p =>
    rw [hp] at h
    have hle : p.length ≤ left s + 1 := (encodedPart_length_le hp).trans hfuel.le
    have hok := readVarUintLoop_ok (w := w) (a := 0) hs hp (by norm_num) hle hdefined
    refine ⟨_, hok, ?_⟩
    rw [Nat.zero_add, pow_zero, Nat.mul_one, BitVec.toNat_ofNat, Nat.mod_eq_of_lt h.2]

/-- `read_var_uint` is exact on the inputs that fit the width, and on no others. -/
theorem readsExactly_iff (hs : Ready s bs) : ReadsExactly w s bs ↔ FitsWidth w bs :=
  ⟨fits_of_readsExactly hs, readsExactly_of_fits hs⟩

/-- An encoding that fits is read for what it denotes, padded or not. -/
theorem consumes_readVarUint_bytes {p : List Byte} (hp : encodedPart p = some p)
    (h : FitsWidth w p) {fuel : ℕ} (hfuel : p.length ≤ fuel) :
    Consumes (readVarUint fuel w : Run σ _) p (BitVec.ofNat w (denoted p)) := by
  intro s rest hs
  have hrest := encodedPart_append hp rest
  have hdefined : ShiftsDefined w 0 (p ++ rest) := by
    apply shiftsDefined_of_fits
    unfold FitsWidth at h ⊢
    rw [hp] at h
    rw [hrest]
    exact h
  have hok := readVarUintLoop_ok (w := w) (a := 0) hs hrest (by norm_num) hfuel hdefined
  rwa [Nat.zero_add, pow_zero, Nat.mul_one] at hok

end Exact

/-- 300 in two bytes. -/
theorem readsExactly_300 :
    ReadsExactly 16 (CharRangeReader.ofBytes [0xac, 0x02]) [0xac, 0x02] :=
  (readsExactly_iff (CharRangeReader.between_ready [] [0xac, 0x02])).mpr (by
    show 7 * (2 - 1) < max 16 32 ∧ 44 + 128 * (2 + 128 * 0) < 2 ^ 16
    decide)

/-- 2 ^ 64 in ten bytes: the highest bit is lost. -/
theorem two_pow_64_not_exact :
    readVarUint 11 64 (CharRangeReader.ofBytes [0x80, 0x80, 0x80, 0x80, 0x80, 0x80, 0x80, 0x80, 0x80, 2]) =
        .ok 0 ⟨[0x80, 0x80, 0x80, 0x80, 0x80, 0x80, 0x80, 0x80, 0x80, 2], 10⟩ ∧
      ¬ ReadsExactly 64
        (CharRangeReader.ofBytes [0x80, 0x80, 0x80, 0x80, 0x80, 0x80, 0x80, 0x80, 0x80, 2])
        [0x80, 0x80, 0x80, 0x80, 0x80, 0x80, 0x80, 0x80, 0x80, 2] := by
  have hread : readVarUint 11 64
      (CharRangeReader.ofBytes [0x80, 0x80, 0x80, 0x80, 0x80, 0x80, 0x80, 0x80, 0x80, 2]) =
        .ok 0 ⟨[0x80, 0x80, 0x80, 0x80, 0x80, 0x80, 0x80, 0x80, 0x80, 2], 10⟩ := rfl
  refine ⟨hread, ?_⟩
  rintro ⟨n, hok, hn⟩
  cases hread.symm.trans hok
  exact absurd hn (by decide +kernel)

end BambooShoot.Pbss
