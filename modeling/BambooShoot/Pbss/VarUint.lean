import BambooShoot.Pbss.Types

/-!
# Variable length unsigned integers

Model of `include/bs3/pbss/impl/pbss-var-uint.hh`. Every function of that
header is a loop or a recursion on `n >> 7`; the results relate each of them to
the base-128 digits of `n`:

* `emits_writeVarUint`, `staticVuintSerialization_eq`: the two writers;
* `consumes_readVarUint`: the reader;
* `varUintStaticSize_eq`, `varUintAotSize_eq`: the two size functions;
* `emits_writeStringConstant`: a compile-time header, also when its bytes are
  packed into one word.
-/

namespace BambooShoot.Pbss

open BambooShoot.Lib

section Writer

variable {ω : Type} [OutputStream ω]

/-- `write_var_uint` (lines 38–44); the loop ends within `w` rounds. -/
def writeVarUintLoop {w : ℕ} : ℕ → BitVec w → Run ω Unit
  | 0, _ => throw .outOfFuel
  | fuel + 1, n => do
    OutputStream.put (((n &&& 0x7f) ||| (if n > 0x7f then 0x80 else 0)).setWidth 8)
    if n >>> 7 ≠ 0 then writeVarUintLoop fuel (n >>> 7)

/-- `write_var_uint`. -/
def writeVarUint {w : ℕ} (n : BitVec w) : Run ω Unit := writeVarUintLoop w n

/-- `acc`, the operator that packs characters (lines 93–98). -/
def acc (low high : BitVec 64) : BitVec 64 := (high <<< 8) ||| low

/-- `static_foldr(acc(), v...)` (line 103). -/
def packChars : List Byte → BitVec 64
  | [] => 0
  | [ch] => ch.setWidth 64
  | ch :: v => acc (ch.setWidth 64) (packChars v)

/-- `string_constant<v...>::write` (lines 72–105). -/
def writeStringConstant (v : List Byte) : Run ω Unit :=
  if v.length > 8 ∨ v.length = 1 then v.forM OutputStream.put
  else OutputStream.write ((wordBytes (k := 8) (packChars v)).take v.length)

end Writer

/-- `static_vuint_serialization<x, ch...>` (lines 109–116), as the characters
    of the `string_constant` it derives from. -/
def staticVuintSerialization : ℕ → SizeT → List Byte → List Byte
  | 0, _, ch => ch
  | fuel + 1, x, ch =>
    if x >>> 7 ≠ 0 then
      staticVuintSerialization fuel (x >>> 7) (ch ++ [((x &&& 0x7f) ||| 0x80).setWidth 8])
    else ch ++ [x.setWidth 8]

/-- `static_size(const var_uint&)` (lines 133–137). -/
def varUintStaticSizeLoop {w : ℕ} : ℕ → BitVec w → SizeT
  | 0, _ => 0
  | fuel + 1, n => if n >>> 7 ≠ 0 then varUintStaticSizeLoop fuel (n >>> 7) + 1 else 1

def varUintStaticSize {w : ℕ} (n : BitVec w) : SizeT := varUintStaticSizeLoop w n

/-- The loop of `aot_size(const var_uint&)` (lines 141–147) on `x` and `size`. -/
def varUintAotSizeLoop {w : ℕ} : ℕ → BitVec w → SizeT → SizeT
  | 0, _, size => size
  | fuel + 1, x, size =>
    if x >>> 7 ≠ 0 then varUintAotSizeLoop fuel (x >>> 7) (size + 1) else size + 1

def varUintAotSize {w : ℕ} (n : BitVec w) : SizeT := varUintAotSizeLoop w n 0

section Reader

variable {σ : Type} [InputStream σ]

/-- `UInt(c&0x7f) << offset` has no value: the promoted operand has `max w 32`
    bits. Bits that are shifted out, also of a signed `int`, are lost (C++20). -/
def shiftUndefined (w offset : ℕ) : Prop := max w 32 ≤ offset

instance (w offset : ℕ) : Decidable (shiftUndefined w offset) :=
  inferInstanceAs (Decidable (_ ≤ _))

/-- `read_var_uint` (lines 46–61) on `n` and `offset`. -/
def readVarUintLoop (w : ℕ) : ℕ → BitVec w → ℕ → Run σ (BitVec w)
  | 0, _, _ => throw .outOfFuel
  | fuel + 1, n, offset => do
    match ← InputStream.get with
    | none => raise .earlyEofError
    | some c =>
      if shiftUndefined w offset then undefined
      else
        let n := n ||| BitVec.ofNat w ((c &&& 0x7f).toNat * 2 ^ offset)
        if c &&& 0x80 ≠ 0 then readVarUintLoop w fuel n (offset + 7) else pure n

/-- `read_var_uint`. -/
def readVarUint (fuel w : ℕ) : Run σ (BitVec w) := readVarUintLoop w fuel 0 0

end Reader

/-! ## Digits -/

theorem toNat_shift7 {w : ℕ} (n : BitVec w) : (n >>> 7).toNat = n.toNat / 128 := by
  rw [BitVec.toNat_ushiftRight, Nat.shiftRight_eq_div_pow]

theorem shift7_ne_zero_iff {w : ℕ} (n : BitVec w) : n >>> 7 ≠ 0 ↔ 128 ≤ n.toNat := by
  rw [ne_eq, ← BitVec.toNat_inj, toNat_shift7]
  simp

theorem toNat_127 {w : ℕ} (hw : 8 ≤ w) : (0x7f : BitVec w).toNat = 127 := by
  have hpow : 2 ^ 8 ≤ 2 ^ w := Nat.pow_le_pow_right (by norm_num) hw
  exact Nat.mod_eq_of_lt (show 127 < 2 ^ w by omega)

theorem toNat_128 {w : ℕ} (hw : 8 ≤ w) : (0x80 : BitVec w).toNat = 128 := by
  have hpow : 2 ^ 8 ≤ 2 ^ w := Nat.pow_le_pow_right (by norm_num) hw
  exact Nat.mod_eq_of_lt (show 128 < 2 ^ w by omega)

theorem toNat_and_7f {w : ℕ} (hw : 8 ≤ w) (n : BitVec w) :
    (n &&& 0x7f).toNat = n.toNat % 128 := by
  rw [BitVec.toNat_and, toNat_127 hw]
  exact Nat.and_two_pow_sub_one_eq_mod n.toNat 7

theorem and_80_ne_zero_iff (c : Byte) : c &&& 0x80 ≠ 0 ↔ 128 ≤ c.toNat := by
  revert c
  decide +kernel

/-- A digit that is not the last one. -/
theorem digit_more {w : ℕ} (hw : 8 ≤ w) (n : BitVec w) :
    ((n &&& 0x7f) ||| 0x80).setWidth 8 = BitVec.ofNat 8 (n.toNat % 128 + 128) := by
  have hor : n.toNat % 128 ||| 128 = n.toNat % 128 + 128 := by
    have := Nat.two_pow_add_eq_or_of_lt (i := 7) (Nat.mod_lt n.toNat (by norm_num)) 1
    rw [Nat.or_comm, Nat.add_comm]
    simpa using this.symm
  apply BitVec.eq_of_toNat_eq
  rw [BitVec.toNat_setWidth, BitVec.toNat_or, toNat_and_7f hw, toNat_128 hw, hor,
    BitVec.toNat_ofNat]

/-- The last digit. -/
theorem digit_last {w : ℕ} (n : BitVec w) : n.setWidth 8 = BitVec.ofNat 8 n.toNat := by
  apply BitVec.eq_of_toNat_eq
  rw [BitVec.toNat_setWidth, BitVec.toNat_ofNat]

/-- A number of `w` bits has fewer than `w + 1` base-128 digits. -/
theorem toNat_lt_pow_128 {w : ℕ} (n : BitVec w) : n.toNat < 128 ^ w :=
  lt_of_lt_of_le n.isLt (Nat.pow_le_pow_left (by norm_num) w)

/-- One digit less to go. -/
theorem shift7_lt {w fuel : ℕ} (n : BitVec w) (h : 128 ≤ n.toNat)
    (hn : n.toNat < 128 ^ (fuel + 1)) : (n >>> 7).toNat < 128 ^ fuel ∧ 0 < fuel := by
  rw [toNat_shift7]
  refine ⟨Nat.div_lt_of_lt_mul (by rwa [← pow_succ']), ?_⟩
  rcases Nat.eq_zero_or_pos fuel with rfl | hf
  · rw [zero_add, pow_one] at hn
    omega
  · exact hf

/-! ## Writing -/

section Emits

variable {ω : Type} [OutputStream ω]

/-- One round of the loop, on the number. -/
theorem writeVarUintLoop_succ {w : ℕ} (hw : 8 ≤ w) (fuel : ℕ) (n : BitVec w) :
    (writeVarUintLoop (fuel + 1) n : Run ω Unit) =
      if 128 ≤ n.toNat then do
        OutputStream.put (BitVec.ofNat 8 (n.toNat % 128 + 128))
        writeVarUintLoop fuel (n >>> 7)
      else OutputStream.put (BitVec.ofNat 8 n.toNat) := by
  have hgt : n > 0x7f ↔ 128 ≤ n.toNat := by
    rw [gt_iff_lt, BitVec.lt_def, toNat_127 hw]
    omega
  rw [writeVarUintLoop]
  by_cases h : 128 ≤ n.toNat
  · rw [if_pos (hgt.mpr h), if_pos ((shift7_ne_zero_iff n).mpr h), if_pos h, digit_more hw]
  · have hand : n &&& 0x7f = n := by
      apply BitVec.eq_of_toNat_eq
      rw [toNat_and_7f hw, Nat.mod_eq_of_lt (by omega)]
    have hor : n ||| 0 = n := BitVec.or_zero
    rw [if_neg (hgt.not.mpr h), if_neg ((shift7_ne_zero_iff n).not.mpr h), if_neg h, hand, hor,
      digit_last]
    exact bind_pure _

variable [LawfulOutputStream ω]

theorem emits_writeVarUintLoop {w : ℕ} (hw : 8 ≤ w) (fuel : ℕ) (n : BitVec w)
    (hn : n.toNat < 128 ^ fuel) (hpos : 0 < fuel) :
    Emits (writeVarUintLoop fuel n : Run ω Unit) (base128 n.toNat) := by
  induction fuel generalizing n with
  | zero => omega
  | succ fuel ih =>
    rw [writeVarUintLoop_succ hw]
    split_ifs with h
    · obtain ⟨hdiv, hfuel⟩ := shift7_lt n h hn
      rw [base128_of_ge h, ← toNat_shift7]
      exact (emits_put _).seq (ih _ hdiv hfuel)
    · rw [base128_of_lt (by omega)]
      exact emits_put _

/-- `write_var_uint` writes the shortest encoding. -/
theorem emits_writeVarUint {w : ℕ} (hw : 8 ≤ w) (n : BitVec w) :
    Emits (writeVarUint n : Run ω Unit) (base128 n.toNat) :=
  emits_writeVarUintLoop hw w n (toNat_lt_pow_128 n) (by omega)

end Emits

/-- The compile-time encoding of a size is the same. -/
theorem staticVuintSerialization_eq (fuel : ℕ) (x : SizeT) (ch : List Byte)
    (hx : x.toNat < 128 ^ fuel) (hpos : 0 < fuel) :
    staticVuintSerialization fuel x ch = ch ++ base128 x.toNat := by
  induction fuel generalizing x ch with
  | zero => omega
  | succ fuel ih =>
    rw [staticVuintSerialization]
    by_cases h : 128 ≤ x.toNat
    · obtain ⟨hdiv, hfuel⟩ := shift7_lt x h hx
      rw [if_pos ((shift7_ne_zero_iff x).mpr h), ih _ _ hdiv hfuel, base128_of_ge h,
        digit_more (by norm_num), toNat_shift7]
      simp
    · rw [if_neg ((shift7_ne_zero_iff x).not.mpr h), base128_of_lt (by omega), digit_last]

/-- A `std::size_t` takes at most ten bytes. -/
theorem length_base128_le_ten (x : SizeT) : (base128 x.toNat).length ≤ 10 :=
  base128_length_le (k := 9) (lt_trans x.isLt (by norm_num))

/-! ## Sizes -/

theorem varUintStaticSizeLoop_eq {w : ℕ} (fuel : ℕ) (n : BitVec w) (hn : n.toNat < 128 ^ fuel)
    (hpos : 0 < fuel) : varUintStaticSizeLoop fuel n = byteCount (base128 n.toNat) := by
  induction fuel generalizing n with
  | zero => omega
  | succ fuel ih =>
    rw [varUintStaticSizeLoop]
    by_cases h : 128 ≤ n.toNat
    · obtain ⟨hdiv, hfuel⟩ := shift7_lt n h hn
      rw [if_pos ((shift7_ne_zero_iff n).mpr h), ih _ hdiv hfuel, base128_of_ge h, toNat_shift7]
      simp [byteCount, BitVec.ofNat_add]
    · rw [if_neg ((shift7_ne_zero_iff n).not.mpr h), base128_of_lt (by omega)]
      rfl

theorem varUintAotSizeLoop_eq {w : ℕ} (fuel : ℕ) (n : BitVec w) (size : SizeT)
    (hn : n.toNat < 128 ^ fuel) (hpos : 0 < fuel) :
    varUintAotSizeLoop fuel n size = size + byteCount (base128 n.toNat) := by
  induction fuel generalizing n size with
  | zero => omega
  | succ fuel ih =>
    rw [varUintAotSizeLoop]
    by_cases h : 128 ≤ n.toNat
    · obtain ⟨hdiv, hfuel⟩ := shift7_lt n h hn
      rw [if_pos ((shift7_ne_zero_iff n).mpr h), ih _ _ hdiv hfuel, base128_of_ge h, toNat_shift7]
      simp [byteCount, BitVec.ofNat_add, BitVec.add_assoc, BitVec.add_comm]
    · rw [if_neg ((shift7_ne_zero_iff n).not.mpr h), base128_of_lt (by omega)]
      rfl

theorem varUintStaticSize_eq {w : ℕ} (hw : 8 ≤ w) (n : BitVec w) :
    varUintStaticSize n = byteCount (base128 n.toNat) :=
  varUintStaticSizeLoop_eq w n (toNat_lt_pow_128 n) (by omega)

theorem varUintAotSize_eq {w : ℕ} (hw : 8 ≤ w) (n : BitVec w) :
    varUintAotSize n = byteCount (base128 n.toNat) := by
  rw [varUintAotSize, varUintAotSizeLoop_eq w n 0 (toNat_lt_pow_128 n) (by omega)]
  exact BitVec.zero_add _

/-! ## Packed headers -/

theorem toNat_acc (low : Byte) {high : BitVec 64} (h : high.toNat < 2 ^ 56) :
    (acc (low.setWidth 64) high).toNat = low.toNat + 256 * high.toNat := by
  have hlow := low.isLt
  have hmod : high.toNat * 2 ^ 8 % 2 ^ 64 = 2 ^ 8 * high.toNat := by
    rw [Nat.mul_comm, Nat.mod_eq_of_lt (by omega)]
  have hor := Nat.two_pow_add_eq_or_of_lt (i := 8) hlow high.toNat
  rw [acc, BitVec.toNat_or, BitVec.toNat_shiftLeft, Nat.shiftLeft_eq, hmod, BitVec.toNat_setWidth,
    Nat.mod_eq_of_lt (by omega), ← hor]
  omega

theorem toNat_packChars (v : List Byte) (h : v.length ≤ 8) : (packChars v).toNat = leValue v := by
  induction v with
  | nil => rfl
  | cons ch v ih =>
    have hch := ch.isLt
    cases v with
    | nil =>
      rw [packChars, BitVec.toNat_setWidth, Nat.mod_eq_of_lt (by omega), leValue_cons]
      rfl
    | cons ch' v =>
      have hv : (packChars (ch' :: v)).toNat = leValue (ch' :: v) := ih (by simp at h ⊢; omega)
      have hlt : leValue (ch' :: v) < 2 ^ 56 := by
        have h1 := leValue_lt (ch' :: v)
        have h2 : 256 ^ (ch' :: v).length ≤ 256 ^ 7 :=
          Nat.pow_le_pow_right (by norm_num) (by simp at h ⊢; omega)
        omega
      rw [packChars, toNat_acc ch (by rw [hv]; exact hlt), hv, leValue_cons ch]
      exact List.cons_ne_nil ch' v

theorem take_wordBytes_packChars (v : List Byte) (h : v.length ≤ 8) :
    (wordBytes (k := 8) (packChars v)).take v.length = v := by
  rw [wordBytes, toNat_packChars v h, take_leBytes h, leBytes_leValue]

theorem emits_writeStringConstant {ω : Type} [OutputStream ω] [LawfulOutputStream ω]
    (v : List Byte) : Emits (writeStringConstant v : Run ω Unit) v := by
  rw [writeStringConstant]
  split_ifs with h
  · have := Emits.forM (p := (OutputStream.put : Byte → Run ω Unit)) (fun b => emits_put b) v
    rwa [List.flatMap_singleton'] at this
  · rw [take_wordBytes_packChars v (by omega)]
    exact emits_write v

/-! ## Reading -/

section Consumes

variable {σ : Type} [InputStream σ]

section Rounds

variable {w : ℕ} (P : Run σ (BitVec w) → List Byte → BitVec w → Prop)
  (hget : ∀ {f : Option Byte → Run σ (BitVec w)} {c : Byte} {bs : List Byte} {x : BitVec w},
    f none = raise .earlyEofError → P (f (some c)) bs x → P (InputStream.get >>= f) (c :: bs) x)

include hget

/-- One round of the loop, on a byte whose digit fits behind the `offset` bits
    already read. -/
theorem readVarUintLoop_succ (c : Byte) (n : BitVec w) (offset fuel : ℕ)
    (hoffset : offset < w) (hn : n.toNat < 2 ^ offset)
    (hc : n.toNat + c.toNat % 128 * 2 ^ offset < 2 ^ w) (bs : List Byte) (x : BitVec w)
    (h : P (if 128 ≤ c.toNat then
        readVarUintLoop w fuel (BitVec.ofNat w (n.toNat + c.toNat % 128 * 2 ^ offset)) (offset + 7)
      else pure (BitVec.ofNat w (n.toNat + c.toNat % 128 * 2 ^ offset))) bs x) :
    P (readVarUintLoop w (fuel + 1) n offset) (c :: bs) x := by
  have hdefined : ¬ shiftUndefined w offset := by
    unfold shiftUndefined
    omega
  have hor : n ||| BitVec.ofNat w (c.toNat % 128 * 2 ^ offset) =
      BitVec.ofNat w (n.toNat + c.toNat % 128 * 2 ^ offset) := by
    have := Nat.two_pow_add_eq_or_of_lt hn (c.toNat % 128)
    apply BitVec.eq_of_toNat_eq
    rw [BitVec.toNat_or, BitVec.toNat_ofNat, BitVec.toNat_ofNat, Nat.mod_eq_of_lt (by omega),
      Nat.mod_eq_of_lt hc, Nat.or_comm, Nat.mul_comm, ← this, Nat.add_comm]
  rw [readVarUintLoop]
  apply hget rfl
  simp only [if_neg hdefined, toNat_and_7f (le_refl 8), hor, and_80_ne_zero_iff]
  exact h

/-- The rounds of the loop over the digits of `m`, on top of the `offset` bits
    already in `n`: `P` is what is to be known of a program that reads them. -/
theorem readVarUintLoop_rounds (hpure : ∀ x : BitVec w, P (pure x) [] x) (m : ℕ) (n : BitVec w)
    (offset fuel : ℕ) (hoffset : offset < w) (hn : n.toNat < 2 ^ offset)
    (hm : n.toNat + m * 2 ^ offset < 2 ^ w) (hfuel : (base128 m).length ≤ fuel) :
    P (readVarUintLoop w fuel n offset) (base128 m) (BitVec.ofNat w (n.toNat + m * 2 ^ offset)) := by
  induction m using base128_induction generalizing n offset fuel with
  | last m hlt =>
    obtain ⟨fuel, rfl⟩ : ∃ f, fuel = f + 1 := ⟨fuel - 1, by have := base128_length_pos m; omega⟩
    have hc : (BitVec.ofNat 8 m).toNat = m := Nat.mod_eq_of_lt (by omega)
    have hmod : m % 128 = m := Nat.mod_eq_of_lt hlt
    rw [base128_of_lt hlt]
    refine readVarUintLoop_succ P hget _ n offset fuel hoffset hn (by rwa [hc, hmod]) [] _ ?_
    rw [hc, hmod, if_neg (by omega)]
    exact hpure _
  | more m hge ih =>
    obtain ⟨fuel, rfl⟩ : ∃ f, fuel = f + 1 := ⟨fuel - 1, by have := base128_length_pos m; omega⟩
    have hc : (BitVec.ofNat 8 (m % 128 + 128)).toNat = m % 128 + 128 := Nat.mod_eq_of_lt (by omega)
    have hmod : (m % 128 + 128) % 128 = m % 128 := by omega
    -- the digits of `m` are the lowest one and those of `m / 128`
    have hsplit : m * 2 ^ offset = m % 128 * 2 ^ offset + m / 128 * 2 ^ (offset + 7) := by
      have hdm := Nat.mod_add_div m 128
      calc m * 2 ^ offset = (m % 128 + 128 * (m / 128)) * 2 ^ offset := by rw [hdm]
        _ = m % 128 * 2 ^ offset + m / 128 * 2 ^ (offset + 7) := by rw [pow_add]; ring
    have hle : 2 ^ (offset + 7) ≤ m / 128 * 2 ^ (offset + 7) :=
      Nat.le_mul_of_pos_left _ (by omega)
    have hlow : m % 128 * 2 ^ offset ≤ 127 * 2 ^ offset := Nat.mul_le_mul_right _ (by omega)
    have hpow : 2 ^ (offset + 7) = 128 * 2 ^ offset := by rw [pow_add]; ring
    have hoffset' : offset + 7 < w := (Nat.pow_lt_pow_iff_right (a := 2) (by norm_num)).mp (by omega)
    have hn' : (BitVec.ofNat w (n.toNat + m % 128 * 2 ^ offset)).toNat =
        n.toNat + m % 128 * 2 ^ offset := Nat.mod_eq_of_lt (by omega)
    rw [base128_of_ge hge, List.length_cons] at hfuel
    rw [base128_of_ge hge]
    refine readVarUintLoop_succ P hget _ n offset fuel hoffset hn (by rw [hc, hmod]; omega) _ _ ?_
    have hrest := ih (BitVec.ofNat w (n.toNat + m % 128 * 2 ^ offset)) (offset + 7) fuel hoffset'
      (by omega) (by omega) (by omega)
    rw [hn', Nat.add_assoc, ← hsplit] at hrest
    rwa [hc, hmod, if_pos (by omega)]

end Rounds

variable [ForwardInputStream σ] [LawfulInputStream σ] {w fuel : ℕ}

/-- `read_var_uint` reads back what `write_var_uint` wrote. -/
theorem consumes_readVarUint (hw : 8 ≤ w) (n : BitVec w)
    (hfuel : (base128 n.toNat).length ≤ fuel) :
    Consumes (readVarUint fuel w : Run σ _) (base128 n.toNat) n := by
  have h := readVarUintLoop_rounds (σ := σ) Consumes (fun _ h => (consumes_get _).bind h)
    Consumes.pure n.toNat (0 : BitVec w) 0 fuel (by omega) (by simp) (by simpa using n.isLt) hfuel
  rw [readVarUint]
  simpa using h

/-- It does not take a part of it for the whole. -/
theorem rejectsPrefix_readVarUint (hw : 8 ≤ w) (n : BitVec w)
    (hfuel : (base128 n.toNat).length ≤ fuel) :
    RejectsPrefix (readVarUint fuel w : Run σ _) (base128 n.toNat) :=
  readVarUintLoop_rounds (σ := σ) (fun p bs _ => RejectsPrefix p bs)
    (fun hnone h => rejectsPrefix_get hnone h) (fun _ => Starves.nil _) n.toNat (0 : BitVec w) 0
    fuel (by omega) (by simp) (by simpa using n.isLt) hfuel

end Consumes

end BambooShoot.Pbss
