import BambooShoot.Pbss.RoundTrip

/-!
# Forward and backward compatibility

A reader of an older or newer version of a type reads what a writer wrote,
restricted to its own members, where it agrees with the writer on the lengths it
skips (`compatible_of_agrees`). `skip_varuint` takes the length of a member of
fixed size for granted, so a member that has grown or shrunk across a number of
length digits is read from the wrong byte on: `grown_not_compatible` is a member
that has grown from 4 bytes to 139.
-/

namespace BambooShoot.Pbss

open BambooShoot.Lib

/-- The reader of type `t` returns its part of the writer's value `v`, and reads
    exactly the serialization. -/
def Compatible (build : Build) {α β : Type} {s : Ty α} {t : Ty β} (h : Evolves s t) (v : α) :
    Prop :=
  ∀ before rest e,
    parse build t (StdStream.between before (bytes s v ++ rest) e) =
        .ok (restrict h v) (StdStream.between (before ++ bytes s v) rest e) ∧
      parse build t (CharRangeReader.between before (bytes s v ++ rest)) =
        .ok (restrict h v) (CharRangeReader.between (before ++ bytes s v) rest)

/-- Readers that agree are compatible. -/
theorem compatible_of_agrees (build : Build) {α β : Type} {s : Ty α} {t : Ty β} (h : Evolves s t)
    (v : α) (hagree : Agrees h v) : Compatible build h v := by
  intro before rest e
  constructor
  · rw [consumes_parse_restrict build h v hagree _ rest (StdStream.between_ready _ _ e)]
    exact congrArg _ (StdStream.advance_between before (bytes s v) rest e)
  · rw [consumes_parse_restrict build h v hagree _ rest (CharRangeReader.between_ready _ _)]
    exact congrArg _ (CharRangeReader.advance_between before (bytes s v) rest)

/-- `get` moves a `char_range_reader` on by one also at its end. -/
theorem skipChars_charRange (n : ℕ) (before rest : List Byte) (k : ℕ) :
    skipChars n (⟨before ++ rest, before.length + k⟩ : CharRangeReader) =
      .ok () ⟨before ++ rest, before.length + (k + n : ℕ)⟩ := by
  induction n generalizing k with
  | zero => rfl
  | succ n ih =>
    have hget : ∃ c, InputStream.get (⟨before ++ rest, before.length + k⟩ : CharRangeReader) =
        .ok c ⟨before ++ rest, before.length + (k + 1 : ℕ)⟩ := by
      simp only [InputStream.get, CharRangeReader.get]
      split_ifs with h1 h2
      · exact ⟨none, by push_cast; rw [Int.add_assoc]⟩
      · omega
      · exact ⟨_, by push_cast; rw [Int.add_assoc]⟩
    obtain ⟨c, hc⟩ := hget
    rw [skipChars, bind_of_ok hc, ih, Nat.add_right_comm, Nat.add_assoc k]

/-- The reader passes over the length of a member, and no more, exactly where it
    agrees with the writer on the number of its digits. -/
theorem consumes_skipVarUint_iff {β : Type} (t : Ty β) (bs : List Byte) {fuel : ℕ}
    (hfuel : (base128 (byteCount bs).toNat).length ≤ fuel) :
    Consumes (skipVarUint fuel t : Run CharRangeReader Unit) (base128 (byteCount bs).toNat) () ↔
      SkipsLength t bs := by
  refine ⟨fun h n hn => ?_, fun h => consumes_skipVarUint h hfuel⟩
  have hten := length_base128_le_ten n
  have hsize : (varUintStaticSize n).toNat = (base128 n.toNat).length := by
    rw [varUintStaticSize_eq (by norm_num), toNat_byteCount (by omega)]
  have hfun : (skipVarUint fuel t : Run CharRangeReader Unit) =
      skipChars (varUintStaticSize n).toNat := by rw [skipVarUint, hn]
  have hready := CharRangeReader.between_ready [] (base128 (byteCount bs).toNat ++ [])
  have hskip := skipChars_charRange (varUintStaticSize n).toNat []
    (base128 (byteCount bs).toNat ++ []) 0
  have hrun := h _ [] hready
  rw [hfun] at hrun
  have heq := hskip.symm.trans hrun
  injection heq with _ hstate
  have hcurrent := congrArg CharRangeReader.current hstate
  rw [hsize] at hcurrent
  change ((0 : ℕ) : ℤ) + _ = ((0 : ℕ) : ℤ) + _ at hcurrent
  omega

/-! ## A member that has grown -/

namespace Grown

/-- `uint8_t`. -/
def octet : Ty (BitVec (8 * 1)) := .arith (.bits 1 Nat.one_pos)

/-- The old struct: one `uint8_t`, 4 bytes with its tag, length and end mark. -/
def oldInner : Ty (BitVec (8 * 1) × Unit) :=
  .taggedStruct (.refl _) (0, ()) (.cons 1 Members.one_ne_zero Members.one_not_mem_nil octet .nil)

/-- The new struct has a string as well. -/
def newInner : Ty (BitVec (8 * 1) × Buffer × Unit) :=
  .taggedStruct (.refl _) (0, ⟨[], by decide⟩, ())
    (.cons 1 Members.one_ne_zero Members.one_not_mem_two octet
      (.cons 2 Members.two_ne_zero Members.two_not_mem_nil (.contiguous 1 Nat.one_pos true) .nil))

/-- A struct with the old struct as a member. -/
def oldOuter : Ty ((BitVec (8 * 1) × Unit) × Unit) :=
  .taggedStruct (.refl _) ((0, ()), ()) (.cons 1 Members.one_ne_zero Members.one_not_mem_nil oldInner .nil)

/-- The same struct with the new one. -/
def newOuter : Ty ((BitVec (8 * 1) × Buffer × Unit) × Unit) :=
  .taggedStruct (.refl _) ((0, ⟨[], by decide⟩, ()), ())
    (.cons 1 Members.one_ne_zero Members.one_not_mem_nil newInner .nil)

/-- The writer is newer than the reader. -/
def evolves : Evolves newOuter oldOuter :=
  .taggedStruct _ _ _ _
    (.common _ _ .here
      (.taggedStruct _ _ _ _ (.common _ _ .here (.arith _) (.nil _)))
      (.nil _))

/-- A value with a string of `n` zeros. -/
def value (n : ℕ) (h : n ≤ maxElems 1) : (BitVec (8 * 1) × Buffer × Unit) × Unit :=
  ((5, ⟨List.replicate n 0, by rwa [List.length_replicate]⟩, ()), ())

end Grown

/-- The newer writer's member takes 139 bytes, so two bytes of length; the reader
    skips one of them, and takes the other for the tag of the first member. -/
theorem grown_not_compatible :
    ¬ Compatible ⟨true, 8⟩ Grown.evolves (Grown.value 130 (by decide)) := by
  intro h
  have hread := (h [] [] false).1
  have hmember := congrArg (fun r => match r with
    | .ok v _ => some v.1.1
    | .error _ _ => none) hread
  have hone : (match parse ⟨true, 8⟩ Grown.oldOuter (StdStream.between []
        (bytes Grown.newOuter (Grown.value 130 (by decide)) ++ []) false) with
      | .ok v _ => some v.1.1
      | .error _ _ => none) = some 1 := by decide +kernel
  rw [hone] at hmember
  have hne : (some 1 : Option (BitVec (8 * 1))) ≠ some 5 := by decide
  exact hne hmember

/-- A string of three zeros keeps the member below 128 bytes. -/
theorem grown_compatible :
    Compatible ⟨true, 8⟩ Grown.evolves (Grown.value 3 (by decide)) := by
  refine compatible_of_agrees _ _ _ ⟨⟨⟨⟨⟨⟨trivial, ?_⟩, trivial⟩, ?_⟩, ?_⟩, trivial⟩, ?_⟩
  · intro n hn
    rw [← Option.some_inj.mp hn]
    decide +kernel
  · decide +kernel
  · intro n hn
    rw [← Option.some_inj.mp hn]
    decide +kernel
  · decide +kernel

end BambooShoot.Pbss
