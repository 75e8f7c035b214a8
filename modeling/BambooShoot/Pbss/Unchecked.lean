import BambooShoot.Pbss.Relational

/-!
# Builds without range checks

With `NDEBUG`, `to_signed` (`misc.hh`, lines 58–68) is a plain cast: a length
above `2 ^ 63 - 1` becomes negative, where the other builds throw.

Result: `parse_unchecked`: as long as the check would not fail, both builds do
the same.
-/

namespace BambooShoot.Pbss

open BambooShoot.Lib

/-- What `to_signed` throws. -/
def signedRangeError : Exn := .outOfRange "Unsigned value too large to fit in signed type"

/-- The same library, built with `NDEBUG`. -/
def Build.unchecked (build : Build) : Build := { build with rangeChecks := false }

/-- The same library, built without `NDEBUG`. -/
def Build.checked (build : Build) : Build := { build with rangeChecks := true }

theorem Build.eq_checked_or_unchecked (build : Build) :
    build = build.checked ∨ build = build.unchecked := by
  cases h : build.rangeChecks with
  | true =>
    unfold Build.checked
    rw [← h]
    exact Or.inl rfl
  | false =>
    unfold Build.unchecked
    rw [← h]
    exact Or.inr rfl

section Unchecked

variable {σ : Type}

/-- `q` does what `p` does, unless a check of `p` fails; then it ends in a state
    with `B`, which it never loses. -/
structure SameUnless (B : σ → Prop) {α : Type} (p q : Run σ α) : Prop where
  same : ∀ s, q s = p s ∨ (∃ s', p s = .error (.throws signedRangeError) s') ∧ B (finalState (q s))
  keeps : ∀ s, B s → B (finalState (q s))

variable {B : σ → Prop} {α β : Type}

theorem SameUnless.refl {p : Run σ α} (h : ∀ s, B s → B (finalState (p s))) : SameUnless B p p :=
  ⟨fun _ => Or.inl rfl, h⟩

theorem SameUnless.bind {p q : Run σ α} {f g : α → Run σ β} (hpq : SameUnless B p q)
    (hfg : ∀ a, SameUnless B (f a) (g a)) : SameUnless B (p >>= f) (q >>= g) := by
  have hkeeps : ∀ s, B (finalState (q s)) → B (finalState ((q >>= g) s)) := by
    intro s hB
    cases hq : q s with
    | ok a s' =>
      rw [hq] at hB
      rw [bind_of_ok hq]
      exact (hfg a).keeps s' hB
    | error e s' =>
      rw [hq] at hB
      rw [bind_of_error hq]
      exact hB
  constructor
  · intro s
    rcases hpq.same s with heq | ⟨⟨s', hp⟩, hB⟩
    · cases hp : p s with
      | ok a s' =>
        rw [bind_of_ok hp, bind_of_ok (heq.trans hp)]
        exact (hfg a).same s'
      | error e s' =>
        rw [bind_of_error hp, bind_of_error (heq.trans hp)]
        exact Or.inl rfl
    · exact Or.inr ⟨⟨s', bind_of_error hp⟩, hkeeps s hB⟩
  · intro s hB
    exact hkeeps s (hpq.keeps s hB)

/-- A property of streams that no call loses and that moving back gives. -/
structure Backward [InputStream σ] (B : σ → Prop) : Prop where
  get : ∀ s, B s → B (finalState (InputStream.get s))
  read : ∀ (n : ℕ) s, B s → B (finalState (InputStream.read (n : ℤ) s))
  ignore : ∀ (n : ℤ) s, B s → B (finalState (InputStream.ignore n s))
  back : ∀ n < (0 : ℤ), ∀ s, B (finalState (InputStream.ignore n s))

variable [InputStream σ] (hB : Backward B) (build : Build)

include hB

theorem sameUnless_ignoreLength (length : SizeT) :
    SameUnless B (ignoreLength build.checked length : Run σ Unit)
      (ignoreLength build.unchecked length) := by
  have hcast : (ignoreLength build.unchecked length : Run σ Unit) =
      InputStream.ignore length.toInt := by
    unfold ignoreLength toSigned Build.unchecked
    rw [if_neg (by simp), pure_bind]
  rw [hcast]
  by_cases hlarge : 2 ^ 63 - 1 < length.toNat
  · have hneg : length.toInt < 0 := by
      rw [BitVec.toInt_eq_toNat_bmod, Int.bmod]
      have hlt := length.isLt
      omega
    refine ⟨fun s => Or.inr ⟨⟨s, ?_⟩, hB.back _ hneg s⟩, fun s _ => hB.back _ hneg s⟩
    unfold ignoreLength toSigned Build.checked
    rw [if_pos ⟨rfl, hlarge⟩]
    rfl
  · have hsame : (ignoreLength build.checked length : Run σ Unit) =
        InputStream.ignore length.toInt := by
      unfold ignoreLength toSigned
      rw [if_neg (fun h => hlarge h.2), pure_bind]
    rw [hsame]
    exact SameUnless.refl fun s => hB.ignore _ s

theorem respects_unchecked : Respects build.checked build.unchecked
    (fun _ _ {_} (p q : Run σ _) => SameUnless B p q) where
  sameThreshold := rfl
  of_any h := h
  to_any h := h
  pure _ := SameUnless.refl fun _ h => h
  bind := SameUnless.bind
  undefined := SameUnless.refl fun _ h => h
  lengthError := SameUnless.refl fun _ h => h
  outOfFuel := SameUnless.refl fun _ h => h
  byte := by
    have hget : SameUnless B (InputStream.get : Run σ _) InputStream.get :=
      SameUnless.refl hB.get
    apply hget.bind
    intro c
    cases c with
    | none => exact SameUnless.refl fun _ h => h
    | some c => exact SameUnless.refl fun _ h => h
  read n := by
    have hread : SameUnless B (InputStream.read (n : ℤ) : Run σ _) (InputStream.read (n : ℤ)) :=
      SameUnless.refl (hB.read n)
    apply hread.bind
    intro got
    have heof : SameUnless B (eofOf : Run σ Bool) eofOf := SameUnless.refl fun _ h => h
    apply heof.bind
    intro eof
    split_ifs
    · exact SameUnless.refl fun _ h => h
    · exact SameUnless.refl fun _ h => h
  get := SameUnless.refl hB.get
  ignore := sameUnless_ignoreLength hB build

end Unchecked

/-- Unless the check of a length fails, a build without checks does the same. -/
theorem parse_unchecked {σ : Type} [InputStream σ] (build : Build) (fuel : ℕ) {α : Type} (s : Ty α)
    (stream : σ) :
    Fuel.parse build.unchecked fuel s stream = Fuel.parse build.checked fuel s stream ∨
      ∃ stream', Fuel.parse build.checked fuel s stream =
        .error (.throws signedRangeError) stream' := by
  have hB : Backward fun _ : σ => True :=
    ⟨fun _ _ => trivial, fun _ _ _ => trivial, fun _ _ _ => trivial, fun _ _ _ => trivial⟩
  exact ((related_parse (respects_unchecked hB build) fuel s).same stream).imp_right And.left

end BambooShoot.Pbss
