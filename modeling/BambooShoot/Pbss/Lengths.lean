import BambooShoot.Pbss.Decode
import BambooShoot.Pbss.Unchecked

/-!
# What the input asks of `parse`

`Fits` follows `parse` over its input and says that the numbers in it can be
shifted into place, that the lengths of arrays are those of their types and, for
a build without range checks, that the lengths of the fields nobody knows fit a
`std::streamsize`. On a `char_range_reader` this is exactly when a run with range
checks comes neither to undefined behaviour nor, where the build leaves the check
of `to_signed` out, to what that check throws: `passes_parse`.
-/

namespace BambooShoot.Pbss

open BambooShoot.Lib

/-! ## Numbers and lengths in the input -/

section Input

variable {σ : Type} [InputStream σ]

/-- `Q` holds of what `p` returns, if it returns. -/
def After {α : Type} (p : Run σ α) (Q : α → σ → Prop) (s : σ) : Prop :=
  ∀ a s', p s = .ok a s' → Q a s'

/-- `P` holds in front of each of `n` elements. -/
def ElementsFit {α : Type} (P : σ → Prop) (parseElem : Run σ α) : ℕ → σ → Prop
  | 0, _ => True
  | n + 1, s => P s ∧ After parseElem (fun _ => ElementsFit P parseElem n) s

/-- `check` holds behind the tag of every field that the loop of
    `parse_custom_struct` meets. -/
def FieldsFit {τ : Type} (check : Byte → σ → Prop) (parseMember : Byte → τ → Run σ τ) :
    ℕ → τ → σ → Prop
  | 0, _, _ => True
  | rounds + 1, obj, s =>
    After parseByte (fun id s' => id ≠ 0 →
      check id s' ∧ After (parseMember id obj) (FieldsFit check parseMember rounds) s') s

variable [ForwardInputStream σ] [LawfulInputStream σ]

/-- The number at `s` has at most as many bytes as `read_var_uint` can shift into
    a promoted operand of `max w 32` bits. -/
def NumberFits (w : ℕ) (s : σ) : Prop :=
  ∀ bs, Source.Ready s bs → 7 * ((bytesRead bs).length - 1) < max w 32

variable (build : Build) (fuel : ℕ)

/-- The size at `s` can be read, and `P` holds behind it. -/
def SizedFits (P : SizeT → σ → Prop) (s : σ) : Prop :=
  NumberFits 64 s ∧ After (readVarUint fuel 64) P s

/-- The length of the field nobody knows at `s` can be read, and the build checks
    its range or it is at most `2 ^ 63 - 1`. -/
def UnknownFits (s : σ) : Prop :=
  SizedFits fuel (fun length _ => build.rangeChecks = true ∨ length.toNat ≤ 2 ^ 63 - 1) s

/-- The elements of an array of `n` fit, at most one behind the last; and if they
    are all there, they are as many as the array has. Fewer will do if the
    elements are initialised. -/
def ArrayFits {α : Type} (P : σ → Prop) (parseElem : Run σ α) (n : ℕ) (initialised : Bool)
    (size : SizeT) (s : σ) : Prop :=
  ElementsFit P parseElem (min size.toNat (n + 1)) s ∧
    After (parseN parseElem (min size.toNat (n + 1)))
      (fun _ _ => size.toNat = n ∨ size.toNat < n ∧ initialised = true) s

mutual

/-- In parsing a value, with range checks, every number that is met can be read,
    every array has the length of its type, and every field that no struct knows
    has a length that the build can skip. -/
def Fits : {α : Type} → Ty α → σ → Prop
  | _, .arith _, _ => True
  | _, .enum _ _ _ _, _ => True
  | _, .varUint w _, s => NumberFits w s
  | _, .stdTuple _ ms, s => TupleFits ms s
  | _, .tupleStruct _ ms, s => TupleFits ms s
  | _, .contiguous _ _ _, s => NumberFits 64 s
  | _, .sequence m _ reserve t, s =>
    SizedFits fuel (fun size => ElementsFit (Fits t) (Fuel.parse build.checked fuel t)
      (if size.toNat ≤ m then size.toNat else if reserve then 0 else m + 1)) s
  | _, .ordered _ _ t, s =>
    SizedFits fuel (fun size => ElementsFit (Fits t) (Fuel.parse build.checked fuel t)
      size.toNat) s
  | _, .array n _ init t, s =>
    SizedFits fuel (ArrayFits (Fits t) (Fuel.parse build.checked fuel t) n init.isSome) s
  | _, .taggedStruct e init ms, s =>
    if ms.tags.length > build.optimisticThreshold then
      OptimisticFits ms (e init) s ∧
        After (Fuel.parseCustomStructOptimistic build.checked fuel ms (e init))
          (fun (obj, id) s' => id ≠ 0 → MemberFits ms id s' ∧
            After (Fuel.parseCustomStructMember build.checked fuel ms id obj)
              (FieldsFit (MemberFits ms) (Fuel.parseCustomStructMember build.checked fuel ms)
                fuel) s') s
    else
      FieldsFit (MemberFits ms) (Fuel.parseCustomStructMember build.checked fuel ms) fuel
        (e init) s

def TupleFits : {τ : Type} → Tuple τ → σ → Prop
  | _, .nil, _ => True
  | _, .cons t ms, s =>
    Fits t s ∧ After (Fuel.parse build.checked fuel t) (fun _ => TupleFits ms) s

/-- The same for the field behind a tag. -/
def MemberFits : {tags : List Byte} → {τ : Type} → Members tags τ → Byte → σ → Prop
  | _, _, .nil, _, s => UnknownFits build fuel s
  | _, _, .cons typeId _ _ t ms, id, s =>
    if id = typeId then After (skipVarUint fuel t) (fun _ => Fits t) s
    else MemberFits ms id s

/-- The same for the positional pass. -/
def OptimisticFits : {tags : List Byte} → {τ : Type} → Members tags τ → τ → σ → Prop
  | _, _, .nil, obj, s =>
    FieldsFit (fun _ => UnknownFits build fuel)
      (fun _ obj => do skipMember build.checked fuel; pure obj) fuel obj s
  | _, _, .cons typeId _ _ t ms, obj, s =>
    After parseByte (fun id s1 => id = typeId →
      After (skipVarUint fuel t) (fun _ s2 => Fits t s2 ∧
        After (Fuel.parse build.checked fuel t) (fun _ => OptimisticFits ms obj.2) s2) s1) s

end

end Input

/-! ## Stops that are not allowed -/

section Passes

variable {σ α β : Type}

/-- `p` does not stop in a way that is `bad`. -/
def Passes (bad : Stop → Prop) (p : Run σ α) (s : σ) : Prop :=
  ∀ e s', p s = .error e s' → ¬ bad e

variable {bad : Stop → Prop}

theorem passes_pure (a : α) (s : σ) : Passes bad (pure a) s := nofun

theorem passes_of_ok {p : Run σ α} {s s' : σ} {a : α} (h : p s = .ok a s') : Passes bad p s := by
  intro e t ht
  cases h.symm.trans ht

theorem passes_of_error {p : Run σ α} {s s' : σ} {e : Stop} (h : p s = .error e s') :
    Passes bad p s ↔ ¬ bad e := by
  constructor
  · exact fun hpass => hpass e s' h
  · intro he e' t ht
    cases h.symm.trans ht
    exact he

theorem not_passes_of_outcome {p : Run σ α} {s : σ} {e : Stop} (h : outcome (p s) = .error e)
    (he : bad e) : ¬ Passes bad p s := by
  cases hp : p s with
  | ok a s' =>
    rw [hp] at h
    cases h
  | error e' s' =>
    rw [hp] at h
    cases h
    exact fun hpass => hpass _ s' hp he

theorem passes_bind {p : Run σ α} {f : α → Run σ β} {s : σ} :
    Passes bad (p >>= f) s ↔ Passes bad p s ∧ After p (fun a => Passes bad (f a)) s := by
  constructor
  · intro h
    constructor
    · exact fun e s' hp => h e s' (bind_of_error hp)
    · exact fun a s' hp e t hf => h e t ((bind_of_ok hp).trans hf)
  · rintro ⟨hpass, hafter⟩ e t h
    cases hp : p s with
    | ok a s' => exact hafter a s' hp e t ((bind_of_ok hp).symm.trans h)
    | error e' s' =>
      rw [bind_of_error hp] at h
      cases h
      exact hpass _ _ hp

/-- A first step that is allowed. -/
theorem passes_bind_of {p : Run σ α} {f : α → Run σ β} {s : σ} (hp : Passes bad p s) :
    Passes bad (p >>= f) s ↔ After p (fun a => Passes bad (f a)) s := by
  rw [passes_bind]
  exact and_iff_right hp

/-- A last step that is allowed. -/
theorem passes_bind_last {p : Run σ α} {f : α → Run σ β} (hf : ∀ a s, Passes bad (f a) s) {s : σ} :
    Passes bad (p >>= f) s ↔ Passes bad p s := by
  rw [passes_bind]
  exact and_iff_left fun a s' _ => hf a s'

theorem after_congr {p : Run σ α} {Q Q' : α → σ → Prop} {s : σ}
    (h : ∀ a s', p s = .ok a s' → (Q a s' ↔ Q' a s')) : After p Q s ↔ After p Q' s :=
  forall_congr' fun a => forall_congr' fun s' => forall_congr' fun hp => h a s' hp

/-- `p` does not lose `G`, also when it fails. -/
def Keeps (G : σ → Prop) (p : Run σ α) : Prop := ∀ s, G s → G (finalState (p s))

theorem Keeps.ok {G : σ → Prop} {p : Run σ α} (h : Keeps G p) {s s' : σ} {a : α} (hs : G s)
    (hp : p s = .ok a s') : G s' := by
  have hG := h s hs
  rwa [hp] at hG

theorem Keeps.bind {G : σ → Prop} {p : Run σ α} {f : α → Run σ β} (hp : Keeps G p)
    (hf : ∀ a, Keeps G (f a)) : Keeps G (p >>= f) := by
  intro s hs
  cases hps : p s with
  | ok a s' =>
    rw [bind_of_ok hps]
    exact hf a s' (hp.ok hs hps)
  | error e s' =>
    have hG := hp s hs
    rw [hps] at hG
    rw [bind_of_error hps]
    exact hG

theorem passes_parseN {G P : σ → Prop} {p : Run σ α} (hkeeps : Keeps G p)
    (h : ∀ s, G s → (Passes bad p s ↔ P s)) (n : ℕ) {s : σ} (hs : G s) :
    Passes bad (parseN p n) s ↔ ElementsFit P p n s := by
  induction n generalizing s with
  | zero => exact iff_of_true (passes_pure _ s) trivial
  | succ n ih =>
    unfold parseN ElementsFit
    rw [passes_bind, h s hs]
    apply and_congr_right'
    apply after_congr
    intro x s' hx
    rw [passes_bind_last fun l => passes_pure _, ih (hkeeps.ok hs hx)]

end Passes

section Calls

variable {σ : Type} [InputStream σ]

/-- The calls of the stream do not stop in a way that is `bad`. -/
structure CallsPass (bad : Stop → Prop) (σ : Type) [InputStream σ] : Prop where
  get : ∀ s : σ, Passes bad InputStream.get s
  read : ∀ (n : ℕ) (s : σ), Passes bad (InputStream.read (n : ℤ)) s
  ignore : ∀ (n : ℤ) (s : σ), Passes bad (InputStream.ignore n) s

/-- Without the check, nothing throws what it throws. -/
theorem respects_passes (hcalls : CallsPass (· = .throws signedRangeError) σ) (build : Build) :
    Respects build.unchecked build.unchecked
      (fun _ _ {_} (p _ : Run σ _) => ∀ s, Passes (· = .throws signedRangeError) p s) where
  sameThreshold := rfl
  of_any h := h
  to_any h := h
  pure := passes_pure
  bind hp hf s := (passes_bind_of (hp s)).mpr fun a s' _ => hf a s'
  undefined s := (passes_of_error (undefined_run s)).mpr nofun
  lengthError s := (passes_of_error (raise_run _ s)).mpr nofun
  outOfFuel _ _ _ h := by cases h; exact nofun
  byte := by
    intro s
    refine (passes_bind_of (hcalls.get s)).mpr fun c s' _ => ?_
    cases c with
    | none => exact (passes_of_error (raise_run _ s')).mpr nofun
    | some c => exact passes_pure c s'
  read := by
    intro n s
    refine (passes_bind_of (hcalls.read n s)).mpr fun got s' _ => ?_
    refine (passes_bind_of (passes_of_ok (eofOf_run s'))).mpr fun eof s'' _ => ?_
    cases eof with
    | true => exact (passes_of_error (raise_run _ s'')).mpr nofun
    | false => exact passes_pure got s''
  get := hcalls.get
  ignore := by
    intro length s
    unfold ignoreLength toSigned Build.unchecked
    rw [if_neg (by simp), pure_bind]
    exact hcalls.ignore _ s

/-- With the check, what the calls keep `parse` keeps. -/
theorem respects_keeps {build : Build} (hbuild : build.rangeChecks = true) {G : σ → Prop}
    (hget : Keeps G InputStream.get) (hread : ∀ n : ℕ, Keeps G (InputStream.read (n : ℤ)))
    (hignore : ∀ n : ℕ, Keeps G (InputStream.ignore (n : ℤ))) :
    Respects build build (fun _ _ {_} (p _ : Run σ _) => Keeps G p) where
  sameThreshold := rfl
  of_any h := h
  to_any h := h
  pure _ _ h := h
  bind := Keeps.bind
  undefined _ h := h
  lengthError _ h := h
  outOfFuel _ h := h
  byte := by
    apply hget.bind
    intro c s h
    cases c with
    | none => exact h
    | some c => exact h
  read := by
    intro n
    apply (hread n).bind
    intro got s h
    cases heof : InputStream.eof s with
    | true =>
      rw [eofOf_bind heof]
      exact h
    | false =>
      rw [bind_of_ok (eofOf_run s), heof]
      exact h
  get := hget
  ignore := by
    intro length s h
    unfold ignoreLength toSigned
    by_cases hlarge : 2 ^ 63 - 1 < length.toNat
    · rw [if_pos ⟨hbuild, hlarge⟩]
      exact h
    · have hnat : length.toInt = (length.toNat : ℤ) := BitVec.toInt_eq_toNat_of_lt (by omega)
      rw [if_neg fun hc => hlarge hc.2, pure_bind, hnat]
      exact hignore length.toNat s h

end Calls

/-! ## The checked run on a `char_range_reader` -/

/-- What a run of `build` must not come to: undefined behaviour, or the exception
    of a check that the build leaves out. -/
def Build.Fatal (build : Build) (e : Stop) : Prop :=
  e = .undefinedBehaviour ∨ build.rangeChecks = false ∧ e = .throws signedRangeError

namespace CharRangeReader

/-- The cursor is not before the range, and a loop of `fuel` rounds gets behind
    its end. -/
structure InRange (fuel : ℕ) (r : CharRangeReader) : Prop where
  nonneg : 0 ≤ r.current
  length_lt : r.buffer.length < fuel

theorem InRange.move {fuel : ℕ} {r : CharRangeReader} (h : InRange fuel r) (n : ℕ) :
    InRange fuel { r with current := r.current + n } :=
  ⟨by have := h.nonneg; dsimp only; omega, h.length_lt⟩

theorem get_eq {r : CharRangeReader} (h : 0 ≤ r.current) :
    (InputStream.get r : EStateM.Result Stop _ _) =
      .ok (if r.current + 1 > r.buffer.length then none else r.buffer[r.current.toNat]?)
        { r with current := r.current + 1 } := by
  show CharRangeReader.get r = _
  unfold CharRangeReader.get
  dsimp only
  split_ifs with hend hneg
  · rfl
  · omega
  · rfl

theorem read_eq {r : CharRangeReader} (h : 0 ≤ r.current) (n : ℕ) :
    (InputStream.read (n : ℤ) r : EStateM.Result Stop _ _) =
      .ok (if r.current + n > r.buffer.length then []
        else (r.buffer.drop r.current.toNat).take n) { r with current := r.current + n } := by
  show CharRangeReader.read n r = _
  unfold CharRangeReader.read
  dsimp only
  split_ifs with hend hneg
  · rfl
  · omega
  · rw [Int.toNat_natCast]

/-- A `read` with its test of `eof()` gets all bytes or throws. -/
theorem readOrThrow_eq {r : CharRangeReader} (h : 0 ≤ r.current) (n : ℕ) :
    readOrThrow n r =
      if r.current + n > r.buffer.length then
        .error (.throws .earlyEofError) { r with current := r.current + n }
      else .ok ((r.buffer.drop r.current.toNat).take n) { r with current := r.current + n } := by
  have heof : InputStream.eof ({ r with current := r.current + n } : CharRangeReader) =
      decide (r.current + n > r.buffer.length) := rfl
  unfold readOrThrow
  rw [bind_of_ok (read_eq h n), bind_of_ok (eofOf_run _), heof]
  by_cases hend : r.current + n > r.buffer.length
  · rw [if_pos hend, if_pos hend, decide_eq_true hend]
    rfl
  · rw [if_neg hend, if_neg hend, decide_eq_false hend]
    rfl

theorem respects_inRange (build : Build) (fuel : ℕ) : Respects build.checked build.checked
    (fun _ _ {_} (p _ : Run CharRangeReader _) => Keeps (InRange fuel) p) := by
  have hchecks : build.checked.rangeChecks = true := rfl
  apply respects_keeps hchecks
  · intro r h
    rw [get_eq h.nonneg]
    exact h.move 1
  · intro n r h
    rw [read_eq h.nonneg]
    exact h.move n
  · intro n r h
    exact h.move n

end CharRangeReader

section Checked

open CharRangeReader

variable {α : Type} (build : Build) {fuel : ℕ} {r : CharRangeReader}

theorem keeps_parse (t : Ty α) : Keeps (InRange fuel) (Fuel.parse build.checked fuel t) :=
  related_parse (respects_inRange build fuel) fuel t

theorem keeps_readVarUint (w : ℕ) : Keeps (InRange fuel) (readVarUint fuel w) :=
  related_readVarUint (respects_inRange ⟨true, 0⟩ fuel) fuel w

theorem keeps_parseByte : Keeps (InRange fuel) parseByte :=
  (respects_inRange ⟨true, 0⟩ fuel).byte

theorem keeps_skipVarUint (t : Ty α) : Keeps (InRange fuel) (skipVarUint fuel t) := by
  have hrespects := respects_inRange ⟨true, 0⟩ fuel
  unfold skipVarUint
  cases fixedSize t with
  | some n => exact related_skipChars hrespects _
  | none => exact related_skipVarUintLoop hrespects fuel

theorem not_fatal_earlyEofError : ¬ build.Fatal (.throws .earlyEofError) := by
  rintro (h | ⟨-, h⟩) <;> cases h

theorem not_fatal_lengthError : ¬ build.Fatal (.throws .lengthError) := by
  rintro (h | ⟨-, h⟩) <;> cases h

theorem not_fatal_outOfFuel : ¬ build.Fatal .outOfFuel := by
  rintro (h | ⟨-, h⟩) <;> cases h

/-! ## Primitives -/

theorem passes_get (h : InRange fuel r) : Passes build.Fatal InputStream.get r :=
  passes_of_ok (get_eq h.nonneg)

theorem passes_parseByte (h : InRange fuel r) : Passes build.Fatal parseByte r := by
  refine (passes_bind_of (passes_get build h)).mpr fun c r' _ => ?_
  cases c with
  | none => exact (passes_of_error (raise_run _ r')).mpr (not_fatal_earlyEofError build)
  | some c => exact passes_pure c r'

/-- What comes behind a `read` need only be allowed for as many bytes as were asked for. -/
theorem passes_readOrThrow {β : Type} {f : List Byte → Run CharRangeReader β} {n : ℕ}
    (h : 0 ≤ r.current) (hf : ∀ got r', got.length = n → Passes build.Fatal (f got) r') :
    Passes build.Fatal (readOrThrow n >>= f) r := by
  by_cases hend : r.current + n > r.buffer.length
  · have herror := readOrThrow_eq h n
    rw [if_pos hend] at herror
    exact (passes_of_error (bind_of_error herror)).mpr (not_fatal_earlyEofError build)
  · have hok := readOrThrow_eq h n
    rw [if_neg hend] at hok
    refine (passes_bind_of (passes_of_ok hok)).mpr fun got r' hgot => hf got r' ?_
    cases hok.symm.trans hgot
    rw [List.length_take, List.length_drop]
    omega

theorem passes_readPrim (p : Arith α) (h : InRange fuel r) : Passes build.Fatal (readPrim p) r := by
  by_cases hp : p.size = 1
  · unfold readPrim
    rw [if_pos hp]
    exact (passes_bind_of (passes_parseByte build h)).mpr fun c r' _ => passes_pure _ r'
  · rw [readPrim_eq p hp]
    refine passes_readOrThrow build h.nonneg fun got r' hlen => ?_
    rw [if_pos hlen]
    exact passes_pure _ r'

theorem passes_parseElemsBulk (k : ℕ) (valueInit : Bool) (size : SizeT) (h : InRange fuel r) :
    Passes build.Fatal (parseElemsBulk k valueInit size) r := by
  by_cases hsize : size.toNat ≤ maxElems k
  · rw [parseElemsBulk_eq k valueInit hsize]
    refine passes_readOrThrow build h.nonneg fun got r' hlen => ?_
    rw [if_pos (Or.inl hlen)]
    exact passes_pure _ r'
  · unfold parseElemsBulk
    rw [dif_neg hsize]
    exact (passes_of_error (raise_run _ r)).mpr (not_fatal_lengthError build)

theorem passes_skipChars (n : ℕ) (h : InRange fuel r) : Passes build.Fatal (skipChars n) r := by
  induction n generalizing r with
  | zero => exact passes_pure () r
  | succ n ih =>
    refine (passes_bind_of (passes_get build h)).mpr fun c r' hget => ih ?_
    cases (get_eq h.nonneg).symm.trans hget
    exact h.move 1

theorem passes_skipVarUintLoop (rounds : ℕ) (h : InRange fuel r) :
    Passes build.Fatal (skipVarUintLoop rounds) r := by
  induction rounds generalizing r with
  | zero => exact (passes_of_error rfl).mpr (not_fatal_outOfFuel build)
  | succ rounds ih =>
    rw [skipVarUintLoop_eq]
    refine (passes_bind_of (passes_parseByte build h)).mpr fun c r' hbyte => ?_
    beta_reduce
    split_ifs
    · exact ih (keeps_parseByte.ok h hbyte)
    · exact passes_pure () r'

theorem passes_skipVarUint (t : Ty α) (h : InRange fuel r) :
    Passes build.Fatal (skipVarUint fuel t) r := by
  unfold skipVarUint
  cases fixedSize t with
  | some n => exact passes_skipChars build _ h
  | none => exact passes_skipVarUintLoop build fuel h

/-! ## Numbers and lengths -/

/-- The bytes left decide whether a number is read, throws, or is shifted by too much. -/
theorem passes_readVarUint (w : ℕ) (h : InRange fuel r) :
    Passes build.Fatal (readVarUint fuel w) r ↔ NumberFits w r := by
  obtain ⟨rounds, rfl⟩ : ∃ k, fuel = k + 1 := ⟨fuel - 1, by have := h.length_lt; omega⟩
  by_cases hend : r.current ≤ r.buffer.length
  · have hready : Source.Ready r (r.buffer.drop r.current.toNat) := by
      have hnonneg := h.nonneg
      exact ⟨r.current.toNat, by omega, by omega, rfl⟩
    have hfits : NumberFits w r ↔ ShiftsDefined w 0 (r.buffer.drop r.current.toNat) := by
      rw [shiftsDefined_zero_iff]
      constructor
      · exact fun hnumber => hnumber _ hready
      · rintro hnumber bs ⟨k, hk, -, rfl⟩
        rwa [hk, Int.toNat_natCast] at hnumber
    have hfuel : (r.buffer.drop r.current.toNat).length < rounds + 1 := by
      have hlt := h.length_lt
      rw [List.length_drop]
      omega
    rw [hfits]
    constructor
    · intro hpass
      by_contra hdefined
      obtain ⟨r', hread⟩ := readVarUintLoop_undefined (w := w) (a := 0) hready (by norm_num) hfuel
        hdefined
      exact hpass _ r' hread (Or.inl rfl)
    · intro hdefined
      cases hp : encodedPart (r.buffer.drop r.current.toNat) with
      | some p =>
        have hle := (encodedPart_length_le hp).trans hfuel.le
        exact passes_of_ok (readVarUintLoop_ok (a := 0) hready hp (by norm_num) hle hdefined)
      | none =>
        obtain ⟨r', hread⟩ := readVarUintLoop_end (a := 0) hready hp (by norm_num) hfuel hdefined
        exact (passes_of_error hread).mpr (not_fatal_earlyEofError build)
  · -- behind the end `get` returns nothing
    have hnone : (parseByte : Run CharRangeReader Byte) r =
        .error (.throws .earlyEofError) { r with current := r.current + 1 } := by
      have hget := get_eq h.nonneg
      rw [if_pos (by omega)] at hget
      exact bind_of_ok hget
    refine iff_of_true ?_ ?_
    · unfold readVarUint
      rw [readVarUintLoop_eq]
      exact (passes_of_error (bind_of_error hnone)).mpr (not_fatal_earlyEofError build)
    · rintro bs ⟨k, hk, hle, -⟩
      omega

/-- What comes behind a size. -/
theorem passes_sized {γ : Type} {parseRest : SizeT → Run CharRangeReader γ}
    {P : SizeT → CharRangeReader → Prop}
    (hrest : ∀ size r, InRange fuel r → (Passes build.Fatal (parseRest size) r ↔ P size r))
    (h : InRange fuel r) :
    Passes build.Fatal (readVarUint fuel 64 >>= parseRest) r ↔ SizedFits fuel P r := by
  rw [passes_bind, passes_readVarUint build 64 h]
  apply and_congr_right'
  exact after_congr fun size r' hsize => hrest size r' ((keeps_readVarUint 64).ok h hsize)

theorem passes_skipMember (h : InRange fuel r) :
    Passes build.Fatal (skipMember build.checked fuel) r ↔ UnknownFits build fuel r := by
  rw [skipMember_eq]
  refine passes_sized build (fun length r' _ => ?_) h
  unfold ignoreLength toSigned
  by_cases hlarge : 2 ^ 63 - 1 < length.toNat
  · rw [if_pos ⟨rfl, hlarge⟩, passes_of_error (bind_of_error (raise_run _ r'))]
    cases hchecks : build.rangeChecks with
    | true =>
      refine iff_of_true ?_ (Or.inl rfl)
      rintro (hfatal | ⟨hfalse, -⟩)
      · cases hfatal
      · exact absurd (hchecks.symm.trans hfalse) (by decide)
    | false =>
      refine iff_of_false (fun hfatal => hfatal (Or.inr ⟨hchecks, rfl⟩)) ?_
      rintro (hfalse | hle)
      · cases hfalse
      · omega
  · rw [if_neg fun hc => hlarge hc.2, pure_bind]
    exact iff_of_true (passes_of_ok rfl) (Or.inr (Nat.le_of_not_lt hlarge))

/-! ## Containers -/

section Elements

variable {P : CharRangeReader → Prop} {p : Run CharRangeReader α} (hkeeps : Keeps (InRange fuel) p)
  (hp : ∀ r, InRange fuel r → (Passes build.Fatal p r ↔ P r))

include hkeeps hp

theorem passes_parseElems (m : ℕ) (reserve : Bool) (size : SizeT) (h : InRange fuel r) :
    Passes build.Fatal (parseElems m reserve p size) r ↔
      ElementsFit P p (if size.toNat ≤ m then size.toNat else if reserve then 0 else m + 1) r := by
  have hlength : ∀ {γ : Type} (r : CharRangeReader),
      Passes build.Fatal (raise .lengthError : Run CharRangeReader γ) r :=
    fun r => (passes_of_error (raise_run _ r)).mpr (not_fatal_lengthError build)
  unfold parseElems
  split_ifs
  · rw [passes_bind_last fun l => passes_pure _, passes_parseN hkeeps hp _ h]
  · exact iff_of_true (hlength r) trivial
  · rw [passes_bind_last fun _ => hlength, passes_parseN hkeeps hp _ h]

theorem passes_parseArray (n : ℕ) (init : Option α) (size : SizeT) (h : InRange fuel r) :
    Passes build.Fatal (parseArray n init p size) r ↔ ArrayFits P p n init.isSome size r := by
  have hundefined : ∀ {γ : Type} (r : CharRangeReader),
      ¬ Passes build.Fatal (undefined : Run CharRangeReader γ) r :=
    fun r hpass => hpass _ r (undefined_run r) (Or.inl rfl)
  unfold parseArray ArrayFits
  by_cases hle : size.toNat ≤ n
  · rw [if_pos hle, Nat.min_eq_left (by omega), passes_bind, passes_parseN hkeeps hp _ h]
    apply and_congr_right'
    apply after_congr
    intro l r' _
    have hlen := l.2
    unfold fillArray
    rcases Nat.eq_or_lt_of_le hle with heq | hlt
    · rw [dif_pos (by omega)]
      exact iff_of_true (passes_pure _ r') (Or.inl heq)
    · rw [dif_neg (by omega)]
      cases init with
      | none => exact iff_of_false (hundefined r') (by simp; omega)
      | some x => exact iff_of_true (passes_pure _ r') (Or.inr ⟨hlt, rfl⟩)
  · rw [if_neg hle, Nat.min_eq_right (by omega), passes_bind, passes_parseN hkeeps hp _ h]
    apply and_congr_right'
    exact after_congr fun l r' _ => iff_of_false (hundefined r') (by omega)

end Elements

theorem passes_parseCustomStruct {τ : Type} {parseMember : Byte → τ → Run CharRangeReader τ}
    {check : Byte → CharRangeReader → Prop}
    (hkeeps : ∀ id obj, Keeps (InRange fuel) (parseMember id obj))
    (hmember : ∀ id obj r, InRange fuel r →
      (Passes build.Fatal (parseMember id obj) r ↔ check id r))
    (rounds : ℕ) (obj : τ) (h : InRange fuel r) :
    Passes build.Fatal (parseCustomStruct parseMember rounds obj) r ↔
      FieldsFit check parseMember rounds obj r := by
  induction rounds generalizing obj r with
  | zero => exact iff_of_true ((passes_of_error rfl).mpr (not_fatal_outOfFuel build)) trivial
  | succ rounds ih =>
    unfold parseCustomStruct FieldsFit
    rw [passes_bind_of (passes_parseByte build h)]
    apply after_congr
    intro id r' hid
    have h' := keeps_parseByte.ok h hid
    by_cases hzero : id = 0
    · rw [if_pos hzero]
      exact iff_of_true (passes_pure obj r') fun hne => absurd hzero hne
    · rw [if_neg hzero, passes_bind, hmember id obj r' h', imp_iff_right hzero]
      apply and_congr_right'
      exact after_congr fun obj' r'' hobj => ih obj' ((hkeeps id obj).ok h' hobj)

/-! ## Values -/

section Members

variable {tags : List Byte} {τ : Type} (ms : Members tags τ)

theorem keeps_parseCustomStructMember (id : Byte) (obj : τ) :
    Keeps (InRange fuel) (Fuel.parseCustomStructMember build.checked fuel ms id obj) :=
  related_member (respects_inRange build fuel) fuel ms id obj

theorem keeps_skipMember (obj : τ) : Keeps (InRange fuel)
    (do skipMember build.checked fuel; pure obj : Run CharRangeReader τ) :=
  Keeps.bind (related_skipMember (respects_inRange build fuel) fuel)
    fun _ _ hr => hr

theorem keeps_parseCustomStructOptimistic (obj : τ) :
    Keeps (InRange fuel) (Fuel.parseCustomStructOptimistic build.checked fuel ms obj) :=
  related_optimistic (respects_inRange build fuel) fuel ms obj

end Members

end Checked

section Values

open CharRangeReader

variable (build : Build) {fuel : ℕ}

mutual

/-- The checked run is allowed exactly where the input fits, by induction on the type. -/
theorem passes_parse : {α : Type} → (t : Ty α) → (r : CharRangeReader) → InRange fuel r →
    (Passes build.Fatal (Fuel.parse build.checked fuel t) r ↔ Fits build fuel t r)
  | _, .arith p, r, h => by
    unfold Fits
    exact iff_of_true (passes_readPrim build p h) trivial
  | _, .enum p _ _ _, r, h => by
    unfold Fits
    exact iff_of_true ((passes_bind_last fun _ => passes_pure _).mpr (passes_readPrim build p h))
      trivial
  | _, .varUint w _, r, h => by
    unfold Fits
    exact passes_readVarUint build w h
  | _, .contiguous k _ valueInit, r, h => by
    unfold Fuel.parse Fits
    rw [passes_bind, passes_readVarUint build 64 h]
    refine and_iff_left fun size r' hsize => ?_
    exact passes_parseElemsBulk build k valueInit size ((keeps_readVarUint 64).ok h hsize)
  | _, .stdTuple _ ms, r, h => by
    unfold Fuel.parse Fits
    rw [passes_bind_last fun _ => passes_pure _, passes_readTuple ms r h]
  | _, .tupleStruct _ ms, r, h => by
    unfold Fuel.parse Fits
    rw [passes_bind_last fun _ => passes_pure _, passes_readTuple ms r h]
  | _, .sequence m _ reserve t, r, h => by
    unfold Fuel.parse Fits
    exact passes_sized build (fun size _ hr =>
      passes_parseElems build (keeps_parse build t) (passes_parse t) m reserve size hr) h
  | _, .ordered _ _ t, r, h => by
    unfold Fuel.parse Fits
    refine passes_sized build (fun size r' hr => ?_) h
    unfold parseInsert
    rw [passes_bind_last fun _ => passes_pure _,
      passes_parseN (keeps_parse build t) (passes_parse t) _ hr]
  | _, .array n _ init t, r, h => by
    unfold Fuel.parse Fits
    exact passes_sized build (fun size _ hr =>
      passes_parseArray build (keeps_parse build t) (passes_parse t) n init size hr) h
  | _, .taggedStruct e init ms, r, h => by
    have hmember := passes_parseCustomStructMember ms
    have hkeeps : ∀ id obj, Keeps (InRange fuel) _ := keeps_parseCustomStructMember build ms
    unfold Fuel.parse parseCustomStructOptimisticForLarge Fits
    rw [passes_bind_last fun _ => passes_pure _]
    by_cases hlarge : ms.tags.length > build.optimisticThreshold
    · have hchecked : ms.tags.length > build.checked.optimisticThreshold := hlarge
      rw [if_pos hlarge, if_pos hchecked]
      unfold parseCustomStructWithFallback
      rw [passes_bind, passes_parseCustomStructOptimistic ms (e init) r h]
      apply and_congr_right'
      apply after_congr
      rintro ⟨obj, id⟩ r' hpass
      have h' := (keeps_parseCustomStructOptimistic build ms (e init)).ok h hpass
      dsimp only
      by_cases hzero : id = 0
      · rw [if_pos hzero]
        exact iff_of_true (passes_pure obj r') fun hne => absurd hzero hne
      · rw [if_neg hzero, passes_bind, hmember id obj r' h', imp_iff_right hzero]
        apply and_congr_right'
        exact after_congr fun obj' r'' hobj =>
          passes_parseCustomStruct build hkeeps hmember fuel obj' ((hkeeps id obj).ok h' hobj)
    · have hchecked : ¬ ms.tags.length > build.checked.optimisticThreshold := hlarge
      rw [if_neg hlarge, if_neg hchecked]
      exact passes_parseCustomStruct build hkeeps hmember fuel (e init) h

theorem passes_readTuple : {τ : Type} → (ms : Tuple τ) → (r : CharRangeReader) → InRange fuel r →
    (Passes build.Fatal (Fuel.readTuple build.checked fuel ms) r ↔ TupleFits build fuel ms r)
  | _, .nil, r, _ => by
    unfold TupleFits
    exact iff_of_true (passes_pure _ r) trivial
  | _, .cons t ms, r, h => by
    unfold Fuel.readTuple TupleFits
    rw [passes_bind, passes_parse t r h]
    apply and_congr_right'
    apply after_congr
    intro v r' hv
    rw [passes_bind_last fun _ => passes_pure _,
      passes_readTuple ms r' ((keeps_parse build t).ok h hv)]

theorem passes_parseCustomStructMember : {tags : List Byte} → {τ : Type} → (ms : Members tags τ) →
    (id : Byte) → (obj : τ) → (r : CharRangeReader) → InRange fuel r →
    (Passes build.Fatal (Fuel.parseCustomStructMember build.checked fuel ms id obj) r ↔
      MemberFits build fuel ms id r)
  | _, _, .nil, id, obj, r, h => by
    unfold Fuel.parseCustomStructMember MemberFits
    rw [passes_bind_last fun _ => passes_pure _, passes_skipMember build h]
  | _, _, .cons typeId _ _ t ms, id, obj, r, h => by
    unfold Fuel.parseCustomStructMember MemberFits
    split_ifs
    · rw [passes_bind_of (passes_skipVarUint build t h)]
      apply after_congr
      intro _ r' hskip
      rw [passes_bind_last fun _ => passes_pure _,
        passes_parse t r' ((keeps_skipVarUint t).ok h hskip)]
    · rw [passes_bind_last fun _ => passes_pure _,
        passes_parseCustomStructMember ms id obj.2 r h]

theorem passes_parseCustomStructOptimistic : {tags : List Byte} → {τ : Type} →
    (ms : Members tags τ) → (obj : τ) → (r : CharRangeReader) → InRange fuel r →
    (Passes build.Fatal (Fuel.parseCustomStructOptimistic build.checked fuel ms obj) r ↔
      OptimisticFits build fuel ms obj r)
  | _, _, .nil, obj, r, h => by
    unfold Fuel.parseCustomStructOptimistic OptimisticFits
    rw [passes_bind_last fun _ => passes_pure _]
    refine passes_parseCustomStruct build (fun _ => keeps_skipMember build) (fun id obj r' hr => ?_)
      fuel obj h
    rw [passes_bind_last fun _ => passes_pure _, passes_skipMember build hr]
  | _, _, .cons typeId _ _ t ms, obj, r, h => by
    unfold Fuel.parseCustomStructOptimistic OptimisticFits
    rw [passes_bind_of (passes_parseByte build h)]
    apply after_congr
    intro id r1 hid
    have h1 := keeps_parseByte.ok h hid
    by_cases htag : id = typeId
    · rw [if_pos htag, imp_iff_right htag, passes_bind_of (passes_skipVarUint build t h1)]
      apply after_congr
      intro _ r2 hskip
      have h2 := (keeps_skipVarUint t).ok h1 hskip
      rw [passes_bind, passes_parse t r2 h2]
      apply and_congr_right'
      apply after_congr
      intro v r3 hv
      rw [passes_bind_last fun _ => passes_pure _,
        passes_parseCustomStructOptimistic ms obj.2 r3 ((keeps_parse build t).ok h2 hv)]
    · rw [if_neg htag]
      exact iff_of_true (passes_pure _ r1) fun h => absurd h htag

end

end Values

end BambooShoot.Pbss
