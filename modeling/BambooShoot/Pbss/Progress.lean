import BambooShoot.Pbss.Parse

/-!
# The loops of `parse` end

In a build that checks the argument of `to_signed`, every round of a loop of
`parse` reads a byte, whatever the input: `settles_parse` says that fuel above
the number of unread bytes is never exhausted and never changes the result, and
that the stream does not move back. So `parse`, which takes that much, always
has an outcome (`parse_ne_outOfFuel`).
-/

namespace BambooShoot.Pbss

open BambooShoot.Lib
open Measured

section Settles

variable {σ : Type} [InputStream σ] [ForwardInputStream σ]

/-! ## Primitives -/

theorem settles_raise {α : Type} (e : Exn) : Settles fun _ => (raise e : Run σ α) := by
  refine Settles.of_forward fun s => ?_
  rw [raise_run, Forward, ForwardInputStream.exhausted_eq]
  exact fun h => by cases h

theorem settles_undefined {α : Type} : Settles fun _ => (undefined : Run σ α) := by
  refine Settles.of_forward fun s => ?_
  rw [undefined_run, Forward, ForwardInputStream.exhausted_eq]
  exact fun h => by cases h

theorem settles_get : Settles fun _ => (InputStream.get : Run σ _) :=
  Settles.of_forward ForwardInputStream.get_forward

theorem settles_read (n : ℕ) : Settles fun _ => (InputStream.read n : Run σ _) :=
  Settles.of_forward (ForwardInputStream.read_forward n)

theorem settles_ignore (n : ℕ) : Settles fun _ => (InputStream.ignore n : Run σ _) :=
  Settles.of_forward (ForwardInputStream.ignore_forward n)

theorem settles_eof : Settles fun _ => (eofOf : Run σ Bool) :=
  Settles.of_forward fun _ => le_refl _

theorem settles_parseByte : Settles fun _ => (parseByte : Run σ Byte) := by
  refine settles_get.bind fun c => ?_
  cases c with
  | none => exact settles_raise _
  | some c => exact Settles.pure c

theorem parseByte_lt {s s' : σ} {b : Byte} (h : parseByte s = .ok b s') : left s' < left s := by
  obtain ⟨c, s1, hget, hc⟩ := bind_eq_ok h
  cases c with
  | none => cases hc
  | some c =>
    injection hc with _ hs
    rw [← hs]
    exact ForwardInputStream.get_lt hget

theorem settles_readPrim {α : Type} (p : Arith α) : Settles fun _ => (readPrim p : Run σ α) := by
  unfold readPrim
  split_ifs
  · exact settles_parseByte.bind fun c => Settles.pure _
  · refine (settles_read p.size).bind fun value => settles_eof.bind fun eof => ?_
    split_ifs
    · exact settles_raise _
    · exact Settles.pure _
    · exact settles_undefined

/-! ## Loops on digits -/

/-- One round of `read_var_uint`. -/
def readVarUintRound (w : ℕ) (r : BitVec w × ℕ) : Run σ (BitVec w ⊕ BitVec w × ℕ) := do
  match ← InputStream.get with
  | none => raise .earlyEofError
  | some c =>
    if shiftUndefined w r.2 then undefined
    else
      let n := r.1 ||| BitVec.ofNat w ((c &&& 0x7f).toNat * 2 ^ r.2)
      if c &&& 0x80 ≠ 0 then pure (.inr (n, r.2 + 7)) else pure (.inl n)

theorem settles_readVarUint (w : ℕ) : Settles fun fuel => (readVarUint fuel w : Run σ _) := by
  have hunfold : ∀ (k _fuel : ℕ) (r : BitVec w × ℕ),
      (readVarUintLoop w (k + 1) r.1 r.2 : Run σ _) =
        readVarUintRound w r >>= Sum.elim pure fun r => readVarUintLoop w k r.1 r.2 := by
    intro k _ r
    rw [readVarUintLoop, readVarUintRound, bind_assoc]
    congr 1
    funext c
    cases c with
    | none => rfl
    | some c =>
      dsimp only
      split_ifs <;> rfl
  have hsettles : ∀ r : BitVec w × ℕ, Settles fun _ => (readVarUintRound w r : Run σ _) := by
    refine fun r => settles_get.bind fun c => ?_
    cases c with
    | none => exact settles_raise _
    | some c =>
      dsimp only
      split_ifs
      · exact settles_undefined
      · exact Settles.pure _
      · exact Settles.pure _
  have hprogress : ∀ {r r' : BitVec w × ℕ} {s s' : σ} {fuel : ℕ}, left s < fuel →
      readVarUintRound w r s = .ok (.inr r') s' → left s' < left s := by
    intro r r' s s' fuel _ h
    obtain ⟨c, s1, hget, hc⟩ := bind_eq_ok h
    cases c with
    | none => cases hc
    | some c =>
      dsimp only at hc
      split_ifs at hc
      · cases hc
      · injection hc with _ hs
        rw [← hs]
        exact ForwardInputStream.get_lt hget
      · cases hc
  exact Settles.loop (L := fun k _ r => readVarUintLoop w k r.1 r.2) hunfold hsettles hprogress
    ((0 : BitVec w), 0)

/-- One round of `skip_varuint`. -/
def skipVarUintRound : Run σ (Unit ⊕ Unit) := do
  match ← InputStream.get with
  | none => raise .earlyEofError
  | some c => if c &&& 0x80 ≠ 0 then pure (.inr ()) else pure (.inl ())

theorem settles_skipVarUintLoop : Settles fun fuel => (skipVarUintLoop fuel : Run σ Unit) := by
  have hunfold : ∀ (k _fuel : ℕ) (_ : Unit), (skipVarUintLoop (k + 1) : Run σ Unit) =
      skipVarUintRound >>= Sum.elim pure fun _ => skipVarUintLoop k := by
    intro k _ _
    rw [skipVarUintLoop, skipVarUintRound, bind_assoc]
    congr 1
    funext c
    cases c with
    | none => rfl
    | some c =>
      dsimp only
      split_ifs <;> rfl
  have hsettles : Unit → Settles fun _ => (skipVarUintRound : Run σ _) := by
    refine fun _ => settles_get.bind fun c => ?_
    cases c with
    | none => exact settles_raise _
    | some c =>
      dsimp only
      split_ifs
      · exact Settles.pure _
      · exact Settles.pure _
  have hprogress : ∀ {r' : Unit} {s s' : σ}, skipVarUintRound s = .ok (.inr r') s' →
      left s' < left s := by
    intro r' s s' h
    obtain ⟨c, s1, hget, hc⟩ := bind_eq_ok h
    cases c with
    | none => cases hc
    | some c =>
      dsimp only at hc
      split_ifs at hc
      · injection hc with _ hs
        rw [← hs]
        exact ForwardInputStream.get_lt hget
      · cases hc
  exact Settles.loop (ρ := Unit) (L := fun k _ _ => skipVarUintLoop k) hunfold hsettles
    (fun _ h => hprogress h) ()

theorem settles_skipChars (n : ℕ) : Settles fun _ => (skipChars n : Run σ Unit) := by
  induction n with
  | zero => exact Settles.pure ()
  | succ n ih => exact settles_get.bind fun _ => ih

theorem settles_skipVarUint {α : Type} (s : Ty α) :
    Settles fun fuel => (skipVarUint fuel s : Run σ Unit) := by
  unfold skipVarUint
  cases fixedSize s with
  | some size => exact settles_skipChars _
  | none => exact settles_skipVarUintLoop

/-- What `to_signed` lets pass is not negative. -/
theorem settles_skipMember {build : Build} (hbuild : build.rangeChecks = true) :
    Settles fun fuel => (skipMember build fuel : Run σ Unit) := by
  refine (settles_readVarUint 64).bind fun length => ?_
  rw [toSigned]
  split_ifs with h
  · exact settles_raise (α := Unit) _
  · have hpos : length.toInt = (length.toNat : ℤ) :=
      BitVec.toInt_eq_toNat_of_lt (by simp only [hbuild, true_and] at h; omega)
    rw [pure_bind, hpos]
    exact settles_ignore _

/-! ## Containers -/

theorem settles_parseN {α : Type} {parseElem : ℕ → Run σ α} (h : Settles parseElem) (n : ℕ) :
    Settles fun fuel => parseN (parseElem fuel) n := by
  induction n with
  | zero => exact Settles.pure _
  | succ n ih => exact h.bind fun x => ih.bind fun l => Settles.pure _

theorem settles_parseElemsBulk (k : ℕ) (valueInit : Bool) (size : SizeT) :
    Settles fun _ => (parseElemsBulk k valueInit size : Run σ _) := by
  unfold parseElemsBulk
  split_ifs
  · refine (settles_read (k * size.toNat)).bind fun got => settles_eof.bind fun eof => ?_
    split_ifs
    · exact settles_raise _
    · exact Settles.pure _
    · exact settles_undefined
  · exact settles_raise _

theorem settles_parseElems {α : Type} (m : ℕ) (reserve : Bool) {parseElem : ℕ → Run σ α}
    (h : Settles parseElem) (size : SizeT) :
    Settles fun fuel => parseElems m reserve (parseElem fuel) size := by
  unfold parseElems
  split_ifs
  · exact (settles_parseN h _).bind fun _ => Settles.pure _
  · exact settles_raise _
  · exact (settles_parseN h _).bind fun _ => settles_raise _

theorem settles_parseInsert {α : Type} {lt : α → α → Bool} (hlt : StrictWeak lt)
    {parseElem : ℕ → Run σ α} (h : Settles parseElem) (size : SizeT) :
    Settles fun fuel => parseInsert hlt (parseElem fuel) size :=
  (settles_parseN h _).bind fun _ => Settles.pure _

theorem settles_parseArray {α : Type} (n : ℕ) (init : Option α) {parseElem : ℕ → Run σ α}
    (h : Settles parseElem) (size : SizeT) :
    Settles fun fuel => parseArray n init (parseElem fuel) size := by
  unfold parseArray
  split_ifs
  · refine (settles_parseN h _).bind fun coll => ?_
    cases fillArray n init coll.1 with
    | some v => exact Settles.pure v
    | none => exact settles_undefined
  · exact (settles_parseN h _).bind fun _ => settles_undefined

/-! ## Tagged structs -/

/-- One round of `parse_custom_struct`. -/
def parseCustomStructRound {τ : Type} (parseMember : Byte → τ → Run σ τ) (obj : τ) :
    Run σ (τ ⊕ τ) := do
  let id ← parseByte
  if id = 0 then pure (.inl obj)
  else
    let obj ← parseMember id obj
    pure (.inr obj)

omit [ForwardInputStream σ] in
theorem parseCustomStruct_unfold {τ : Type} (parseMember : Byte → τ → Run σ τ) (k : ℕ) (obj : τ) :
    parseCustomStruct parseMember (k + 1) obj =
      parseCustomStructRound parseMember obj >>= Sum.elim pure (parseCustomStruct parseMember k) := by
  rw [parseCustomStruct, parseCustomStructRound, bind_assoc]
  congr 1
  funext id
  split_ifs
  · rfl
  · rw [bind_assoc]
    rfl

theorem settles_parseCustomStructRound {τ : Type} {parseMember : ℕ → Byte → τ → Run σ τ}
    (h : ∀ id obj, Settles fun fuel => parseMember fuel id obj) (obj : τ) :
    Settles fun fuel => parseCustomStructRound (parseMember fuel) obj := by
  refine settles_parseByte.bind fun id => ?_
  split_ifs
  · exact Settles.pure _
  · exact (h id obj).bind fun obj => Settles.pure _

theorem parseCustomStructRound_lt {τ : Type} {parseMember : ℕ → Byte → τ → Run σ τ}
    (h : ∀ id obj, Settles fun fuel => parseMember fuel id obj) {obj obj' : τ} {s s' : σ}
    {fuel : ℕ} (hfuel : left s < fuel)
    (hround : parseCustomStructRound (parseMember fuel) obj s = .ok (.inr obj') s') :
    left s' < left s := by
  obtain ⟨id, s1, hid, hround⟩ := bind_eq_ok hround
  have hlt := parseByte_lt hid
  split_ifs at hround
  · cases hround
  · obtain ⟨o, s2, hmember, hpure⟩ := bind_eq_ok hround
    have hfwd := (h id obj s1 fuel (by omega)).1
    beta_reduce at hfwd
    rw [hmember] at hfwd
    injection hpure with _ hs
    rw [← hs]
    exact lt_of_le_of_lt (show left s2 ≤ left s1 from hfwd) hlt

/-- The loop on the fields of a struct, with rounds and fuel of their own. -/
theorem parseCustomStruct_settles {τ : Type} {parseMember : ℕ → Byte → τ → Run σ τ}
    (h : ∀ id obj, Settles fun fuel => parseMember fuel id obj) (obj : τ) (s : σ)
    {k fuel k' fuel' : ℕ} (hk : left s < k) (hfuel : left s < fuel) (hk' : left s < k')
    (hfuel' : left s < fuel') :
    Forward s (parseCustomStruct (parseMember fuel) k obj s) ∧
      parseCustomStruct (parseMember fuel') k' obj s =
        parseCustomStruct (parseMember fuel) k obj s :=
  Settles.iterate (L := fun k fuel obj => parseCustomStruct (parseMember fuel) k obj)
    (fun k fuel obj => parseCustomStruct_unfold (parseMember fuel) k obj)
    (settles_parseCustomStructRound h) (parseCustomStructRound_lt h) obj s hk hfuel hk' hfuel'

theorem settles_parseCustomStruct {τ : Type} {parseMember : ℕ → Byte → τ → Run σ τ}
    (h : ∀ id obj, Settles fun fuel => parseMember fuel id obj) (obj : τ) :
    Settles fun fuel => parseCustomStruct (parseMember fuel) fuel obj :=
  fun s _ hs => ⟨(parseCustomStruct_settles h obj s hs hs hs hs).1, fun _ hs' =>
    (parseCustomStruct_settles h obj s hs hs hs' hs').2⟩

theorem settles_parseCustomStructOptimisticForLarge {τ : Type} (build : Build) (count : ℕ)
    {parseOptimistic : ℕ → τ → Run σ (τ × Byte)} {parseMember : ℕ → Byte → τ → Run σ τ}
    (hopt : ∀ obj, Settles fun fuel => parseOptimistic fuel obj)
    (h : ∀ id obj, Settles fun fuel => parseMember fuel id obj) (obj : τ) :
    Settles fun fuel => parseCustomStructOptimisticForLarge build count (parseOptimistic fuel)
      (parseMember fuel) fuel obj := by
  unfold parseCustomStructOptimisticForLarge
  split_ifs
  · refine (hopt obj).bind fun ⟨obj, id⟩ => ?_
    dsimp only
    split_ifs
    · exact Settles.pure _
    · exact (h id obj).bind fun obj => settles_parseCustomStruct h obj
  · exact settles_parseCustomStruct h obj

/-- The loop on the fields behind the last member. -/
theorem settles_skipFields {build : Build} (hbuild : build.rangeChecks = true) {τ : Type}
    (obj : τ) : Settles fun fuel =>
      parseCustomStruct (fun _ obj => do skipMember build fuel; pure obj : Byte → τ → Run σ τ) fuel
        obj :=
  @settles_parseCustomStruct σ _ _ τ (fun fuel _ obj => do skipMember build fuel; pure obj)
    (fun _ obj => (settles_skipMember hbuild).bind fun _ => Settles.pure obj) obj

/-! ## Values -/

mutual

/-- `parse` always ends within the fuel that the unread bytes make up. -/
theorem settles_parse {build : Build} (hbuild : build.rangeChecks = true) : {α : Type} →
    (s : Ty α) → Settles fun fuel => (Fuel.parse build fuel s : Run σ α)
  | _, .arith p => settles_readPrim p
  | _, .enum p _ _ _ => (settles_readPrim p).bind fun _ => Settles.pure _
  | _, .varUint w _ => settles_readVarUint w
  | _, .stdTuple _ ms => (settles_readTuple hbuild ms).bind fun _ => Settles.pure _
  | _, .tupleStruct _ ms => (settles_readTuple hbuild ms).bind fun _ => Settles.pure _
  | _, .contiguous k _ valueInit =>
    (settles_readVarUint 64).bind fun size => settles_parseElemsBulk k valueInit size
  | _, .sequence m _ reserve s =>
    (settles_readVarUint 64).bind fun size =>
      settles_parseElems m reserve (settles_parse hbuild s) size
  | _, .ordered _ hlt s =>
    (settles_readVarUint 64).bind fun size => settles_parseInsert hlt (settles_parse hbuild s) size
  | _, .array n _ init s =>
    (settles_readVarUint 64).bind fun size =>
      settles_parseArray n init (settles_parse hbuild s) size
  | _, .taggedStruct e init ms =>
    (settles_parseCustomStructOptimisticForLarge build _
      (settles_parseCustomStructOptimistic hbuild ms) (settles_parseCustomStructMember hbuild ms)
      (e init)).bind fun _ => Settles.pure _

theorem settles_readTuple {build : Build} (hbuild : build.rangeChecks = true) : {τ : Type} →
    (ms : Tuple τ) → Settles fun fuel => (Fuel.readTuple build fuel ms : Run σ τ)
  | _, .nil => Settles.pure ()
  | _, .cons s ms =>
    (settles_parse hbuild s).bind fun _ => (settles_readTuple hbuild ms).bind fun _ =>
      Settles.pure _

theorem settles_parseCustomStructMember {build : Build} (hbuild : build.rangeChecks = true) :
    {tags : List Byte} → {τ : Type} → (ms : Members tags τ) → (id : Byte) → (obj : τ) →
    Settles fun fuel => (Fuel.parseCustomStructMember build fuel ms id obj : Run σ τ)
  | _, _, .nil, _, obj => (settles_skipMember hbuild).bind fun _ => Settles.pure obj
  | _, _, .cons typeId _ _ s ms, id, obj => by
    simp only [Fuel.parseCustomStructMember]
    split_ifs
    · exact (settles_skipVarUint s).bind fun _ => (settles_parse hbuild s).bind fun _ =>
        Settles.pure _
    · exact (settles_parseCustomStructMember hbuild ms id obj.2).bind fun _ => Settles.pure _

theorem settles_parseCustomStructOptimistic {build : Build} (hbuild : build.rangeChecks = true) :
    {tags : List Byte} → {τ : Type} → (ms : Members tags τ) → (obj : τ) →
    Settles fun fuel => (Fuel.parseCustomStructOptimistic build fuel ms obj : Run σ _)
  | _, _, .nil, obj =>
    (settles_skipFields hbuild obj).bind fun _ => Settles.pure _
  | _, _, .cons typeId _ _ s ms, obj => by
    simp only [Fuel.parseCustomStructOptimistic]
    refine settles_parseByte.bind fun id => ?_
    split_ifs
    · exact (settles_skipVarUint s).bind fun _ => (settles_parse hbuild s).bind fun _ =>
        (settles_parseCustomStructOptimistic hbuild ms obj.2).bind fun _ => Settles.pure _
    · exact Settles.pure _

end

/-- No input makes `parse` run forever. -/
theorem parse_ne_outOfFuel {build : Build} (hbuild : build.rangeChecks = true) {α : Type}
    (s : Ty α) (stream stream' : σ) : parse build s stream ≠ .error .outOfFuel stream' := by
  intro h
  have hfwd := (settles_parse hbuild s stream (left stream + 1) (Nat.lt_succ_self _)).1
  beta_reduce at hfwd
  rw [show Fuel.parse build (left stream + 1) s stream = _ from h] at hfwd
  exact hfwd ForwardInputStream.exhausted_eq.symm

end Settles

end BambooShoot.Pbss
