import BambooShoot.Pbss.Parse

/-!
# Relations that `parse` respects

`parse` uses its stream through a few steps only: a byte that must be there, a
number of bytes that must be there, and, in `skip_chars` and for fields nobody
knows, steps that do not ask whether the data have ended. A relation between
programs over two streams, or in two builds, that holds of these steps and is
respected by `pure` and `bind` holds of `parse` (`related_parse`).

Behind a step that does not ask, a stream may be past its end. `Phase` says
whether that is possible before and behind a program, and the induction shows
that such a step is always followed by one that asks.
-/

namespace BambooShoot.Pbss

open BambooShoot.Lib

/-! ## Steps -/

/-- Where a stream can be. -/
inductive Phase where
  /-- Not past its end. -/
  | live
  /-- Anywhere. -/
  | any

section Steps

variable {σ : Type} [InputStream σ]

/-- `read` with the test of `eof()` that follows it. -/
def readOrThrow (n : ℕ) : Run σ (List Byte) := do
  let got ← InputStream.read n
  if ← eofOf then raise .earlyEofError else pure got

/-- `ignore(to_signed(length))`. -/
def ignoreLength (build : Build) (length : SizeT) : Run σ Unit := do
  InputStream.ignore (← toSigned build length)

/-- A byte that must be there, in the middle of a program. -/
theorem get_match_eq {α : Type} (f : Byte → Run σ α) :
    (do
      match ← InputStream.get with
      | none => raise .earlyEofError
      | some c => f c) = (parseByte >>= f : Run σ α) := by
  unfold parseByte
  rw [bind_assoc]
  congr 1
  funext c
  cases c with
  | none => rfl
  | some c => rfl

theorem read_eof_eq {α : Type} (n : ℕ) (f : List Byte → Run σ α) :
    (do
      let got ← InputStream.read n
      if ← eofOf then raise .earlyEofError else f got) = (readOrThrow n >>= f : Run σ α) := by
  unfold readOrThrow
  rw [bind_assoc]
  congr 1
  funext got
  rw [bind_assoc]
  congr 1
  funext eof
  split_ifs
  · rfl
  · rfl

theorem readPrim_eq {α : Type} (p : Arith α) (h : p.size ≠ 1) :
    (readPrim p : Run σ α) = readOrThrow p.size >>= fun value =>
      if value.length = p.size then pure (p.ofBytes value) else undefined := by
  unfold readPrim
  rw [if_neg h]
  exact read_eof_eq p.size _

theorem readVarUintLoop_eq (w fuel : ℕ) (n : BitVec w) (offset : ℕ) :
    (readVarUintLoop w (fuel + 1) n offset : Run σ _) = parseByte >>= fun c =>
      if shiftUndefined w offset then undefined
      else
        let n := n ||| BitVec.ofNat w ((c &&& 0x7f).toNat * 2 ^ offset)
        if c &&& 0x80 ≠ 0 then readVarUintLoop w fuel n (offset + 7) else pure n := by
  conv_lhs => unfold readVarUintLoop
  exact get_match_eq _

theorem skipVarUintLoop_eq (fuel : ℕ) :
    (skipVarUintLoop (fuel + 1) : Run σ _) = parseByte >>= fun c =>
      if c &&& 0x80 ≠ 0 then skipVarUintLoop fuel else pure () := by
  conv_lhs => unfold skipVarUintLoop
  exact get_match_eq _

theorem parseElemsBulk_eq (k : ℕ) (valueInit : Bool) {size : SizeT} (h : size.toNat ≤ maxElems k) :
    (parseElemsBulk k valueInit size : Run σ _) = readOrThrow (k * size.toNat) >>= fun got =>
      if got.length = k * size.toNat ∨ valueInit then
        pure ⟨wordsOfBytes k size.toNat got, by rwa [length_wordsOfBytes]⟩
      else undefined := by
  unfold parseElemsBulk
  rw [dif_pos h]
  exact read_eof_eq (k * size.toNat) _

theorem skipMember_eq (build : Build) (fuel : ℕ) :
    (skipMember build fuel : Run σ Unit) = readVarUint fuel 64 >>= ignoreLength build := rfl

end Steps

section Read

variable {σ : Type} [InputStream σ] [ForwardInputStream σ] [LawfulInputStream σ]

theorem readOrThrow_ready {s : σ} {bs : List Byte} {n : ℕ} (h : Source.Ready s bs)
    (hn : n ≤ bs.length) : readOrThrow n s = .ok (bs.take n) (Source.advance n s) := by
  have hlen : (bs.take n).length = n := List.length_take_of_le hn
  rw [← List.take_append_drop n bs] at h
  have hread := LawfulInputStream.read_ready h
  have heof := LawfulInputStream.eof_ready (Source.ready_advance h)
  rw [hlen] at hread heof
  unfold readOrThrow
  rw [bind_of_ok hread, bind_of_ok (eofOf_run _), heof]
  rfl

theorem readOrThrow_short {s : σ} {bs : List Byte} {n : ℕ} (h : Source.Ready s bs)
    (hn : bs.length < n) :
    ∃ s', readOrThrow n s = .error (.throws (LawfulInputStream.eofError s)) s' := by
  unfold readOrThrow
  rcases LawfulInputStream.read_short h hn with ⟨heof, got, s', hread, hs'⟩ | ⟨s', hread⟩
  · refine ⟨s', ?_⟩
    rw [bind_of_ok hread, eofOf_bind hs', heof]
    rfl
  · exact ⟨s', bind_of_error hread⟩

theorem readOrThrow_ended [EndedInputStream σ] (n : ℕ) {s : σ} (h : EndedInputStream.Ended s) :
    ∃ s', readOrThrow n s = .error (.throws .earlyEofError) s' := by
  obtain ⟨got, s', hread, heof⟩ := EndedInputStream.read_ended n h
  refine ⟨s', ?_⟩
  unfold readOrThrow
  rw [bind_of_ok hread, eofOf_bind heof]
  rfl

end Read

/-! ## Respected relations -/

section Respects

variable {σ σ' : Type} [InputStream σ] [InputStream σ']

/-- `R a b p q`: the programs `p` and `q`, started in phase `a`, are related and
    end in phase `b` if they return. -/
structure Respects (build build' : Build)
    (R : Phase → Phase → ∀ {α : Type}, Run σ α → Run σ' α → Prop) : Prop where
  sameThreshold : build.optimisticThreshold = build'.optimisticThreshold
  of_any : ∀ {b α} {p : Run σ α} {q : Run σ' α}, R .any b p q → R .live b p q
  to_any : ∀ {a α} {p : Run σ α} {q : Run σ' α}, R a .live p q → R a .any p q
  pure : ∀ {a α} (x : α), R a a (Pure.pure x) (Pure.pure x)
  bind : ∀ {a b c α β} {p : Run σ α} {q : Run σ' α} {f : α → Run σ β} {g : α → Run σ' β},
    R a b p q → (∀ x, R b c (f x) (g x)) → R a c (p >>= f) (q >>= g)
  undefined : ∀ {b α}, R .live b (undefined : Run σ α) undefined
  lengthError : ∀ {b α}, R .live b (raise .lengthError : Run σ α) (raise .lengthError)
  outOfFuel : ∀ {a b α}, R a b (throw .outOfFuel : Run σ α) (throw .outOfFuel)
  byte : R .any .live parseByte parseByte
  read : ∀ n, R .any .live (readOrThrow n) (readOrThrow n)
  get : R .any .any InputStream.get InputStream.get
  ignore : ∀ length, R .live .any (ignoreLength build length) (ignoreLength build' length)

variable {build build' : Build} {R : Phase → Phase → ∀ {α : Type}, Run σ α → Run σ' α → Prop}
  (h : Respects build build' R)

include h

/-! ## Primitives -/

theorem related_readPrim {α : Type} (p : Arith α) : R .any .live (readPrim p) (readPrim p) := by
  by_cases hp : p.size = 1
  · unfold readPrim
    rw [if_pos hp, if_pos hp]
    exact h.bind h.byte fun c => h.pure _
  · rw [readPrim_eq p hp, readPrim_eq p hp]
    apply h.bind (h.read p.size)
    intro value
    split_ifs
    · exact h.pure _
    · exact h.undefined

theorem related_readVarUintLoop (w fuel : ℕ) (n : BitVec w) (offset : ℕ) :
    R .any .live (readVarUintLoop w fuel n offset) (readVarUintLoop w fuel n offset) := by
  induction fuel generalizing n offset with
  | zero => exact h.outOfFuel
  | succ fuel ih =>
    rw [readVarUintLoop_eq, readVarUintLoop_eq]
    apply h.bind h.byte
    intro c
    dsimp only
    split_ifs
    · exact h.undefined
    · exact h.of_any (ih _ _)
    · exact h.pure _

theorem related_readVarUint (fuel w : ℕ) : R .any .live (readVarUint fuel w) (readVarUint fuel w) :=
  related_readVarUintLoop h w fuel 0 0

theorem related_skipVarUintLoop (fuel : ℕ) :
    R .any .live (skipVarUintLoop fuel) (skipVarUintLoop fuel) := by
  induction fuel with
  | zero => exact h.outOfFuel
  | succ fuel ih =>
    rw [skipVarUintLoop_eq, skipVarUintLoop_eq]
    apply h.bind h.byte
    intro c
    split_ifs
    · exact h.of_any ih
    · exact h.pure _

theorem related_skipChars (n : ℕ) : R .any .any (skipChars n) (skipChars n) := by
  induction n with
  | zero => exact h.pure ()
  | succ n ih => exact h.bind h.get fun _ => ih

theorem related_skipMember (fuel : ℕ) :
    R .any .any (skipMember build fuel) (skipMember build' fuel) := by
  rw [skipMember_eq, skipMember_eq]
  exact h.bind (related_readVarUint h fuel 64) fun length => h.ignore length

/-! ## Containers -/

theorem related_parseN {α : Type} {p : Run σ α} {q : Run σ' α} (hpq : R .live .live p q) (n : ℕ) :
    R .live .live (parseN p n) (parseN q n) := by
  induction n with
  | zero => exact h.pure _
  | succ n ih => exact h.bind hpq fun x => h.bind ih fun l => h.pure _

theorem related_parseElemsBulk (k : ℕ) (valueInit : Bool) (size : SizeT) :
    R .live .live (parseElemsBulk k valueInit size) (parseElemsBulk k valueInit size) := by
  by_cases hsize : size.toNat ≤ maxElems k
  · rw [parseElemsBulk_eq k valueInit hsize, parseElemsBulk_eq k valueInit hsize]
    apply h.bind (h.of_any (h.read _))
    intro got
    split_ifs
    · exact h.pure _
    · exact h.undefined
  · unfold parseElemsBulk
    rw [dif_neg hsize, dif_neg hsize]
    exact h.lengthError

theorem related_parseElems {α : Type} (m : ℕ) (reserve : Bool) {p : Run σ α} {q : Run σ' α}
    (hpq : R .live .live p q) (size : SizeT) :
    R .live .live (parseElems m reserve p size) (parseElems m reserve q size) := by
  unfold parseElems
  split_ifs
  · exact h.bind (related_parseN h hpq _) fun _ => h.pure _
  · exact h.lengthError
  · exact h.bind (related_parseN h hpq _) fun _ => h.lengthError

theorem related_parseInsert {α : Type} {lt : α → α → Bool} (hlt : StrictWeak lt) {p : Run σ α}
    {q : Run σ' α} (hpq : R .live .live p q) (size : SizeT) :
    R .live .live (parseInsert hlt p size) (parseInsert hlt q size) :=
  h.bind (related_parseN h hpq _) fun _ => h.pure _

theorem related_parseArray {α : Type} (n : ℕ) (init : Option α) {p : Run σ α} {q : Run σ' α}
    (hpq : R .live .live p q) (size : SizeT) :
    R .live .live (parseArray n init p size) (parseArray n init q size) := by
  unfold parseArray
  split_ifs
  · apply h.bind (related_parseN h hpq _)
    intro coll
    cases fillArray n init coll.1 with
    | some v => exact h.pure v
    | none => exact h.undefined
  · exact h.bind (related_parseN h hpq _) fun _ => h.undefined

/-! ## Tagged structs -/

/-- A member behind its tag: either way of skipping the length is followed by a
    step that asks for the end. -/
theorem related_skip_parse {α : Type} (fuel : ℕ) (s : Ty α) {p : Run σ α} {q : Run σ' α}
    (hpq : R .live .live p q) (hfixed : ∀ n, fixedSize s = some n → R .any .live p q) :
    R .any .live (skipVarUint fuel s >>= fun _ => p) (skipVarUint fuel s >>= fun _ => q) := by
  unfold skipVarUint
  cases hs : fixedSize s with
  | some n => exact h.bind (related_skipChars h _) fun _ => hfixed n hs
  | none => exact h.bind (related_skipVarUintLoop h fuel) fun _ => hpq

/-- The loop on the fields, by induction on its rounds: a round ends anywhere,
    and the next one begins with a byte that must be there. -/
theorem related_parseCustomStruct {τ : Type} {parseMember : Byte → τ → Run σ τ}
    {parseMember' : Byte → τ → Run σ' τ}
    (hmember : ∀ id obj, R .live .any (parseMember id obj) (parseMember' id obj)) (rounds : ℕ)
    (obj : τ) :
    R .any .live (parseCustomStruct parseMember rounds obj)
      (parseCustomStruct parseMember' rounds obj) := by
  induction rounds generalizing obj with
  | zero => exact h.outOfFuel
  | succ rounds ih =>
    unfold parseCustomStruct
    apply h.bind h.byte
    intro id
    split_ifs
    · exact h.pure obj
    · exact h.bind (hmember id obj) fun obj => ih obj

theorem related_parseCustomStructOptimisticForLarge {τ : Type} (count fuel : ℕ)
    {parseOptimistic : τ → Run σ (τ × Byte)} {parseOptimistic' : τ → Run σ' (τ × Byte)}
    {parseMember : Byte → τ → Run σ τ} {parseMember' : Byte → τ → Run σ' τ}
    (hopt : ∀ obj, R .any .live (parseOptimistic obj) (parseOptimistic' obj))
    (hmember : ∀ id obj, R .live .any (parseMember id obj) (parseMember' id obj)) (obj : τ) :
    R .any .live
      (parseCustomStructOptimisticForLarge build count parseOptimistic parseMember fuel obj)
      (parseCustomStructOptimisticForLarge build' count parseOptimistic' parseMember' fuel obj) := by
  unfold parseCustomStructOptimisticForLarge
  rw [h.sameThreshold]
  split_ifs
  · unfold parseCustomStructWithFallback
    apply h.bind (hopt obj)
    rintro ⟨obj, id⟩
    dsimp only
    split_ifs
    · exact h.pure obj
    · exact h.bind (hmember id obj) fun obj => related_parseCustomStruct h hmember fuel obj
  · exact related_parseCustomStruct h hmember fuel obj

/-! ## Values -/

variable (fuel : ℕ)

mutual

theorem related_parse : {α : Type} → (s : Ty α) →
    R .live .live (Fuel.parse build fuel s) (Fuel.parse build' fuel s)
  | _, .arith p => h.of_any (related_readPrim h p)
  | _, .enum p _ _ _ => h.of_any (h.bind (related_readPrim h p) fun _ => h.pure _)
  | _, .varUint w _ => h.of_any (related_readVarUint h fuel w)
  | _, .stdTuple _ ms => h.bind (related_readTuple ms) fun _ => h.pure _
  | _, .tupleStruct _ ms => h.bind (related_readTuple ms) fun _ => h.pure _
  | _, .contiguous k _ valueInit =>
    h.bind (h.of_any (related_readVarUint h fuel 64)) fun size =>
      related_parseElemsBulk h k valueInit size
  | _, .sequence m _ reserve s =>
    h.bind (h.of_any (related_readVarUint h fuel 64)) fun size =>
      related_parseElems h m reserve (related_parse s) size
  | _, .ordered _ hlt s =>
    h.bind (h.of_any (related_readVarUint h fuel 64)) fun size =>
      related_parseInsert h hlt (related_parse s) size
  | _, .array n _ init s =>
    h.bind (h.of_any (related_readVarUint h fuel 64)) fun size =>
      related_parseArray h n init (related_parse s) size
  | _, .taggedStruct e init ms =>
    h.of_any (h.bind (related_parseCustomStructOptimisticForLarge h ms.tags.length fuel
      (related_optimistic ms) (related_member ms) (e init)) fun _ => h.pure _)

/-- A type of fixed size has something to read. -/
theorem related_parse_fixed : {α : Type} → (s : Ty α) → (n : SizeT) → fixedSize s = some n →
    R .any .live (Fuel.parse build fuel s) (Fuel.parse build' fuel s)
  | _, .arith p, _, _ => related_readPrim h p
  | _, .enum p _ _ _, _, _ => h.bind (related_readPrim h p) fun _ => h.pure _
  | _, .stdTuple _ ms, n, hn => by
    rw [fixedSize, Option.bind_eq_some_iff] at hn
    obtain ⟨sizes, hsizes, hn⟩ := hn
    have hne := ne_nil_of_sumall hn
    exact h.bind (related_readTuple_fixed ms sizes hsizes hne) fun _ => h.pure _
  | _, .tupleStruct _ ms, n, hn => by
    rw [fixedSize, Option.bind_eq_some_iff] at hn
    obtain ⟨sizes, hsizes, hn⟩ := hn
    have hne := ne_nil_of_sumall hn
    exact h.bind (related_readTuple_fixed ms sizes hsizes hne) fun _ => h.pure _
  | _, .taggedStruct e init ms, _, _ =>
    h.bind (related_parseCustomStructOptimisticForLarge h ms.tags.length fuel
      (related_optimistic ms) (related_member ms) (e init)) fun _ => h.pure _
  | _, .varUint _ _, _, hn | _, .contiguous _ _ _, _, hn | _, .sequence _ _ _ _, _, hn
  | _, .ordered _ _ _, _, hn | _, .array _ _ _ _, _, hn => by simp [fixedSize] at hn

theorem related_readTuple : {τ : Type} → (ms : Tuple τ) →
    R .live .live (Fuel.readTuple build fuel ms) (Fuel.readTuple build' fuel ms)
  | _, .nil => h.pure ()
  | _, .cons s ms =>
    h.bind (related_parse s) fun _ => h.bind (related_readTuple ms) fun _ => h.pure _

theorem related_readTuple_fixed : {τ : Type} → (ms : Tuple τ) → (sizes : List SizeT) →
    tupleFixedSizes ms = some sizes → sizes ≠ [] →
    R .any .live (Fuel.readTuple build fuel ms) (Fuel.readTuple build' fuel ms)
  | _, .nil, sizes, hsizes, hne => by
    rw [tupleFixedSizes, Option.some_inj] at hsizes
    exact absurd hsizes.symm hne
  | _, .cons s ms, sizes, hsizes, _ => by
    rw [tupleFixedSizes, Option.bind_eq_some_iff] at hsizes
    obtain ⟨n, hn, -⟩ := hsizes
    exact h.bind (related_parse_fixed s n hn) fun _ =>
      h.bind (related_readTuple ms) fun _ => h.pure _

theorem related_member : {tags : List Byte} → {τ : Type} → (ms : Members tags τ) → (id : Byte) →
    (obj : τ) → R .live .any (Fuel.parseCustomStructMember build fuel ms id obj)
      (Fuel.parseCustomStructMember build' fuel ms id obj)
  | _, _, .nil, _, obj => h.of_any (h.bind (related_skipMember h fuel) fun _ => h.pure obj)
  | _, _, .cons (α := α) typeId _ _ s ms, id, obj => by
    unfold Fuel.parseCustomStructMember
    split_ifs
    · have hvalue := related_skip_parse h fuel s (related_parse s) (related_parse_fixed s)
      have hpure : ∀ value : α, R .live .live (Pure.pure (value, obj.2))
          (Pure.pure (value, obj.2)) := fun _ => h.pure _
      have hbind := h.bind hvalue hpure
      rw [bind_assoc, bind_assoc] at hbind
      exact h.to_any (h.of_any hbind)
    · exact h.bind (related_member ms id obj.2) fun _ => h.pure _

theorem related_optimistic : {tags : List Byte} → {τ : Type} → (ms : Members tags τ) → (obj : τ) →
    R .any .live (Fuel.parseCustomStructOptimistic build fuel ms obj)
      (Fuel.parseCustomStructOptimistic build' fuel ms obj)
  | _, _, .nil, obj => by
    have hskip : ∀ (_ : Byte) (obj : Unit), R .live .any
        (do skipMember build fuel; Pure.pure obj) (do skipMember build' fuel; Pure.pure obj) :=
      fun _ obj => h.of_any (h.bind (related_skipMember h fuel) fun _ => h.pure obj)
    exact h.bind (related_parseCustomStruct h hskip fuel obj) fun _ => h.pure _
  | _, _, .cons (α := α) typeId _ _ s ms, obj => by
    unfold Fuel.parseCustomStructOptimistic
    apply h.bind h.byte
    intro id
    split_ifs
    · have hvalue := related_skip_parse h fuel s (related_parse s) (related_parse_fixed s)
      have hrest : ∀ value : α, R .live .live
          (Fuel.parseCustomStructOptimistic build fuel ms obj.2 >>= fun x =>
            Pure.pure ((value, x.1), x.2))
          (Fuel.parseCustomStructOptimistic build' fuel ms obj.2 >>= fun x =>
            Pure.pure ((value, x.1), x.2)) :=
        fun _ => h.bind (h.of_any (related_optimistic ms obj.2)) fun _ => h.pure _
      have hbind := h.bind hvalue hrest
      rw [bind_assoc, bind_assoc] at hbind
      exact h.of_any hbind
    · exact h.pure _

end

end Respects

end BambooShoot.Pbss
