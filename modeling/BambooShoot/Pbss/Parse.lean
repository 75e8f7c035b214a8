import BambooShoot.Pbss.Size

/-!
# `parse`

Model of the `parse` overloads. The loops whose number of rounds is in the
input (`read_var_uint`, `skip_varuint`, `parse_custom_struct`) take a bound on
it, `fuel`; `parse` runs them with more fuel than the stream has bytes left,
and every round reads a byte.
-/

namespace BambooShoot.Pbss

open BambooShoot.Lib

/-- How the library was built. -/
structure Build where
  /-- `defined(DEBUG) || !defined(NDEBUG)` (`misc.hh`, line 63). -/
  rangeChecks : Bool
  /-- `PBSS_STRUCT_OPTIMISTIC_PARSE_THRESHOLD` (`pbss-struct.hh`, line 213). -/
  optimisticThreshold : ℕ := 8

section Model

variable {σ : Type}

/-- `to_signed` (`misc.hh`, lines 58–68). -/
def toSigned (build : Build) (x : SizeT) : Run σ ℤ :=
  if build.rangeChecks ∧ 2 ^ 63 - 1 < x.toNat then
    raise (.outOfRange "Unsigned value too large to fit in signed type")
  else pure x.toInt

variable [InputStream σ]

/-! ## Primitives -/

/-- `parse<uint8_t>`. -/
def parseByte : Run σ Byte := do
  match ← InputStream.get with
  | none => raise .earlyEofError
  | some v => pure v

/-- `read_prim` (`pbss-primitives.hh`, lines 51–71). A `read` that fails without
    reaching the end leaves the value uninitialised. -/
def readPrim {α : Type} (p : Arith α) : Run σ α :=
  if p.size = 1 then do
    return p.ofBytes [← parseByte]
  else do
    let value ← InputStream.read p.size
    if ← eofOf then raise .earlyEofError
    else if value.length = p.size then pure (p.ofBytes value)
    else undefined

/-! ## Containers -/

/-- `n` elements parsed one after the other. -/
def parseN {α : Type} (parseElem : Run σ α) : (n : ℕ) → Run σ { l : List α // l.length = n }
  | 0 => pure ⟨[], rfl⟩
  | n + 1 => do
    let x ← parseElem
    let l ← parseN parseElem n
    pure ⟨x :: l.1, by rw [List.length_cons, l.2]⟩

/-- The `n` words whose object representations follow each other in `bs`;
    what `bs` does not reach is zero. -/
def wordsOfBytes (k : ℕ) : (n : ℕ) → List Byte → List (BitVec (8 * k))
  | 0, _ => []
  | n + 1, bs => wordOfBytes k (bs.take k) :: wordsOfBytes k n (bs.drop k)

@[simp] theorem length_wordsOfBytes (k n : ℕ) (bs : List Byte) :
    (wordsOfBytes k n bs).length = n := by
  induction n generalizing bs with
  | zero => rfl
  | succ n ih => rw [wordsOfBytes, List.length_cons, ih]

/-- `parse_elems` into the memory of the container
    (`pbss-parse-container.hh`, lines 72–91). `resize` refuses more than
    `max_size()` elements, so the byte count fits `to_signed`. -/
def parseElemsBulk (k : ℕ) (valueInit : Bool) (size : SizeT) :
    Run σ (Vec (maxElems k) (BitVec (8 * k))) :=
  if h : size.toNat ≤ maxElems k then do
    let got ← InputStream.read ((k * size.toNat : ℕ) : ℤ)
    if ← eofOf then raise .earlyEofError
    else if got.length = k * size.toNat ∨ valueInit then
      pure ⟨wordsOfBytes k size.toNat got, by rwa [length_wordsOfBytes]⟩
    else undefined
  else raise .lengthError

/-- `parse_elems` with `push_back` (`pbss-parse-container.hh`, lines 51–60): more
    than `max_size()` elements are refused by `reserve`, or else by the
    `push_back` of the first one too many. -/
def parseElems {α : Type} (m : ℕ) (reserve : Bool) (parseElem : Run σ α) (size : SizeT) :
    Run σ (Vec m α) :=
  if h : size.toNat ≤ m then do
    let coll ← parseN parseElem size.toNat
    pure ⟨coll.1, by rwa [coll.2]⟩
  else if reserve then raise .lengthError
  else do
    let _ ← parseN parseElem (m + 1)
    raise .lengthError

/-- `parse` into a set or map, with `insert` (`pbss-parse-container.hh`,
    lines 102–112). -/
def parseInsert {α : Type} {lt : α → α → Bool} (hlt : StrictWeak lt) (parseElem : Run σ α)
    (size : SizeT) : Run σ (OrdSet lt) := do
  let coll ← parseN parseElem size.toNat
  pure (OrdSet.ofList hlt coll.1 (by rw [coll.2]; exact size.isLt))

/-- A `std::array` of `n` elements whose first ones have been assigned. -/
def fillArray {α : Type} (n : ℕ) (init : Option α) (l : List α) : Option (Fin n → α) :=
  if h : n ≤ l.length then some fun i => l.get ⟨i, lt_of_lt_of_le i.isLt h⟩
  else init.map fun x i => l.getD i x

/-- `parse` into a `std::array` (`pbss-parse-container.hh`, lines 102–112, with
    `maybe_insert` of `pbss-parse-container-fwd.hh`, lines 52–56): an element
    behind the last one is assigned outside the array. -/
def parseArray {α : Type} (n : ℕ) (init : Option α) (parseElem : Run σ α) (size : SizeT) :
    Run σ (Fin n → α) :=
  if size.toNat ≤ n then do
    let coll ← parseN parseElem size.toNat
    match fillArray n init coll.1 with
    | some v => pure v
    | none => undefined
  else do
    let _ ← parseN parseElem (n + 1)
    undefined

/-! ## Tagged structs -/

/-- `skip_chars` (`pbss-struct.hh`, lines 119–126). -/
def skipChars : ℕ → Run σ Unit
  | 0 => pure ()
  | n + 1 => do
    let _ ← InputStream.get
    skipChars n

/-- The loop of `skip_varuint` (`pbss-struct.hh`, lines 146–151). -/
def skipVarUintLoop : ℕ → Run σ Unit
  | 0 => throw .outOfFuel
  | fuel + 1 => do
    match ← InputStream.get with
    | none => raise .earlyEofError
    | some c => if c &&& 0x80 ≠ 0 then skipVarUintLoop fuel else pure ()

/-- `skip_varuint<Member>` (`pbss-struct.hh`, lines 128–152): for a member of
    fixed size, as many characters as its own length would take. -/
def skipVarUint {α : Type} (fuel : ℕ) (s : Ty α) : Run σ Unit :=
  match fixedSize s with
  | some size => skipChars (varUintStaticSize size).toNat
  | none => skipVarUintLoop fuel

/-- `parse_custom_struct_member` for an unrecognized tag (`pbss-struct.hh`,
    lines 154–162). -/
def skipMember (build : Build) (fuel : ℕ) : Run σ Unit := do
  let length ← readVarUint fuel 64
  InputStream.ignore (← toSigned build length)

/-- `parse_custom_struct` (`pbss-struct.hh`, lines 178–183); `parseMember` is
    `parse_custom_struct_member`. -/
def parseCustomStruct {τ : Type} (parseMember : Byte → τ → Run σ τ) : ℕ → τ → Run σ τ
  | 0, _ => throw .outOfFuel
  | fuel + 1, obj => do
    let id ← parseByte
    if id = 0 then pure obj
    else
      let obj ← parseMember id obj
      parseCustomStruct parseMember fuel obj

/-- `parse_custom_struct_with_fallback` (`pbss-struct.hh`, lines 204–211);
    `parseOptimistic` is `parse_custom_struct_optimistic`. -/
def parseCustomStructWithFallback {τ : Type} (parseOptimistic : τ → Run σ (τ × Byte))
    (parseMember : Byte → τ → Run σ τ) (fuel : ℕ) (obj : τ) : Run σ τ := do
  let (obj, id) ← parseOptimistic obj
  if id = 0 then pure obj
  else
    let obj ← parseMember id obj
    parseCustomStruct parseMember fuel obj

/-- `parse_custom_struct_optimistic_for_large` (`pbss-struct.hh`, lines 217–233),
    for a struct of `count` members. -/
def parseCustomStructOptimisticForLarge {τ : Type} (build : Build) (count : ℕ)
    (parseOptimistic : τ → Run σ (τ × Byte)) (parseMember : Byte → τ → Run σ τ) (fuel : ℕ)
    (obj : τ) : Run σ τ :=
  if count > build.optimisticThreshold then
    parseCustomStructWithFallback parseOptimistic parseMember fuel obj
  else parseCustomStruct parseMember fuel obj

/-! ## Values -/

namespace Fuel

mutual

/-- `parse<T>(stream)` with at most `fuel` rounds in each loop. -/
def parse (build : Build) (fuel : ℕ) : {α : Type} → Ty α → Run σ α
  | _, .arith p => readPrim p
  | _, .enum p _ enumerator _ => do return enumerator (← readPrim p)
  | _, .varUint w _ => readVarUint fuel w
  | _, .stdTuple e ms => do return e.symm (← readTuple build fuel ms)
  | _, .tupleStruct e ms => do return e.symm (← readTuple build fuel ms)
  | _, .contiguous k _ valueInit => do
    let size ← readVarUint fuel 64
    parseElemsBulk k valueInit size
  | _, .sequence m _ reserve s => do
    let size ← readVarUint fuel 64
    parseElems m reserve (parse build fuel s) size
  | _, .ordered _ hlt s => do
    let size ← readVarUint fuel 64
    parseInsert hlt (parse build fuel s) size
  | _, .array n _ init s => do
    let size ← readVarUint fuel 64
    parseArray n init (parse build fuel s) size
  | _, .taggedStruct e init ms => do
    return e.symm (← parseCustomStructOptimisticForLarge build ms.tags.length
      (parseCustomStructOptimistic build fuel ms) (parseCustomStructMember build fuel ms) fuel
      (e init))

/-- `read_tuple_continue` (`pbss-std-tuple.hh`, lines 57–72) and `parse_tuple`
    (`pbss-tuple.hh`, lines 74–81). -/
def readTuple (build : Build) (fuel : ℕ) : {τ : Type} → Tuple τ → Run σ τ
  | _, .nil => pure ()
  | _, .cons s ms => do
    let value ← parse build fuel s
    let values ← readTuple build fuel ms
    pure (value, values)

/-- `parse_custom_struct_member` (`pbss-struct.hh`, lines 154–176). -/
def parseCustomStructMember (build : Build) (fuel : ℕ) : {tags : List Byte} → {τ : Type} →
    Members tags τ → Byte → τ → Run σ τ
  | _, _, .nil, _, obj => do
    skipMember build fuel
    pure obj
  | _, _, .cons typeId _ _ s ms, id, obj =>
    if id = typeId then do
      skipVarUint fuel s
      let value ← parse build fuel s
      pure (value, obj.2)
    else do
      let rest ← parseCustomStructMember build fuel ms id obj.2
      pure (obj.1, rest)

/-- `parse_custom_struct_optimistic` (`pbss-struct.hh`, lines 185–202). Behind
    the last member it goes on with an empty list of members. -/
def parseCustomStructOptimistic (build : Build) (fuel : ℕ) : {tags : List Byte} → {τ : Type} →
    Members tags τ → τ → Run σ (τ × Byte)
  | _, _, .nil, obj => do
    let obj ← parseCustomStruct (fun _ obj => do skipMember build fuel; pure obj) fuel obj
    pure (obj, 0)
  | _, _, .cons typeId _ _ s ms, obj => do
    let id ← parseByte
    if id = typeId then do
      skipVarUint fuel s
      let value ← parse build fuel s
      let (rest, id) ← parseCustomStructOptimistic build fuel ms obj.2
      pure ((value, rest), id)
    else pure (obj, id)

end

end Fuel

/-- `parse<T>(stream)`. -/
def parse [ForwardInputStream σ] {α : Type} (build : Build) (s : Ty α) : Run σ α := fun stream =>
  Fuel.parse build (Measured.left stream + 1) s stream

end Model

end BambooShoot.Pbss
