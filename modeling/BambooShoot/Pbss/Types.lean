import BambooShoot.Pbss.Stream
import BambooShoot.Lib.Ordered
import Mathlib.Logic.Equiv.Defs

/-!
# Supported types

The types `serialize` and `parse` accept (`doc/pbss.md`, "Supported types"),
as a universe of descriptions: `Ty α` describes a C++ type whose values are
the Lean type `α`. An overload of the library is one constructor, and what the
overload resolution looks at (element width, comparator, member tags) is in
its arguments.

The values carry what their C++ type guarantees: the elements of a `Vec` fit
the container, those of an `OrdSet` are in ascending order, and the tags of
`Members` are distinct and not zero.
-/

namespace BambooShoot.Pbss

open BambooShoot.Lib

/-- `std::size_t`. -/
abbrev SizeT := BitVec 64

/-- The number of bytes of a serialization, as a `std::size_t`. -/
def byteCount (bs : List Byte) : SizeT := BitVec.ofNat 64 bs.length

/-! ## Values -/

/-- A type of `std::is_arithmetic`; a value other than a `bool` is its object
    representation. -/
inductive Arith : Type → Type
  | bool : Arith Bool
  | bits (k : ℕ) (hk : 0 < k) : Arith (BitVec (8 * k))

/-- `sizeof`. -/
def Arith.size : {α : Type} → Arith α → ℕ
  | _, .bool => 1
  | _, .bits k _ => k

/-- The object representation of a value. -/
def Arith.bytes : {α : Type} → Arith α → α → List Byte
  | _, .bool, b => [if b then 1 else 0]
  | _, .bits _ _, x => wordBytes x

/-- The value of an object representation. -/
def Arith.ofBytes : {α : Type} → Arith α → List Byte → α
  | _, .bool, bs => decide (bs ≠ [0])
  | _, .bits k _, bs => wordOfBytes k bs

@[simp] theorem Arith.length_bytes {α : Type} (p : Arith α) (v : α) :
    (p.bytes v).length = p.size := by
  cases p with
  | bool => rfl
  | bits k hk => exact length_wordBytes v

@[simp] theorem Arith.ofBytes_bytes {α : Type} (p : Arith α) (v : α) :
    p.ofBytes (p.bytes v) = v := by
  cases p with
  | bool => cases v <;> rfl
  | bits k hk => exact wordOfBytes_wordBytes v

/-- A container of at most `m` elements: `m` is its `max_size()`, and a
    `size()` is a `std::size_t`. -/
structure Vec (m : ℕ) (α : Type) where
  elems : List α
  bounded : elems.length ≤ m

/-- `size()`. -/
def Vec.size {m : ℕ} {α : Type} (v : Vec m α) : SizeT := BitVec.ofNat 64 v.elems.length

theorem Vec.ext {m : ℕ} {α : Type} {v w : Vec m α} (h : v.elems = w.elems) : v = w := by
  cases v
  cases w
  subst h
  rfl

/-- The elements of `l` a container of `m` elements has room for. -/
def Vec.ofList (m : ℕ) {α : Type} (l : List α) : Vec m α :=
  ⟨l.take m, by rw [List.length_take]; exact Nat.min_le_left _ _⟩

theorem Vec.ofList_elems {m : ℕ} {α : Type} {l : List α} (h : l.length ≤ m) :
    (Vec.ofList m l).elems = l :=
  List.take_of_length_le h

/-- `max_size()` of a `std::vector` of elements of `k` bytes: its byte count is
    a `std::ptrdiff_t`. -/
def maxElems (k : ℕ) : ℕ := (2 ^ 63 - 1) / k

theorem maxElems_lt (k : ℕ) : maxElems k < 2 ^ 64 := by
  have : maxElems k ≤ 2 ^ 63 - 1 := Nat.div_le_self _ _
  omega

/-- `pbss::buffer`, a vector of `uninitialized_byte` (`pbss.hh`, line 146). -/
abbrev Buffer := Vec (maxElems 1) (BitVec (8 * 1))

/-- The bytes of a buffer. -/
def Buffer.bytes (b : Buffer) : List Byte := b.elems

/-- A buffer of the bytes `bs`. -/
def Buffer.ofBytes (bs : List Byte) (h : bs.length ≤ maxElems 1) : Buffer := ⟨bs, h⟩

theorem maxElems_one : maxElems 1 = 2 ^ 63 - 1 := Nat.div_one _

theorem Buffer.length_le (b : Buffer) : b.bytes.length ≤ 2 ^ 63 - 1 :=
  le_of_le_of_eq b.bounded maxElems_one

/-- A `std::set`, or a `std::map` as the set of its pairs: the elements in the
    order of the comparator. -/
structure OrdSet {α : Type} (lt : α → α → Bool) where
  elems : List α
  ascending : Ascending lt elems
  bounded : elems.length < 2 ^ 64

/-- `size()`. -/
def OrdSet.size {α : Type} {lt : α → α → Bool} (v : OrdSet lt) : SizeT :=
  BitVec.ofNat 64 v.elems.length

theorem OrdSet.ext {α : Type} {lt : α → α → Bool} {v w : OrdSet lt} (h : v.elems = w.elems) :
    v = w := by
  cases v
  cases w
  subst h
  rfl

/-- The set that inserting the elements of `l` one by one builds. -/
def OrdSet.ofList {α : Type} {lt : α → α → Bool} (hlt : StrictWeak lt) (l : List α)
    (h : l.length < 2 ^ 64) : OrdSet lt where
  elems := l.foldl (fun l x => insertNew lt x l) []
  ascending := foldl_insertNew_ascending hlt l List.Pairwise.nil
  bounded := by
    have := length_foldl_insertNew_le lt l []
    simp only [List.length_nil] at this
    omega

theorem OrdSet.ofList_elems {α : Type} {lt : α → α → Bool} (hlt : StrictWeak lt) (v : OrdSet lt) :
    OrdSet.ofList hlt v.elems v.bounded = v :=
  OrdSet.ext (foldl_insertNew hlt v.elems (l := []) v.ascending)

/-! ## Descriptions -/

mutual

/-- A supported C++ type with values `α`. -/
inductive Ty : Type → Type 1
  /-- `pbss-primitives.hh`. -/
  | arith {α : Type} (p : Arith α) : Ty α
  /-- `pbss-enum.hh`: `value` and `enumerator` are the casts to and from the
      underlying type. -/
  | enum {α υ : Type} (p : Arith υ) (value : α → υ) (enumerator : υ → α)
      (cast_cast : ∀ a, enumerator (value a) = a) : Ty α
  /-- `pbss-var-uint.hh`: `var_uint` of an unsigned type of `w` bits. -/
  | varUint (w : ℕ) (hw : 8 ≤ w) : Ty (BitVec w)
  /-- `pbss-std-tuple.hh`: a pair or tuple with values `S`. -/
  | stdTuple {S τ : Type} (e : S ≃ τ) (ms : Tuple τ) : Ty S
  /-- `pbss-tuple.hh`: a struct with `PBSS_TUPLE_MEMBERS`. -/
  | tupleStruct {S τ : Type} (e : S ≃ τ) (ms : Tuple τ) : Ty S
  /-- A contiguous `push_back` container of elements of memory layout:
      `std::vector`, `std::string`, `pbss::buffer`. `valueInit` says whether
      `resize` initialises new elements (it does not for `uninitialized_byte`). -/
  | contiguous (k : ℕ) (hk : 0 < k) (valueInit : Bool) : Ty (Vec (maxElems k) (BitVec (8 * k)))
  /-- Any other `push_back` container; `reserve` says whether it has `reserve`. -/
  | sequence {α : Type} (m : ℕ) (hm : m < 2 ^ 64) (reserve : Bool) (s : Ty α) : Ty (Vec m α)
  /-- `std::set` and `std::map`. -/
  | ordered {α : Type} (lt : α → α → Bool) (hlt : StrictWeak lt) (s : Ty α) : Ty (OrdSet lt)
  /-- `std::array`; `init` is a default-initialised element, `none` where that
      is an indeterminate value. -/
  | array {α : Type} (n : ℕ) (hn : n < 2 ^ 64) (init : Option α) (s : Ty α) : Ty (Fin n → α)
  /-- `pbss-struct.hh`: a struct with `PBSS_TAGGED_STRUCT`, whose
      value-initialised object is `init`. -/
  | taggedStruct {S τ : Type} {tags : List Byte} (e : S ≃ τ) (init : S) (ms : Members tags τ) :
      Ty S

/-- The member types of a tuple, with values in the product `τ`. -/
inductive Tuple : Type → Type 1
  | nil : Tuple Unit
  | cons {α τ : Type} (s : Ty α) (ms : Tuple τ) : Tuple (α × τ)

/-- `serialize_members_tag`: the tagged members of a struct. -/
inductive Members : List Byte → Type → Type 1
  | nil : Members [] Unit
  | cons {α τ : Type} {tags : List Byte} (id : Byte) (id_ne_zero : id ≠ 0)
      (id_not_mem : id ∉ tags) (s : Ty α) (ms : Members tags τ) : Members (id :: tags) (α × τ)

end

/-! The tags of small structs. -/

theorem Members.one_ne_zero : (1 : Byte) ≠ 0 := by decide

theorem Members.two_ne_zero : (2 : Byte) ≠ 0 := by decide

theorem Members.one_not_mem_nil : (1 : Byte) ∉ ([] : List Byte) := List.not_mem_nil

theorem Members.two_not_mem_nil : (2 : Byte) ∉ ([] : List Byte) := List.not_mem_nil

theorem Members.one_not_mem_two : (1 : Byte) ∉ [(2 : Byte)] := by decide

/-- The tags of the members. -/
def Members.tags {tags : List Byte} {τ : Type} (_ : Members tags τ) : List Byte := tags

theorem Members.zero_not_mem : {tags : List Byte} → {τ : Type} → Members tags τ → 0 ∉ tags
  | _, _, .nil => List.not_mem_nil
  | _, _, .cons _ h0 _ _ ms => by
    rw [List.mem_cons, not_or]
    exact ⟨h0.symm, ms.zero_not_mem⟩

theorem Members.nodup : {tags : List Byte} → {τ : Type} → Members tags τ → tags.Nodup
  | _, _, .nil => List.nodup_nil
  | _, _, .cons _ _ hn _ ms => List.nodup_cons.mpr ⟨hn, ms.nodup⟩

/-- `is_memory_layout` (`pbss.hh`, line 89; `pbss-primitives.hh`, line 92). -/
def isMemoryLayout : {α : Type} → Ty α → Bool
  | _, .arith _ => true
  | _, _ => false

/-- The object representation of a value whose type is a memory layout. -/
def layoutBytes : {α : Type} → Ty α → α → List Byte
  | _, .arith p, v => p.bytes v
  | _, _, _ => []

end BambooShoot.Pbss
