import BambooShoot.Pbss.VarUint
import Mathlib.Data.BitVec

/-!
# The serialization format

What a value is written as, after `doc/serialization.md`, "Format": `bytes s v`
for a value `v` of a type described by `s`. The document fixes neither the
order of the members of a tagged struct (the code keeps their declaration
order) nor the width of a length (the code computes it as a `std::size_t`).
-/

namespace BambooShoot.Pbss

open BambooShoot.Lib

/-- The serialization of a member with its length in front. -/
def withLength (bs : List Byte) : List Byte := base128 (byteCount bs).toNat ++ bs

/-- A tagged member: its tag, its length and its serialization. -/
def field (id : Byte) (bs : List Byte) : List Byte := id :: withLength bs

mutual

/-- The serialization of a value. -/
def bytes : {α : Type} → Ty α → α → List Byte
  | _, .arith p, v => p.bytes v
  | _, .enum p value _ _, v => p.bytes (value v)
  | _, .varUint _ _, v => base128 v.toNat
  | _, .stdTuple e ms, v => tupleBytes ms (e v)
  | _, .tupleStruct e ms, v => tupleBytes ms (e v)
  | _, .contiguous _ _ _, v => base128 v.size.toNat ++ v.elems.flatMap wordBytes
  | _, .sequence _ _ _ s, v => base128 v.size.toNat ++ v.elems.flatMap (bytes s)
  | _, .ordered _ _ s, v => base128 v.size.toNat ++ v.elems.flatMap (bytes s)
  | _, .array n _ _ s, v => base128 (BitVec.ofNat 64 n).toNat ++ (List.ofFn v).flatMap (bytes s)
  | _, .taggedStruct e _ ms, v => memberBytes ms (e v) ++ [0]

/-- The serializations of the members of a tuple, one after the other. -/
def tupleBytes : {τ : Type} → Tuple τ → τ → List Byte
  | _, .nil, _ => []
  | _, .cons s ms, v => bytes s v.1 ++ tupleBytes ms v.2

/-- The members of a tagged struct, without the end mark. -/
def memberBytes : {tags : List Byte} → {τ : Type} → Members tags τ → τ → List Byte
  | _, _, .nil, _ => []
  | _, _, .cons id _ _ s ms, v => field id (bytes s v.1) ++ memberBytes ms v.2

end

@[simp] theorem byteCount_append (bs cs : List Byte) :
    byteCount (bs ++ cs) = byteCount bs + byteCount cs := by
  rw [byteCount, List.length_append, BitVec.ofNat_add]
  rfl

@[simp] theorem byteCount_cons (b : Byte) (bs : List Byte) :
    byteCount (b :: bs) = 1 + byteCount bs := byteCount_append [b] bs

theorem byteCount_flatMap {α : Type} (f : α → List Byte) (l : List α) :
    byteCount (l.flatMap f) = (l.map fun a => byteCount (f a)).sum := by
  induction l with
  | nil => rfl
  | cons a l ih => rw [List.flatMap_cons, byteCount_append, ih, List.map_cons, List.sum_cons]

/-- The count of bytes that fit a `std::size_t` is exact. -/
theorem toNat_byteCount {bs : List Byte} (h : bs.length < 2 ^ 64) :
    (byteCount bs).toNat = bs.length := by
  rw [byteCount, BitVec.toNat_ofNat, Nat.mod_eq_of_lt h]

end BambooShoot.Pbss
