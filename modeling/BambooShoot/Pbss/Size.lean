import BambooShoot.Pbss.Format

/-!
# Sizes

Models of the three families of size functions (`pbss.hh`, lines 65–81):
`fixed_size`, which does not look at the value, `static_size`, known at compile
time, and `aot_size`; an overload that SFINAE removes is a `none`. All of them
compute in `std::size_t`.

Results: `fixedSize_eq`, `staticSize_eq`, `aotSize_eq`: each of them is the
number of bytes of the serialization.
-/

namespace BambooShoot.Pbss

open BambooShoot.Lib

/-! ## Model -/

/-- `pbsu::sumall` (`functional.hh`): there is no sum of an empty pack. -/
def sumall : List SizeT → Option SizeT
  | [] => none
  | [n] => some n
  | n :: rest => (sumall rest).map (n + ·)

/-- `member_fixed_size` of a tagged member (`pbss-struct.hh`, lines 239–250)
    whose type has fixed size `n`. -/
def memberFixedSize (n : SizeT) : SizeT := 1 + varUintStaticSize n + n

/-- `member_aot_size` of a tagged member (`pbss-struct.hh`, lines 257–263)
    whose `aot_size` is `memberSize`. -/
def memberAotSize (memberSize : SizeT) : SizeT := 1 + varUintAotSize memberSize + memberSize

mutual

/-- `fixed_size` (`pbss-primitives.hh`, line 87; `pbss-enum.hh`, line 46;
    `pbss-std-tuple.hh`, line 112; `pbss-tuple.hh`, line 131; `pbss-struct.hh`,
    line 299). -/
def fixedSize : {α : Type} → Ty α → Option SizeT
  | _, .arith p => some (BitVec.ofNat 64 p.size)
  | _, .enum p _ _ _ => some (BitVec.ofNat 64 p.size)
  | _, .stdTuple _ ms => (tupleFixedSizes ms).bind sumall
  | _, .tupleStruct _ ms => (tupleFixedSizes ms).bind sumall
  | _, .taggedStruct _ _ ms => ((memberFixedSizes ms).bind sumall).map (· + 1)
  | _, _ => none

/-- The pack `tuple_member_fixed_size<Tuple, i>::value...`. -/
def tupleFixedSizes : {τ : Type} → Tuple τ → Option (List SizeT)
  | _, .nil => some []
  | _, .cons s ms =>
    (fixedSize s).bind fun n => (tupleFixedSizes ms).map fun ns => n :: ns

/-- The pack `member_fixed_size(Tag())...`. -/
def memberFixedSizes : {tags : List Byte} → {τ : Type} → Members tags τ → Option (List SizeT)
  | _, _, .nil => some []
  | _, _, .cons _ _ _ s ms =>
    (fixedSize s).bind fun n => (memberFixedSizes ms).map fun ns => memberFixedSize n :: ns

end

mutual

/-- `static_size` (`pbss-size.hh`, line 34; `pbss-var-uint.hh`, line 133;
    `pbss-std-tuple.hh`, line 122). -/
def staticSize : {α : Type} → Ty α → α → Option SizeT
  | _, .varUint _ _, v => some (varUintStaticSize v)
  | _, .stdTuple e ms, v =>
    match fixedSize (.stdTuple e ms) with
    | some n => some n
    | none => (tupleStaticSizes ms (e v)).bind sumall
  | _, s, _ => fixedSize s

/-- The pack `static_size(std::get<i>(t), adl_ns_tag())...`. -/
def tupleStaticSizes : {τ : Type} → Tuple τ → τ → Option (List SizeT)
  | _, .nil, _ => some []
  | _, .cons s ms, v =>
    (staticSize s v.1).bind fun n => (tupleStaticSizes ms v.2).map fun ns => n :: ns

end

/-- `aot_size` of a container of `n` elements whose `aot_size`s are `sizes`
    (`pbss-serialize-iterable.hh`, lines 121–150). -/
def containerAotSize (n : SizeT) (elemFixedSize : Option SizeT) (sizes : List SizeT) : SizeT :=
  match elemFixedSize with
  | some size => varUintAotSize n + n * size
  | none => sizes.foldl (fun s size => s + size) (varUintAotSize n)

mutual

/-- `aot_size` (`pbss-size.hh`, line 41; `pbss-var-uint.hh`, line 141;
    `pbss-std-tuple.hh`, line 134; `pbss-tuple.hh`, line 135;
    `pbss-serialize-iterable.hh`, lines 121–150; `pbss-struct.hh`, line 303). A
    type with an empty pack of members has no `aot_size` and cannot be a member
    itself; its pack counts as nothing here. -/
def aotSize : {α : Type} → Ty α → α → SizeT
  | _, .arith p, _ => BitVec.ofNat 64 p.size
  | _, .enum p _ _ _, _ => BitVec.ofNat 64 p.size
  | _, .varUint _ _, v => varUintAotSize v
  | _, .stdTuple e ms, v =>
    match staticSize (.stdTuple e ms) v with
    | some n => n
    | none => (sumall (tupleAotSizes ms (e v))).getD 0
  | _, .tupleStruct e ms, v =>
    match fixedSize (.tupleStruct e ms) with
    | some n => n
    | none => (sumall (tupleAotSizes ms (e v))).getD 0
  | _, .contiguous k _ _, v => containerAotSize v.size (some (BitVec.ofNat 64 k)) []
  | _, .sequence _ _ _ s, v => containerAotSize v.size (fixedSize s) (v.elems.map (aotSize s))
  | _, .ordered _ _ s, v => containerAotSize v.size (fixedSize s) (v.elems.map (aotSize s))
  | _, .array n _ _ s, v =>
    containerAotSize (BitVec.ofNat 64 n) (fixedSize s) ((List.ofFn v).map (aotSize s))
  | _, .taggedStruct e init ms, v =>
    match fixedSize (.taggedStruct e init ms) with
    | some n => n
    | none => (sumall (memberAotSizes ms (e v))).getD 0 + 1

/-- The pack `aot_size(std::get<i>(t), adl_ns_tag())...`. -/
def tupleAotSizes : {τ : Type} → Tuple τ → τ → List SizeT
  | _, .nil, _ => []
  | _, .cons s ms, v => aotSize s v.1 :: tupleAotSizes ms v.2

/-- The pack `member_aot_size(obj, Tag())...`. -/
def memberAotSizes : {tags : List Byte} → {τ : Type} → Members tags τ → τ → List SizeT
  | _, _, .nil, _ => []
  | _, _, .cons _ _ _ s ms, v => memberAotSize (aotSize s v.1) :: memberAotSizes ms v.2

end

/-! ## Packs -/

theorem sumall_cons (n : SizeT) (rest : List SizeT) :
    sumall (n :: rest) = some (n + rest.sum) := by
  induction rest generalizing n with
  | nil => simp [sumall]
  | cons m rest ih =>
    rw [sumall, ih m, Option.map_some, List.sum_cons]
    exact List.cons_ne_nil m rest

theorem sumall_eq {l : List SizeT} {n : SizeT} (h : sumall l = some n) : l.sum = n := by
  cases l with
  | nil => cases h
  | cons m l =>
    rw [sumall_cons, Option.some_inj] at h
    rw [List.sum_cons, h]

theorem ne_nil_of_sumall {l : List SizeT} {n : SizeT} (h : sumall l = some n) : l ≠ [] := by
  rintro rfl
  cases h

theorem sumall_getD (l : List SizeT) : (sumall l).getD 0 = l.sum := by
  cases l with
  | nil => rfl
  | cons m l => rw [sumall_cons, Option.getD_some, List.sum_cons]

theorem memberAotSize_eq (n : SizeT) : memberAotSize n = memberFixedSize n := by
  rw [memberAotSize, memberFixedSize, varUintAotSize_eq (by norm_num),
    varUintStaticSize_eq (by norm_num)]

theorem byteCount_field (id : Byte) (bs : List Byte) :
    byteCount (field id bs) = memberFixedSize (byteCount bs) := by
  rw [field, withLength, byteCount_cons, byteCount_append, memberFixedSize,
    varUintStaticSize_eq (by norm_num), BitVec.add_assoc]

/-! ## Fixed sizes -/

mutual

/-- Every value of a type with `fixed_size` takes exactly that many bytes. -/
theorem fixedSize_eq : {α : Type} → (s : Ty α) → {n : SizeT} → fixedSize s = some n →
    ∀ v, byteCount (bytes s v) = n
  | _, .arith p, n, h, v => by
    rw [fixedSize, Option.some_inj] at h
    rw [bytes, byteCount, p.length_bytes, h]
  | _, .enum p value _ _, n, h, v => by
    rw [fixedSize, Option.some_inj] at h
    rw [bytes, byteCount, p.length_bytes, h]
  | _, .stdTuple e ms, n, h, v => by
    rw [fixedSize, Option.bind_eq_some_iff] at h
    obtain ⟨ns, hns, hn⟩ := h
    rw [bytes, tupleFixedSizes_eq ms hns, sumall_eq hn]
  | _, .tupleStruct e ms, n, h, v => by
    rw [fixedSize, Option.bind_eq_some_iff] at h
    obtain ⟨ns, hns, hn⟩ := h
    rw [bytes, tupleFixedSizes_eq ms hns, sumall_eq hn]
  | _, .taggedStruct e init ms, n, h, v => by
    rw [fixedSize, Option.map_eq_some_iff] at h
    obtain ⟨m, hm, rfl⟩ := h
    obtain ⟨ns, hns, hn⟩ := Option.bind_eq_some_iff.mp hm
    rw [bytes, byteCount_append, memberFixedSizes_eq ms hns, sumall_eq hn]
    rfl
  | _, .varUint _ _, _, h, _ | _, .contiguous _ _ _, _, h, _ | _, .sequence _ _ _ _, _, h, _
  | _, .ordered _ _ _, _, h, _ | _, .array _ _ _ _, _, h, _ => by simp [fixedSize] at h

theorem tupleFixedSizes_eq : {τ : Type} → (ms : Tuple τ) → {ns : List SizeT} →
    tupleFixedSizes ms = some ns → ∀ v, byteCount (tupleBytes ms v) = ns.sum
  | _, .nil, ns, h, v => by
    rw [tupleFixedSizes, Option.some_inj] at h
    rw [← h]
    rfl
  | _, .cons s ms, ns, h, v => by
    rw [tupleFixedSizes, Option.bind_eq_some_iff] at h
    obtain ⟨n, hn, h⟩ := h
    obtain ⟨ns, hns, rfl⟩ := Option.map_eq_some_iff.mp h
    rw [tupleBytes, byteCount_append, fixedSize_eq s hn, tupleFixedSizes_eq ms hns, List.sum_cons]

theorem memberFixedSizes_eq : {tags : List Byte} → {τ : Type} → (ms : Members tags τ) →
    {ns : List SizeT} → memberFixedSizes ms = some ns →
    ∀ v, byteCount (memberBytes ms v) = ns.sum
  | _, _, .nil, ns, h, v => by
    rw [memberFixedSizes, Option.some_inj] at h
    rw [← h]
    rfl
  | _, _, .cons id _ _ s ms, ns, h, v => by
    rw [memberFixedSizes, Option.bind_eq_some_iff] at h
    obtain ⟨n, hn, h⟩ := h
    obtain ⟨ns, hns, rfl⟩ := Option.map_eq_some_iff.mp h
    rw [memberBytes, byteCount_append, byteCount_field, fixedSize_eq s hn,
      memberFixedSizes_eq ms hns, List.sum_cons]

end

/-! ## Static sizes -/

mutual

/-- Where there is a `static_size`, it is the number of bytes. -/
theorem staticSize_eq : {α : Type} → (s : Ty α) → (v : α) → {n : SizeT} →
    staticSize s v = some n → byteCount (bytes s v) = n
  | _, .varUint w hw, v, n, h => by
    rw [staticSize, Option.some_inj] at h
    rw [bytes, ← varUintStaticSize_eq hw, h]
  | _, .stdTuple e ms, v, n, h => by
    rw [staticSize] at h
    cases hf : fixedSize (.stdTuple e ms) with
    | some m =>
      rw [hf] at h
      rw [← Option.some_inj.mp h, fixedSize_eq _ hf]
    | none =>
      rw [hf] at h
      obtain ⟨ns, hns, hn⟩ := Option.bind_eq_some_iff.mp h
      rw [bytes, tupleStaticSizes_eq ms _ hns, sumall_eq hn]
  | _, .arith p, v, n, h => fixedSize_eq _ h v
  | _, .enum p value x y, v, n, h => fixedSize_eq (.enum p value x y) h v
  | _, .tupleStruct e ms, v, n, h => fixedSize_eq (.tupleStruct e ms) h v
  | _, .taggedStruct e init ms, v, n, h => fixedSize_eq (.taggedStruct e init ms) h v
  | _, .contiguous _ _ _, _, _, h | _, .sequence _ _ _ _, _, _, h
  | _, .ordered _ _ _, _, _, h | _, .array _ _ _ _, _, _, h => by
    simp [staticSize, fixedSize] at h

theorem tupleStaticSizes_eq : {τ : Type} → (ms : Tuple τ) → (v : τ) → {ns : List SizeT} →
    tupleStaticSizes ms v = some ns → byteCount (tupleBytes ms v) = ns.sum
  | _, .nil, v, ns, h => by
    rw [tupleStaticSizes, Option.some_inj] at h
    rw [← h]
    rfl
  | _, .cons s ms, v, ns, h => by
    rw [tupleStaticSizes, Option.bind_eq_some_iff] at h
    obtain ⟨n, hn, h⟩ := h
    obtain ⟨ns, hns, rfl⟩ := Option.map_eq_some_iff.mp h
    rw [tupleBytes, byteCount_append, staticSize_eq s _ hn, tupleStaticSizes_eq ms _ hns,
      List.sum_cons]

end

/-! ## Ahead-of-time sizes -/

theorem foldl_add_sizes (sizes : List SizeT) (s : SizeT) :
    sizes.foldl (fun s size => s + size) s = s + sizes.sum := by
  induction sizes generalizing s with
  | nil => exact (BitVec.add_zero s).symm
  | cons size sizes ih => rw [List.foldl_cons, ih, List.sum_cons, BitVec.add_assoc]

/-- Elements of one size. -/
theorem byteCount_flatMap_const {α : Type} {f : α → List Byte} {size : SizeT}
    (h : ∀ a, byteCount (f a) = size) (l : List α) :
    byteCount (l.flatMap f) = BitVec.ofNat 64 l.length * size := by
  induction l with
  | nil => exact (BitVec.zero_mul).symm
  | cons a l ih =>
    rw [List.flatMap_cons, byteCount_append, h, ih, List.length_cons, BitVec.ofNat_add,
      BitVec.add_mul, BitVec.add_comm]
    simp

/-- Both overloads for containers count the bytes of the elements. -/
theorem containerAotSize_eq {α : Type} {s : Ty α} {sizes : List SizeT} (l : List α)
    (hsizes : fixedSize s = none → sizes = l.map fun a => byteCount (bytes s a)) :
    containerAotSize (BitVec.ofNat 64 l.length) (fixedSize s) sizes =
      byteCount (base128 (BitVec.ofNat 64 l.length).toNat ++ l.flatMap (bytes s)) := by
  rw [byteCount_append, ← varUintAotSize_eq (by norm_num)]
  cases hf : fixedSize s with
  | some n => rw [byteCount_flatMap_const (fixedSize_eq s hf), containerAotSize]
  | none => rw [containerAotSize, foldl_add_sizes, hsizes hf, byteCount_flatMap]

mutual

/-- `aot_size` is the number of bytes. -/
theorem aotSize_eq : {α : Type} → (s : Ty α) → (v : α) → aotSize s v = byteCount (bytes s v)
  | _, .arith p, v => (fixedSize_eq (.arith p) rfl v).symm
  | _, .enum p value x y, v => (fixedSize_eq (.enum p value x y) rfl v).symm
  | _, .varUint w hw, v => varUintAotSize_eq hw v
  | _, .stdTuple e ms, v => by
    rw [aotSize]
    cases h : staticSize (.stdTuple e ms) v with
    | some n => exact (staticSize_eq _ v h).symm
    | none =>
      rw [sumall_getD, tupleAotSizes_eq ms, bytes]
  | _, .tupleStruct e ms, v => by
    rw [aotSize]
    cases h : fixedSize (.tupleStruct e ms) with
    | some n => exact (fixedSize_eq _ h v).symm
    | none =>
      rw [sumall_getD, tupleAotSizes_eq ms, bytes]
  | _, .contiguous k hk _, v => by
    rw [aotSize, bytes, Vec.size]
    exact containerAotSize_eq (s := .arith (.bits k hk)) v.elems (by simp [fixedSize])
  | _, .sequence m _ _ s, v => by
    rw [aotSize, bytes, Vec.size]
    exact containerAotSize_eq v.elems fun _ => List.map_congr_left fun a _ => aotSize_eq s a
  | _, .ordered lt _ s, v => by
    rw [aotSize, bytes, OrdSet.size]
    exact containerAotSize_eq v.elems fun _ => List.map_congr_left fun a _ => aotSize_eq s a
  | _, .array n _ _ s, v => by
    have h : containerAotSize (BitVec.ofNat 64 (List.ofFn v).length) (fixedSize s)
        ((List.ofFn v).map (aotSize s)) = _ :=
      containerAotSize_eq (List.ofFn v) fun _ => List.map_congr_left fun a _ => aotSize_eq s a
    rw [List.length_ofFn] at h
    rw [aotSize, bytes, h]
  | _, .taggedStruct e init ms, v => by
    rw [aotSize]
    cases h : fixedSize (.taggedStruct e init ms) with
    | some n => exact (fixedSize_eq _ h v).symm
    | none =>
      rw [sumall_getD, memberAotSizes_eq ms, bytes, byteCount_append]
      rfl

theorem tupleAotSizes_eq : {τ : Type} → (ms : Tuple τ) → (v : τ) →
    (tupleAotSizes ms v).sum = byteCount (tupleBytes ms v)
  | _, .nil, _ => rfl
  | _, .cons s ms, v => by
    rw [tupleAotSizes, List.sum_cons, aotSize_eq s, tupleAotSizes_eq ms, tupleBytes,
      byteCount_append]

theorem memberAotSizes_eq : {tags : List Byte} → {τ : Type} → (ms : Members tags τ) → (v : τ) →
    (memberAotSizes ms v).sum = byteCount (memberBytes ms v)
  | _, _, .nil, _ => rfl
  | _, _, .cons id _ _ s ms, v => by
    rw [memberAotSizes, List.sum_cons, aotSize_eq s, memberAotSizes_eq ms, memberBytes,
      byteCount_append, byteCount_field, memberAotSize_eq]

end

end BambooShoot.Pbss
