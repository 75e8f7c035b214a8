import BambooShoot.Pbss.Format
import BambooShoot.Pbss.Size

/-!
# Evolution of types

`Evolves s t` says that a type `s` of a writer and a type `t` of a reader have
the same shape, except that tagged structs may have different members: the
writer may have members the reader does not know, lack members the reader has,
and declare them in another order, at any depth.

* `restrict h v`: the value `v` of the writer as the reader sees it, with the
  reader's value-initialised member where the writer has none;
* `Agrees h v`: where the reader knows the size of a member, the writer's
  member has a length of as many digits;
* `Evolves.refl`: a type is an evolution of itself, `restrict_refl` and
  `agrees_refl` say what that means for its values.
-/

namespace BambooShoot.Pbss

open BambooShoot.Lib

/-! ## Members by tag -/

/-- `ms` has a member of type `s` with tag `id`. -/
inductive Members.At : {tags : List Byte} → {τ : Type} → Members tags τ → Byte →
    {α : Type} → Ty α → Type 1
  | here {id : Byte} {α τ : Type} {tags : List Byte} {h0 : id ≠ 0} {hn : id ∉ tags} {s : Ty α}
      {ms : Members tags τ} : Members.At (.cons id h0 hn s ms) id s
  | there {id id' : Byte} {α β τ : Type} {tags : List Byte} {h0 : id' ≠ 0} {hn : id' ∉ tags}
      {s : Ty α} {s' : Ty β} {ms : Members tags τ} (h : Members.At ms id s) :
      Members.At (.cons id' h0 hn s' ms) id s

/-- The value of that member. -/
def Members.At.get : {tags : List Byte} → {τ : Type} → {ms : Members tags τ} → {id : Byte} →
    {α : Type} → {s : Ty α} → Members.At ms id s → τ → α
  | _, _, _, _, _, _, .here, v => v.1
  | _, _, _, _, _, _, .there h, v => h.get v.2

theorem Members.At.mem {tags : List Byte} {τ : Type} {ms : Members tags τ} {id : Byte} {α : Type}
    {s : Ty α} (h : Members.At ms id s) : id ∈ tags := by
  induction h with
  | here => exact List.mem_cons_self
  | there _ ih => exact List.mem_cons_of_mem _ ih

theorem Members.exists_at : {tags : List Byte} → {τ : Type} → (ms : Members tags τ) → {id : Byte} →
    id ∈ tags → ∃ (α : Type) (s : Ty α), Nonempty (ms.At id s)
  | _, _, .cons id' _ _ s ms, id, hmem => by
    rcases List.mem_cons.mp hmem with rfl | htail
    · exact ⟨_, s, ⟨.here⟩⟩
    · obtain ⟨α, t, ⟨member⟩⟩ := ms.exists_at htail
      exact ⟨α, t, ⟨.there member⟩⟩

/-- The serialization of the member with tag `i`. -/
def memberBytesAt : {tags : List Byte} → {τ : Type} → Members tags τ → τ → Byte → List Byte
  | _, _, .nil, _, _ => []
  | _, _, .cons id _ _ s ms, v, i => if i = id then bytes s v.1 else memberBytesAt ms v.2 i

theorem Members.At.bytes_get {tags : List Byte} {τ : Type} {ms : Members tags τ} {id : Byte}
    {α : Type} {s : Ty α} (h : Members.At ms id s) (v : τ) :
    memberBytesAt ms v id = bytes s (h.get v) := by
  induction h with
  | here => rw [memberBytesAt, if_pos rfl, Members.At.get]
  | @there id id' _ _ _ tags _ hn _ _ _ h ih =>
    have hne : id ≠ id' := fun he => hn (he ▸ h.mem)
    rw [memberBytesAt, if_neg hne, ih, Members.At.get]

/-- The members are written in the order of their tags. -/
theorem memberBytes_eq : {tags : List Byte} → {τ : Type} → (ms : Members tags τ) → (v : τ) →
    memberBytes ms v = tags.flatMap fun i => field i (memberBytesAt ms v i)
  | _, _, .nil, _ => rfl
  | _, _, .cons id h0 hn s ms, (a, v) => by
    have htail : (ms.tags.flatMap fun i => field i (memberBytesAt (.cons id h0 hn s ms) (a, v) i)) =
        ms.tags.flatMap fun i => field i (memberBytesAt ms v i) := by
      refine List.flatMap_congr fun i hi => ?_
      have hne : i ≠ id := fun he => hn (he ▸ hi)
      rw [memberBytesAt, if_neg hne]
    rw [List.flatMap_cons, memberBytes, memberBytes_eq ms v, memberBytesAt, if_pos rfl]
    exact congrArg _ htail.symm

/-! ## Evolutions -/

mutual

/-- A writer's type and a reader's type that differ in the members of tagged
    structs only. -/
inductive Evolves : {α β : Type} → Ty α → Ty β → Type 1
  | arith {α : Type} (p : Arith α) : Evolves (.arith p) (.arith p)
  | enum {α υ : Type} (p : Arith υ) (value : α → υ) (enumerator : υ → α)
      (h : ∀ a, enumerator (value a) = a) :
      Evolves (.enum p value enumerator h) (.enum p value enumerator h)
  | varUint (w : ℕ) (hw : 8 ≤ w) : Evolves (.varUint w hw) (.varUint w hw)
  | stdTuple {S S' τ τ' : Type} (e : S ≃ τ) (e' : S' ≃ τ') {ms : Tuple τ} {ms' : Tuple τ'}
      (h : EvolvesTuple ms ms') : Evolves (.stdTuple e ms) (.stdTuple e' ms')
  | tupleStruct {S S' τ τ' : Type} (e : S ≃ τ) (e' : S' ≃ τ') {ms : Tuple τ} {ms' : Tuple τ'}
      (h : EvolvesTuple ms ms') : Evolves (.tupleStruct e ms) (.tupleStruct e' ms')
  | contiguous (k : ℕ) (hk : 0 < k) (valueInit : Bool) :
      Evolves (.contiguous k hk valueInit) (.contiguous k hk valueInit)
  | sequence {α β : Type} {s : Ty α} {t : Ty β} (m m' : ℕ) (hm : m < 2 ^ 64) (hm' : m' < 2 ^ 64)
      (reserve reserve' : Bool) (h : Evolves s t) :
      Evolves (.sequence m hm reserve s) (.sequence m' hm' reserve' t)
  | ordered {α β : Type} {s : Ty α} {t : Ty β} (lt : α → α → Bool) (lt' : β → β → Bool)
      (hlt : StrictWeak lt) (hlt' : StrictWeak lt') (h : Evolves s t) :
      Evolves (.ordered lt hlt s) (.ordered lt' hlt' t)
  | array {α β : Type} {s : Ty α} {t : Ty β} (n : ℕ) (hn : n < 2 ^ 64) (init : Option α)
      (init' : Option β) (h : Evolves s t) : Evolves (.array n hn init s) (.array n hn init' t)
  | taggedStruct {S S' τ τ' : Type} {tags tags' : List Byte} (e : S ≃ τ) (e' : S' ≃ τ') (init : S)
      (init' : S') {ms : Members tags τ} {ms' : Members tags' τ'} (h : EvolvesMembers ms ms') :
      Evolves (.taggedStruct e init ms) (.taggedStruct e' init' ms')

/-- Evolution member by member. -/
inductive EvolvesTuple : {τ τ' : Type} → Tuple τ → Tuple τ' → Type 1
  | nil : EvolvesTuple .nil .nil
  | cons {α β τ τ' : Type} {s : Ty α} {t : Ty β} {ms : Tuple τ} {ms' : Tuple τ'}
      (h : Evolves s t) (hs : EvolvesTuple ms ms') : EvolvesTuple (.cons s ms) (.cons t ms')

/-- Where each member of the reader comes from: a member of the writer with
    the same tag, or nowhere. -/
inductive EvolvesMembers : {tags : List Byte} → {τ : Type} → Members tags τ →
    {tags' : List Byte} → {τ' : Type} → Members tags' τ' → Type 1
  | nil {tags : List Byte} {τ : Type} (ms : Members tags τ) : EvolvesMembers ms .nil
  | common {α β τ τ' : Type} {tags tags' : List Byte} {id : Byte} {ms : Members tags τ}
      {s : Ty α} {t : Ty β} {ms' : Members tags' τ'} (h0 : id ≠ 0) (hn : id ∉ tags')
      (member : Members.At ms id s) (h : Evolves s t) (hs : EvolvesMembers ms ms') :
      EvolvesMembers ms (.cons id h0 hn t ms')
  | lacking {β τ τ' : Type} {tags tags' : List Byte} {id : Byte} {ms : Members tags τ}
      {t : Ty β} {ms' : Members tags' τ'} (h0 : id ≠ 0) (hn : id ∉ tags') (hlack : id ∉ tags)
      (hs : EvolvesMembers ms ms') : EvolvesMembers ms (.cons id h0 hn t ms')

end

mutual

/-- The value of the writer restricted to the members of the reader. -/
def restrict : {α β : Type} → {s : Ty α} → {t : Ty β} → Evolves s t → α → β
  | _, _, _, _, .arith _, v => v
  | _, _, _, _, .enum _ _ _ _, v => v
  | _, _, _, _, .varUint _ _, v => v
  | _, _, _, _, .stdTuple e e' h, v => e'.symm (restrictTuple h (e v))
  | _, _, _, _, .tupleStruct e e' h, v => e'.symm (restrictTuple h (e v))
  | _, _, _, _, .contiguous _ _ _, v => v
  | _, _, _, _, .sequence _ m' _ _ _ _ h, v => Vec.ofList m' (v.elems.map (restrict h))
  | _, _, _, _, .ordered _ _ _ hlt' h, v =>
    OrdSet.ofList hlt' (v.elems.map (restrict h)) (by rw [List.length_map]; exact v.bounded)
  | _, _, _, _, .array _ _ _ _ h, v => fun i => restrict h (v i)
  | _, _, _, _, @Evolves.taggedStruct _ _ _ _ tags _ e e' _ init' _ _ h, v =>
    e'.symm (restrictMembers tags h (e v) (e' init'))

def restrictTuple : {τ τ' : Type} → {ms : Tuple τ} → {ms' : Tuple τ'} → EvolvesTuple ms ms' →
    τ → τ'
  | _, _, _, _, .nil, _ => ()
  | _, _, _, _, .cons h hs, v => (restrict h v.1, restrictTuple hs v.2)

/-- The members of the reader when those with a tag in `done` have been read,
    and the others are as in `init`. -/
def restrictMembers (done : List Byte) : {tags : List Byte} → {τ : Type} →
    {ms : Members tags τ} → {tags' : List Byte} → {τ' : Type} → {ms' : Members tags' τ'} →
    EvolvesMembers ms ms' → τ → τ' → τ'
  | _, _, _, _, _, _, .nil _, _, _ => ()
  | _, _, _, _, _, _, @EvolvesMembers.common _ _ _ _ _ _ id _ _ _ _ _ _ member h hs, v, init =>
    (if id ∈ done then restrict h (member.get v) else init.1, restrictMembers done hs v init.2)
  | _, _, _, _, _, _, .lacking _ _ _ hs, v, init => (init.1, restrictMembers done hs v init.2)

end

/-- The reader that takes the length `n` of a member for granted passes over
    exactly the length that was written. -/
def SkipsLength {β : Type} (t : Ty β) (bs : List Byte) : Prop :=
  ∀ n, fixedSize t = some n →
    (base128 n.toNat).length = (base128 (byteCount bs).toNat).length

mutual

/-- What the reader relies on: its containers hold the writer's elements, the
    members it does not know have a length that is a `std::streamsize`, and
    those it knows the size of have a length of as many digits. -/
def Agrees : {α β : Type} → {s : Ty α} → {t : Ty β} → Evolves s t → α → Prop
  | _, _, _, _, .arith _, _ => True
  | _, _, _, _, .enum _ _ _ _, _ => True
  | _, _, _, _, .varUint _ _, _ => True
  | _, _, _, _, .stdTuple e _ h, v => AgreesTuple h (e v)
  | _, _, _, _, .tupleStruct e _ h, v => AgreesTuple h (e v)
  | _, _, _, _, .contiguous _ _ _, _ => True
  | _, _, _, _, .sequence _ m' _ _ _ _ h, v => v.elems.length ≤ m' ∧ ∀ x ∈ v.elems, Agrees h x
  | _, _, _, _, .ordered _ _ _ _ h, v => ∀ x ∈ v.elems, Agrees h x
  | _, _, _, _, .array _ _ _ _ h, v => ∀ i, Agrees h (v i)
  | _, _, _, _, @Evolves.taggedStruct _ _ _ _ tags tags' e _ _ _ ms _ h, v =>
    AgreesMembers h (e v) ∧
      ∀ i ∈ tags, i ∉ tags' → (memberBytesAt ms (e v) i).length < 2 ^ 63

def AgreesTuple : {τ τ' : Type} → {ms : Tuple τ} → {ms' : Tuple τ'} → EvolvesTuple ms ms' →
    τ → Prop
  | _, _, _, _, .nil, _ => True
  | _, _, _, _, .cons h hs, v => Agrees h v.1 ∧ AgreesTuple hs v.2

def AgreesMembers : {tags : List Byte} → {τ : Type} → {ms : Members tags τ} →
    {tags' : List Byte} → {τ' : Type} → {ms' : Members tags' τ'} → EvolvesMembers ms ms' →
    τ → Prop
  | _, _, _, _, _, _, .nil _, _ => True
  | _, _, _, _, _, _, .common (s := s) (t := t) _ _ member h hs, v =>
    (Agrees h (member.get v) ∧ SkipsLength t (bytes s (member.get v))) ∧ AgreesMembers hs v
  | _, _, _, _, _, _, .lacking _ _ _ hs, v => AgreesMembers hs v

end

/-! ## Reading the members one by one -/

/-- Before anything has been read, the object is the value-initialised one. -/
theorem restrictMembers_nil : {tags : List Byte} → {τ : Type} → {ms : Members tags τ} →
    {tags' : List Byte} → {τ' : Type} → {ms' : Members tags' τ'} → (h : EvolvesMembers ms ms') →
    (v : τ) → (init : τ') → restrictMembers [] h v init = init
  | _, _, _, _, _, _, .nil _, _, _ => rfl
  | _, _, _, _, _, _, .common _ _ _ _ hs, v, init => by
    rw [restrictMembers, restrictMembers_nil hs, if_neg List.not_mem_nil]
  | _, _, _, _, _, _, .lacking _ _ _ hs, v, init => by
    rw [restrictMembers, restrictMembers_nil hs]

/-- Reading a member the reader does not have changes nothing. -/
theorem restrictMembers_unknown (done : List Byte) {i : Byte} : {tags : List Byte} → {τ : Type} →
    {ms : Members tags τ} → {tags' : List Byte} → {τ' : Type} → {ms' : Members tags' τ'} →
    (h : EvolvesMembers ms ms') → i ∉ tags' → (v : τ) → (init : τ') →
    restrictMembers (done ++ [i]) h v init = restrictMembers done h v init
  | _, _, _, _, _, _, .nil _, _, _, _ => rfl
  | _, _, _, _, _, _, @EvolvesMembers.common _ _ _ _ _ _ id _ _ _ _ _ _ _ _ hs, hi, v, init => by
    have hid : id ∈ done ++ [i] ↔ id ∈ done := by
      have hne : id ≠ i := fun he => hi (he ▸ List.mem_cons_self)
      simp [hne]
    rw [restrictMembers, restrictMembers, if_congr hid rfl rfl,
      restrictMembers_unknown done hs (fun h => hi (List.mem_cons_of_mem _ h))]
  | _, _, _, _, _, _, .lacking _ _ _ hs, hi, v, init => by
    rw [restrictMembers, restrictMembers,
      restrictMembers_unknown done hs (fun h => hi (List.mem_cons_of_mem _ h))]

/-! ## A type and itself -/

mutual

/-- Writer and reader have the same type. -/
def Evolves.refl : {α : Type} → (s : Ty α) → Evolves s s
  | _, .arith p => .arith p
  | _, .enum p value enumerator h => .enum p value enumerator h
  | _, .varUint w hw => .varUint w hw
  | _, .stdTuple e ms => .stdTuple e e (EvolvesTuple.refl ms)
  | _, .tupleStruct e ms => .tupleStruct e e (EvolvesTuple.refl ms)
  | _, .contiguous k hk valueInit => .contiguous k hk valueInit
  | _, .sequence m hm reserve s => .sequence m m hm hm reserve reserve (Evolves.refl s)
  | _, .ordered lt hlt s => .ordered lt lt hlt hlt (Evolves.refl s)
  | _, .array n hn init s => .array n hn init init (Evolves.refl s)
  | _, .taggedStruct e init ms => .taggedStruct e e init init (EvolvesMembers.sub ms fun h => h)

def EvolvesTuple.refl : {τ : Type} → (ms : Tuple τ) → EvolvesTuple ms ms
  | _, .nil => .nil
  | _, .cons s ms => .cons (Evolves.refl s) (EvolvesTuple.refl ms)

/-- A list of members evolves into any part of it. -/
def EvolvesMembers.sub {tags : List Byte} {τ : Type} {ms : Members tags τ} :
    {tags' : List Byte} → {τ' : Type} → (ms' : Members tags' τ') →
    (∀ {id : Byte} {α : Type} {s : Ty α}, ms'.At id s → ms.At id s) → EvolvesMembers ms ms'
  | _, _, .nil, _ => .nil ms
  | _, _, .cons _ h0 hn s ms', emb =>
    .common h0 hn (emb .here) (Evolves.refl s) (EvolvesMembers.sub ms' fun h => emb (.there h))

end

mutual

theorem restrict_refl : {α : Type} → (s : Ty α) → (v : α) → restrict (Evolves.refl s) v = v
  | _, .arith _, _ => rfl
  | _, .enum _ _ _ _, _ => rfl
  | _, .varUint _ _, _ => rfl
  | _, .stdTuple e ms, v => by
    rw [Evolves.refl, restrict, restrictTuple_refl ms, e.symm_apply_apply]
  | _, .tupleStruct e ms, v => by
    rw [Evolves.refl, restrict, restrictTuple_refl ms, e.symm_apply_apply]
  | _, .contiguous _ _ _, _ => rfl
  | _, .sequence m _ _ s, v => by
    have hmap : v.elems.map (restrict (Evolves.refl s)) = v.elems := by
      rw [List.map_congr_left fun x _ => restrict_refl s x, List.map_id']
    rw [Evolves.refl, restrict, hmap]
    exact Vec.ext (Vec.ofList_elems v.bounded)
  | _, .ordered _ hlt s, v => by
    have hmap : v.elems.map (restrict (Evolves.refl s)) = v.elems := by
      rw [List.map_congr_left fun x _ => restrict_refl s x, List.map_id']
    rw [Evolves.refl, restrict]
    simp only [hmap]
    exact OrdSet.ofList_elems hlt v
  | _, .array n _ _ s, v => by
    rw [Evolves.refl, restrict]
    exact funext fun i => restrict_refl s (v i)
  | _, .taggedStruct e init ms, v => by
    rw [Evolves.refl, restrict, restrictMembers_sub ms (fun h => h) (e v) (e v) (fun _ => rfl)
      (fun _ h => h), e.symm_apply_apply]

theorem restrictTuple_refl : {τ : Type} → (ms : Tuple τ) → (v : τ) →
    restrictTuple (EvolvesTuple.refl ms) v = v
  | _, .nil, _ => rfl
  | _, .cons s ms, v => by
    rw [EvolvesTuple.refl, restrictTuple, restrict_refl s, restrictTuple_refl ms]

/-- Once all the members of the part `ms'` have been read, the object is the
    part `v'` of the value. -/
theorem restrictMembers_sub {done tags : List Byte} {τ : Type} {ms : Members tags τ} :
    {tags' : List Byte} → {τ' : Type} → (ms' : Members tags' τ') →
    (emb : ∀ {id : Byte} {α : Type} {s : Ty α}, ms'.At id s → ms.At id s) → (v : τ) → (v' : τ') →
    (∀ {id : Byte} {α : Type} {s : Ty α} (h : ms'.At id s), (emb h).get v = h.get v') →
    (∀ i ∈ tags', i ∈ done) → ∀ init,
    restrictMembers done (EvolvesMembers.sub ms' emb) v init = v'
  | _, _, .nil, _, _, _, _, _, _ => rfl
  | _, _, .cons id _ _ s ms', emb, v, v', hget, hdone, init => by
    rw [EvolvesMembers.sub, restrictMembers, if_pos (hdone id List.mem_cons_self),
      restrict_refl s, hget .here, restrictMembers_sub ms' _ v v'.2 (fun h => hget (.there h))
        (fun i hi => hdone i (List.mem_cons_of_mem _ hi))]
    rfl

end

mutual

theorem agrees_refl : {α : Type} → (s : Ty α) → (v : α) → Agrees (Evolves.refl s) v
  | _, .arith _, _ => trivial
  | _, .enum _ _ _ _, _ => trivial
  | _, .varUint _ _, _ => trivial
  | _, .stdTuple e ms, v => agreesTuple_refl ms (e v)
  | _, .tupleStruct e ms, v => agreesTuple_refl ms (e v)
  | _, .contiguous _ _ _, _ => trivial
  | _, .sequence _ _ _ s, v => ⟨v.bounded, fun x _ => agrees_refl s x⟩
  | _, .ordered _ _ s, _ => fun x _ => agrees_refl s x
  | _, .array _ _ _ s, v => fun i => agrees_refl s (v i)
  | _, .taggedStruct e _ ms, v =>
    ⟨agreesMembers_sub ms (fun h => h) (e v), fun _ hi hn => absurd hi hn⟩

theorem agreesTuple_refl : {τ : Type} → (ms : Tuple τ) → (v : τ) →
    AgreesTuple (EvolvesTuple.refl ms) v
  | _, .nil, _ => trivial
  | _, .cons s ms, v => ⟨agrees_refl s v.1, agreesTuple_refl ms v.2⟩

theorem agreesMembers_sub {tags : List Byte} {τ : Type} {ms : Members tags τ} :
    {tags' : List Byte} → {τ' : Type} → (ms' : Members tags' τ') →
    (emb : ∀ {id : Byte} {α : Type} {s : Ty α}, ms'.At id s → ms.At id s) → (v : τ) →
    AgreesMembers (EvolvesMembers.sub ms' emb) v
  | _, _, .nil, _, _ => trivial
  | _, _, .cons _ _ _ s ms', emb, v =>
    ⟨⟨agrees_refl s _, fun n hn => by rw [fixedSize_eq s hn]⟩,
      agreesMembers_sub ms' (fun h => emb (.there h)) v⟩

end

end BambooShoot.Pbss
