import BambooShoot.Pbss.Evolution
import BambooShoot.Pbss.Parse
import BambooShoot.Pbss.Serialize
import BambooShoot.Pbss.StdStream

/-!
# Reading back what was written

`consumes_parse`: where a reader of type `t` agrees with what a writer of type
`s` wrote, it reads exactly the serialization and returns the value restricted
to its members. The induction is on the evolution of `s` into `t`; a tagged
struct is read field by field, and the object in between is the restriction to
the tags read so far.

`parse_serialize` is the case of one type on both sides.
-/

namespace BambooShoot.Pbss

open BambooShoot.Lib

section Consumes

variable {σ : Type} [InputStream σ] [ForwardInputStream σ] [LawfulInputStream σ]

/-! ## Primitives -/

theorem consumes_parseByte (b : Byte) : Consumes (parseByte : Run σ _) [b] b := by
  rw [parseByte]
  exact (consumes_get b).bind_pure rfl

theorem consumes_readPrim {α : Type} (p : Arith α) (v : α) :
    Consumes (readPrim p : Run σ _) (p.bytes v) v := by
  rw [readPrim]
  split_ifs with h
  · obtain ⟨b, hb⟩ := List.length_eq_one_iff.mp ((p.length_bytes v).trans h)
    rw [hb]
    refine (consumes_parseByte b).bind_pure ?_
    rw [← hb, p.ofBytes_bytes]
  · have hread := consumes_read (σ := σ) (p.bytes v)
    rw [p.length_bytes] at hread
    refine hread.last (consumes_eof.skip ?_)
    rw [if_neg Bool.false_ne_true, if_pos (p.length_bytes v), p.ofBytes_bytes]
    exact Consumes.pure v

theorem consumes_skipChars (bs : List Byte) : Consumes (skipChars bs.length : Run σ _) bs () := by
  induction bs with
  | nil => exact Consumes.pure ()
  | cons b bs ih => exact (consumes_get b).bind ih

theorem consumes_skipVarUintLoop (m fuel : ℕ) (hfuel : (base128 m).length ≤ fuel) :
    Consumes (skipVarUintLoop fuel : Run σ _) (base128 m) () := by
  induction m using base128_induction generalizing fuel with
  | last m hlt =>
    obtain ⟨fuel, rfl⟩ : ∃ f, fuel = f + 1 := ⟨fuel - 1, by have := base128_length_pos m; omega⟩
    have hc : (BitVec.ofNat 8 m).toNat = m := Nat.mod_eq_of_lt (by omega)
    rw [base128_of_lt hlt, skipVarUintLoop]
    refine (consumes_get _).bind_pure ?_
    dsimp only
    rw [if_neg (by rw [and_80_ne_zero_iff, hc]; omega)]
  | more m hge ih =>
    obtain ⟨fuel, rfl⟩ : ∃ f, fuel = f + 1 := ⟨fuel - 1, by have := base128_length_pos m; omega⟩
    have hc : (BitVec.ofNat 8 (m % 128 + 128)).toNat = m % 128 + 128 := Nat.mod_eq_of_lt (by omega)
    rw [base128_of_ge hge, List.length_cons] at hfuel
    rw [base128_of_ge hge, skipVarUintLoop, ← List.singleton_append]
    refine (consumes_get _).bind ?_
    dsimp only
    rw [if_pos (by rw [and_80_ne_zero_iff, hc]; omega)]
    exact ih fuel (by omega)

/-- The characters that are skipped for a member of fixed size. -/
theorem skippedChars_eq {β : Type} {t : Ty β} {bs : List Byte} (hskip : SkipsLength t bs)
    {n : SizeT} (hn : fixedSize t = some n) :
    (varUintStaticSize n).toNat = (base128 (byteCount bs).toNat).length := by
  have hten := length_base128_le_ten n
  rw [varUintStaticSize_eq (by norm_num), toNat_byteCount (by omega), hskip n hn]

/-- The length of a known member is skipped, if its digits are as many as the
    reader expects. -/
theorem consumes_skipVarUint {β : Type} {t : Ty β} {bs : List Byte} {fuel : ℕ}
    (hskip : SkipsLength t bs) (hfuel : (base128 (byteCount bs).toNat).length ≤ fuel) :
    Consumes (skipVarUint fuel t : Run σ _) (base128 (byteCount bs).toNat) () := by
  rw [skipVarUint]
  cases hf : fixedSize t with
  | none => exact consumes_skipVarUintLoop _ fuel hfuel
  | some n =>
    dsimp only
    rw [skippedChars_eq hskip hf]
    exact consumes_skipChars _

/-- A member that is not known is skipped by its length. -/
theorem consumes_skipMember (build : Build) {bs : List Byte} {fuel : ℕ}
    (hlen : bs.length < 2 ^ 63) (hfuel : (base128 (byteCount bs).toNat).length ≤ fuel) :
    Consumes (skipMember build fuel : Run σ _) (withLength bs) () := by
  have hn : (byteCount bs).toNat = bs.length := toNat_byteCount (by omega)
  have hsigned : (toSigned build (byteCount bs) : Run σ ℤ) = pure (bs.length : ℤ) := by
    rw [toSigned, if_neg (by omega), BitVec.toInt_eq_toNat_of_lt (by omega), hn]
  rw [skipMember]
  refine (consumes_readVarUint (by norm_num) _ hfuel).bind ?_
  rw [hsigned]
  exact (Consumes.pure _).skip (consumes_ignore bs)

/-! ## Containers -/

theorem length_le_length_flatMap {α : Type*} (f : α → List Byte) {x : α} {l : List α} (h : x ∈ l) :
    (f x).length ≤ (l.flatMap f).length := by
  induction l with
  | nil => cases h
  | cons y l ih =>
    rw [List.flatMap_cons, List.length_append]
    rcases List.mem_cons.mp h with rfl | h
    · omega
    · have := ih h
      omega

theorem consumes_parseN {α β : Type} {parseElem : Run σ β} {f : α → List Byte} {g : α → β}
    {n : ℕ} (l : List α) (hn : l.length = n) (h : ∀ x ∈ l, Consumes parseElem (f x) (g x)) :
    Consumes (parseN parseElem n) (l.flatMap f) ⟨l.map g, by rw [List.length_map, hn]⟩ := by
  subst hn
  induction l with
  | nil => exact Consumes.pure _
  | cons x l ih =>
    have hx := h x List.mem_cons_self
    have hl := ih fun y hy => h y (List.mem_cons_of_mem _ hy)
    rw [List.flatMap_cons]
    exact hx.bind (hl.bind_pure rfl)

theorem wordsOfBytes_flatMap {k : ℕ} (l : List (BitVec (8 * k))) :
    wordsOfBytes k l.length (l.flatMap wordBytes) = l := by
  induction l with
  | nil => rfl
  | cons x l ih =>
    have htake : (wordBytes x ++ l.flatMap wordBytes).take k = wordBytes x :=
      List.take_left' (length_wordBytes x)
    have hdrop : (wordBytes x ++ l.flatMap wordBytes).drop k = l.flatMap wordBytes :=
      List.drop_left' (length_wordBytes x)
    rw [List.length_cons, wordsOfBytes, List.flatMap_cons, htake, hdrop, wordOfBytes_wordBytes, ih]

theorem length_flatMap_wordBytes {k : ℕ} (l : List (BitVec (8 * k))) :
    (l.flatMap wordBytes).length = k * l.length := by
  induction l with
  | nil => rfl
  | cons x l ih =>
    rw [List.flatMap_cons, List.length_append, length_wordBytes, ih, List.length_cons]
    ring

theorem consumes_parseElemsBulk {k : ℕ} (valueInit : Bool)
    (v : Vec (maxElems k) (BitVec (8 * k))) :
    Consumes (parseElemsBulk k valueInit v.size : Run σ _) (v.elems.flatMap wordBytes) v := by
  have hsize : v.size.toNat = v.elems.length := by
    rw [Vec.size, BitVec.toNat_ofNat, Nat.mod_eq_of_lt (lt_of_le_of_lt v.bounded (maxElems_lt k))]
  have hlen := length_flatMap_wordBytes v.elems
  have hread := consumes_read (σ := σ) (v.elems.flatMap wordBytes)
  rw [hlen, ← hsize] at hread
  rw [parseElemsBulk, dif_pos (by rw [hsize]; exact v.bounded)]
  refine hread.last (consumes_eof.skip ?_)
  rw [if_neg Bool.false_ne_true, if_pos (Or.inl (by rw [hlen, hsize]))]
  have hv : (⟨wordsOfBytes k v.size.toNat (v.elems.flatMap wordBytes),
      by rw [length_wordsOfBytes, hsize]; exact v.bounded⟩ : Vec (maxElems k) _) = v :=
    Vec.ext (by dsimp only; rw [hsize, wordsOfBytes_flatMap])
  rw [hv]
  exact Consumes.pure v

theorem consumes_parseElems {α β : Type} {m m' : ℕ} (hm : m < 2 ^ 64) (reserve : Bool)
    {parseElem : Run σ β} {f : α → List Byte} {g : α → β} (v : Vec m α)
    (hle : v.elems.length ≤ m') (h : ∀ x ∈ v.elems, Consumes parseElem (f x) (g x)) :
    Consumes (parseElems m' reserve parseElem v.size) (v.elems.flatMap f)
      (Vec.ofList m' (v.elems.map g)) := by
  have hsize : v.size.toNat = v.elems.length := by
    rw [Vec.size, BitVec.toNat_ofNat, Nat.mod_eq_of_lt (lt_of_le_of_lt v.bounded hm)]
  rw [parseElems, dif_pos (by rw [hsize]; exact hle)]
  refine (consumes_parseN v.elems hsize.symm h).bind_pure ?_
  exact congrArg pure (Vec.ext (Vec.ofList_elems (by rwa [List.length_map])).symm)

theorem consumes_parseInsert {α β : Type} {lt : α → α → Bool} {lt' : β → β → Bool}
    (hlt' : StrictWeak lt') {parseElem : Run σ β} {f : α → List Byte} {g : α → β} (v : OrdSet lt)
    (h : ∀ x ∈ v.elems, Consumes parseElem (f x) (g x)) :
    Consumes (parseInsert hlt' parseElem v.size) (v.elems.flatMap f)
      (OrdSet.ofList hlt' (v.elems.map g) (by rw [List.length_map]; exact v.bounded)) := by
  have hsize : v.size.toNat = v.elems.length := by
    rw [OrdSet.size, BitVec.toNat_ofNat, Nat.mod_eq_of_lt v.bounded]
  rw [parseInsert]
  exact (consumes_parseN v.elems hsize.symm h).bind_pure rfl

theorem consumes_parseArray {α β : Type} {n : ℕ} (hn : n < 2 ^ 64) (init : Option β)
    {parseElem : Run σ β} {f : α → List Byte} {g : α → β} (v : Fin n → α)
    (h : ∀ i, Consumes parseElem (f (v i)) (g (v i))) :
    Consumes (parseArray n init parseElem (BitVec.ofNat 64 n)) ((List.ofFn v).flatMap f)
      fun i => g (v i) := by
  have hsize : (BitVec.ofNat 64 n).toNat = n := by
    rw [BitVec.toNat_ofNat, Nat.mod_eq_of_lt hn]
  have hfill : fillArray n init ((List.ofFn v).map g) = some fun i => g (v i) := by
    rw [fillArray, dif_pos (by simp)]
    simp
  have hall : ∀ x ∈ List.ofFn v, Consumes parseElem (f x) (g x) := by
    intro x hx
    obtain ⟨i, rfl⟩ := List.mem_ofFn.mp hx
    exact h i
  rw [parseArray, if_pos (by rw [hsize])]
  refine (consumes_parseN (List.ofFn v) (by rw [List.length_ofFn, hsize]) hall).bind_pure ?_
  simp only [hfill]

/-! ## Fields -/

/-- Reading the fields `todo` behind the fields `done`, with the object that
    `obj` says they make. -/
theorem consumes_parseCustomStruct {τ : Type} {parseMember : Byte → τ → Run σ τ}
    (content : Byte → List Byte) (obj : List Byte → τ) (todo done : List Byte) (fuel : ℕ)
    (hzero : 0 ∉ todo)
    (hstep : ∀ i ∈ todo, ∀ done, Consumes (parseMember i (obj done)) (withLength (content i))
      (obj (done ++ [i])))
    (hfuel : todo.length < fuel) :
    Consumes (parseCustomStruct parseMember fuel (obj done))
      ((todo.flatMap fun i => field i (content i)) ++ [0]) (obj (done ++ todo)) := by
  induction todo generalizing done fuel with
  | nil =>
    obtain ⟨fuel, rfl⟩ : ∃ f, fuel = f + 1 := ⟨fuel - 1, by omega⟩
    rw [parseCustomStruct, List.append_nil]
    exact (consumes_parseByte 0).bind_pure (if_pos rfl)
  | cons i todo ih =>
    obtain ⟨fuel, rfl⟩ : ∃ f, fuel = f + 1 := ⟨fuel - 1, by omega⟩
    rw [List.length_cons] at hfuel
    rw [parseCustomStruct, List.flatMap_cons, List.append_assoc]
    refine (consumes_parseByte i).bind ?_
    rw [if_neg fun he : i = 0 => hzero (he ▸ List.mem_cons_self)]
    refine (hstep i List.mem_cons_self done).bind ?_
    have hrest := ih (done ++ [i]) fuel (fun h => hzero (List.mem_cons_of_mem _ h))
      (fun j hj => hstep j (List.mem_cons_of_mem _ hj)) (by omega)
    rwa [List.append_assoc] at hrest

/-! ## Values -/

/-- How the positional pass of the optimistic parser over the fields `todo`
    ends, when it starts with the fields `done` read: it reads all of them and
    the end mark, or stops behind the tag `i` of a field it did not expect. -/
def OptimisticOutcome {τ : Type} (parseOptimistic : Run σ (τ × Byte))
    (content : Byte → List Byte) (obj : List Byte → τ) (done todo : List Byte) : Prop :=
  Consumes parseOptimistic ((todo.flatMap fun i => field i (content i)) ++ [0])
      (obj (done ++ todo), 0) ∨
    ∃ pre i post, todo = pre ++ i :: post ∧
      Consumes parseOptimistic ((pre.flatMap fun i => field i (content i)) ++ [i])
        (obj (done ++ pre), i)

/-- The pass over an expected field `i` and then over the fields `todo`. -/
theorem optimisticOutcome_cons {β τ : Type} {skip : Run σ Unit} {parseValue : Run σ β}
    {parseRest : Run σ (τ × Byte)} {content : Byte → List Byte} (first : List Byte → β)
    {rest : List Byte → τ} {done todo : List Byte} {i : Byte} {value : β} (obj : β × τ)
    (hskip : Consumes skip (base128 (byteCount (content i)).toNat) ())
    (hvalue : Consumes parseValue (content i) value)
    (hrest : OptimisticOutcome parseRest content rest (done ++ [i]) todo)
    (hfirst : ∀ d, first (done ++ i :: d) = value) :
    OptimisticOutcome (do
        let id ← parseByte
        if id = i then do
          skip
          let value ← parseValue
          let (rest, id) ← parseRest
          pure ((value, rest), id)
        else pure (obj, id))
      content (fun done => (first done, rest done)) done (i :: todo) := by
  have hhead : ∀ {bs obj' id}, Consumes parseRest bs (obj', id) → Consumes (do
        let id ← parseByte
        if id = i then do
          skip
          let value ← parseValue
          let (rest, id) ← parseRest
          pure ((value, rest), id)
        else pure (obj, id)) (field i (content i) ++ bs) ((value, obj'), id) := by
    intro bs obj' id h
    rw [field, List.cons_append, withLength, List.append_assoc]
    refine (consumes_parseByte i).bind ?_
    rw [if_pos rfl]
    exact hskip.bind (hvalue.bind (h.bind_pure rfl))
  rcases hrest with hall | ⟨pre, j, post, rfl, hpre⟩
  · refine Or.inl ?_
    rw [List.append_assoc] at hall
    dsimp only
    rw [List.flatMap_cons, List.append_assoc, hfirst]
    exact hhead hall
  · refine Or.inr ⟨i :: pre, j, post, rfl, ?_⟩
    rw [List.append_assoc] at hpre
    dsimp only
    rw [List.flatMap_cons, List.append_assoc, hfirst]
    exact hhead hpre

/-- Either way the fallback ends where reading field by field does. -/
theorem consumes_parseCustomStructWithFallback {τ : Type}
    {parseOptimistic : τ → Run σ (τ × Byte)} {parseMember : Byte → τ → Run σ τ}
    {content : Byte → List Byte} {obj : List Byte → τ} (todo : List Byte) (fuel : ℕ)
    (hzero : 0 ∉ todo)
    (hopt : OptimisticOutcome (parseOptimistic (obj [])) content obj [] todo)
    (hstep : ∀ i ∈ todo, ∀ done, Consumes (parseMember i (obj done)) (withLength (content i))
      (obj (done ++ [i])))
    (hfuel : todo.length < fuel) :
    Consumes (parseCustomStructWithFallback parseOptimistic parseMember fuel (obj []))
      ((todo.flatMap fun i => field i (content i)) ++ [0]) (obj todo) := by
  rw [parseCustomStructWithFallback]
  rcases hopt with hall | ⟨pre, i, post, rfl, hpre⟩
  · exact hall.bind_pure (if_pos rfl)
  · have hi : i ≠ 0 := fun he => hzero (by simp [he])
    have hpost : post.length < fuel := by
      rw [List.length_append, List.length_cons] at hfuel
      omega
    have hrest := consumes_parseCustomStruct content obj post (pre ++ [i]) fuel
      (fun h => hzero (List.mem_append_right _ (List.mem_cons_of_mem _ h)))
      (fun j hj => hstep j (by simp [hj])) hpost
    have hbytes : ((pre ++ i :: post).flatMap fun i => field i (content i)) ++ [0] =
        ((pre.flatMap fun i => field i (content i)) ++ [i]) ++
          (withLength (content i) ++ ((post.flatMap fun i => field i (content i)) ++ [0])) := by
      simp [field]
    rw [hbytes]
    refine hpre.bind ?_
    dsimp only
    rw [if_neg hi]
    refine (hstep i (by simp) pre).bind ?_
    simpa using hrest

theorem length_withLength (bs : List Byte) :
    (withLength bs).length = (base128 (byteCount bs).toNat).length + bs.length :=
  List.length_append

/-- A field takes at least its tag. -/
theorem length_le_length_fields (content : Byte → List Byte) (todo : List Byte) :
    todo.length ≤ (todo.flatMap fun i => field i (content i)).length := by
  induction todo with
  | nil => exact le_refl _
  | cons i todo ih =>
    rw [List.flatMap_cons, List.length_append, List.length_cons, field, List.length_cons]
    omega

theorem length_field_le (content : Byte → List Byte) {i : Byte} {todo : List Byte} (h : i ∈ todo) :
    (withLength (content i)).length < (todo.flatMap fun i => field i (content i)).length := by
  have := length_le_length_flatMap (fun i => field i (content i)) h
  rw [field, List.length_cons] at this
  omega

mutual

/-- A reader reads back what an agreeing writer wrote, restricted to its own
    members. -/
theorem consumes_parse (build : Build) (fuel : ℕ) : {α β : Type} → {s : Ty α} → {t : Ty β} →
    (h : Evolves s t) → (v : α) → Agrees h v → (bytes s v).length ≤ fuel →
    Consumes (Fuel.parse build fuel t : Run σ _) (bytes s v) (restrict h v)
  | _, _, _, _, .arith p, v, _, _ => consumes_readPrim p v
  | _, _, _, _, .enum p value enumerator hcast, v, _, _ => by
    rw [Fuel.parse, bytes, restrict]
    exact (consumes_readPrim p (value v)).bind_pure (congrArg pure (hcast v))
  | _, _, _, _, .varUint w hw, v, _, hfuel => consumes_readVarUint hw v hfuel
  | _, _, _, _, .stdTuple e e' h, v, hagree, hfuel => by
    rw [Fuel.parse, bytes, restrict]
    exact (consumes_readTuple build fuel h (e v) hagree hfuel).bind_pure rfl
  | _, _, _, _, .tupleStruct e e' h, v, hagree, hfuel => by
    rw [Fuel.parse, bytes, restrict]
    exact (consumes_readTuple build fuel h (e v) hagree hfuel).bind_pure rfl
  | _, _, _, _, .contiguous k hk valueInit, v, _, hfuel => by
    rw [bytes, List.length_append] at hfuel
    rw [Fuel.parse, bytes, restrict]
    exact (consumes_readVarUint (by norm_num) v.size (by omega)).bind
      (consumes_parseElemsBulk valueInit v)
  | _, _, _, _, .sequence (s := s) m m' hm hm' _ reserve' h, v, hagree, hfuel => by
    rw [bytes, List.length_append] at hfuel
    have helem : ∀ x ∈ v.elems, Consumes (Fuel.parse build fuel _ : Run σ _) (bytes s x)
        (restrict h x) := fun x hx =>
      consumes_parse build fuel h x (hagree.2 x hx)
        (by have := length_le_length_flatMap (bytes s) hx; omega)
    rw [Fuel.parse, bytes, restrict]
    exact (consumes_readVarUint (by norm_num) v.size (by omega)).bind
      (consumes_parseElems hm reserve' v hagree.1 helem)
  | _, _, _, _, .ordered (s := s) lt lt' hlt hlt' h, v, hagree, hfuel => by
    rw [bytes, List.length_append] at hfuel
    have helem : ∀ x ∈ v.elems, Consumes (Fuel.parse build fuel _ : Run σ _) (bytes s x)
        (restrict h x) := fun x hx =>
      consumes_parse build fuel h x (hagree x hx)
        (by have := length_le_length_flatMap (bytes s) hx; omega)
    rw [Fuel.parse, bytes, restrict]
    exact (consumes_readVarUint (by norm_num) v.size (by omega)).bind
      (consumes_parseInsert hlt' v helem)
  | _, _, _, _, .array (s := s) n hn init init' h, v, hagree, hfuel => by
    rw [bytes, List.length_append] at hfuel
    have helem : ∀ i, Consumes (Fuel.parse build fuel _ : Run σ _) (bytes s (v i))
        (restrict h (v i)) := fun i => by
      have hi : v i ∈ List.ofFn v := List.mem_ofFn.mpr ⟨i, rfl⟩
      have hlen := length_le_length_flatMap (bytes s) hi
      exact consumes_parse build fuel h (v i) (hagree i) (by omega)
    rw [Fuel.parse, bytes, restrict]
    exact (consumes_readVarUint (by norm_num) _ (by omega)).bind
      (consumes_parseArray hn init' v helem)
  | _, _, _, _, @Evolves.taggedStruct _ _ _ _ tags _ e e' init init' ms _ h, v, hagree, hfuel => by
    rw [bytes, memberBytes_eq, List.length_append, List.length_singleton] at hfuel
    have hlen := length_le_length_fields (memberBytesAt ms (e v)) tags
    have hstep : ∀ i ∈ tags, ∀ done, Consumes
        (Fuel.parseCustomStructMember build fuel _ i (restrictMembers done h (e v) (e' init')) :
          Run σ _)
        (withLength (memberBytesAt ms (e v) i))
        (restrictMembers (done ++ [i]) h (e v) (e' init')) := fun i hi done =>
      consumes_parseCustomStructMember build fuel h (e v) (e' init') hagree.1 done hi (hagree.2 i hi)
        (by have := length_field_le (memberBytesAt ms (e v)) hi; omega)
    have hzero := ms.zero_not_mem
    rw [Fuel.parse, bytes, memberBytes_eq, restrict, parseCustomStructOptimisticForLarge,
      ← restrictMembers_nil h (e v) (e' init')]
    split_ifs
    · have hopt := consumes_parseCustomStructOptimistic build fuel h (e v) (e' init')
        hagree.1 [] tags (fun _ hi => hi) ms.nodup hagree.2 (by omega)
      refine (consumes_parseCustomStructWithFallback tags fuel hzero hopt hstep
        (by omega)).bind_pure ?_
      rw [restrictMembers_nil]
    · refine (consumes_parseCustomStruct (memberBytesAt ms (e v))
        (fun done => restrictMembers done h (e v) (e' init')) tags [] fuel hzero hstep
        (by omega)).bind_pure ?_
      rw [restrictMembers_nil, List.nil_append]

theorem consumes_readTuple (build : Build) (fuel : ℕ) : {τ τ' : Type} → {ms : Tuple τ} →
    {ms' : Tuple τ'} → (h : EvolvesTuple ms ms') → (v : τ) → AgreesTuple h v →
    (tupleBytes ms v).length ≤ fuel →
    Consumes (Fuel.readTuple build fuel ms' : Run σ _) (tupleBytes ms v) (restrictTuple h v)
  | _, _, _, _, .nil, _, _, _ => Consumes.pure ()
  | _, _, _, _, .cons h hs, v, hagree, hfuel => by
    rw [tupleBytes, List.length_append] at hfuel
    rw [Fuel.readTuple, tupleBytes, restrictTuple]
    exact (consumes_parse build fuel h v.1 hagree.1 (by omega)).bind
      ((consumes_readTuple build fuel hs v.2 hagree.2 (by omega)).bind_pure rfl)

/-- Reading the field with tag `i`. -/
theorem consumes_parseCustomStructMember (build : Build) (fuel : ℕ) {tags : List Byte} {τ : Type}
    {ms : Members tags τ} : {tags' : List Byte} → {τ' : Type} → {ms' : Members tags' τ'} →
    (h : EvolvesMembers ms ms') → (v : τ) → (init : τ') → AgreesMembers h v → (done : List Byte) →
    {i : Byte} → i ∈ tags → (i ∉ tags' → (memberBytesAt ms v i).length < 2 ^ 63) →
    (withLength (memberBytesAt ms v i)).length ≤ fuel →
    Consumes (Fuel.parseCustomStructMember build fuel ms' i (restrictMembers done h v init) :
      Run σ _) (withLength (memberBytesAt ms v i)) (restrictMembers (done ++ [i]) h v init)
  | _, _, _, .nil _, v, _, _, _, i, _, hskip, hfuel => by
    rw [length_withLength] at hfuel
    rw [Fuel.parseCustomStructMember]
    exact (consumes_skipMember build (hskip List.not_mem_nil) (by omega)).bind_pure rfl
  | _, _, _, @EvolvesMembers.common _ _ _ _ _ _ id _ _ _ _ h0 hn member h hs, v, init, hagree, done,
      i, hi, hskip, hfuel => by
    rw [Fuel.parseCustomStructMember]
    split_ifs with he
    · subst he
      have hdone : i ∈ done ++ [i] := by simp
      rw [restrictMembers, restrictMembers, if_pos hdone, restrictMembers_unknown done hs hn]
      rw [member.bytes_get] at hfuel ⊢
      rw [length_withLength] at hfuel
      exact (consumes_skipVarUint hagree.1.2 (by omega)).bind
        ((consumes_parse build fuel h _ hagree.1.1 (by omega)).bind_pure rfl)
    · have hdone : id ∈ done ++ [i] ↔ id ∈ done := by
        simp [show id ≠ i from fun h => he h.symm]
      rw [restrictMembers, restrictMembers, if_congr hdone rfl rfl]
      exact (consumes_parseCustomStructMember build fuel hs v init.2 hagree.2 done hi
        (fun h => hskip (by simp [he, h])) hfuel).bind_pure rfl
  | _, _, _, @EvolvesMembers.lacking _ _ _ _ _ id _ _ _ h0 hn hlack hs, v, init, hagree, done, i, hi,
      hskip, hfuel => by
    have he : i ≠ id := fun he => hlack (he ▸ hi)
    rw [Fuel.parseCustomStructMember, if_neg he, restrictMembers, restrictMembers]
    exact (consumes_parseCustomStructMember build fuel hs v init.2 hagree done hi
      (fun h => hskip (by simp [he, h])) hfuel).bind_pure rfl

/-- The positional pass over the fields `todo`. -/
theorem consumes_parseCustomStructOptimistic (build : Build) (fuel : ℕ) {tags : List Byte}
    {τ : Type} {ms : Members tags τ} : {tags' : List Byte} → {τ' : Type} →
    {ms' : Members tags' τ'} → (h : EvolvesMembers ms ms') → (v : τ) → (init : τ') →
    AgreesMembers h v → (done todo : List Byte) → (∀ i ∈ todo, i ∈ tags) → todo.Nodup →
    (∀ i ∈ todo, i ∉ tags' → (memberBytesAt ms v i).length < 2 ^ 63) →
    (todo.flatMap fun i => field i (memberBytesAt ms v i)).length < fuel →
    OptimisticOutcome (Fuel.parseCustomStructOptimistic build fuel ms'
        (restrictMembers done h v init) : Run σ _)
      (memberBytesAt ms v) (fun done => restrictMembers done h v init) done todo
  | _, _, _, .nil _, v, init, _, done, todo, hsub, _, hskip, hfuel => by
    have hlen := length_le_length_fields (memberBytesAt ms v) todo
    have hstep : ∀ i ∈ todo, ∀ done : List Byte,
        Consumes (do skipMember build fuel; pure () : Run σ Unit)
          (withLength (memberBytesAt ms v i)) () := fun i hi _ => by
      have hfield := length_field_le (memberBytesAt ms v) hi
      rw [length_withLength] at hfield
      exact (consumes_skipMember build (hskip i hi List.not_mem_nil) (by omega)).bind_pure rfl
    refine Or.inl ?_
    rw [Fuel.parseCustomStructOptimistic]
    exact (consumes_parseCustomStruct (memberBytesAt ms v) (fun _ => ()) todo done fuel
      (fun h => ms.zero_not_mem (hsub 0 h)) hstep (by omega)).bind_pure rfl
  | _, _, _, .common h0 hn member h hs, v, init, hagree, done, [], _, _, _, _ => by
    refine Or.inl ?_
    rw [Fuel.parseCustomStructOptimistic, List.append_nil]
    exact (consumes_parseByte 0).bind_pure (if_neg h0.symm)
  | _, _, _, .lacking h0 hn hlack hs, v, init, hagree, done, [], _, _, _, _ => by
    refine Or.inl ?_
    rw [Fuel.parseCustomStructOptimistic, List.append_nil]
    exact (consumes_parseByte 0).bind_pure (if_neg h0.symm)
  | _, _, _, @EvolvesMembers.lacking _ _ _ _ _ id _ _ _ h0 hn hlack hs, v, init, hagree, done,
      i :: todo, hsub, _, _, _ => by
    have he : i ≠ id := fun he => hlack (he ▸ hsub i List.mem_cons_self)
    refine Or.inr ⟨[], i, todo, rfl, ?_⟩
    rw [Fuel.parseCustomStructOptimistic, List.append_nil]
    exact (consumes_parseByte i).bind_pure (if_neg he)
  | _, _, _, @EvolvesMembers.common _ _ _ _ _ _ id _ _ _ _ h0 hn member h hs, v, init, hagree, done,
      i :: todo, hsub, hnodup, hskip, hfuel => by
    obtain ⟨hi, hnodup⟩ := List.nodup_cons.mp hnodup
    rw [List.flatMap_cons, List.length_append, field, List.length_cons, length_withLength] at hfuel
    rw [Fuel.parseCustomStructOptimistic]
    by_cases he : i = id
    · subst he
      have hrest := consumes_parseCustomStructOptimistic build fuel hs v init.2 hagree.2
        (done ++ [i]) todo (fun j hj => hsub j (List.mem_cons_of_mem _ hj)) hnodup
        (fun j hj hn => hskip j (List.mem_cons_of_mem _ hj) (by
          rw [List.mem_cons, not_or]
          exact ⟨fun he => hi (he ▸ hj), hn⟩)) (by omega)
      rw [restrictMembers_unknown done hs hn] at hrest
      refine optimisticOutcome_cons
        (fun done => if i ∈ done then restrict h (member.get v) else init.1) _ ?_ ?_ hrest
        (fun d => if_pos (by simp))
      · rw [member.bytes_get] at hfuel ⊢
        exact consumes_skipVarUint hagree.1.2 (by omega)
      · rw [member.bytes_get] at hfuel ⊢
        exact consumes_parse build fuel h _ hagree.1.1 (by omega)
    · refine Or.inr ⟨[], i, todo, rfl, ?_⟩
      rw [List.append_nil]
      exact (consumes_parseByte i).bind_pure (if_neg he)

end

/-- The reader of the same type reads back the value. -/
theorem consumes_parse_value (build : Build) {fuel : ℕ} {α : Type} (s : Ty α) (v : α)
    (hfuel : (bytes s v).length ≤ fuel) :
    Consumes (Fuel.parse build fuel s : Run σ α) (bytes s v) v := by
  have h := consumes_parse (σ := σ) build fuel (Evolves.refl s) v (agrees_refl s v) hfuel
  rwa [restrict_refl] at h

/-- It finds the length it takes for granted in front of a member. -/
theorem skipsLength_self {α : Type} (s : Ty α) (v : α) : SkipsLength s (bytes s v) :=
  fun n hn => by rw [fixedSize_eq s hn]

/-- `parse` gives its loops fuel enough. -/
theorem consumes_parse_restrict (build : Build) {α β : Type} {s : Ty α} {t : Ty β}
    (h : Evolves s t) (v : α) (hagree : Agrees h v) :
    Consumes (parse build t : Run σ β) (bytes s v) (restrict h v) := by
  intro stream rest hready
  have hleft := LawfulInputStream.left_ready hready
  rw [List.length_append] at hleft
  exact consumes_parse build (Measured.left stream + 1) h v hagree (by omega) stream rest hready

/-- `parse` reads back what `serialize` wrote. -/
theorem consumes_parse_self (build : Build) {α : Type} (s : Ty α) (v : α) :
    Consumes (parse build s : Run σ α) (bytes s v) v := by
  have h := consumes_parse_restrict (σ := σ) build (Evolves.refl s) v (agrees_refl s v)
  rwa [restrict_refl] at h

end Consumes

/-- Round trip: what `serialize` appends to a stream is what `parse` reads from
    it, whatever follows. -/
theorem parse_serialize {α : Type} (build : Build) (s : Ty α) (v : α) (before rest : List Byte)
    (e : Bool) :
    serialize s v (StdStream.endOf before e) =
        .ok () (StdStream.endOf (before ++ bytes s v) e) ∧
      parse build s (StdStream.between before (bytes s v ++ rest) e) =
        .ok v (StdStream.between (before ++ bytes s v) rest e) ∧
      parse build s (CharRangeReader.between before (bytes s v ++ rest)) =
        .ok v (CharRangeReader.between (before ++ bytes s v) rest) := by
  refine ⟨serialize_stdStream s v before e, ?_, ?_⟩
  · exact StdStream.consumes_between (consumes_parse_self build s v) before rest e
  · rw [consumes_parse_self build s v _ rest (CharRangeReader.between_ready _ _)]
    exact congrArg _ (CharRangeReader.advance_between before (bytes s v) rest)

end BambooShoot.Pbss
