import BambooShoot.Pbss.RoundTrip
import BambooShoot.Pbss.Progress

/-!
# Truncated serializations

What `parse` does when the stream ends inside of the value: the primitives and
the bulk reader of `pbss-parse-container.hh` throw, and a container or a tuple
throws where one of its elements or members does. `rejectsPrefix_parse` makes of
this a statement about `parse`, whose fuel depends on how much of the value there
is.
-/

namespace BambooShoot.Pbss

open BambooShoot.Lib
open Measured

section Truncation

variable {σ : Type} [InputStream σ] [ForwardInputStream σ] [LawfulInputStream σ]

theorem rejectsPrefix_parseByte (b : Byte) : RejectsPrefix (parseByte : Run σ _) [b] := by
  unfold parseByte
  exact rejectsPrefix_get rfl (Starves.nil _)

theorem rejectsPrefix_readPrim {α : Type} (p : Arith α) (v : α) :
    RejectsPrefix (readPrim p : Run σ _) (p.bytes v) := by
  unfold readPrim
  split_ifs with h
  · obtain ⟨b, hb⟩ := List.length_eq_one_iff.mp ((p.length_bytes v).trans h)
    rw [hb]
    exact (rejectsPrefix_parseByte b).last _
  · apply rejectsPrefix_read (p.bytes v) (p.length_bytes v)
    intro got s heof
    rw [eofOf_bind heof]
    rfl

theorem rejectsPrefix_parseElemsBulk {k : ℕ} (valueInit : Bool)
    (v : Vec (maxElems k) (BitVec (8 * k))) :
    RejectsPrefix (parseElemsBulk k valueInit v.size : Run σ _) (v.elems.flatMap wordBytes) := by
  have hsize : v.size.toNat = v.elems.length := by
    rw [Vec.size, BitVec.toNat_ofNat, Nat.mod_eq_of_lt (lt_of_le_of_lt v.bounded (maxElems_lt k))]
  have hlen := length_flatMap_wordBytes v.elems
  unfold parseElemsBulk
  rw [dif_pos (by rw [hsize]; exact v.bounded)]
  apply rejectsPrefix_read _ (by rw [hlen, hsize])
  intro got s heof
  rw [eofOf_bind heof]
  rfl

/-- Elements one after the other: the first one that is not all there is noticed. -/
theorem rejectsPrefix_parseN {α β : Type} {parseElem : Run σ β} {f : α → List Byte} {g : α → β}
    {n : ℕ} (l : List α) (hn : l.length = n) (hconsumes : ∀ x ∈ l, Consumes parseElem (f x) (g x))
    (h : ∀ x ∈ l, RejectsPrefix parseElem (f x)) :
    RejectsPrefix (parseN parseElem n) (l.flatMap f) := by
  subst hn
  induction l with
  | nil => exact Starves.nil _
  | cons x l ih =>
    have hl := ih (fun y hy => hconsumes y (List.mem_cons_of_mem _ hy))
      (fun y hy => h y (List.mem_cons_of_mem _ hy))
    rw [List.flatMap_cons]
    exact RejectsPrefix.bind (hconsumes x List.mem_cons_self) (h x List.mem_cons_self) (hl.last _)

theorem rejectsPrefix_parseElems {α β : Type} {m : ℕ} (reserve : Bool) {parseElem : Run σ β}
    {f : α → List Byte} {g : α → β} (l : List α) {size : SizeT} (hsize : l.length = size.toNat)
    (hm : size.toNat ≤ m) (hconsumes : ∀ x ∈ l, Consumes parseElem (f x) (g x))
    (h : ∀ x ∈ l, RejectsPrefix parseElem (f x)) :
    RejectsPrefix (parseElems m reserve parseElem size) (l.flatMap f) := by
  unfold parseElems
  rw [dif_pos hm]
  exact (rejectsPrefix_parseN l hsize hconsumes h).last _

/-! ## Types -/

variable (σ) (build : Build)

/-- A stream that ends inside of a value of type `s` is noticed, given enough
    fuel for the whole value. -/
def Rejects {α : Type} (s : Ty α) : Prop :=
  ∀ fuel (v : α), (bytes s v).length ≤ fuel →
    RejectsPrefix (Fuel.parse build fuel s : Run σ α) (bytes s v)

/-- The same for the members of a tuple. -/
def RejectsTuple {τ : Type} (ms : Tuple τ) : Prop :=
  ∀ fuel (v : τ), (tupleBytes ms v).length ≤ fuel →
    RejectsPrefix (Fuel.readTuple build fuel ms : Run σ τ) (tupleBytes ms v)

variable {σ build}

theorem rejects_arith {α : Type} (p : Arith α) : Rejects σ build (.arith p) :=
  fun _ v _ => rejectsPrefix_readPrim p v

theorem rejects_enum {α υ : Type} (p : Arith υ) (value : α → υ) (enumerator : υ → α)
    (hcast : ∀ a, enumerator (value a) = a) : Rejects σ build (.enum p value enumerator hcast) :=
  fun _ v _ => (rejectsPrefix_readPrim p (value v)).last _

/-- A contiguous container is its size and its elements. -/
theorem rejects_contiguous {k : ℕ} (hk : 0 < k) (valueInit : Bool) :
    Rejects σ build (.contiguous k hk valueInit) := by
  intro fuel v hfuel
  unfold Fuel.parse
  rw [bytes] at hfuel ⊢
  rw [List.length_append] at hfuel
  have hdigits : (base128 v.size.toNat).length ≤ fuel := by omega
  apply RejectsPrefix.bind (consumes_readVarUint (by norm_num) v.size hdigits)
  · exact rejectsPrefix_readVarUint (by norm_num) v.size hdigits
  · exact rejectsPrefix_parseElemsBulk valueInit v

theorem rejectsPrefix_elements {α : Type} {s : Ty α} (h : Rejects σ build s) (l : List α) {n : ℕ}
    (hn : l.length = n) {fuel : ℕ} (hfuel : (l.flatMap (bytes s)).length ≤ fuel) :
    RejectsPrefix (parseN (Fuel.parse build fuel s : Run σ α) n) (l.flatMap (bytes s)) := by
  have hlen : ∀ x ∈ l, (bytes s x).length ≤ fuel := by
    intro x hx
    have hle := length_le_length_flatMap (bytes s) hx
    omega
  exact rejectsPrefix_parseN l hn (fun x hx => consumes_parse_value build s x (hlen x hx))
    fun x hx => h fuel x (hlen x hx)

/-- A container is its size and its elements. -/
theorem rejectsPrefix_container {α β : Type} {s : Ty α} {l : List α} {size : SizeT} {fuel : ℕ}
    {parseRest : SizeT → Run σ β}
    (hfuel : (base128 size.toNat ++ l.flatMap (bytes s)).length ≤ fuel)
    (hrest : (l.flatMap (bytes s)).length ≤ fuel →
      RejectsPrefix (parseRest size) (l.flatMap (bytes s))) :
    RejectsPrefix (readVarUint fuel 64 >>= parseRest) (base128 size.toNat ++ l.flatMap (bytes s)) := by
  rw [List.length_append] at hfuel
  have hdigits : (base128 size.toNat).length ≤ fuel := by omega
  apply RejectsPrefix.bind (consumes_readVarUint (by norm_num) size hdigits)
  · exact rejectsPrefix_readVarUint (by norm_num) size hdigits
  · exact hrest (by omega)

theorem rejects_sequence {α : Type} (m : ℕ) (hm : m < 2 ^ 64) (reserve : Bool) {s : Ty α}
    (h : Rejects σ build s) : Rejects σ build (.sequence m hm reserve s) := by
  intro fuel v hfuel
  have hsize : v.size.toNat = v.elems.length := by
    rw [Vec.size, BitVec.toNat_ofNat, Nat.mod_eq_of_lt (lt_of_le_of_lt v.bounded hm)]
  unfold Fuel.parse
  rw [bytes] at hfuel ⊢
  apply rejectsPrefix_container hfuel
  intro helems
  unfold parseElems
  rw [dif_pos (by rw [hsize]; exact v.bounded)]
  exact (rejectsPrefix_elements h v.elems hsize.symm helems).last _

theorem rejects_ordered {α : Type} {lt : α → α → Bool} (hlt : StrictWeak lt) {s : Ty α}
    (h : Rejects σ build s) : Rejects σ build (.ordered lt hlt s) := by
  intro fuel v hfuel
  have hsize : v.size.toNat = v.elems.length := by
    rw [OrdSet.size, BitVec.toNat_ofNat, Nat.mod_eq_of_lt v.bounded]
  unfold Fuel.parse
  rw [bytes] at hfuel ⊢
  apply rejectsPrefix_container hfuel
  intro helems
  exact (rejectsPrefix_elements h v.elems hsize.symm helems).last _

theorem rejects_array {α : Type} {n : ℕ} (hn : n < 2 ^ 64) (init : Option α) {s : Ty α}
    (h : Rejects σ build s) : Rejects σ build (.array n hn init s) := by
  intro fuel v hfuel
  have hsize : (BitVec.ofNat 64 n).toNat = n := by
    rw [BitVec.toNat_ofNat, Nat.mod_eq_of_lt hn]
  unfold Fuel.parse
  rw [bytes] at hfuel ⊢
  apply rejectsPrefix_container hfuel
  intro helems
  unfold parseArray
  rw [if_pos (by rw [hsize])]
  exact (rejectsPrefix_elements h _ (by rw [List.length_ofFn, hsize]) helems).last _

theorem rejectsTuple_nil : RejectsTuple σ build .nil := fun _ _ _ => Starves.nil _

/-- A tuple throws where its first member or the others do. -/
theorem rejectsTuple_cons {α τ : Type} {s : Ty α} {ms : Tuple τ} (hs : Rejects σ build s)
    (hms : RejectsTuple σ build ms) : RejectsTuple σ build (.cons s ms) := by
  intro fuel v hfuel
  unfold Fuel.readTuple
  rw [tupleBytes] at hfuel ⊢
  rw [List.length_append] at hfuel
  have hlen : (bytes s v.1).length ≤ fuel := by omega
  have hconsumes := consumes_parse_value (σ := σ) build s v.1 hlen
  exact RejectsPrefix.bind hconsumes (hs fuel v.1 (by omega))
    ((hms fuel v.2 (by omega)).last _)

theorem rejects_tupleStruct {S τ : Type} (e : S ≃ τ) {ms : Tuple τ}
    (hms : RejectsTuple σ build ms) : Rejects σ build (.tupleStruct e ms) := by
  intro fuel v hfuel
  unfold Fuel.parse
  rw [bytes] at hfuel ⊢
  exact (hms fuel (e v) hfuel).last _

theorem rejects_stdTuple {S τ : Type} (e : S ≃ τ) {ms : Tuple τ} (h : RejectsTuple σ build ms) :
    Rejects σ build (.stdTuple e ms) := by
  intro fuel v hfuel
  unfold Fuel.parse
  rw [bytes] at hfuel ⊢
  exact (h fuel (e v) hfuel).last _

/-- The fuel of `parse` is enough for what there is of the value. -/
theorem rejectsPrefix_parse {α : Type} {s : Ty α}
    (hsettles : Settles fun fuel => (Fuel.parse build fuel s : Run σ α))
    (h : Rejects σ build s) (v : α) : RejectsPrefix (parse build s : Run σ α) (bytes s v) := by
  intro stream part hready hpre hne
  have hfuel := (hsettles stream (left stream + 1) (Nat.lt_succ_self _)).2
    (max (left stream + 1) (bytes s v).length)
    (lt_of_lt_of_le (Nat.lt_succ_self _) (le_max_left _ _))
  beta_reduce at hfuel
  show ∃ e s', Fuel.parse build (left stream + 1) s stream = .error e s' ∧ _
  rw [← hfuel]
  exact h _ v (le_max_right _ _) stream part hready hpre hne

end Truncation

end BambooShoot.Pbss
