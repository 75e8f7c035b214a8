import BambooShoot.Pbss.Progress
import BambooShoot.Pbss.CharRange
import Mathlib.Data.List.Nodup
import Mathlib.Data.List.Range

/-!
# Optimistic and plain parsing of tagged structs

`parse_custom_struct_with_fallback` reads the members in the order of their
declaration as long as the input has them in that order. Behind the last one it
skips every field, without looking at the tags; `parse_custom_struct` would read
a field with a known tag once more. On any other input, well-formed or not, the
two are the same program:

* `withFallback_eq`: they have the same outcome where no member comes again
  behind a full positional match (`NoRepeat`);
* `parse_eq_plain`: where this holds of every struct in the input (`Orderly`),
  the threshold of the optimistic parser does not matter;
* `repeated_member`: a repeated member that tells them apart.
-/

namespace BambooShoot.Pbss

open BambooShoot.Lib
open Measured

/-! ## Fields along a run -/

/-- The members still expected behind a field with tag `id`, as long as all
    fields have come in the order of declaration. -/
def nextExpected : Option (List Byte) → Byte → Option (List Byte)
  | some (t :: ts), id => if id = t then some ts else none
  | some [], _ => some []
  | none, _ => none

section Fields

variable {σ : Type} [InputStream σ]

/-- `check` holds of every field that `parse_custom_struct` meets within `k`
    rounds: of the members expected, the tag, the object so far and the stream
    behind the tag. -/
def FieldsAlong {τ : Type} (check : Option (List Byte) → Byte → τ → σ → Prop)
    (parseMember : Byte → τ → Run σ τ) : ℕ → Option (List Byte) → τ → σ → Prop
  | 0, _, _, _ => True
  | k + 1, expected, obj, s =>
    ∀ id s', parseByte s = .ok id s' → id ≠ 0 →
      check expected id obj s' ∧
        ∀ obj' s'', parseMember id obj s' = .ok obj' s'' →
          FieldsAlong check parseMember k (nextExpected expected id) obj' s''

/-- Once all members have been read in order, none of them comes again. -/
def NoRepeat {τ : Type} (tags : List Byte) (parseMember : Byte → τ → Run σ τ) :
    ℕ → Option (List Byte) → τ → σ → Prop :=
  FieldsAlong (fun expected id _ _ => expected = some [] → id ∉ tags) parseMember

instance FieldsAlong.decidable {τ : Type} {check : Option (List Byte) → Byte → τ → σ → Prop}
    [∀ expected id obj s, Decidable (check expected id obj s)] {parseMember : Byte → τ → Run σ τ} :
    (k : ℕ) → (expected : Option (List Byte)) → (obj : τ) → (s : σ) →
    Decidable (FieldsAlong check parseMember k expected obj s)
  | 0, _, _, _ => isTrue trivial
  | k + 1, expected, obj, s =>
    match hid : parseByte s with
    | .error _ _ => isTrue fun _ _ h => by rw [hid] at h; cases h
    | .ok id s' =>
      match hobj : parseMember id obj s' with
      | .error _ _ =>
        decidable_of_iff (id ≠ 0 → check expected id obj s')
          ⟨fun h id' s1 hid' h0 => by
            rw [hid] at hid'
            cases hid'
            exact ⟨h h0, fun _ _ ho => by rw [hobj] at ho; cases ho⟩,
          fun h h0 => (h id s' hid h0).1⟩
      | .ok obj' s'' =>
        have : Decidable (FieldsAlong check parseMember k (nextExpected expected id) obj' s'') :=
          FieldsAlong.decidable k (nextExpected expected id) obj' s''
        decidable_of_iff (id ≠ 0 → check expected id obj s' ∧
            FieldsAlong check parseMember k (nextExpected expected id) obj' s'')
          ⟨fun h id' s1 hid' h0 => by
            rw [hid] at hid'
            cases hid'
            refine ⟨(h h0).1, fun _ _ ho => ?_⟩
            rw [hobj] at ho
            cases ho
            exact (h h0).2,
          fun h h0 => ⟨(h id s' hid h0).1, (h id s' hid h0).2 obj' s'' hobj⟩⟩

instance {τ : Type} (tags : List Byte) (parseMember : Byte → τ → Run σ τ) (k : ℕ)
    (expected : Option (List Byte)) (obj : τ) (s : σ) :
    Decidable (NoRepeat tags parseMember k expected obj s) :=
  inferInstanceAs (Decidable (FieldsAlong (fun expected id _ _ => expected = some [] → id ∉ tags)
    parseMember k expected obj s))

/-- A tag that no member has is skipped. -/
theorem parseCustomStructMember_unknown (build : Build) (fuel : ℕ) {id : Byte} :
    {tags : List Byte} → {τ : Type} → (ms : Members tags τ) → id ∉ tags → (obj : τ) →
    Fuel.parseCustomStructMember build fuel ms id obj =
      (do skipMember build fuel; pure obj : Run σ τ)
  | _, _, .nil, _, _ => rfl
  | _, _, .cons typeId _ _ _ ms, hid, obj => by
    rw [List.mem_cons, not_or] at hid
    rw [Fuel.parseCustomStructMember, if_neg hid.1,
      parseCustomStructMember_unknown build fuel ms hid.2, bind_assoc]
    rfl

end Fields

section Agreement

variable {σ : Type} [InputStream σ] [ForwardInputStream σ]

/-- Behind the last member, the optimistic parser skips what the plain one
    skips. -/
theorem skipFields_eq {build : Build} (hbuild : build.rangeChecks = true) {fuel : ℕ}
    {tags : List Byte} {τ : Type} (ms : Members tags τ) (wrap : Unit → τ) (k k' : ℕ) (s : σ)
    (hs : left s < fuel) (hk : left s < k) (hk' : left s < k')
    (h : NoRepeat tags (Fuel.parseCustomStructMember build fuel ms) k' (some []) (wrap ()) s) :
    (do
      let obj ← parseCustomStruct (fun _ obj => do skipMember build fuel; pure obj) k ()
      pure (wrap obj) : Run σ τ) s =
    parseCustomStruct (Fuel.parseCustomStructMember build fuel ms) k' (wrap ()) s := by
  induction k' generalizing k s with
  | zero => omega
  | succ k' ih =>
    obtain ⟨k, rfl⟩ : ∃ j, k = j + 1 := ⟨k - 1, by omega⟩
    rw [parseCustomStruct, parseCustomStruct, bind_assoc]
    refine bind_congr_at rfl fun id s1 hid => ?_
    have hlt := parseByte_lt hid
    by_cases h0 : id = 0
    · rw [if_pos h0, if_pos h0, pure_bind]
    · obtain ⟨hcheck, hnext⟩ := h id s1 hid h0
      have hmember := parseCustomStructMember_unknown (σ := σ) build fuel ms (hcheck rfl) (wrap ())
      rw [hmember] at hnext
      rw [if_neg h0, if_neg h0, hmember]
      simp only [bind_assoc, pure_bind]
      refine bind_congr_at rfl fun u s2 hskip => ?_
      have hle := (settles_skipMember hbuild).left_le (by omega) hskip
      exact ih k s2 (by omega) (by omega) (by omega) (hnext (wrap ()) s2 (bind_of_ok hskip))

/-- The optimistic parser from the members `ms` on, for a struct with members
    `all` of which it has read those in front of `ms`: `wrap` puts the members
    already read and those of `ms` together. -/
theorem optimistic_eq {build : Build} (hbuild : build.rangeChecks = true) {fuel : ℕ}
    {allTags : List Byte} {T : Type} (all : Members allTags T) : {tags : List Byte} → {τ : Type} →
    (ms : Members tags τ) → (wrap : τ → T) →
    (∀ id ∈ tags, ∀ obj, Fuel.parseCustomStructMember build fuel all id (wrap obj) =
      (do
        let obj ← Fuel.parseCustomStructMember build fuel ms id obj
        pure (wrap obj) : Run σ T)) →
    (obj : τ) → (k : ℕ) → (s : σ) → left s < fuel → left s < k →
    NoRepeat allTags (Fuel.parseCustomStructMember build fuel all) k (some tags) (wrap obj) s →
    (do
      let (obj, id) ← Fuel.parseCustomStructOptimistic build fuel ms obj
      if id = 0 then pure (wrap obj)
      else
        let obj ← Fuel.parseCustomStructMember build fuel all id (wrap obj)
        parseCustomStruct (Fuel.parseCustomStructMember build fuel all) fuel obj : Run σ T) s =
    parseCustomStruct (Fuel.parseCustomStructMember build fuel all) k (wrap obj) s
  | _, _, .nil, wrap, _, (), k, s, hs, hk, h => by
    rw [← skipFields_eq hbuild all wrap fuel k s hs hs hk h, Fuel.parseCustomStructOptimistic]
    simp only [bind_assoc, pure_bind, if_pos]
  | _, _, .cons typeId h0 hn t ms, wrap, hwrap, obj, k, s, hs, hk, h => by
    obtain ⟨k, rfl⟩ : ∃ j, k = j + 1 := ⟨k - 1, by omega⟩
    rw [Fuel.parseCustomStructOptimistic, parseCustomStruct, bind_assoc]
    refine bind_congr_at rfl fun id s1 hid => ?_
    have hlt := parseByte_lt hid
    by_cases he : id = typeId
    · -- the member that is expected
      subst he
      obtain ⟨-, hnext⟩ := h id s1 hid h0
      have hmember := hwrap id List.mem_cons_self obj
      rw [Fuel.parseCustomStructMember, if_pos rfl] at hmember
      rw [hmember] at hnext
      rw [if_pos rfl, if_neg h0, hmember]
      simp only [bind_assoc, pure_bind]
      refine bind_congr_at rfl fun _ s2 hskip => bind_congr_at rfl fun value s3 hvalue => ?_
      have hle2 := (settles_skipVarUint t).left_le (by omega) hskip
      have hle3 := (settles_parse hbuild t).left_le (show left s2 < fuel by omega) hvalue
      have hnext3 := hnext (wrap (value, obj.2)) s3 (by
        simp only [bind_assoc, pure_bind]
        rw [bind_of_ok hskip, bind_of_ok hvalue]
        rfl)
      rw [nextExpected, if_pos rfl] at hnext3
      refine optimistic_eq hbuild all ms (fun rest => wrap (value, rest)) ?_ obj.2 k s3 (by omega)
        (by omega) hnext3
      intro id' hid' rest
      have hne : id' ≠ id := fun he => hn (he ▸ hid')
      rw [hwrap id' (List.mem_cons_of_mem _ hid'), Fuel.parseCustomStructMember, if_neg hne,
        bind_assoc]
      rfl
    · rw [if_neg he, pure_bind]
      by_cases hz : id = 0
      · simp only [if_pos hz]
      · simp only [if_neg hz]
        refine bind_congr_at rfl fun obj' s2 hobj => ?_
        have hle := (settles_parseCustomStructMember hbuild all id (wrap obj)).left_le (by omega) hobj
        exact (parseCustomStruct_settles (settles_parseCustomStructMember hbuild all) obj' s2
          (by omega) (by omega) (by omega) (by omega)).2

/-- Where no member comes again behind a full positional match, the fallback
    does what reading field by field does. -/
theorem withFallback_eq {build : Build} (hbuild : build.rangeChecks = true) {fuel : ℕ}
    {tags : List Byte} {τ : Type} (ms : Members tags τ) (obj : τ) (s : σ) (hs : left s < fuel)
    (h : NoRepeat tags (Fuel.parseCustomStructMember build fuel ms) fuel (some tags) obj s) :
    parseCustomStructWithFallback (Fuel.parseCustomStructOptimistic build fuel ms)
        (Fuel.parseCustomStructMember build fuel ms) fuel obj s =
      parseCustomStruct (Fuel.parseCustomStructMember build fuel ms) fuel obj s :=
  optimistic_eq hbuild ms ms (fun obj => obj) (fun _ _ _ => (bind_pure _).symm) obj fuel s hs hs h

/-! ## The threshold -/

/-- The build that always parses field by field: a struct has at most 255
    members. -/
def plain : Build := ⟨true, 255⟩

theorem plain_rangeChecks : plain.rangeChecks = true := rfl

theorem length_tags_le {tags : List Byte} {τ : Type} (ms : Members tags τ) : tags.length ≤ 255 := by
  have hnodup : ((0 :: tags).map BitVec.toNat).Nodup :=
    (List.nodup_cons.mpr ⟨ms.zero_not_mem, ms.nodup⟩).map fun _ _ => BitVec.eq_of_toNat_eq
  have hsub : (0 :: tags).map BitVec.toNat ⊆ List.range 256 := by
    intro n hn
    obtain ⟨b, -, rfl⟩ := List.mem_map.mp hn
    exact List.mem_range.mpr b.isLt
  have := (List.subperm_of_subset hnodup hsub).length_le
  rw [List.length_map, List.length_cons, List.length_range] at this
  omega

/-- `P` holds in front of each of `n` elements. -/
def OrderlyN {α : Type} (P : σ → Prop) (parseElem : Run σ α) : ℕ → σ → Prop
  | 0, _ => True
  | n + 1, s => P s ∧ ∀ x s', parseElem s = .ok x s' → OrderlyN P parseElem n s'

mutual

/-- No struct that is met in parsing a value repeats a member behind a full
    positional match. -/
def Orderly (fuel : ℕ) : {α : Type} → Ty α → σ → Prop
  | _, .stdTuple _ ms, s => OrderlyTuple fuel ms s
  | _, .tupleStruct _ ms, s => OrderlyTuple fuel ms s
  | _, .sequence m _ reserve t, s => ∀ size s', readVarUint fuel 64 s = .ok size s' →
    OrderlyN (Orderly fuel t) (Fuel.parse plain fuel t)
      (if size.toNat ≤ m then size.toNat else if reserve then 0 else m + 1) s'
  | _, .ordered _ _ t, s => ∀ size s', readVarUint fuel 64 s = .ok size s' →
    OrderlyN (Orderly fuel t) (Fuel.parse plain fuel t) size.toNat s'
  | _, .array n _ _ t, s => ∀ size s', readVarUint fuel 64 s = .ok size s' →
    OrderlyN (Orderly fuel t) (Fuel.parse plain fuel t)
      (if size.toNat ≤ n then size.toNat else n + 1) s'
  | _, .taggedStruct e init ms, s =>
    FieldsAlong
      (fun expected id _ s => (expected = some [] → id ∉ ms.tags) ∧ OrderlyMember fuel ms id s)
      (Fuel.parseCustomStructMember plain fuel ms) fuel (some ms.tags) (e init) s
  | _, _, _ => True

def OrderlyTuple (fuel : ℕ) : {τ : Type} → Tuple τ → σ → Prop
  | _, .nil, _ => True
  | _, .cons t ms, s =>
    Orderly fuel t s ∧ ∀ v s', Fuel.parse plain fuel t s = .ok v s' → OrderlyTuple fuel ms s'

def OrderlyMember (fuel : ℕ) : {tags : List Byte} → {τ : Type} → Members tags τ → Byte → σ → Prop
  | _, _, .nil, _, _ => True
  | _, _, .cons typeId _ _ t ms, id, s =>
    if id = typeId then ∀ u s', skipVarUint fuel t s = .ok u s' → Orderly fuel t s'
    else OrderlyMember fuel ms id s

end

theorem parseN_congr {α : Type} {P : σ → Prop} {p q : Run σ α} {fuel : ℕ}
    (h : ∀ s, left s < fuel → P s → p s = q s)
    (hle : ∀ {s s' x}, left s < fuel → q s = .ok x s' → left s' ≤ left s) (n : ℕ) (s : σ)
    (hs : left s < fuel) (hP : OrderlyN P q n s) : parseN p n s = parseN q n s := by
  induction n generalizing s with
  | zero => rfl
  | succ n ih =>
    refine bind_congr_at (h s hs hP.1) fun x s' hx => ?_
    have hlt := hle hs hx
    exact bind_congr_at (ih s' (by omega) (hP.2 x s' hx)) fun _ _ _ => rfl

/-- Members that agree on the fields of a run make the same run of it. -/
theorem parseCustomStruct_congr {τ : Type} {P : Option (List Byte) → Byte → τ → σ → Prop}
    {p q : Byte → τ → Run σ τ} {fuel : ℕ}
    (h : ∀ expected id obj s, left s < fuel → P expected id obj s → p id obj s = q id obj s)
    (hle : ∀ {id obj s s' obj'}, left s < fuel → q id obj s = .ok obj' s' → left s' ≤ left s)
    (k : ℕ) (expected : Option (List Byte)) (obj : τ) (s : σ) (hs : left s < fuel)
    (hP : FieldsAlong P q k expected obj s) :
    parseCustomStruct p k obj s = parseCustomStruct q k obj s ∧ FieldsAlong P p k expected obj s := by
  induction k generalizing expected obj s with
  | zero => exact ⟨rfl, trivial⟩
  | succ k ih =>
    have hfield : ∀ {id s1}, parseByte s = .ok id s1 → id ≠ 0 → p id obj s1 = q id obj s1 :=
      fun hid h0 => h expected _ obj _ (lt_trans (parseByte_lt hid) hs) (hP _ _ hid h0).1
    have hnext : ∀ {id s1 obj' s2}, parseByte s = .ok id s1 → id ≠ 0 →
        q id obj s1 = .ok obj' s2 →
        parseCustomStruct p k obj' s2 = parseCustomStruct q k obj' s2 ∧
          FieldsAlong P p k (nextExpected expected id) obj' s2 := fun hid h0 hobj => by
      have hlt := parseByte_lt hid
      have hlt2 := hle (by omega) hobj
      exact ih _ _ _ (by omega) ((hP _ _ hid h0).2 _ _ hobj)
    constructor
    · refine bind_congr_at rfl fun id s1 hid => ?_
      by_cases h0 : id = 0
      · rw [if_pos h0, if_pos h0]
      · rw [if_neg h0, if_neg h0]
        exact bind_congr_at (hfield hid h0) fun obj' s2 hobj => (hnext hid h0 hobj).1
    · intro id s1 hid h0
      refine ⟨(hP id s1 hid h0).1, fun obj' s2 hobj => ?_⟩
      rw [hfield hid h0] at hobj
      exact (hnext hid h0 hobj).2

omit [ForwardInputStream σ] in
theorem FieldsAlong.imp {τ : Type} {P Q : Option (List Byte) → Byte → τ → σ → Prop}
    {p : Byte → τ → Run σ τ} (h : ∀ expected id obj s, P expected id obj s → Q expected id obj s)
    {k : ℕ} {expected : Option (List Byte)} {obj : τ} {s : σ}
    (hP : FieldsAlong P p k expected obj s) : FieldsAlong Q p k expected obj s := by
  induction k generalizing expected obj s with
  | zero => trivial
  | succ k ih =>
    intro id s' hid h0
    exact ⟨h _ _ _ _ (hP id s' hid h0).1, fun obj' s'' hobj =>
      ih ((hP id s' hid h0).2 obj' s'' hobj)⟩

mutual

/-- Where the input is orderly, the threshold does not matter. -/
theorem parse_eq_plain (n fuel : ℕ) : {α : Type} → (t : Ty α) → (s : σ) → left s < fuel →
    Orderly fuel t s → Fuel.parse ⟨true, n⟩ fuel t s = Fuel.parse plain fuel t s
  | _, .arith _, _, _, _ => rfl
  | _, .enum _ _ _ _, _, _, _ => rfl
  | _, .varUint _ _, _, _, _ => rfl
  | _, .stdTuple e ms, s, hs, h => by
    rw [Fuel.parse, Fuel.parse]
    exact bind_congr_at (readTuple_eq_plain n fuel ms s hs h) fun _ _ _ => rfl
  | _, .tupleStruct e ms, s, hs, h => by
    rw [Fuel.parse, Fuel.parse]
    exact bind_congr_at (readTuple_eq_plain n fuel ms s hs h) fun _ _ _ => rfl
  | _, .contiguous _ _ _, _, _, _ => rfl
  | _, .sequence m _ reserve t, s, hs, h => by
    rw [Fuel.parse, Fuel.parse]
    refine bind_congr_at rfl fun size s1 hsize => ?_
    have hle := (settles_readVarUint 64).left_le hs hsize
    have hN := fun count => parseN_congr (P := Orderly fuel t) (fun s => parse_eq_plain n fuel t s)
      (fun hs hp => (settles_parse plain_rangeChecks t).left_le hs hp) count s1 (by omega)
    have horder := h size s1 hsize
    rw [parseElems, parseElems]
    split_ifs at horder ⊢
    · exact bind_congr_at (hN _ horder) fun _ _ _ => rfl
    · rfl
    · exact bind_congr_at (hN _ horder) fun _ _ _ => rfl
  | _, .ordered _ _ t, s, hs, h => by
    rw [Fuel.parse, Fuel.parse]
    refine bind_congr_at rfl fun size s1 hsize => ?_
    have hle := (settles_readVarUint 64).left_le hs hsize
    have hN := parseN_congr (P := Orderly fuel t) (fun s => parse_eq_plain n fuel t s)
      (fun hs hp => (settles_parse plain_rangeChecks t).left_le hs hp) _ s1 (by omega)
      (h size s1 hsize)
    exact bind_congr_at hN fun _ _ _ => rfl
  | _, .array m _ init t, s, hs, h => by
    rw [Fuel.parse, Fuel.parse]
    refine bind_congr_at rfl fun size s1 hsize => ?_
    have hle := (settles_readVarUint 64).left_le hs hsize
    have hN := fun count => parseN_congr (P := Orderly fuel t) (fun s => parse_eq_plain n fuel t s)
      (fun hs hp => (settles_parse plain_rangeChecks t).left_le hs hp) count s1 (by omega)
    have horder := h size s1 hsize
    rw [parseArray, parseArray]
    split_ifs at horder ⊢
    · exact bind_congr_at (hN _ horder) fun _ _ _ => rfl
    · exact bind_congr_at (hN _ horder) fun _ _ _ => rfl
  | _, .taggedStruct e init ms, s, hs, h => by
    have hloop := parseCustomStruct_congr
      (p := Fuel.parseCustomStructMember ⟨true, n⟩ fuel ms)
      (fun expected id obj s hs hP => parseCustomStructMember_eq_plain n fuel ms id obj s hs hP.2)
      (fun {id obj s s' obj'} hs hp =>
        (settles_parseCustomStructMember plain_rangeChecks ms id obj).left_le hs hp)
      fuel (some ms.tags) (e init) s hs h
    have hplain : ¬ ms.tags.length > plain.optimisticThreshold :=
      not_lt.mpr (length_tags_le ms)
    rw [Fuel.parse, Fuel.parse]
    refine bind_congr_at ?_ fun _ _ _ => rfl
    rw [parseCustomStructOptimisticForLarge, parseCustomStructOptimisticForLarge, if_neg hplain]
    split_ifs
    · rw [withFallback_eq rfl ms (e init) s hs (hloop.2.imp fun _ _ _ _ hP => hP.1), hloop.1]
    · exact hloop.1

theorem readTuple_eq_plain (n fuel : ℕ) : {τ : Type} → (ms : Tuple τ) → (s : σ) →
    left s < fuel → OrderlyTuple fuel ms s →
    Fuel.readTuple ⟨true, n⟩ fuel ms s = Fuel.readTuple plain fuel ms s
  | _, .nil, _, _, _ => rfl
  | _, .cons t ms, s, hs, h => by
    rw [Fuel.readTuple, Fuel.readTuple]
    refine bind_congr_at (parse_eq_plain n fuel t s hs h.1) fun v s1 hv => ?_
    have hle := (settles_parse plain_rangeChecks t).left_le hs hv
    exact bind_congr_at (readTuple_eq_plain n fuel ms s1 (by omega) (h.2 v s1 hv)) fun _ _ _ => rfl

theorem parseCustomStructMember_eq_plain (n fuel : ℕ) : {tags : List Byte} → {τ : Type} →
    (ms : Members tags τ) → (id : Byte) → (obj : τ) → (s : σ) → left s < fuel →
    OrderlyMember fuel ms id s →
    Fuel.parseCustomStructMember ⟨true, n⟩ fuel ms id obj s =
      Fuel.parseCustomStructMember plain fuel ms id obj s
  | _, _, .nil, _, _, _, _, _ => rfl
  | _, _, .cons typeId _ _ t ms, id, obj, s, hs, h => by
    rw [Fuel.parseCustomStructMember, Fuel.parseCustomStructMember]
    rw [OrderlyMember] at h
    split_ifs at h ⊢
    · refine bind_congr_at rfl fun u s1 hskip => ?_
      have hle := (settles_skipVarUint t).left_le hs hskip
      exact bind_congr_at (parse_eq_plain n fuel t s1 (by omega) (h u s1 hskip)) fun _ _ _ => rfl
    · exact bind_congr_at (parseCustomStructMember_eq_plain n fuel ms id obj.2 s hs h)
        fun _ _ _ => rfl

end

/-! ## Both parsers on one stream -/

/-- `parse_custom_struct` for the members `ms`. -/
def parseCustomStructOf {tags : List Byte} {τ : Type} (build : Build) (ms : Members tags τ)
    (obj : τ) : Run σ τ := fun stream =>
  parseCustomStruct (Fuel.parseCustomStructMember build (left stream + 1) ms) (left stream + 1) obj
    stream

/-- `parse_custom_struct_with_fallback` for the members `ms`. -/
def parseCustomStructWithFallbackOf {tags : List Byte} {τ : Type} (build : Build)
    (ms : Members tags τ) (obj : τ) : Run σ τ := fun stream =>
  parseCustomStructWithFallback (Fuel.parseCustomStructOptimistic build (left stream + 1) ms)
    (Fuel.parseCustomStructMember build (left stream + 1) ms) (left stream + 1) obj stream

/-- Reading `stream` field by field, no member comes again once all of them have
    come in the order of declaration. -/
def RepeatsNone {tags : List Byte} {τ : Type} (build : Build) (ms : Members tags τ) (obj : τ)
    (stream : σ) : Prop :=
  NoRepeat tags (Fuel.parseCustomStructMember build (left stream + 1) ms) (left stream + 1)
    (some tags) obj stream

/-- Optimistic and plain parsing have the same outcome where no member comes
    again behind a full positional match; so the threshold does not matter where
    this holds of every struct in the input. -/
theorem optimistic_agrees (stream : σ) :
    (∀ {tags : List Byte} {τ : Type} (threshold : ℕ) (ms : Members tags τ) (obj : τ),
      RepeatsNone ⟨true, threshold⟩ ms obj stream →
      parseCustomStructWithFallbackOf ⟨true, threshold⟩ ms obj stream =
        parseCustomStructOf ⟨true, threshold⟩ ms obj stream) ∧
    (∀ {α : Type} (threshold threshold' : ℕ) (s : Ty α), Orderly (left stream + 1) s stream →
      parse ⟨true, threshold⟩ s stream = parse ⟨true, threshold'⟩ s stream) := by
  constructor
  · intro tags τ threshold ms obj h
    exact withFallback_eq rfl ms obj stream (Nat.lt_succ_self _) h
  · intro α threshold threshold' s h
    have hs := Nat.lt_succ_self (left stream)
    exact (parse_eq_plain threshold _ s stream hs h).trans
      (parse_eq_plain threshold' _ s stream hs h).symm

end Agreement

/-! ## A member that comes again -/

namespace Repeated

/-- One `uint8_t` with tag 1. -/
def members : Members [1] (BitVec (8 * 1) × Unit) :=
  .cons 1 Members.one_ne_zero Members.one_not_mem_nil (.arith (.bits 1 Nat.one_pos)) .nil

def struct : Ty (BitVec (8 * 1) × Unit) := .taggedStruct (.refl _) (0, ()) members

/-- The member comes twice, first as 5 and then as 7. -/
def input : CharRangeReader := .ofBytes [1, 1, 5, 1, 1, 7, 0]

/-- The member comes once, then a field that is not known. -/
def orderly : CharRangeReader := .ofBytes [1, 1, 5, 2, 1, 7, 0]

/-- The member a parser has read in the end. -/
def outcome (r : EStateM.Result Stop CharRangeReader (BitVec (8 * 1) × Unit)) :
    Option (BitVec (8 * 1)) :=
  match r with
  | .ok v _ => some v.1
  | .error _ _ => none

end Repeated

/-- The optimistic parser skips the second 1-member, the plain one reads it; so
    the threshold decides on the result. -/
theorem repeated_member :
    Repeated.outcome (parseCustomStructWithFallbackOf ⟨true, 8⟩ Repeated.members (0, ())
        Repeated.input) ≠
      Repeated.outcome (parseCustomStructOf ⟨true, 8⟩ Repeated.members (0, ()) Repeated.input) ∧
    Repeated.outcome (parse ⟨true, 0⟩ Repeated.struct Repeated.input) ≠
      Repeated.outcome (parse ⟨true, 8⟩ Repeated.struct Repeated.input) := by
  decide +kernel

/-- On a field that is not known they agree. -/
theorem unknown_field :
    parseCustomStructWithFallbackOf ⟨true, 8⟩ Repeated.members (0, ()) Repeated.orderly =
        parseCustomStructOf ⟨true, 8⟩ Repeated.members (0, ()) Repeated.orderly ∧
      parse ⟨true, 0⟩ Repeated.struct Repeated.orderly =
        parse ⟨true, 8⟩ Repeated.struct Repeated.orderly := by
  have hmember : ∀ fuel id (s : CharRangeReader), OrderlyMember fuel Repeated.members id s := by
    intro fuel id s
    simp [Repeated.members, OrderlyMember, Orderly]
  refine ⟨(optimistic_agrees Repeated.orderly).1 8 Repeated.members (0, ()) ?_,
    (optimistic_agrees Repeated.orderly).2 0 8 Repeated.struct ?_⟩
  · rw [RepeatsNone]
    decide +kernel
  · have hfields : NoRepeat [1]
        (Fuel.parseCustomStructMember plain (left Repeated.orderly + 1) Repeated.members)
        (left Repeated.orderly + 1) (some [1]) (0, ()) Repeated.orderly := by decide +kernel
    exact hfields.imp fun _ id _ s h => ⟨h, hmember _ id s⟩

end BambooShoot.Pbss
