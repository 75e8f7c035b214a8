import BambooShoot.Pbss.RoundTrip

/-!
# The fields of a tagged struct

What `parse_custom_struct` (`pbss-struct.hh`, lines 154–183) makes of fields
that need not come from one value of the struct: known members in any order and
any number of times, and fields nobody knows between them.

* `Entry`: a field, with its bytes and what it does to the object;
* `consumes_parseCustomStructMember_entry`: one field;
* `parse_entries`: all of them, up to the end mark.
-/

namespace BambooShoot.Pbss

open BambooShoot.Lib
open Source Measured

/-! ## Members -/

section Members

variable {tags : List Byte} {τ : Type} {ms : Members tags τ} {id : Byte} {α : Type} {s : Ty α}

/-- `obj.*member = x`. -/
def Members.At.set : {tags : List Byte} → {τ : Type} → {ms : Members tags τ} → {id : Byte} →
    {α : Type} → {s : Ty α} → Members.At ms id s → α → τ → τ
  | _, _, _, _, _, _, .here, x, obj => (x, obj.2)
  | _, _, _, _, _, _, .there h, x, obj => (obj.1, h.set x obj.2)

/-- The last value that was set is found. -/
theorem Members.At.get_set (h : ms.At id s) (x : α) (obj : τ) : h.get (h.set x obj) = x := by
  induction h with
  | here => rfl
  | there h ih => exact ih x obj.2

end Members

/-! ## Entries -/

/-- A field of a struct with the members `ms`. The length of an unknown one may
    be padded with zero groups. -/
inductive Entry {tags : List Byte} {τ : Type} (ms : Members tags τ) : Type 1
  | known {id : Byte} {α : Type} {s : Ty α} (member : ms.At id s) (value : α)
  | unknown (id : Byte) (id_ne_zero : id ≠ 0) (id_not_mem : id ∉ tags) (length payload : List Byte)
      (encoded : encodedPart length = some length) (length_le : length.length ≤ 10)
      (denoted_eq : denoted length = payload.length) (payload_lt : payload.length < 2 ^ 63)

namespace Entry

variable {tags : List Byte} {τ : Type} {ms : Members tags τ}

/-- The tag. -/
def id : Entry ms → Byte
  | @known _ _ _ id _ _ _ _ => id
  | unknown id _ _ _ _ _ _ _ _ => id

/-- The length and the content. -/
def content : Entry ms → List Byte
  | @known _ _ _ _ _ s _ value => withLength (Pbss.bytes s value)
  | unknown _ _ _ length payload _ _ _ _ => length ++ payload

/-- The field in the input. -/
def bytes (entry : Entry ms) : List Byte := entry.id :: entry.content

/-- What reading the field does to the object. -/
def apply : Entry ms → τ → τ
  | known member value, obj => member.set value obj
  | unknown _ _ _ _ _ _ _ _ _, obj => obj

theorem id_ne_zero : (entry : Entry ms) → entry.id ≠ 0
  | known member _ => fun h => ms.zero_not_mem (h ▸ member.mem)
  | unknown _ h _ _ _ _ _ _ _ => h

end Entry

section Consumes

variable {σ : Type} [InputStream σ] [ForwardInputStream σ] [LawfulInputStream σ] (build : Build)
  {fuel : ℕ}

/-- A padded length is read and its payload ignored, whatever it looks like. -/
theorem consumes_skipMember_padded {length payload : List Byte}
    (hencoded : encodedPart length = some length) (hlength : length.length ≤ 10)
    (hdenoted : denoted length = payload.length) (hpayload : payload.length < 2 ^ 63)
    (hfuel : length.length ≤ fuel) :
    Consumes (skipMember build fuel : Run σ Unit) (length ++ payload) () := by
  have hfits : FitsWidth 64 length := by
    unfold FitsWidth
    rw [hencoded]
    constructor
    · show 7 * (length.length - 1) < 64
      omega
    · rw [hdenoted]
      omega
  have hread := consumes_readVarUint_bytes (σ := σ) hencoded hfits hfuel
  have hn : (BitVec.ofNat 64 (denoted length)).toNat = payload.length := by
    rw [hdenoted, BitVec.toNat_ofNat, Nat.mod_eq_of_lt (by omega)]
  have hsigned : (toSigned build (BitVec.ofNat 64 (denoted length)) : Run σ ℤ) =
      pure (payload.length : ℤ) := by
    unfold toSigned
    rw [if_neg (by omega), BitVec.toInt_eq_toNat_of_lt (by omega), hn]
  unfold skipMember
  apply hread.bind
  rw [hsigned]
  exact (Consumes.pure _).skip (consumes_ignore payload)

section Members

variable {tags : List Byte} {τ : Type} {ms : Members tags τ}

theorem consumes_parseCustomStructMember_known {id : Byte} {α : Type} {s : Ty α}
    (member : ms.At id s) (value : α) (obj : τ)
    (hfuel : (withLength (bytes s value)).length ≤ fuel) :
    Consumes (Fuel.parseCustomStructMember build fuel ms id obj : Run σ τ)
      (withLength (bytes s value)) (member.set value obj) := by
  induction member with
  | here =>
    rw [length_withLength] at hfuel
    unfold Fuel.parseCustomStructMember
    rw [if_pos rfl]
    apply (consumes_skipVarUint (skipsLength_self _ value) (by omega)).bind
    exact (consumes_parse_value build _ value (by omega)).bind_pure rfl
  | @there id id' _ _ _ tags _ hn _ _ _ member ih =>
    have hne : id ≠ id' := fun he => hn (he ▸ member.mem)
    unfold Fuel.parseCustomStructMember
    rw [if_neg hne]
    exact (ih value obj.2 hfuel).bind_pure rfl

/-- A tag that no member has gets to the end of the members. -/
theorem consumes_parseCustomStructMember_unknown {bs : List Byte}
    (hskip : Consumes (skipMember build fuel : Run σ Unit) bs ()) : {tags : List Byte} →
    {τ : Type} → (ms : Members tags τ) → {id : Byte} → id ∉ tags → (obj : τ) →
    Consumes (Fuel.parseCustomStructMember build fuel ms id obj : Run σ τ) bs obj
  | _, _, .nil, _, _, _ => hskip.bind_pure rfl
  | _, _, .cons typeId _ _ s ms, id, hnot, obj => by
    have hrest := consumes_parseCustomStructMember_unknown hskip ms
      (fun h => hnot (List.mem_cons_of_mem _ h)) obj.2
    unfold Fuel.parseCustomStructMember
    rw [if_neg fun he : id = typeId => hnot (he ▸ List.mem_cons_self)]
    exact hrest.bind_pure rfl

/-- One field behind its tag. -/
theorem consumes_parseCustomStructMember_entry (obj : τ) : (entry : Entry ms) →
    entry.content.length ≤ fuel →
    Consumes (Fuel.parseCustomStructMember build fuel ms entry.id obj : Run σ τ) entry.content
      (entry.apply obj)
  | .known member value, hfuel =>
    consumes_parseCustomStructMember_known build member value obj hfuel
  | .unknown id _ hnot length payload hencoded hlength hdenoted hpayload, hfuel => by
    have hle : length.length ≤ fuel := by
      simp only [Entry.content, List.length_append] at hfuel
      omega
    exact consumes_parseCustomStructMember_unknown build
      (consumes_skipMember_padded build hencoded hlength hdenoted hpayload hle) ms hnot obj

/-- The loop over some fields, by induction on them: the object in between is
    what the fields before have made of it. -/
theorem consumes_parseCustomStruct_entries (entries : List (Entry ms)) (obj : τ) {rounds : ℕ}
    (hrounds : entries.length < rounds) (hfuel : ∀ entry ∈ entries, entry.content.length ≤ fuel) :
    Consumes (parseCustomStruct (Fuel.parseCustomStructMember build fuel ms) rounds obj : Run σ τ)
      (entries.flatMap Entry.bytes ++ [0]) (entries.foldl (fun obj entry => entry.apply obj) obj) := by
  induction entries generalizing obj rounds with
  | nil =>
    obtain ⟨rounds, rfl⟩ : ∃ k, rounds = k + 1 := ⟨rounds - 1, by omega⟩
    unfold parseCustomStruct
    exact (consumes_parseByte 0).bind_pure (if_pos rfl)
  | cons entry entries ih =>
    obtain ⟨rounds, rfl⟩ : ∃ k, rounds = k + 1 := ⟨rounds - 1, by omega⟩
    rw [List.length_cons] at hrounds
    have hentry := consumes_parseCustomStructMember_entry (σ := σ) build obj entry
      (hfuel entry List.mem_cons_self)
    have hrest := ih (entry.apply obj) (Nat.lt_of_succ_lt_succ hrounds)
      fun e he => hfuel e (List.mem_cons_of_mem _ he)
    rw [List.flatMap_cons, List.append_assoc, List.foldl_cons]
    unfold parseCustomStruct
    apply (consumes_parseByte entry.id).bind
    rw [if_neg entry.id_ne_zero]
    exact hentry.bind hrest

theorem length_le_flatMap_bytes (entries : List (Entry ms)) :
    entries.length ≤ (entries.flatMap Entry.bytes).length := by
  induction entries with
  | nil => exact Nat.le_refl 0
  | cons entry entries ih =>
    rw [List.flatMap_cons, List.length_append, Entry.bytes, List.length_cons, List.length_cons]
    omega

/-- `parse_custom_struct` on fields and an end mark reads exactly these, and
    updates the object by the known ones from left to right. -/
theorem parse_entries (entries : List (Entry ms)) (obj : τ) {stream : σ} {rest : List Byte}
    (h : Ready stream (entries.flatMap Entry.bytes ++ 0 :: rest)) :
    parseCustomStruct (Fuel.parseCustomStructMember build (left stream + 1) ms) (left stream + 1)
        obj stream =
      .ok (entries.foldl (fun obj entry => entry.apply obj) obj)
        (advance ((entries.flatMap Entry.bytes).length + 1) stream) := by
  have hleft := LawfulInputStream.left_ready h
  have hcount := length_le_flatMap_bytes entries
  rw [List.length_append, List.length_cons] at hleft
  have hcontent : ∀ entry ∈ entries, entry.content.length ≤ left stream + 1 := by
    intro entry hentry
    have hle := length_le_length_flatMap Entry.bytes hentry
    rw [Entry.bytes, List.length_cons] at hle
    omega
  rw [← List.singleton_append, ← List.append_assoc] at h
  have hrounds : entries.length < left stream + 1 := by omega
  have hconsumes := consumes_parseCustomStruct_entries (σ := σ) build entries obj hrounds hcontent
  rw [hconsumes.run h, List.length_append, List.length_singleton]

end Members

end Consumes

/-! ## A struct of one member -/

/-- A struct whose one member, a byte, has tag 1. -/
def byteMember : Members [1] (BitVec (8 * 1) × Unit) :=
  .cons 1 Members.one_ne_zero Members.one_not_mem_nil (.arith (.bits 1 Nat.one_pos)) .nil

/-- The member is 5 first and 7 in the end; the unknown field between, of a
    length padded to two bytes, looks like the member and an end mark. -/
def fiveThenSeven : List (Entry byteMember) :=
  [.known .here 5,
    .unknown 9 (by decide) (by decide) [0x84, 0] [1, 1, 8, 0] (by decide) (by decide) (by decide)
      (by decide),
    .known .here 7]

/-- A reader in front of these fields, an end mark and another byte. -/
def fiveThenSevenInput : CharRangeReader :=
  CharRangeReader.ofBytes (fiveThenSeven.flatMap Entry.bytes ++ 0 :: [6])

theorem parse_fiveThenSeven :
    parseCustomStruct (Fuel.parseCustomStructMember { rangeChecks := true }
        (left fiveThenSevenInput + 1) byteMember) (left fiveThenSevenInput + 1) (0, ())
        fiveThenSevenInput =
      .ok (fiveThenSeven.foldl (fun obj entry => entry.apply obj) (0, ()))
        (advance ((fiveThenSeven.flatMap Entry.bytes).length + 1) fiveThenSevenInput) ∧
      fiveThenSeven.foldl (fun obj entry => entry.apply obj) (0, ()) = (7, ()) :=
  ⟨parse_entries { rangeChecks := true } fiveThenSeven (0, ())
    (CharRangeReader.between_ready [] (fiveThenSeven.flatMap Entry.bytes ++ 0 :: [6])), rfl⟩

end BambooShoot.Pbss
