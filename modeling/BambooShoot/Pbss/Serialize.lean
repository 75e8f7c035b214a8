import BambooShoot.Pbss.Size
import BambooShoot.Pbss.Decode
import BambooShoot.Pbss.CharRange
import BambooShoot.Pbss.StdStream

/-!
# `serialize`

Model of the `serialize` overloads and of the helpers that serialize into
memory (`pbss.hh`, lines 128–157).

Results:
* `emits_serialize`: `serialize` writes `bytes s v`, whatever the stream and
  however it fails;
* `varUint_writers_agree`: so do all writers and size functions of numbers;
* `serializeToMemory_eq`: the helpers allocate what they need, and fill it;
* `sizes_exact`: all size functions agree with what is written.
-/

namespace BambooShoot.Pbss

open BambooShoot.Lib

section Model

variable {ω : Type} [OutputStream ω]

/-- `write_prim` (`pbss-primitives.hh`, lines 39–49). -/
def writePrim {α : Type} (p : Arith α) (value : α) : Run ω Unit :=
  if p.size = 1 then (p.bytes value).forM OutputStream.put
  else OutputStream.write (p.bytes value)

/-- `write_elems` (`pbss-serialize-iterable.hh`, lines 86–98): copied as they
    are in memory, or one by one. -/
def writeElems {α : Type} (s : Ty α) (contiguous : Bool) (serializeElem : α → Run ω Unit)
    (coll : List α) : Run ω Unit :=
  if isMemoryLayout s && contiguous then OutputStream.write (coll.flatMap (layoutBytes s))
  else coll.forM serializeElem

/-- `write_field_header` (`pbss-struct.hh`, lines 64–85). -/
def writeFieldHeader {α : Type} (id : Byte) (s : Ty α) (v : α) : Run ω Unit :=
  match fixedSize s with
  | some size => writeStringConstant (id :: staticVuintSerialization 64 size [])
  | none => do
    OutputStream.put id
    writeVarUint (aotSize s v)

mutual

/-- `serialize(stream, value)`. -/
def serialize : {α : Type} → Ty α → α → Run ω Unit
  | _, .arith p, v => writePrim p v
  | _, .enum p value _ _, v => writePrim p (value v)
  | _, .varUint _ _, v => writeVarUint v
  | _, .stdTuple e ms, v => writeTuple ms (e v)
  | _, .tupleStruct e ms, v => writeTuple ms (e v)
  | _, .contiguous k hk _, v => do
    writeVarUint v.size
    writeElems (.arith (.bits k hk)) true (writePrim (.bits k hk)) v.elems
  | _, .sequence _ _ _ s, v => do
    writeVarUint v.size
    writeElems s false (serialize s) v.elems
  | _, .ordered _ _ s, v => do
    writeVarUint v.size
    writeElems s false (serialize s) v.elems
  | _, .array n _ _ s, v => do
    writeVarUint (BitVec.ofNat 64 n)
    writeElems s true (serialize s) (List.ofFn v)
  | _, .taggedStruct e _ ms, v => do
    serializeCustomStruct ms (e v)
    OutputStream.put 0

/-- `write_tuple` (`pbss-std-tuple.hh`, lines 33–44) and `serialize_tuple`
    (`pbss-tuple.hh`, lines 59–66). -/
def writeTuple : {τ : Type} → Tuple τ → τ → Run ω Unit
  | _, .nil, _ => pure ()
  | _, .cons s ms, t => do
    serialize s t.1
    writeTuple ms t.2

/-- `serialize_custom_struct` (`pbss-struct.hh`, lines 87–105), before the end
    mark. -/
def serializeCustomStruct : {tags : List Byte} → {τ : Type} → Members tags τ → τ → Run ω Unit
  | _, _, .nil, _ => pure ()
  | _, _, .cons id _ _ s ms, obj => do
    writeFieldHeader id s obj.1
    serialize s obj.1
    serializeCustomStruct ms obj.2

end

end Model

/-- A destination of `n` bytes, `none` where nothing was written, allocated
    and filled by `serialize` (`pbss.hh`, lines 128–136 and 148–157):
    `std::string` and `buffer` differ in what a fresh byte holds. -/
def serializeToMemory {α : Type} (s : Ty α) (value : α) : Except Stop (List (Option Byte)) :=
  if (aotSize s value).toNat > maxElems 1 then .error (.throws .lengthError)
  else
    match serialize s value (CharRangeWriter.fresh (aotSize s value).toNat) with
    | .ok _ writer => .ok writer.memory
    | .error e _ => .error e

/-- `serialize_to_buffer`. -/
def serializeToBuffer {α : Type} (s : Ty α) (value : α) : Except Stop (List (Option Byte)) :=
  serializeToMemory s value

/-- `serialize_to_string`. -/
def serializeToString {α : Type} (s : Ty α) (value : α) : Except Stop (List (Option Byte)) :=
  serializeToMemory s value

/-! ## What is written -/

theorem layoutBytes_eq {α : Type} {s : Ty α} (h : isMemoryLayout s = true) :
    layoutBytes s = bytes s := by
  cases s with
  | arith p => rfl
  | _ => cases h

section Emits

variable {ω : Type} [OutputStream ω] [LawfulOutputStream ω]

theorem emits_writePrim {α : Type} (p : Arith α) (value : α) :
    Emits (writePrim p value : Run ω Unit) (p.bytes value) := by
  rw [writePrim]
  split_ifs
  · have h := Emits.forM (p := (OutputStream.put : Byte → Run ω Unit)) (fun b => emits_put b)
      (p.bytes value)
    rwa [List.flatMap_singleton'] at h
  · exact emits_write _

theorem emits_writeElems {α : Type} (s : Ty α) (contiguous : Bool)
    {serializeElem : α → Run ω Unit} (h : ∀ v, Emits (serializeElem v) (bytes s v))
    (coll : List α) :
    Emits (writeElems s contiguous serializeElem coll) (coll.flatMap (bytes s)) := by
  rw [writeElems]
  split_ifs with hl
  · rw [layoutBytes_eq (Bool.and_elim_left hl)]
    exact emits_write _
  · exact Emits.forM h coll

/-- Both kinds of headers are the tag and the length of the member. -/
theorem emits_writeFieldHeader {α : Type} (id : Byte) (s : Ty α) (v : α) :
    Emits (writeFieldHeader id s v : Run ω Unit)
      (id :: base128 (byteCount (bytes s v)).toNat) := by
  rw [writeFieldHeader]
  cases h : fixedSize s with
  | some size =>
    have hsize : size.toNat < 128 ^ 64 := lt_trans size.isLt (by norm_num)
    dsimp only
    rw [staticVuintSerialization_eq 64 size [] hsize (by norm_num), ← fixedSize_eq s h v,
      List.nil_append]
    exact emits_writeStringConstant _
  | none =>
    rw [← aotSize_eq]
    exact (emits_put id).seq (emits_writeVarUint (by norm_num) _)

/-- The writers of a number, at run time, at compile time and behind the tag of
    a member, write its shortest encoding, and both size functions count it. -/
theorem varUint_writers_agree (n : SizeT) :
    Emits (writeVarUint n : Run ω Unit) (base128 n.toNat) ∧
      (encodedPart (base128 n.toNat) = some (base128 n.toNat) ∧
        denoted (base128 n.toNat) = n.toNat ∧
        ∀ bs, encodedPart bs = some bs → denoted bs = n.toNat →
          (base128 n.toNat).length ≤ bs.length) ∧
      staticVuintSerialization 64 n [] = base128 n.toNat ∧
      (varUintStaticSize n).toNat = (base128 n.toNat).length ∧
      (varUintAotSize n).toNat = (base128 n.toNat).length ∧
      ∀ {α : Type} (s : Ty α) (v : α) (id : Byte), fixedSize s = some n →
        ∀ sink : ω, Sink.Good sink →
          writeFieldHeader id s v sink =
            (do
              OutputStream.put id
              writeVarUint n) sink := by
  have hcount : (byteCount (base128 n.toNat)).toNat = (base128 n.toNat).length := by
    have hten := length_base128_le_ten n
    exact toNat_byteCount (lt_of_le_of_lt hten (by norm_num))
  have hrun : Emits (writeVarUint n : Run ω Unit) (base128 n.toNat) :=
    emits_writeVarUint (by norm_num) n
  refine ⟨hrun, ⟨encodedPart_base128 _, denoted_base128 _, ?_⟩, ?_, ?_, ?_, ?_⟩
  · intro bs hbs hn
    have hne : bs ≠ [] := by
      rintro rfl
      cases hbs
    rw [← hn]
    exact length_base128_denoted_le hne
  · have hlt : n.toNat < 128 ^ 64 := lt_trans n.isLt (by norm_num)
    exact staticVuintSerialization_eq 64 n [] hlt (by norm_num)
  · rw [varUintStaticSize_eq (by norm_num), hcount]
  · rw [varUintAotSize_eq (by norm_num), hcount]
  · intro α s v id hfixed sink hgood
    rw [emits_writeFieldHeader id s v sink hgood, fixedSize_eq s hfixed v]
    exact ((emits_put id).seq hrun sink hgood).symm

/-- The header of an `int64_t` with tag 3 is packed into two bytes. -/
theorem writeFieldHeader_int64 :
    writeFieldHeader 3 (.arith (.bits 8 (by decide))) (5 : BitVec (8 * 8)) (StdStream.endOf [] true) =
      (do
        OutputStream.put 3
        writeVarUint (8 : SizeT)) (StdStream.endOf [] true) :=
  (varUint_writers_agree 8).2.2.2.2.2 (.arith (.bits 8 (by decide))) 5 3 rfl _
    (StdStream.endOf_writable [] true)

mutual

/-- `serialize` writes the value in the format. -/
theorem emits_serialize : {α : Type} → (s : Ty α) → (v : α) →
    Emits (serialize s v : Run ω Unit) (bytes s v)
  | _, .arith p, v => emits_writePrim p v
  | _, .enum p value _ _, v => emits_writePrim p (value v)
  | _, .varUint w hw, v => emits_writeVarUint hw v
  | _, .stdTuple e ms, v => emits_writeTuple ms (e v)
  | _, .tupleStruct e ms, v => emits_writeTuple ms (e v)
  | _, .contiguous k hk _, v => by
    rw [serialize, bytes]
    exact (emits_writeVarUint (by norm_num) v.size).seq
      (emits_writeElems (.arith (.bits k hk)) true (fun x => emits_writePrim _ x) v.elems)
  | _, .sequence m _ _ s, v => by
    rw [serialize, bytes]
    exact (emits_writeVarUint (by norm_num) v.size).seq
      (emits_writeElems s false (fun x => emits_serialize s x) v.elems)
  | _, .ordered lt _ s, v => by
    rw [serialize, bytes]
    exact (emits_writeVarUint (by norm_num) v.size).seq
      (emits_writeElems s false (fun x => emits_serialize s x) v.elems)
  | _, .array n _ _ s, v => by
    rw [serialize, bytes]
    exact (emits_writeVarUint (by norm_num) _).seq
      (emits_writeElems s true (fun x => emits_serialize s x) (List.ofFn v))
  | _, .taggedStruct e init ms, v => by
    rw [serialize, bytes]
    exact (emits_serializeCustomStruct ms (e v)).seq (emits_put 0)

theorem emits_writeTuple : {τ : Type} → (ms : Tuple τ) → (t : τ) →
    Emits (writeTuple ms t : Run ω Unit) (tupleBytes ms t)
  | _, .nil, _ => Emits.pure
  | _, .cons s ms, t => by
    rw [writeTuple, tupleBytes]
    exact (emits_serialize s t.1).seq (emits_writeTuple ms t.2)

theorem emits_serializeCustomStruct : {tags : List Byte} → {τ : Type} → (ms : Members tags τ) →
    (obj : τ) → Emits (serializeCustomStruct ms obj : Run ω Unit) (memberBytes ms obj)
  | _, _, .nil, _ => Emits.pure
  | _, _, .cons id _ _ s ms, obj => by
    rw [serializeCustomStruct, memberBytes, field, withLength, ← List.cons_append,
      List.append_assoc]
    exact (emits_writeFieldHeader id s obj.1).seq
      ((emits_serialize s obj.1).seq (emits_serializeCustomStruct ms obj.2))

end

end Emits

/-! ## Serializing into memory -/

/-- The destination is exactly as long as the serialization and is written
    from end to end. -/
theorem serializeToMemory_eq {α : Type} (s : Ty α) (v : α) (h : (bytes s v).length < 2 ^ 64) :
    serializeToMemory s v =
      if (bytes s v).length > maxElems 1 then .error (.throws .lengthError)
      else .ok ((bytes s v).map some) := by
  have hn : (aotSize s v).toNat = (bytes s v).length := by rw [aotSize_eq, toNat_byteCount h]
  have hrun : serialize s v (CharRangeWriter.fresh (bytes s v).length) =
      .ok () ⟨(bytes s v).map some, (bytes s v).length⟩ := by
    rw [emits_serialize s v (CharRangeWriter.fresh (bytes s v).length) trivial]
    exact CharRangeWriter.write_fresh (bytes s v)
  rw [serializeToMemory, hn, hrun]

/-- `serialize` to a stream that takes everything. -/
theorem serialize_stdStream {α : Type} (s : Ty α) (v : α) (before : List Byte) (e : Bool) :
    serialize s v (StdStream.endOf before e) = .ok () (StdStream.endOf (before ++ bytes s v) e) := by
  have hgood := StdStream.endOf_writable before e
  rw [emits_serialize s v _ hgood]
  exact StdStream.write_endOf before (bytes s v) e

/-- The size functions, the helpers that rely on them and the length prefixes
    of members agree with what `serialize` writes. -/
theorem sizes_exact {α : Type} (s : Ty α) (v : α) (before : List Byte) (e : Bool) :
    serialize s v (StdStream.endOf before e) =
        .ok () (StdStream.endOf (before ++ bytes s v) e) ∧
      aotSize s v = byteCount (bytes s v) ∧
      (∀ n, fixedSize s = some n → byteCount (bytes s v) = n) ∧
      (∀ n, staticSize s v = some n → n = aotSize s v) ∧
      (∀ id, writeFieldHeader id s v (StdStream.endOf before e) =
        .ok () (StdStream.endOf (before ++ id :: base128 (byteCount (bytes s v)).toNat) e)) ∧
      ((bytes s v).length < 2 ^ 64 →
        (byteCount (bytes s v)).toNat = (bytes s v).length ∧
        serializeToBuffer s v =
          (if (bytes s v).length > maxElems 1 then .error (.throws .lengthError)
            else .ok ((bytes s v).map some)) ∧
        serializeToString s v =
          (if (bytes s v).length > maxElems 1 then .error (.throws .lengthError)
            else .ok ((bytes s v).map some))) := by
  refine ⟨serialize_stdStream s v before e, aotSize_eq s v, fun n h => fixedSize_eq s h v,
    fun n h => ?_, fun id => ?_, fun h => ⟨toNat_byteCount h, ?_, ?_⟩⟩
  · rw [aotSize_eq, staticSize_eq s v h]
  · rw [emits_writeFieldHeader id s v _ (StdStream.endOf_writable before e)]
    exact StdStream.write_endOf before _ e
  · exact serializeToMemory_eq s v h
  · exact serializeToMemory_eq s v h

/-- 300 as a `var_uint<uint16_t>` takes two bytes. -/
theorem serializeToBuffer_300 :
    serializeToBuffer (.varUint 16 (by decide)) 300 = .ok [some 0xac, some 0x02] := by
  have h := (sizes_exact (.varUint 16 (by decide)) 300 [] false).2.2.2.2.2 (by decide +kernel)
  rw [h.2.1, if_neg (by decide +kernel)]
  rfl

end BambooShoot.Pbss
