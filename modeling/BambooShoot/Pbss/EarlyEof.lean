import BambooShoot.Pbss.Entries
import BambooShoot.Pbss.Truncation
import BambooShoot.Pbss.Unchecked

/-!
# Every strict prefix is rejected

`skip_chars` does not ask whether the data have ended; a member whose length it
skips has a fixed size, and its own parser asks. So a cut inside of a
serialization is noticed wherever it is, on the plain and on the optimistic
path (`rejects`).

Result: `strict_prefix_rejected`, for both streams of the library.
-/

namespace BambooShoot.Pbss

open BambooShoot.Lib
open Measured Source

/-! ## Behind the end -/

section Ended

variable {σ : Type}

/-- The program notices that the data have ended. -/
def NoticesEnd {α : Type} (p : Run σ α) (s : σ) : Prop :=
  ∃ e s', p s = .error e s' ∧ (e = .throws .earlyEofError ∨ e = .outOfFuel)

theorem NoticesEnd.bind {α β : Type} {p : Run σ α} {s : σ} (h : NoticesEnd p s) (f : α → Run σ β) :
    NoticesEnd (p >>= f) s := by
  obtain ⟨e, s', hp, he⟩ := h
  exact ⟨e, s', bind_of_error hp, he⟩

variable [InputStream σ] [ForwardInputStream σ] [LawfulInputStream σ] [EndedInputStream σ]

open EndedInputStream

/-- Started behind the end, `p` notices it, or returns and is still behind it if
    `b` allows that. -/
def EndRelation (a b : Phase) {α : Type} (p _ : Run σ α) : Prop :=
  match a, b with
  | .live, _ => True
  | .any, .live => ∀ s, Ended s → NoticesEnd p s
  | .any, .any => ∀ s, Ended s → NoticesEnd p s ∨ ∃ x s', p s = .ok x s' ∧ Ended s'

theorem respects_endRelation (build : Build) :
    Respects build build (fun a b {_} (p q : Run σ _) => EndRelation a b p q) where
  sameThreshold := rfl
  of_any _ := trivial
  to_any := by
    intro a α p q h
    cases a with
    | live => exact trivial
    | any => exact fun s hs => Or.inl (h s hs)
  pure := by
    intro a α x
    cases a with
    | live => exact trivial
    | any => exact fun s hs => Or.inr ⟨x, s, rfl, hs⟩
  bind := by
    intro a b c α β p q f g hp hf
    cases a with
    | live => exact trivial
    | any =>
      cases b with
      | live =>
        cases c with
        | live => exact fun s hs => (hp s hs).bind f
        | any => exact fun s hs => Or.inl ((hp s hs).bind f)
      | any =>
        cases c with
        | live =>
          intro s hs
          rcases hp s hs with hnotice | ⟨x, s', hx, hs'⟩
          · exact hnotice.bind f
          · obtain ⟨e, s'', he, hcause⟩ := hf x s' hs'
            exact ⟨e, s'', (bind_of_ok hx).trans he, hcause⟩
        | any =>
          intro s hs
          rcases hp s hs with hnotice | ⟨x, s', hx, hs'⟩
          · exact Or.inl (hnotice.bind f)
          · unfold NoticesEnd
            rw [bind_of_ok hx]
            exact hf x s' hs'
  undefined := trivial
  lengthError := trivial
  outOfFuel := by
    intro a b α
    have hnotice : ∀ s : σ, NoticesEnd (throw .outOfFuel : Run σ α) s := fun s =>
      ⟨_, s, rfl, Or.inr rfl⟩
    cases a with
    | live => exact trivial
    | any =>
      cases b with
      | live => exact fun s _ => hnotice s
      | any => exact fun s _ => Or.inl (hnotice s)
  byte := by
    intro s hs
    obtain ⟨s', hget, -⟩ := get_ended hs
    refine ⟨_, s', ?_, Or.inl rfl⟩
    unfold parseByte
    rw [bind_of_ok hget]
    rfl
  read := by
    intro n s hs
    obtain ⟨s', hread⟩ := readOrThrow_ended n hs
    exact ⟨_, s', hread, Or.inl rfl⟩
  get := by
    intro s hs
    obtain ⟨s', hget, hs'⟩ := get_ended hs
    exact Or.inr ⟨none, s', hget, hs'⟩
  ignore _ := trivial

/-- A value of fixed size is not read from behind the end. -/
theorem parse_ended {build : Build} (hbuild : build.rangeChecks = true) {fuel : ℕ} {α : Type}
    {s : Ty α} {n : SizeT} (hn : fixedSize s = some n) {stream : σ} (h : Ended stream)
    (hfuel : left stream < fuel) :
    ∃ stream', Fuel.parse build fuel s stream = .error (.throws .earlyEofError) stream' := by
  obtain ⟨e, stream', he, rfl | rfl⟩ :=
    related_parse_fixed (respects_endRelation build) fuel s n hn stream h
  · exact ⟨stream', he⟩
  · have hfwd := (settles_parse hbuild s stream fuel hfuel).1
    beta_reduce at hfwd
    rw [he] at hfwd
    exact absurd ForwardInputStream.exhausted_eq.symm hfwd

/-- `skip_chars` at the end: the stream throws, or nobody notices. -/
theorem skipChars_ended (n : ℕ) {s : σ} (h : Ended s) :
    ∃ s', skipChars n s = .ok () s' ∧ Ended s' := by
  induction n generalizing s with
  | zero => exact ⟨s, rfl, h⟩
  | succ n ih =>
    obtain ⟨s1, hget, h1⟩ := get_ended h
    obtain ⟨s', hskip, h'⟩ := ih h1
    refine ⟨s', ?_, h'⟩
    unfold skipChars
    rw [bind_of_ok hget, hskip]

theorem skipChars_short (n : ℕ) {s : σ} {part : List Byte} (h : Ready s part)
    (hlt : part.length < n) :
    (LawfulInputStream.eofError s = .earlyEofError ∧ ∃ s', skipChars n s = .ok () s' ∧ Ended s') ∨
      ∃ s', skipChars n s = .error (.throws (LawfulInputStream.eofError s)) s' := by
  induction part generalizing n s with
  | nil =>
    obtain ⟨n, rfl⟩ : ∃ k, n = k + 1 := ⟨n - 1, by rw [List.length_nil] at hlt; omega⟩
    unfold skipChars
    rcases LawfulInputStream.get_end h with ⟨heof, s1, hget⟩ | ⟨s1, hget⟩
    · obtain ⟨s', hskip, h'⟩ := skipChars_ended n (get_end_ended h hget)
      exact Or.inl ⟨heof, s', (bind_of_ok hget).trans hskip, h'⟩
    · exact Or.inr ⟨s1, bind_of_error hget⟩
  | cons b part ih =>
    obtain ⟨n, rfl⟩ : ∃ k, n = k + 1 := ⟨n - 1, by rw [List.length_cons] at hlt; omega⟩
    rw [List.length_cons] at hlt
    have hrest := ih n (ready_tail h) (by omega)
    rw [LawfulInputStream.eofError_advance] at hrest
    unfold skipChars
    rw [bind_of_ok (LawfulInputStream.get_ready h)]
    exact hrest

end Ended

/-! ## Cuts -/

section Cuts

variable {σ : Type} [InputStream σ] [ForwardInputStream σ] [LawfulInputStream σ] {build : Build}

theorem rejectsPrefix_skipVarUintLoop (m fuel : ℕ) (hfuel : (base128 m).length ≤ fuel) :
    RejectsPrefix (skipVarUintLoop fuel : Run σ _) (base128 m) := by
  induction m using base128_induction generalizing fuel with
  | last m hlt =>
    obtain ⟨fuel, rfl⟩ : ∃ f, fuel = f + 1 := ⟨fuel - 1, by have := base128_length_pos m; omega⟩
    have hc : (BitVec.ofNat 8 m).toNat = m := Nat.mod_eq_of_lt (by omega)
    rw [base128_of_lt hlt]
    unfold skipVarUintLoop
    apply rejectsPrefix_get rfl
    exact Starves.nil _
  | more m hge ih =>
    obtain ⟨fuel, rfl⟩ : ∃ f, fuel = f + 1 := ⟨fuel - 1, by have := base128_length_pos m; omega⟩
    have hc : (BitVec.ofNat 8 (m % 128 + 128)).toNat = m % 128 + 128 := Nat.mod_eq_of_lt (by omega)
    rw [base128_of_ge hge, List.length_cons] at hfuel
    rw [base128_of_ge hge]
    unfold skipVarUintLoop
    apply rejectsPrefix_get rfl
    dsimp only
    rw [if_pos (by rw [and_80_ne_zero_iff, hc]; omega)]
    exact ih fuel (by omega)

/-- The fields of a struct up to its end mark, when one of them can be cut. -/
theorem rejectsPrefix_parseCustomStruct {τ : Type} {parseMember : Byte → τ → Run σ τ}
    {content : Byte → List Byte} (todo : List Byte) (hzero : 0 ∉ todo)
    (hconsumes : ∀ i ∈ todo, ∀ obj, ∃ obj', Consumes (parseMember i obj) (withLength (content i)) obj')
    (h : ∀ i ∈ todo, ∀ obj, RejectsPrefix (parseMember i obj) (withLength (content i)))
    (obj : τ) {rounds : ℕ} (hrounds : todo.length < rounds) :
    RejectsPrefix (parseCustomStruct parseMember rounds obj)
      ((todo.flatMap fun i => field i (content i)) ++ [0]) := by
  induction todo generalizing obj rounds with
  | nil =>
    obtain ⟨rounds, rfl⟩ : ∃ k, rounds = k + 1 := ⟨rounds - 1, by omega⟩
    unfold parseCustomStruct
    exact (rejectsPrefix_parseByte 0).last _
  | cons i todo ih =>
    obtain ⟨rounds, rfl⟩ : ∃ k, rounds = k + 1 := ⟨rounds - 1, by omega⟩
    rw [List.length_cons] at hrounds
    obtain ⟨obj', hobj'⟩ := hconsumes i List.mem_cons_self obj
    have hrest := ih (fun hmem => hzero (List.mem_cons_of_mem _ hmem))
      (fun j hj => hconsumes j (List.mem_cons_of_mem _ hj))
      (fun j hj => h j (List.mem_cons_of_mem _ hj)) obj' (Nat.lt_of_succ_lt_succ hrounds)
    rw [List.flatMap_cons, List.append_assoc]
    unfold parseCustomStruct
    apply RejectsPrefix.bind (consumes_parseByte i) (rejectsPrefix_parseByte i)
    rw [if_neg fun he : i = 0 => hzero (he ▸ List.mem_cons_self)]
    exact RejectsPrefix.bind hobj' (h i List.mem_cons_self obj) hrest

variable (σ build) in
/-- The types of the members of a struct notice a cut. -/
def RejectsMembers : {tags : List Byte} → {τ : Type} → Members tags τ → Prop
  | _, _, .nil => True
  | _, _, .cons _ _ _ s ms => Rejects σ build s ∧ RejectsMembers ms

theorem RejectsMembers.at {tags : List Byte} {τ : Type} {ms : Members tags τ} {id : Byte}
    {α : Type} {s : Ty α} (h : RejectsMembers σ build ms) (member : ms.At id s) :
    Rejects σ build s := by
  induction member with
  | here => exact h.1
  | there _ ih => exact ih h.2

variable [EndedInputStream σ] (hbuild : build.rangeChecks = true)

include hbuild

/-- A member behind its tag. In its length the cut is noticed at once or, where
    `skip_chars` lets it pass, by the parser of the value. -/
theorem rejectsPrefix_skip_parse {α : Type} {s : Ty α} (h : Rejects σ build s) (v : α) {fuel : ℕ}
    (hfuel : (withLength (bytes s v)).length ≤ fuel) :
    RejectsPrefix (skipVarUint fuel s >>= fun _ => (Fuel.parse build fuel s : Run σ α))
      (withLength (bytes s v)) := by
  rw [length_withLength] at hfuel
  have hconsumes : Consumes (skipVarUint fuel s : Run σ Unit) _ () :=
    consumes_skipVarUint (skipsLength_self s v) (by omega)
  have hvalue := h fuel v (by omega)
  cases hn : fixedSize s with
  | none =>
    refine RejectsPrefix.bind hconsumes ?_ hvalue
    unfold skipVarUint
    rw [hn]
    exact rejectsPrefix_skipVarUintLoop _ fuel (by omega)
  | some n =>
    intro stream part hready hpre hne
    unfold withLength at hpre hne
    by_cases hdigits : base128 (byteCount (bytes s v)).toNat <+: part
    · -- the cut is behind the length
      obtain ⟨rest, rfl⟩ := hdigits
      rw [bind_of_ok (hconsumes stream rest hready)]
      obtain ⟨e, s', he, hE⟩ := hvalue _ rest (ready_advance hready)
        ((List.prefix_append_right_inj _).mp hpre) fun heq => hne (by rw [heq])
      rw [LawfulInputStream.eofError_advance] at hE
      exact ⟨e, s', he, hE⟩
    · have hpart : part <+: base128 (byteCount (bytes s v)).toNat :=
        (List.prefix_or_prefix_of_prefix hpre (List.prefix_append _ _)).resolve_right hdigits
      have hlt : part.length < (base128 (byteCount (bytes s v)).toNat).length :=
        lt_of_le_of_ne hpart.length_le fun hlen =>
          hdigits (by rw [hpart.eq_of_length hlen])
      have hskip : (skipVarUint fuel s : Run σ Unit) = skipChars (varUintStaticSize n).toNat := by
        unfold skipVarUint
        rw [hn]
      rw [← skippedChars_eq (skipsLength_self s v) hn] at hlt hfuel
      rw [hskip]
      rcases skipChars_short _ hready hlt with ⟨heof, s', hs', hended⟩ | ⟨s', hs'⟩
      · have hleft : left s' ≤ left stream :=
          (settles_skipChars _).left_le (Nat.lt_succ_self _) hs'
        have hlen := LawfulInputStream.left_ready hready
        have hless : left s' < fuel := by omega
        obtain ⟨t, ht⟩ := parse_ended hbuild hn hended hless
        exact ⟨_, t, (bind_of_ok hs').trans ht, by dsimp only; rw [heof]⟩
      · exact ⟨_, s', bind_of_error hs', rfl⟩

theorem rejectsPrefix_parseCustomStructMember {tags : List Byte} {τ : Type} {ms : Members tags τ}
    {id : Byte} {α : Type} {s : Ty α} (member : ms.At id s) (hs : Rejects σ build s) (v : α)
    (obj : τ) {fuel : ℕ} (hfuel : (withLength (bytes s v)).length ≤ fuel) :
    RejectsPrefix (Fuel.parseCustomStructMember build fuel ms id obj : Run σ τ)
      (withLength (bytes s v)) := by
  induction member with
  | here =>
    unfold Fuel.parseCustomStructMember
    rw [if_pos rfl, ← bind_assoc]
    exact (rejectsPrefix_skip_parse hbuild hs v hfuel).last _
  | @there id id' _ _ _ tags _ hn _ _ _ member ih =>
    have hne : id ≠ id' := fun he => hn (he ▸ member.mem)
    unfold Fuel.parseCustomStructMember
    rw [if_neg hne]
    exact (ih hs v obj.2 hfuel).last _

/-- The positional pass reads the members in their order and then the end mark. -/
theorem rejectsPrefix_parseCustomStructOptimistic {fuel : ℕ} : {tags : List Byte} → {τ : Type} →
    {ms : Members tags τ} → RejectsMembers σ build ms → (v obj : τ) →
    (memberBytes ms v ++ [0]).length ≤ fuel →
    RejectsPrefix (Fuel.parseCustomStructOptimistic build fuel ms obj : Run σ _)
      (memberBytes ms v ++ [0])
  | _, _, .nil, _, _, obj, hfuel => by
    obtain ⟨fuel, rfl⟩ : ∃ k, fuel = k + 1 := ⟨fuel - 1, by
      rw [List.length_append, List.length_singleton] at hfuel
      omega⟩
    unfold Fuel.parseCustomStructOptimistic parseCustomStruct
    rw [bind_assoc]
    exact (rejectsPrefix_parseByte 0).last _
  | _, _, .cons id _ _ s ms, h, v, obj, hfuel => by
    rw [memberBytes, field, List.append_assoc, List.cons_append, List.length_cons,
      List.length_append] at hfuel
    have hfuel' : (memberBytes ms v.2 ++ [0]).length ≤ fuel := by omega
    have hrest := rejectsPrefix_parseCustomStructOptimistic h.2 v.2 obj.2 hfuel'
    have hlen : (withLength (bytes s v.1)).length ≤ fuel := by omega
    have hvalue := rejectsPrefix_skip_parse hbuild h.1 v.1 hlen
    rw [length_withLength] at hlen
    have hconsumes : Consumes (skipVarUint fuel s >>= fun _ => (Fuel.parse build fuel s : Run σ _))
        (withLength (bytes s v.1)) v.1 :=
      (consumes_skipVarUint (skipsLength_self s v.1) (by omega)).bind
        (consumes_parse_value build s v.1 (by omega))
    rw [memberBytes, field, List.append_assoc]
    unfold Fuel.parseCustomStructOptimistic
    apply RejectsPrefix.bind (consumes_parseByte id) (rejectsPrefix_parseByte id)
    rw [if_pos rfl, ← bind_assoc]
    exact RejectsPrefix.bind hconsumes hvalue (hrest.last _)

/-! ## Values -/

/-- A struct, on the plain path and on the optimistic one. -/
theorem rejects_taggedStruct {S τ : Type} {tags : List Byte} (e : S ≃ τ) (init : S)
    {ms : Members tags τ} (h : RejectsMembers σ build ms) :
    Rejects σ build (.taggedStruct e init ms) := by
  intro fuel v hfuel
  unfold Fuel.parse parseCustomStructOptimisticForLarge
  rw [bytes] at hfuel ⊢
  split_ifs
  · unfold parseCustomStructWithFallback
    rw [bind_assoc]
    exact (rejectsPrefix_parseCustomStructOptimistic hbuild h (e v) (e init) hfuel).last _
  · rw [memberBytes_eq] at hfuel ⊢
    rw [List.length_append, List.length_singleton] at hfuel
    have hcount := length_le_length_fields (memberBytesAt ms (e v)) tags
    have hlen : ∀ i ∈ tags, (withLength (memberBytesAt ms (e v) i)).length ≤ fuel := by
      intro i hi
      have hfield := length_field_le (memberBytesAt ms (e v)) hi
      omega
    have hconsumes : ∀ i ∈ tags, ∀ obj, ∃ obj', Consumes
        (Fuel.parseCustomStructMember build fuel ms i obj : Run σ τ)
        (withLength (memberBytesAt ms (e v) i)) obj' := by
      intro i hi obj
      obtain ⟨α, s, ⟨member⟩⟩ := ms.exists_at hi
      have hle := hlen i hi
      rw [member.bytes_get] at hle ⊢
      exact ⟨_, consumes_parseCustomStructMember_known build member _ obj hle⟩
    have hrejects : ∀ i ∈ tags, ∀ obj, RejectsPrefix
        (Fuel.parseCustomStructMember build fuel ms i obj : Run σ τ)
        (withLength (memberBytesAt ms (e v) i)) := by
      intro i hi obj
      obtain ⟨α, s, ⟨member⟩⟩ := ms.exists_at hi
      have hle := hlen i hi
      rw [member.bytes_get] at hle ⊢
      exact rejectsPrefix_parseCustomStructMember hbuild member (h.at member) _ obj hle
    have hrounds : tags.length < fuel := by omega
    exact (rejectsPrefix_parseCustomStruct tags ms.zero_not_mem hconsumes hrejects (e init)
      hrounds).last _

end Cuts

mutual

/-- A cut inside of a value is noticed, by induction on its type. -/
theorem rejects {σ : Type} [InputStream σ] [ForwardInputStream σ] [LawfulInputStream σ]
    [EndedInputStream σ] {build : Build} (hbuild : build.rangeChecks = true) : {α : Type} →
    (s : Ty α) → Rejects σ build s
  | _, .arith p => rejects_arith p
  | _, .enum p value enumerator hcast => rejects_enum p value enumerator hcast
  | _, .varUint _ hw => fun _ v hfuel => rejectsPrefix_readVarUint hw v hfuel
  | _, .stdTuple e ms => rejects_stdTuple e (rejectsTuple hbuild ms)
  | _, .tupleStruct e ms => rejects_tupleStruct e (rejectsTuple hbuild ms)
  | _, .contiguous _ hk valueInit => rejects_contiguous hk valueInit
  | _, .sequence m hm reserve s => rejects_sequence m hm reserve (rejects hbuild s)
  | _, .ordered _ hlt s => rejects_ordered hlt (rejects hbuild s)
  | _, .array _ hn init s => rejects_array hn init (rejects hbuild s)
  | _, .taggedStruct e init ms => rejects_taggedStruct hbuild e init (rejectsMembers hbuild ms)

theorem rejectsTuple {σ : Type} [InputStream σ] [ForwardInputStream σ] [LawfulInputStream σ]
    [EndedInputStream σ] {build : Build} (hbuild : build.rangeChecks = true) : {τ : Type} →
    (ms : Tuple τ) → RejectsTuple σ build ms
  | _, .nil => rejectsTuple_nil
  | _, .cons s ms => rejectsTuple_cons (rejects hbuild s) (rejectsTuple hbuild ms)

theorem rejectsMembers {σ : Type} [InputStream σ] [ForwardInputStream σ] [LawfulInputStream σ]
    [EndedInputStream σ] {build : Build} (hbuild : build.rangeChecks = true) : {tags : List Byte} →
    {τ : Type} → (ms : Members tags τ) → RejectsMembers σ build ms
  | _, _, .nil => trivial
  | _, _, .cons _ _ _ s ms => ⟨rejects hbuild s, rejectsMembers hbuild ms⟩

end

/-- A stream that leaves it to the parser to report the end: `parse` does, with
    and without range checks. -/
theorem parse_prefix_throws {σ : Type} [InputStream σ] [ForwardInputStream σ] [LawfulInputStream σ]
    [EndedInputStream σ] (build : Build) {α : Type} (s : Ty α) (v : α) {stream : σ}
    {part : List Byte} (hready : Ready stream part)
    (heof : LawfulInputStream.eofError stream = .earlyEofError) (hpre : part <+: bytes s v)
    (hne : part ≠ bytes s v) :
    ∃ stream', parse build s stream = .error (.throws .earlyEofError) stream' := by
  have hchecked : build.checked.rangeChecks = true := rfl
  obtain ⟨e, stream', he, hE⟩ := rejectsPrefix_parse (settles_parse hchecked s)
    (rejects hchecked s) v stream part hready hpre hne
  rw [hE, heof] at he
  refine ⟨stream', ?_⟩
  rcases build.eq_checked_or_unchecked with hbuild | hbuild
  · rw [hbuild]
    exact he
  · rcases parse_unchecked build (left stream + 1) s stream with hsame | ⟨t, hthrows⟩
    · rw [hbuild]
      exact hsame.trans he
    · have hclash := hthrows.symm.trans he
      cases hclash

/-- A strict prefix of what `serialize` wrote: `parse` throws `early_eof_error`,
    from memory and from a standard stream. -/
theorem strict_prefix_rejected (build : Build) {α : Type} (s : Ty α) (v : α) {written : StdStream}
    (hwritten : serialize s v (StdStream.endOf [] false) = .ok () written) {part : List Byte}
    (hpre : part <+: written.bytes) (hne : part ≠ written.bytes) :
    (∃ reader, parse build s (CharRangeReader.ofBytes part) =
      .error (.throws .earlyEofError) reader) ∧
      ∃ stream, parse build s (StdStream.between [] part false) =
        .error (.throws .earlyEofError) stream := by
  have hbytes : written.bytes = bytes s v := by
    have h := (serialize_stdStream s v [] false).symm.trans hwritten
    injection h with _ heq
    rw [← heq]
    rfl
  rw [hbytes] at hpre hne
  constructor
  · exact parse_prefix_throws build s v (CharRangeReader.between_ready [] part) rfl hpre hne
  · exact parse_prefix_throws build s v (StdStream.between_ready [] part false) rfl hpre hne

/-- The struct of that one byte. -/
def byteStruct : Ty (BitVec (8 * 1) × Unit) := .taggedStruct (.refl _) (0, ()) byteMember

/-- Cut behind the tag of its member: the length that is skipped is not there. -/
theorem cut_behind_tag :
    (∃ reader, parse { rangeChecks := false } byteStruct (CharRangeReader.ofBytes [1]) =
      .error (.throws .earlyEofError) reader) ∧
      ∃ stream, parse { rangeChecks := false } byteStruct (StdStream.between [] [1] false) =
        .error (.throws .earlyEofError) stream := by
  have hwritten : serialize byteStruct (5, ()) (StdStream.endOf [] false) =
      .ok () (StdStream.endOf [1, 1, 5, 0] false) := rfl
  exact strict_prefix_rejected { rangeChecks := false } byteStruct (5, ()) hwritten (by decide)
    (by decide)

end BambooShoot.Pbss
