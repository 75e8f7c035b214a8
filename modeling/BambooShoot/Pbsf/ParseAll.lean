import BambooShoot.Pbsf.ReadIterator
import BambooShoot.Pbss.EarlyEof
import BambooShoot.Pbss.TwoStreams

/-!
# `parse_all`

Model of `parse_all` (`pbss.hh`, lines 171–237) over the `parse_iterator` of
`ReadIterator`, and the agreement of the two input streams of the library:
`streams_agree`. The iteration may go on for ever, where values take no bytes;
`parseAll` looks at a number of rounds of it.
-/

namespace BambooShoot.Pbsf

open BambooShoot.Lib BambooShoot.Pbss

/-! ## Model -/

/-- How an iteration ends. -/
inductive Ending where
  /-- The iterator is equal to the end of the range. -/
  | reached
  | stops (stop : Stop)
  /-- There is a value behind those that were looked at. -/
  | goesOn

section Model

variable {σ β : Type} [InputStream σ] [ForwardInputStream σ] (build : Build) (s : Ty β)

/-- The values from an iterator on, with what its last increment came to. -/
def valuesFrom (rounds : ℕ) :
    EStateM.Result Stop (ParseIterator σ β) Unit → List β × Ending
  | .error stop _ => ([], .stops stop)
  | .ok _ it =>
    if it.isEnd then ([], .reached)
    else
      match rounds with
      | 0 => ([], .goesOn)
      | rounds + 1 =>
        let (values, ending) := valuesFrom rounds (ParseIterator.increment build s it)
        (it.value :: values, ending)

/-- `rounds` rounds of a loop over `parse_all<T>(stream)`; the iterator is
    constructed with the value `init`, which nobody sees. -/
def parseAll (rounds : ℕ) (init : β) (stream : σ) : List β × Ending :=
  valuesFrom build s rounds (ParseIterator.increment build s ⟨stream, true, init⟩)

end Model

/-! ## Whole streams -/

section Encodings

open Source

variable {σ β : Type} [InputStream σ] [ForwardInputStream σ] [LawfulInputStream σ] {build : Build}
  {s : Ty β}

theorem valuesFrom_encodings {encoded : List (List Byte × β)}
    (hall : ∀ e ∈ encoded, Consumes (parse build s : Run σ β) e.1 e.2 ∧ e.1 ≠ []) {stream : σ}
    (h : Ready stream (encoded.flatMap Prod.fst)) (value : β) :
    valuesFrom build s encoded.length (ParseIterator.increment build s ⟨stream, true, value⟩) =
      (encoded.map Prod.snd, .reached) := by
  induction encoded generalizing stream value with
  | nil =>
    have hptr : (⟨stream, true, value⟩ : ParseIterator σ β).streamPtr = true := rfl
    obtain ⟨stream', hend⟩ := increment_end build s hptr h
    rw [hend]
    rfl
  | cons e encoded ih =>
    obtain ⟨hconsumes, hne⟩ := hall e List.mem_cons_self
    rw [List.flatMap_cons] at h
    have hptr : (⟨stream, true, value⟩ : ParseIterator σ β).streamPtr = true := rfl
    have hready := increment_ready build s hptr h (List.append_ne_nil_of_left_ne_nil hne _)
    have hvalue : ParseIterator.onStream (parse build s) (⟨stream, true, value⟩ : ParseIterator σ β) =
        .ok e.2 ⟨advance e.1.length stream, true, value⟩ := onStream_of_ok (hconsumes _ _ h)
    have hrest := ih (fun e he => hall e (List.mem_cons_of_mem _ he)) (ready_advance h) e.2
    rw [hready, bind_of_ok hvalue]
    show Prod.map (e.2 :: ·) id (valuesFrom build s encoded.length
      (ParseIterator.increment build s ⟨advance e.1.length stream, true, e.2⟩)) = _
    rw [hrest]
    rfl

/-- `parse_all` of serialized values that take a byte at least. -/
theorem parseAll_serialized {values : List β} (hne : ∀ v ∈ values, bytes s v ≠ []) {stream : σ}
    (h : Ready stream (values.flatMap (bytes s))) (init : β) :
    parseAll build s values.length init stream = (values, .reached) := by
  have hall : ∀ e ∈ values.map fun v => (bytes s v, v),
      Consumes (parse build s : Run σ β) e.1 e.2 ∧ e.1 ≠ [] := by
    intro e he
    obtain ⟨v, hv, rfl⟩ := List.mem_map.1 he
    exact ⟨consumes_parse_self build s v, hne v hv⟩
  have hready : Ready stream ((values.map fun v => (bytes s v, v)).flatMap Prod.fst) := by
    rw [List.flatMap_map]
    exact h
  have hvalues := valuesFrom_encodings hall hready init
  rw [List.length_map, List.map_map] at hvalues
  exact hvalues.trans (by rw [show (Prod.snd ∘ fun v => (bytes s v, v)) = id from rfl, List.map_id])

end Encodings

/-! ## Agreement -/

section Agreement

variable {β : Type} {build : Build} {s : Ty β}

/-- At the end both, or at the same value with streams at the same byte. -/
structure SamePlace (it : ParseIterator CharRangeReader β) (it' : ParseIterator StdStream β) :
    Prop where
  isEnd : it.streamPtr = it'.streamPtr
  value : it.streamPtr = true → it.value = it'.value
  abreast : it.streamPtr = true → Abreast it.stream it'.stream

/-- An increment, from wherever the two values are. -/
theorem increment_samePlace (hbuild : build.rangeChecks = true)
    {it : ParseIterator CharRangeReader β} {it' : ParseIterator StdStream β}
    (hptr : it.streamPtr = true) (hptr' : it'.streamPtr = true)
    (h : Abreast it.stream it'.stream) :
    SameResult SamePlace (ParseIterator.increment build s it)
      (ParseIterator.increment build s it') := by
  have hr := h.ready_reader
  have ht := h.ready_stream
  by_cases hdrop : it'.stream.bytes.drop it'.stream.pos = []
  · rw [hdrop] at hr ht
    obtain ⟨r', hr'⟩ := increment_end build s hptr hr
    obtain ⟨t', ht'⟩ := increment_end build s hptr' ht
    rw [hr', ht']
    exact .ok ⟨rfl, nofun, nofun⟩
  · rw [increment_ready build s hptr hr hdrop, increment_ready build s hptr' ht hdrop]
    have hparse := parse_abreast hbuild s h
    generalize hpr : parse build s it.stream = x at hparse
    generalize hpt : parse build s it'.stream = y at hparse
    cases hparse with
    | ok habreast =>
      rw [bind_of_ok (onStream_of_ok hpr), bind_of_ok (onStream_of_ok hpt)]
      exact .ok ⟨hptr.trans hptr'.symm, fun _ => rfl, fun _ => habreast⟩
    | error =>
      rw [bind_of_error (onStream_of_error hpr), bind_of_error (onStream_of_error hpt)]
      exact .error

/-- The rest of the iteration, by induction on the rounds: the iterators stay at
    the same place. -/
theorem valuesFrom_samePlace (hbuild : build.rangeChecks = true) (rounds : ℕ)
    {r : EStateM.Result Stop (ParseIterator CharRangeReader β) Unit}
    {r' : EStateM.Result Stop (ParseIterator StdStream β) Unit} (h : SameResult SamePlace r r') :
    valuesFrom build s rounds r = valuesFrom build s rounds r' := by
  induction rounds generalizing r r' with
  | zero =>
    cases h with
    | error => rfl
    | ok hplace =>
      unfold valuesFrom ParseIterator.isEnd
      rw [hplace.isEnd]
  | succ rounds ih =>
    cases h with
    | error => rfl
    | @ok _ it it' hplace =>
      have hend : it.isEnd = it'.isEnd := congrArg not hplace.isEnd
      unfold valuesFrom
      rw [hend]
      cases hptr' : it'.streamPtr with
      | false =>
        have htrue : it'.isEnd = true := congrArg not hptr'
        rw [if_pos htrue, if_pos htrue]
      | true =>
        have hfalse : ¬ it'.isEnd = true := by
          unfold ParseIterator.isEnd
          rw [hptr']
          exact Bool.false_ne_true
        have hptr := hplace.isEnd.trans hptr'
        have hrest := ih (increment_samePlace (s := s) hbuild hptr hptr' (hplace.abreast hptr))
        rw [if_neg hfalse, if_neg hfalse, hplace.value hptr]
        dsimp only
        rw [hrest]

end Agreement

/-- In a build with range checks, `parse` has the same outcome from memory and
    from a standard stream over the same bytes, and so has every number of
    rounds over `parse_all`. -/
theorem streams_agree {build : Build} (hbuild : build.rangeChecks = true) {α : Type} (s : Ty α)
    (bs : List Byte) :
    SameResult (fun reader stream => reader.current = stream.pos)
        (parse build s (CharRangeReader.ofBytes bs)) (parse build s (StdStream.between [] bs false)) ∧
      ∀ (rounds : ℕ) (init init' : α),
        parseAll build s rounds init (CharRangeReader.ofBytes bs) =
          parseAll build s rounds init' (StdStream.between [] bs false) := by
  have habreast : Abreast (CharRangeReader.ofBytes bs) (StdStream.between [] bs false) :=
    ⟨rfl, rfl, Nat.zero_le _, rfl, rfl⟩
  constructor
  · exact (parse_abreast hbuild s habreast).imp fun _ _ h => h.pos
  · intro rounds init init'
    exact valuesFrom_samePlace hbuild rounds
      (increment_samePlace hbuild rfl rfl habreast)

/-- A struct of one byte whose unknown field claims to be longer than the rest of
    the data, followed by nothing: both streams are past the end when the next
    tag is read. -/
theorem streams_agree_past_end :
    SameResult (fun reader stream => reader.current = stream.pos)
        (parse { rangeChecks := true } byteStruct (CharRangeReader.ofBytes [9, 200, 1, 5]))
        (parse { rangeChecks := true } byteStruct (StdStream.between [] [9, 200, 1, 5] false)) ∧
      ∀ (rounds : ℕ) (init init' : BitVec (8 * 1) × Unit),
        parseAll { rangeChecks := true } byteStruct rounds init
            (CharRangeReader.ofBytes [9, 200, 1, 5]) =
          parseAll { rangeChecks := true } byteStruct rounds init'
            (StdStream.between [] [9, 200, 1, 5] false) :=
  streams_agree rfl byteStruct [9, 200, 1, 5]

end BambooShoot.Pbsf
