import BambooShoot.Pbsf.SequentialView
import BambooShoot.Pbsu.FailStop

/-!
# Ranges of the values in a file

`read_one_type<T>()` (`range-api.hh`, lines 88–92) as a range to start a pipeline
from. Its iterators share the stream of the file; they are `skipping_read_iterator`s,
which keep the last block they have come to and the value made of it.

The file may be damaged. `Readable` says how far the blocks of one type can be read:
up to the first that cannot, or to the end.

Result: `yields_readOneType`, what the range of a type comes to.
-/

namespace BambooShoot.Pbsu

open BambooShoot.Lib BambooShoot.Pbss BambooShoot.Pbsf

/-! ## Blocks of one type -/

section Readable

variable (lib : Libraries) {α : Type} (s : Ty α) (stops : Stop → Prop)

/-- The blocks hold some values, and then there is one that throws, or `ends` holds. -/
inductive Readable (ends : Prop) : List EncodedBlock → List α → Prop
  | done (h : ends) : Readable ends [] []
  | bad {block blocks}
      (h : ∀ build fresh, ∃ stop, stops stop ∧ readBlock build lib fresh s block = .error stop) :
      Readable ends (block :: blocks) []
  | value {block blocks v vs} (h : Holds lib s block v) (rest : Readable ends blocks vs) :
      Readable ends (block :: blocks) (v :: vs)

variable {lib s stops} {ends ends' : Prop}

theorem Readable.mono (himp : ends → ends') {blocks : List EncodedBlock} {vs : List α}
    (h : Readable lib s stops ends blocks vs) : Readable lib s stops ends' blocks vs := by
  induction h with
  | done h => exact .done (himp h)
  | bad h => exact .bad h
  | value h _ ih => exact .value h ih

theorem Readable.of_holds (hends : ends) {blocks : List EncodedBlock} {vs : List α}
    (h : List.Forall₂ (Holds lib s) blocks vs) : Readable lib s stops ends blocks vs := by
  induction h with
  | nil => exact .done hends
  | cons h _ ih => exact .value h ih

end Readable

/-! ## Iterators -/

section Reading

variable {α : Type}

/-- The members of a `skipping_read_iterator`, apart from its stream. -/
structure ReadPosition (α : Type) where
  streamPtr : Bool
  block : EncodedBlock
  value : Option α

/-- The iterator that `skipping_read_iterator()` makes. -/
def ReadPosition.behind : ReadPosition α := ⟨false, {}, none⟩

/-- An iterator together with the stream. -/
def ReadPosition.on (position : ReadPosition α) (stream : StdStream) :
    SkippingReadIterator StdStream α :=
  ⟨⟨stream, position.streamPtr, position.block⟩, position.value⟩

/-- An iterator without it. -/
def ReadPosition.of (m : SkippingReadIterator StdStream α) : ReadPosition α :=
  ⟨m.it.streamPtr, m.it.value, m.value⟩

/-- A call on an iterator. The world has the stream, and counts the calls, each of
    which may find other memory. -/
def ReadPosition.call {β : Type} (position : ReadPosition α)
    (f : ℕ → Run (SkippingReadIterator StdStream α) β) :
    Run (StdStream × ℕ) (ReadPosition α × β) := fun w =>
  match f w.2 (position.on w.1) with
  | .ok b m => .ok (.of m, b) (m.it.stream, w.2 + 1)
  | .error stop m => .error stop (m.it.stream, w.2 + 1)

variable (build : Build) (lib : Libraries) (tid : Int16T) (s : Ty α) (heap : ℕ → Memory)

/-- `skipping_read_iterator<Realm, T>`: the reference is to its cached value. -/
@[reducible] def reading : IteratorType α where
  World := StdStream × ℕ
  It := ReadPosition α
  eq a b := a.streamPtr == b.streamPtr
  deref position := do
    let (position, _) ← position.call fun n => SkippingReadIterator.deref build lib s (heap n)
    pure (position, memberReference ReadPosition.value)
  increment position := do
    let (position, _) ← position.call fun _ => SkippingReadIterator.next build tid
    pure position

/-- `read_one_type<T>()` of an open file: its `begin()` looks at the stream. -/
def Range.readOneType : Run (StdStream × ℕ) (Range (reading build lib tid s heap)) := do
  let first : ReadPosition α := ⟨true, {}, none⟩
  let (first, _) ← first.call fun _ => SkippingReadIterator.next build tid
  pure ⟨first, .behind⟩

/-- The iterator is behind the last block, or at one of the type; `values` are those
    it has still to come to. The file ends with `tail`. -/
def ReadAt (stops : Stop → Prop) (ends : Prop) (e : Exn) (tail : List Byte) (w : StdStream × ℕ)
    (position : ReadPosition α) (values : List α) : Prop :=
  position.streamPtr = false ∧ values = [] ∧ tail = [] ∧ ends ∨
    ∃ blocks, Ahead e tail (position.on w.1).it blocks ∧
      ((∃ v vs, position.value = some v ∧ values = v :: vs ∧
          Readable lib s stops ends (blocks.filter (checkId tid)) vs) ∨
        position.value = none ∧
          Readable lib s stops ends (position.block :: blocks.filter (checkId tid)) values)

variable {build lib tid s heap} {w : StdStream × ℕ} {position : ReadPosition α}
  {stops : Stop → Prop} {ends : Prop} {e : Exn} {tail : List Byte}

theorem call_of_ok {β : Type} {f : ℕ → Run (SkippingReadIterator StdStream α) β} {b : β}
    {m : SkippingReadIterator StdStream α} (h : f w.2 (position.on w.1) = .ok b m) :
    position.call f w = .ok (.of m, b) (m.it.stream, w.2 + 1) := by
  unfold ReadPosition.call
  rw [h]

theorem call_of_error {β : Type} {f : ℕ → Run (SkippingReadIterator StdStream α) β} {stop : Stop}
    {m : SkippingReadIterator StdStream α} (h : f w.2 (position.on w.1) = .error stop m) :
    position.call f w = .error stop (m.it.stream, w.2 + 1) := by
  unfold ReadPosition.call
  rw [h]

/-- A dereference whose value is not cached reads the block. -/
theorem deref_position (build : Build) (lib : Libraries) (s : Ty α) (heap : ℕ → Memory)
    (w : StdStream × ℕ) (hvalue : position.value = none) :
    ∃ moved, SkippingReadIterator.deref build lib s (heap w.2) (position.on w.1) =
      match readBlock build lib (heap w.2) s position.block with
      | .ok v => .ok v ⟨{ (position.on w.1).it with value := moved }, some v⟩
      | .error stop => .error stop ⟨{ (position.on w.1).it with value := moved }, none⟩ := by
  have hon : position.on w.1 = ⟨(position.on w.1).it, none⟩ := by
    unfold ReadPosition.on
    rw [hvalue]
  rw [hon]
  exact deref_eq build lib s (heap w.2) (show (position.on w.1).it.value = position.block from rfl)

/-- A dereference in front of a value: it stays in the iterator. -/
theorem ReadAt.deref {v : α} {vs : List α}
    (h : ReadAt lib tid s stops ends e tail w position (v :: vs)) :
    ∃ position' source w', (reading build lib tid s heap).deref position w =
        .ok (position', source) w' ∧ source.read position' w' = some v ∧
      ReadAt lib tid s stops ends e tail w' position' (v :: vs) := by
  rcases h with ⟨-, hnil, -⟩ | ⟨blocks, hahead, hblock⟩
  · cases hnil
  obtain ⟨block, m, hderef, hsome, hm, hrest⟩ : ∃ block, ∃ m : SkippingReadIterator StdStream α,
      SkippingReadIterator.deref build lib s (heap w.2) (position.on w.1) = .ok v m ∧
        m.value = some v ∧ m.it = { (position.on w.1).it with value := block } ∧
          Readable lib s stops ends (blocks.filter (checkId tid)) vs := by
    rcases hblock with ⟨v', vs', hsome, heq, hrest⟩ | ⟨hnone, hrest⟩
    · obtain ⟨rfl, rfl⟩ := List.cons.inj heq
      refine ⟨position.block, position.on w.1, ?_, hsome, rfl, hrest⟩
      have hcached : (position.on w.1).value = some v := hsome
      unfold SkippingReadIterator.deref MappingIterator.deref
      rw [get_bind, hcached]
      rfl
    · cases hrest with
      | value hholds hrest =>
        obtain ⟨moved, hderef⟩ := deref_position build lib s heap w hnone
        rw [hholds build (heap w.2)] at hderef
        exact ⟨moved, _, hderef, rfl, rfl, hrest⟩
  refine ⟨.of m, _, _, bind_of_ok (call_of_ok hderef), hsome, Or.inr ⟨blocks, ?_, Or.inl
    ⟨v, vs, hsome, rfl, hrest⟩⟩⟩
  show Ahead e tail m.it blocks
  rw [hm]
  exact ⟨hahead.streamPtr, hahead.ready, hahead.eofError⟩

/-- The next block of the type, or an exception where the file was cut. -/
theorem readAt_next (htail : PartOfBlock tail) (hcut : tail ≠ [] → stops (.throws e))
    {blocks : List EncodedBlock} {vs : List α} (h : Ahead e tail (position.on w.1).it blocks)
    (hvalues : Readable lib s stops ends (blocks.filter (checkId tid)) vs) :
    (∃ m, SkippingReadIterator.next build tid (position.on w.1) = .ok () m ∧
        ReadAt lib tid s stops ends e tail (m.it.stream, w.2 + 1) (.of m) vs) ∨
      vs = [] ∧ Stops stops (SkippingReadIterator.next build tid (position.on w.1)) := by
  rw [filter_eq_dropWhile] at hvalues
  rcases next_reaches build tid htail h with ⟨it, hnext, hat⟩ | ⟨hnil, hne, m, hnext⟩
  · refine Or.inl ⟨_, hnext, ?_⟩
    cases hdrop : blocks.dropWhile fun block => !checkId tid block with
    | nil =>
      rw [hdrop] at hat hvalues
      cases hvalues with
      | done hends => exact Or.inl ⟨hat.1, rfl, hat.2, hends⟩
    | cons block rest =>
      rw [hdrop] at hat hvalues
      obtain ⟨rfl, hahead⟩ := hat
      exact Or.inr ⟨rest, hahead, Or.inr ⟨rfl, hvalues⟩⟩
  · rw [hnil] at hvalues
    cases hvalues
    exact Or.inr ⟨rfl, .throws e, hcut hne, m, hnext⟩

/-- `hdone` may use that the blocks have all been read. -/
theorem failStop_reading {complete : Prop} (htail : PartOfBlock tail)
    (hcut : tail ≠ [] → stops (.throws e)) (hdone : ends → tail = [] → complete) :
    FailStop (reading build lib tid s heap) .behind stops complete
      (ReadAt lib tid s stops ends e tail) where
  eq_last := rfl
  nil {w position} h := by
    rcases h with ⟨hptr, -, hnil, hends⟩ | ⟨blocks, hahead, ⟨v, vs, -, hcons, -⟩ | ⟨hnone, hbad⟩⟩
    · refine Or.inl ⟨?_, hdone hends hnil⟩
      show (position.streamPtr == false) = true
      rw [hptr]
      rfl
    · cases hcons
    · have hptr : position.streamPtr = true := hahead.streamPtr
      refine Or.inr ⟨?_, ?_⟩
      · show (position.streamPtr == false) = false
        rw [hptr]
        rfl
      · cases hbad with
        | bad hblock =>
          obtain ⟨stop, hstop, hread⟩ := hblock build (heap w.2)
          obtain ⟨moved, hderef⟩ := deref_position build lib s heap w hnone
          rw [hread] at hderef
          exact Stops.bind ⟨stop, hstop, _, call_of_error hderef⟩ _
  eq_cons {w position v vs} h := by
    rcases h with ⟨-, hnil, -⟩ | ⟨blocks, hahead, -⟩
    · cases hnil
    · have hptr : position.streamPtr = true := hahead.streamPtr
      show (position.streamPtr == false) = false
      rw [hptr]
      rfl
  deref h := h.deref
  increment {w position v vs} h := by
    rcases h with ⟨-, hnil, -⟩ | ⟨blocks, hahead, hblock⟩
    · cases hnil
    · have hrest : Readable lib s stops ends (blocks.filter (checkId tid)) vs := by
        rcases hblock with ⟨v', vs', -, heq, hrest⟩ | ⟨-, hrest⟩
        · obtain ⟨rfl, rfl⟩ := List.cons.inj heq
          exact hrest
        · cases hrest with
          | value _ hrest => exact hrest
      rcases readAt_next htail hcut hahead hrest with ⟨m, hnext, hat⟩ | ⟨rfl, stop, hstop, m, hnext⟩
      · exact Or.inl ⟨_, _, bind_of_ok (call_of_ok hnext), hat⟩
      · exact Or.inr ⟨rfl, Stops.bind ⟨stop, hstop, _, call_of_error hnext⟩ _⟩

end Reading

/-! ## Files -/

section Files

variable {ι : Type} (r : Realm ι) (build : Build) (lib : Libraries) (heap : ℕ → Memory)

/-- `open_sequential_input_file(file, r)`, and `read_one_type<T>()` of it. -/
def RangeExpression.readOneType (file : List Byte) (i : ι) : RangeExpression (r.type i) where
  iterators := reading build lib (r.lookupId i) (r.ty i) heap
  world := (inputFile file, 0)
  range := do
    onFst (openSequentialInputFile r build)
    Range.readOneType build lib (r.lookupId i) (r.ty i) heap

variable {r lib} {stops : Stop → Prop} {complete ends : Prop}

/-- The range of a type comes to the values that can be read. -/
theorem yields_readOneType (i : ι) (blocks : List EncodedBlock) {tail : List Byte}
    {values : List (r.type i)} (htail : PartOfBlock tail)
    (hcut : tail ≠ [] → stops (.throws .iosFailure)) (hdone : ends → tail = [] → complete)
    (hvalues : Readable lib (r.ty i) stops ends (blocks.filter (checkId (r.lookupId i))) values) :
    Yields (.readOneType r build lib heap
      (headerBytes r ++ (blocks.flatMap blockBytes ++ tail)) i) values stops complete := by
  have hopen := openSequentialInputFile_header r build (blocks.flatMap blockBytes ++ tail)
  have hahead : Ahead .iosFailure tail (ReadPosition.on (⟨true, {}, none⟩ : ReadPosition (r.type i))
      (StdStream.between (headerBytes r) (blocks.flatMap blockBytes ++ tail) true)).it blocks :=
    ⟨rfl, StdStream.between_ready _ _ _, rfl⟩
  have hrange : (RangeExpression.readOneType r build lib heap
      (headerBytes r ++ (blocks.flatMap blockBytes ++ tail)) i).range
        (inputFile (headerBytes r ++ (blocks.flatMap blockBytes ++ tail)), 0) =
      Range.readOneType build lib (r.lookupId i) (r.ty i) heap
        (StdStream.between (headerBytes r) (blocks.flatMap blockBytes ++ tail) true, 0) :=
    bind_of_ok (onFst_of_ok hopen)
  rcases readAt_next (w := (_, 0)) htail hcut hahead hvalues with
    ⟨m, hnext, hat⟩ | ⟨rfl, stop, hstop, m, hnext⟩
  · refine Or.inr ⟨⟨.of m, .behind⟩, _, _, hrange.trans (bind_of_ok (call_of_ok hnext)), ?_, hat⟩
    exact failStop_reading htail hcut hdone
  · refine Or.inl ⟨rfl, stop, hstop, _, hrange.trans (bind_of_error (call_of_error hnext))⟩

end Files

end BambooShoot.Pbsu
