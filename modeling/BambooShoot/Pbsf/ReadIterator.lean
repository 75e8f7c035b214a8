import BambooShoot.Pbsf.Realm

/-!
# Reading blocks of one type

Model of `parse_iterator` (`pbss.hh`, lines 171–229), of the `filtering_iterator`
and the caching `mapping_iterator` over it (`iter-util.hh`, lines 238–315 and
502–580) and of `skipping_read_iterator` (`data-block.hh`, lines 52–109).

Results:
* `next_reaches`: an increment moves on to the next block of the type, or
  fails where the file ends inside of a block;
* `visitAll_eq`: a traversal sees what the blocks of the type hold, one by one,
  and nothing of the others;
* `isolated_iff`: it goes on behind any of them exactly if reading each of
  them alone is defined.
-/

namespace BambooShoot.Pbsf

open BambooShoot.Lib BambooShoot.Pbss
open Source

/-! ## Iterators -/

/-- `peek_for_eof` (`peek-for-eof.hh`). -/
def peekForEof {σ : Type} [InputStream σ] : Run σ Bool := do
  return (← InputStream.peek).isNone

/-- `parse_iterator<Stream, T>`, with the stream that `stream_ptr` points to. -/
structure ParseIterator (σ β : Type) where
  stream : σ
  /-- `stream_ptr` is not null. -/
  streamPtr : Bool
  value : β

/-- `mapping_iterator<Function, Iterator, true>`. -/
structure MappingIterator (σ β γ : Type) where
  it : ParseIterator σ β
  value : Option γ

section Model

variable {σ β γ : Type}

/-- Comparison with the default-constructed iterator. -/
def ParseIterator.isEnd (it : ParseIterator σ β) : Bool := !it.streamPtr

/-- A call on the stream. -/
def ParseIterator.onStream {α : Type} (p : Run σ α) : Run (ParseIterator σ β) α :=
  zoom ParseIterator.stream (fun stream it => { it with stream := stream }) p

/-- A call on `*it`. -/
def ParseIterator.onValue {α : Type} (p : Run β α) : Run (ParseIterator σ β) α :=
  zoom ParseIterator.value (fun value it => { it with value := value }) p

/-- A call on the iterator behind a mapping. -/
def MappingIterator.onIt {α : Type} (p : Run (ParseIterator σ β) α) :
    Run (MappingIterator σ β γ) α :=
  zoom MappingIterator.it (fun it m => { m with it := it }) p

section Parts

variable {α : Type} {it it' : ParseIterator σ β} {m : MappingIterator σ β γ} {stop : Stop} {a : α}

theorem onStream_of_ok {p : Run σ α} {stream : σ} (h : p it.stream = .ok a stream) :
    ParseIterator.onStream p it = .ok a { it with stream := stream } := zoom_of_ok h

theorem onStream_of_error {p : Run σ α} {stream : σ} (h : p it.stream = .error stop stream) :
    ParseIterator.onStream p it = .error stop { it with stream := stream } := zoom_of_error h

theorem onValue_of_ok {p : Run β α} {value : β} (h : p it.value = .ok a value) :
    ParseIterator.onValue p it = .ok a { it with value := value } := zoom_of_ok h

theorem onValue_of_error {p : Run β α} {value : β} (h : p it.value = .error stop value) :
    ParseIterator.onValue p it = .error stop { it with value := value } := zoom_of_error h

theorem onIt_of_ok {p : Run (ParseIterator σ β) α} (h : p m.it = .ok a it') :
    MappingIterator.onIt p m = .ok a { m with it := it' } := zoom_of_ok h

theorem onIt_of_error {p : Run (ParseIterator σ β) α} (h : p m.it = .error stop it') :
    MappingIterator.onIt p m = .error stop { m with it := it' } := zoom_of_error h

end Parts

variable [InputStream σ] [ForwardInputStream σ] (build : Build) (s : Ty β)

/-- `parse_iterator::operator++` (`pbss.hh`, lines 198–206). -/
def ParseIterator.increment : Run (ParseIterator σ β) Unit := do
  if (← get).isEnd then undefined
  else if ← ParseIterator.onStream peekForEof then modify fun it => { it with streamPtr := false }
  else
    let value ← ParseIterator.onStream (parse build s)
    modify fun it => { it with value := value }

/-- `filtering_iterator::forward_skip` (`iter-util.hh`, lines 532–536). -/
def forwardSkip (pred : β → Bool) : ℕ → Run (ParseIterator σ β) Unit
  | 0 => throw .outOfFuel
  | fuel + 1 => do
    let it ← get
    if !it.isEnd && !pred it.value then
      ParseIterator.increment build s
      forwardSkip pred fuel
    else pure ()

/-- `filtering_iterator::operator++` (lines 551–556), which is also what the
    constructors of the two iterators do with a stream (lines 540–544 and
    `pbss.hh`, lines 192–196). A round of the loop takes a byte at least. -/
def filteringNext (pred : β → Bool) : Run (ParseIterator σ β) Unit := do
  ParseIterator.increment build s
  let it ← get
  forwardSkip build s pred (Measured.left it.stream + 2)

/-- `mapping_iterator::operator*` (lines 273–278): an exception leaves `value`
    empty, but what `f` made of `*it` stays. -/
def MappingIterator.deref (f : Run β γ) : Run (MappingIterator σ β γ) γ := do
  match (← get).value with
  | some value => pure value
  | none =>
    let value ← MappingIterator.onIt (ParseIterator.onValue f)
    modify fun m => { m with value := some value }
    pure value

/-- `mapping_iterator::operator++` with `skipUnused` (lines 280–287). -/
def MappingIterator.next (pred : β → Bool) : Run (MappingIterator σ β γ) Unit := do
  modify fun m => { m with value := none }
  MappingIterator.onIt (filteringNext build s pred)

end Model

section Skipping

variable {σ α : Type} [InputStream σ] [ForwardInputStream σ]
  (build : Build) (lib : Libraries) (tid : Int16T) (s : Ty α)

/-- `check_id<id>` (`data-block.hh`, lines 60–66). -/
def checkId (block : EncodedBlock) : Bool := block.contentType == tid

/-- `skipping_read_iterator<Realm, T>`. -/
abbrev SkippingReadIterator (σ α : Type) := MappingIterator σ EncodedBlock α

/-- The iterator before its constructor has looked at the stream. -/
def SkippingReadIterator.over (stream : σ) : SkippingReadIterator σ α :=
  ⟨⟨stream, true, {}⟩, none⟩

/-- `*it`; `fresh` is the memory it is given. -/
def SkippingReadIterator.deref (fresh : Memory) : Run (SkippingReadIterator σ α) α :=
  MappingIterator.deref (parseFromBlock build lib fresh s)

/-- `++it`, and the constructor. -/
def SkippingReadIterator.next : Run (SkippingReadIterator σ α) Unit :=
  MappingIterator.next build EncodedBlock.ty (checkId tid)

/-- A call in a `try` block that catches everything. -/
def attempt {τ : Type} (p : Run τ α) : Run τ (Except Stop α) := fun t =>
  match p t with
  | .ok a t' => .ok (.ok a) t'
  | .error (.throws e) t' => .ok (.error (.throws e)) t'
  | .error stop t' => .error stop t'

/-- Stepping an iterator to the end, dereferencing each position once and
    catching what that throws. `heap n` is what fresh memory holds at the
    `n`-th dereference. -/
def visitLoop (heap : ℕ → Memory) : (fuel n : ℕ) →
    Run (SkippingReadIterator σ α) (List (Except Stop α))
  | 0, _ => throw .outOfFuel
  | fuel + 1, n => do
    if (← get).it.isEnd then pure []
    else
      let result ← attempt (SkippingReadIterator.deref build lib s (heap n))
      SkippingReadIterator.next build tid
      let results ← visitLoop heap fuel (n + 1)
      pure (result :: results)

/-- The results of all dereferences. -/
def visitAll (heap : ℕ → Memory) (stream : σ) : Except Stop (List (Except Stop α)) :=
  outcome ((do
    SkippingReadIterator.next build tid
    visitLoop build lib tid s heap (Measured.left stream + 2) 0)
    (SkippingReadIterator.over stream))

end Skipping

/-! ## Dereferencing -/

section Dereferencing

variable {σ α : Type} (build : Build) (lib : Libraries) (s : Ty α)

/-- `*it` of a `skipping_read_iterator` at `block`: the iterator stays where it
    is, with what is left of the block. -/
theorem deref_eq (fresh : Memory) {it : ParseIterator σ EncodedBlock} {block : EncodedBlock}
    (h : it.value = block) :
    ∃ moved, (SkippingReadIterator.deref build lib s fresh : Run (SkippingReadIterator σ α) α)
        ⟨it, none⟩ =
      match readBlock build lib fresh s block with
      | .ok v => .ok v ⟨{ it with value := moved }, some v⟩
      | .error stop => .error stop ⟨{ it with value := moved }, none⟩ := by
  subst h
  unfold readBlock SkippingReadIterator.deref MappingIterator.deref
  rw [get_bind]
  cases hblock : parseFromBlock build lib fresh s it.value with
  | ok v moved => exact ⟨moved, bind_of_ok (onIt_of_ok (onValue_of_ok hblock))⟩
  | error stop moved => exact ⟨moved, bind_of_error (onIt_of_error (onValue_of_error hblock))⟩

/-- The same in a `try` block. -/
theorem attempt_deref (fresh : Memory) {it : ParseIterator σ EncodedBlock} {block : EncodedBlock}
    (h : it.value = block) :
    ∃ moved value, attempt (SkippingReadIterator.deref build lib s fresh :
        Run (SkippingReadIterator σ α) α) ⟨it, none⟩ =
      match readBlock build lib fresh s block with
      | .ok v => .ok (.ok v) ⟨{ it with value := moved }, value⟩
      | .error (.throws e) => .ok (.error (.throws e)) ⟨{ it with value := moved }, value⟩
      | .error stop => .error stop ⟨{ it with value := moved }, value⟩ := by
  obtain ⟨moved, hderef⟩ := deref_eq (σ := σ) build lib s fresh h
  unfold attempt
  cases hblock : readBlock build lib fresh s block with
  | ok v =>
    rw [hblock] at hderef
    rw [hderef]
    exact ⟨moved, some v, rfl⟩
  | error stop =>
    rw [hblock] at hderef
    rw [hderef]
    refine ⟨moved, none, ?_⟩
    cases stop <;> rfl

end Dereferencing

/-! ## Stepping -/

section Stepping

variable {σ : Type} [InputStream σ] [ForwardInputStream σ] [LawfulInputStream σ] (build : Build)

/-- The blocks in front of the iterator's stream, and a part of a block behind
    them where the file was cut. -/
structure Ahead (e : Exn) (tail : List Byte) (it : ParseIterator σ EncodedBlock)
    (blocks : List EncodedBlock) : Prop where
  streamPtr : it.streamPtr = true
  ready : Ready it.stream (blocks.flatMap blockBytes ++ tail)
  eofError : LawfulInputStream.eofError it.stream = e

/-- A new iterator is in front of what its stream holds. -/
theorem ahead_over {tail : List Byte} {stream : σ} {blocks : List EncodedBlock}
    (h : Ready stream (blocks.flatMap blockBytes ++ tail)) :
    Ahead (LawfulInputStream.eofError stream) tail
      (SkippingReadIterator.over stream : SkippingReadIterator σ α).it blocks :=
  ⟨rfl, h, rfl⟩

/-- The iterator is at the first of the blocks, or at the end if there are none. -/
def At (e : Exn) (tail : List Byte) (it : ParseIterator σ EncodedBlock) :
    List EncodedBlock → Prop
  | [] => it.streamPtr = false ∧ tail = []
  | block :: blocks => it.value = block ∧ Ahead e tail it blocks

/-- A call that moves the iterator to the first of the blocks. Where there are
    none and the file was cut it throws. -/
def Reaches (e : Exn) (tail : List Byte)
    (r : EStateM.Result Stop (ParseIterator σ EncodedBlock) Unit) (blocks : List EncodedBlock) :
    Prop :=
  (∃ it, r = .ok () it ∧ At e tail it blocks) ∨
    blocks = [] ∧ tail ≠ [] ∧ ∃ it, r = .error (.throws e) it

/-- `tail` is what a cut leaves of a block. -/
def PartOfBlock (tail : List Byte) : Prop :=
  ∃ block, tail <+: blockBytes block ∧ tail ≠ blockBytes block

variable {e : Exn} {tail : List Byte}

theorem peekForEof_ready {s : σ} {b : Byte} {bs : List Byte} (h : Ready s (b :: bs)) :
    peekForEof s = .ok false s := by
  unfold peekForEof
  rw [bind_of_ok (LawfulInputStream.peek_ready h)]
  rfl

theorem peekForEof_end {s : σ} (h : Ready s []) : ∃ s', peekForEof s = .ok true s' := by
  obtain ⟨s', hs'⟩ := LawfulInputStream.peek_end h
  refine ⟨s', ?_⟩
  unfold peekForEof
  rw [bind_of_ok hs']
  rfl

section Increment

variable {β : Type} (s : Ty β) {it : ParseIterator σ β} (hptr : it.streamPtr = true)

include hptr

/-- An increment in front of some bytes is a call of `parse`. -/
theorem increment_ready {bs : List Byte} (h : Ready it.stream bs) (hne : bs ≠ []) :
    ParseIterator.increment build s it =
      (do
        let value ← ParseIterator.onStream (parse build s)
        modify fun it : ParseIterator σ β => { it with value := value }) it := by
  obtain ⟨b, bs, rfl⟩ := List.exists_cons_of_ne_nil hne
  have hend : it.isEnd = false := by
    unfold ParseIterator.isEnd
    rw [hptr]
    rfl
  have hpeek : ParseIterator.onStream peekForEof it = .ok false it :=
    onStream_of_ok (peekForEof_ready h)
  unfold ParseIterator.increment
  rw [get_bind, hend, if_neg Bool.false_ne_true,
    bind_of_ok hpeek, if_neg Bool.false_ne_true]

/-- At the end of the data it makes the iterator the end of the range. -/
theorem increment_end (h : Ready it.stream []) :
    ∃ stream, ParseIterator.increment build s it = .ok () ⟨stream, false, it.value⟩ := by
  obtain ⟨stream, hs⟩ := peekForEof_end h
  have hpeek : ParseIterator.onStream peekForEof it = .ok true { it with stream := stream } :=
    onStream_of_ok hs
  refine ⟨stream, ?_⟩
  unfold ParseIterator.increment
  rw [get_bind, if_neg (by simp [ParseIterator.isEnd, hptr]), bind_of_ok hpeek]
  rfl

end Increment

/-- `parse_iterator::operator++`. -/
theorem increment_reaches (htail : PartOfBlock tail) {it : ParseIterator σ EncodedBlock}
    {blocks : List EncodedBlock} (h : Ahead e tail it blocks) :
    Reaches e tail (ParseIterator.increment build EncodedBlock.ty it) blocks := by
  obtain ⟨hptr, hready, heof⟩ := h
  cases blocks with
  | cons block blocks =>
    rw [List.flatMap_cons, List.append_assoc] at hready
    have hparse := (consumes_encodedBlock build block).run hready
    refine Or.inl ⟨⟨advance (blockBytes block).length it.stream, it.streamPtr, block⟩, ?_, rfl, hptr,
      ready_advance hready, (LawfulInputStream.eofError_advance _ _).trans heof⟩
    rw [increment_ready build EncodedBlock.ty hptr hready (by simp [blockBytes_ne_nil])]
    exact bind_of_ok (onStream_of_ok hparse)
  | nil =>
    rw [List.flatMap_nil, List.nil_append] at hready
    by_cases hnil : tail = []
    · subst hnil
      obtain ⟨s', hs'⟩ := increment_end build EncodedBlock.ty hptr hready
      exact Or.inl ⟨⟨s', false, it.value⟩, hs', rfl, rfl⟩
    · obtain ⟨block, hpre, hne⟩ := htail
      obtain ⟨_, s', hparse, rfl⟩ :=
        rejectsPrefix_encodedBlock build block it.stream tail hready hpre hne
      refine Or.inr ⟨rfl, hnil, { it with stream := s' }, ?_⟩
      rw [increment_ready build EncodedBlock.ty hptr hready hnil, ← heof]
      exact bind_of_error (onStream_of_error hparse)

/-- `forward_skip` stops at the first block that is wanted. -/
theorem forwardSkip_reaches (htail : PartOfBlock tail) (pred : EncodedBlock → Bool)
    {it : ParseIterator σ EncodedBlock} {blocks : List EncodedBlock} (h : At e tail it blocks)
    {fuel : ℕ} (hfuel : blocks.length < fuel) :
    Reaches e tail (forwardSkip build EncodedBlock.ty pred fuel it)
      (blocks.dropWhile fun block => !pred block) := by
  induction blocks generalizing it fuel with
  | nil =>
    obtain ⟨fuel, rfl⟩ : ∃ f, fuel = f + 1 := ⟨fuel - 1, by omega⟩
    refine Or.inl ⟨it, ?_, h⟩
    unfold forwardSkip
    rw [get_bind]
    simp [ParseIterator.isEnd, h.1]
    rfl
  | cons block blocks ih =>
    obtain ⟨fuel, rfl⟩ : ∃ f, fuel = f + 1 := ⟨fuel - 1, by omega⟩
    rw [List.length_cons] at hfuel
    obtain ⟨hvalue, hahead⟩ := h
    have hend : it.isEnd = false := by simp [ParseIterator.isEnd, hahead.streamPtr]
    unfold forwardSkip
    rw [get_bind, hend, hvalue]
    cases hpred : pred block with
    | true =>
      rw [List.dropWhile_cons_of_neg (by simp [hpred])]
      exact Or.inl ⟨it, rfl, hvalue, hahead⟩
    | false =>
      rw [List.dropWhile_cons_of_pos (by simp [hpred])]
      show Reaches e tail ((ParseIterator.increment build EncodedBlock.ty >>= fun _ =>
        forwardSkip build EncodedBlock.ty pred fuel) it) _
      rcases increment_reaches build htail hahead with ⟨it', hit', hat⟩ | ⟨hnil, hne, it', hit'⟩
      · rw [bind_of_ok hit']
        exact ih hat (by omega)
      · subst hnil
        exact Or.inr ⟨rfl, hne, it', bind_of_error hit'⟩

theorem length_le_flatMap_blockBytes (blocks : List EncodedBlock) :
    blocks.length ≤ (blocks.flatMap blockBytes).length := by
  induction blocks with
  | nil => exact Nat.zero_le _
  | cons block blocks ih =>
    have hlen := length_blockBytes block
    rw [List.flatMap_cons, List.length_append, List.length_cons]
    omega

/-- The bytes in front of the stream leave a round for every block. -/
theorem At.length_lt {it : ParseIterator σ EncodedBlock} {blocks : List EncodedBlock}
    (h : At e tail it blocks) : blocks.length < Measured.left it.stream + 2 := by
  cases blocks with
  | nil => exact Nat.succ_pos _
  | cons block blocks =>
    have hleft := LawfulInputStream.left_ready h.2.ready
    have hlen := length_le_flatMap_blockBytes blocks
    rw [List.length_append] at hleft
    rw [List.length_cons]
    omega

/-- `filtering_iterator::operator++`. -/
theorem filteringNext_reaches (htail : PartOfBlock tail) (pred : EncodedBlock → Bool)
    {it : ParseIterator σ EncodedBlock} {blocks : List EncodedBlock} (h : Ahead e tail it blocks) :
    Reaches e tail (filteringNext build EncodedBlock.ty pred it)
      (blocks.dropWhile fun block => !pred block) := by
  unfold filteringNext
  rcases increment_reaches build htail h with ⟨it', hit', hat⟩ | ⟨hnil, hne, it', hit'⟩
  · rw [bind_of_ok hit', get_bind]
    exact forwardSkip_reaches build htail pred hat hat.length_lt
  · subst hnil
    exact Or.inr ⟨rfl, hne, it', bind_of_error hit'⟩

variable {α : Type} (lib : Libraries) (tid : Int16T) (s : Ty α)

/-- `++it` of a `skipping_read_iterator`. -/
theorem next_reaches (htail : PartOfBlock tail) {m : SkippingReadIterator σ α}
    {blocks : List EncodedBlock} (h : Ahead e tail m.it blocks) :
    (∃ it, SkippingReadIterator.next build tid m = .ok () ⟨it, none⟩ ∧
        At e tail it (blocks.dropWhile fun block => !checkId tid block)) ∨
      (blocks.dropWhile fun block => !checkId tid block) = [] ∧ tail ≠ [] ∧
        ∃ m', SkippingReadIterator.next build tid m = .error (.throws e) m' := by
  rcases filteringNext_reaches build htail (checkId tid) h with ⟨it, hit, hat⟩ | ⟨hnil, hne, it, hit⟩
  · refine Or.inl ⟨it, ?_, hat⟩
    exact onIt_of_ok (m := ⟨m.it, none⟩) hit
  · refine Or.inr ⟨hnil, hne, ⟨it, none⟩, ?_⟩
    exact onIt_of_error (m := ⟨m.it, none⟩) hit

end Stepping

/-! ## Traversals -/

/-- The blocks that a filter lets through, as `forward_skip` finds them. -/
theorem filter_eq_dropWhile (pred : EncodedBlock → Bool) (blocks : List EncodedBlock) :
    blocks.filter pred =
      match blocks.dropWhile fun block => !pred block with
      | [] => []
      | block :: rest => block :: rest.filter pred := by
  induction blocks with
  | nil => rfl
  | cons block blocks ih =>
    cases hpred : pred block with
    | true => rw [List.filter_cons_of_pos hpred, List.dropWhile_cons_of_neg (by simp [hpred])]
    | false =>
      rw [List.filter_cons_of_neg (by simp [hpred]), List.dropWhile_cons_of_pos (by simp [hpred])]
      exact ih

section Traversal

variable {α : Type} (build : Build) (lib : Libraries) (tid : Int16T) (s : Ty α)

/-- What there is to see in blocks of the type: each is decoded and parsed, and
    what that throws is caught. -/
def outcomes (heap : ℕ → Memory) : (n : ℕ) → List EncodedBlock →
    Except Stop (List (Except Stop α))
  | _, [] => .ok []
  | n, block :: blocks =>
    match readBlock build lib (heap n) s block with
    | .ok v => (outcomes heap (n + 1) blocks).map (.ok v :: ·)
    | .error (.throws e) => (outcomes heap (n + 1) blocks).map (.error (.throws e) :: ·)
    | .error stop => .error stop

variable {σ : Type} [InputStream σ] [ForwardInputStream σ] [LawfulInputStream σ]

theorem partOfBlock_nil : PartOfBlock [] :=
  ⟨{}, List.nil_prefix, (blockBytes_ne_nil _).symm⟩

section Round

variable {σ : Type} [InputStream σ] [ForwardInputStream σ] (heap : ℕ → Memory)
  {m : SkippingReadIterator σ α} (fuel n : ℕ)

theorem visitLoop_end (h : m.it.isEnd = true) :
    visitLoop build lib tid s heap (fuel + 1) n m = .ok [] m := by
  unfold visitLoop
  rw [get_bind, h]
  rfl

theorem visitLoop_step (h : m.it.isEnd = false) :
    visitLoop build lib tid s heap (fuel + 1) n m =
      (do
        let result ← attempt (SkippingReadIterator.deref build lib s (heap n))
        SkippingReadIterator.next build tid
        let results ← visitLoop build lib tid s heap fuel (n + 1)
        pure (result :: results)) m := by
  conv_lhs => unfold visitLoop
  rw [get_bind, h]
  rfl

end Round

theorem isEnd_of_at {e : Exn} {tail : List Byte} {it : ParseIterator σ EncodedBlock}
    {blocks : List EncodedBlock} (h : At e tail it blocks) : it.isEnd = blocks.isEmpty := by
  unfold ParseIterator.isEnd
  cases blocks with
  | nil => rw [h.1]; rfl
  | cons block blocks => rw [h.2.streamPtr]; rfl

/-- The rounds of a traversal, by induction on the blocks of the type that are
    still to come. -/
theorem visitLoop_eq {e : Exn} (heap : ℕ → Memory) {it : ParseIterator σ EncodedBlock}
    {blocks : List EncodedBlock}
    (h : At e [] it (blocks.dropWhile fun block => !checkId tid block)) {fuel : ℕ} (n : ℕ)
    (hfuel : (blocks.filter (checkId tid)).length < fuel) :
    outcome (visitLoop build lib tid s heap fuel n ⟨it, none⟩) =
      outcomes build lib s heap n (blocks.filter (checkId tid)) := by
  induction fuel generalizing it blocks n with
  | zero => omega
  | succ fuel ih =>
    have hfilter := filter_eq_dropWhile (checkId tid) blocks
    have hend := isEnd_of_at h
    cases hdrop : blocks.dropWhile fun block => !checkId tid block with
    | nil =>
      rw [hdrop] at hend hfilter
      rw [hfilter, visitLoop_end build lib tid s heap fuel n hend]
      rfl
    | cons block rest =>
      rw [hdrop] at h hend hfilter
      obtain ⟨hvalue, hahead⟩ := h
      dsimp only at hfilter
      rw [hfilter, List.length_cons] at hfuel
      rw [hfilter, outcomes, visitLoop_step build lib tid s heap fuel n hend]
      obtain ⟨moved, value, hderef⟩ := attempt_deref (σ := σ) build lib s (heap n) hvalue
      -- the iterator behind the dereference, whatever came of it
      obtain ⟨it', hnext, hat⟩ | ⟨-, hne, -⟩ := next_reaches build tid partOfBlock_nil
        (m := ⟨{ it with value := moved }, value⟩) ⟨hahead.streamPtr, hahead.ready, hahead.eofError⟩
      · have hrest := ih hat (n + 1) (by omega)
        cases hblock : readBlock build lib (heap n) s block with
        | ok v =>
          rw [hblock] at hderef
          rw [bind_of_ok hderef, bind_of_ok hnext, outcome_bind_pure, hrest]
        | error stop =>
          rw [hblock] at hderef
          cases stop with
          | throws e => rw [bind_of_ok hderef, bind_of_ok hnext, outcome_bind_pure, hrest]
          | undefinedBehaviour => rw [bind_of_error hderef]; rfl
          | outOfFuel => rw [bind_of_error hderef]; rfl
      · exact absurd rfl hne

/-- A traversal of the blocks in front of a stream sees what those of the type
    hold, whatever the others are. -/
theorem visitAll_eq (heap : ℕ → Memory) {stream : σ} {blocks : List EncodedBlock}
    (h : Ready stream (blocks.flatMap blockBytes)) :
    visitAll build lib tid s heap stream =
      outcomes build lib s heap 0 (blocks.filter (checkId tid)) := by
  have hleft := LawfulInputStream.left_ready h
  have hlen := length_le_flatMap_blockBytes blocks
  have hfilter : (blocks.filter (checkId tid)).length ≤ blocks.length := List.length_filter_le _ _
  unfold visitAll
  rw [← List.append_nil (blocks.flatMap blockBytes)] at h
  have hahead := ahead_over (α := α) h
  obtain ⟨it, hnext, hat⟩ | ⟨-, hne, -⟩ := next_reaches build tid partOfBlock_nil hahead
  · rw [bind_of_ok hnext]
    exact visitLoop_eq build lib tid s heap hat 0 (by omega)
  · exact absurd rfl hne

/-- Two files with the same blocks of the type cannot be told apart. -/
theorem visitAll_congr (heap : ℕ → Memory) {stream stream' : σ} {blocks blocks' : List EncodedBlock}
    (h : Ready stream (blocks.flatMap blockBytes)) (h' : Ready stream' (blocks'.flatMap blockBytes))
    (hsame : blocks.filter (checkId tid) = blocks'.filter (checkId tid)) :
    visitAll build lib tid s heap stream = visitAll build lib tid s heap stream' := by
  rw [visitAll_eq build lib tid s heap h, visitAll_eq build lib tid s heap h', hsame]

theorem visitAll_between (heap : ℕ → Memory) (before : List Byte) (blocks : List EncodedBlock)
    (e : Bool) :
    visitAll build lib tid s heap (StdStream.between before (blocks.flatMap blockBytes) e) =
      outcomes build lib s heap 0 (blocks.filter (checkId tid)) := by
  apply visitAll_eq
  exact StdStream.between_ready before _ e

end Traversal

/-! ## Isolation -/

section Isolation

variable {α : Type} (build : Build) (lib : Libraries) (s : Ty α)

/-- A value or an exception. -/
def Caught (r : Except Stop α) : Prop := ∃ result : Except Exn α, r = result.mapError Stop.throws

/-- Decoding and parsing `block` ends with a value or an exception, whatever
    fresh memory holds. -/
def WellDefined (block : EncodedBlock) : Prop :=
  (∀ fresh, Caught (readBlock build lib fresh s block)) ∧
    ∀ fresh fresh', readBlock build lib fresh s block = readBlock build lib fresh' s block

variable {build lib s}

theorem outcomes_of_wellDefined (heap : ℕ → Memory) (fresh : Memory) (n : ℕ)
    {blocks : List EncodedBlock} (h : ∀ block ∈ blocks, WellDefined build lib s block) :
    outcomes build lib s heap n blocks = .ok (blocks.map (readBlock build lib fresh s)) := by
  induction blocks generalizing n with
  | nil => rfl
  | cons block blocks ih =>
    obtain ⟨hcaught, hsame⟩ := h block List.mem_cons_self
    obtain ⟨result, hresult⟩ := hcaught fresh
    have hrest := ih (n + 1) fun b hb => h b (List.mem_cons_of_mem _ hb)
    unfold outcomes
    rw [hsame (heap n) fresh, hrest, List.map_cons, hresult]
    cases result with
    | ok v => rfl
    | error e => rfl

/-- What a traversal returns has been caught. -/
theorem caught_of_outcomes {heap : ℕ → Memory} {n : ℕ} {blocks : List EncodedBlock}
    {results : List (Except Stop α)} (h : outcomes build lib s heap n blocks = .ok results)
    {r : Except Stop α} (hr : r ∈ results) : Caught r := by
  induction blocks generalizing n results with
  | nil =>
    cases h
    cases hr
  | cons block blocks ih =>
    -- the results of the other blocks are among those of a shorter traversal
    have hcons : ∀ {x : Except Stop α}, Caught x →
        (outcomes build lib s heap (n + 1) blocks).map (x :: ·) = .ok results → Caught r := by
      intro x hx hmap
      cases hrest : outcomes build lib s heap (n + 1) blocks with
      | error stop => rw [hrest] at hmap; cases hmap
      | ok rest =>
        rw [hrest] at hmap
        cases hmap
        rcases List.mem_cons.mp hr with rfl | hr
        · exact hx
        · exact ih hrest hr
    unfold outcomes at h
    cases hblock : readBlock build lib (heap n) s block with
    | ok v =>
      rw [hblock] at h
      exact hcons ⟨.ok v, rfl⟩ h
    | error stop =>
      rw [hblock] at h
      cases stop with
      | throws e => exact hcons ⟨.error e, rfl⟩ h
      | undefinedBehaviour => cases h
      | outOfFuel => cases h

theorem wellDefined_of_outcomes {blocks : List EncodedBlock}
    (h : ∀ heap fresh, outcomes build lib s heap 0 blocks =
      .ok (blocks.map (readBlock build lib fresh s)))
    {block : EncodedBlock} (hblock : block ∈ blocks) : WellDefined build lib s block := by
  constructor
  · intro fresh
    exact caught_of_outcomes (h (fun _ => fresh) fresh) (List.mem_map_of_mem hblock)
  · intro fresh fresh'
    have hmap := (h (fun _ => fresh) fresh).symm.trans (h (fun _ => fresh) fresh')
    exact List.map_inj_left.mp (Except.ok.inj hmap) block hblock

/-- A traversal yields what each block of the type holds exactly if reading
    every one of them alone is defined. -/
theorem isolated_iff {ι : Type} (r : AbstractRealm ι) (i : ι) (build : Build) (lib : Libraries)
    (blocks : List EncodedBlock) :
    (∀ heap fresh before e,
        visitAll build lib (r.lookupId i) (r.ty i) heap
            (StdStream.between before (blocks.flatMap blockBytes) e) =
          .ok ((blocks.filter (checkId (r.lookupId i))).map (readBlock build lib fresh (r.ty i)))) ↔
      ∀ block ∈ blocks, block.contentType = r.lookupId i →
        WellDefined build lib (r.ty i) block := by
  have hvisit := fun heap before => visitAll_between build lib (r.lookupId i) (r.ty i) heap before
    blocks
  constructor
  · intro h block hblock hid
    have houtcomes : ∀ heap fresh,
        outcomes build lib (r.ty i) heap 0 (blocks.filter (checkId (r.lookupId i))) =
          .ok ((blocks.filter (checkId (r.lookupId i))).map
            (readBlock build lib fresh (r.ty i))) := by
      intro heap fresh
      rw [← hvisit heap [] false]
      exact h heap fresh [] false
    apply wellDefined_of_outcomes houtcomes
    exact List.mem_filter.mpr ⟨hblock, beq_iff_eq.mpr hid⟩
  · intro h heap fresh before e
    rw [hvisit]
    apply outcomes_of_wellDefined
    intro block hblock
    obtain ⟨hmem, hid⟩ := List.mem_filter.mp hblock
    exact h block hmem (beq_iff_eq.mp hid)

/-- A realm with one type. -/
def byteRealm : AbstractRealm Unit where
  type _ := BitVec (8 * 1)
  ty _ := .arith (.bits 1 Nat.one_pos)
  lookupId _ := 7
  lookupId_injective _ _ _ := rfl

/-- A block whose checksum matches its content, which has no room for the size
    in front of a frame. -/
def sizelessBlock : EncodedBlock := { contentType := 7, contentEncoding := encodingZstd }

/-- A block that holds the byte 9. -/
def nineBlock : EncodedBlock :=
  { contentType := 7, contentChecksum := crc32c [9],
    content := Buffer.ofBytes [9] (by decide) }

/-- The traversal reads behind the content of the first block and never gets to
    the second one. -/
theorem sizelessBlock_not_isolated :
    ¬ ∀ heap fresh before e,
      visitAll { rangeChecks := true } Libraries.stored (byteRealm.lookupId ()) (byteRealm.ty ())
          heap (StdStream.between before ([sizelessBlock, nineBlock].flatMap blockBytes) e) =
        .ok (([sizelessBlock, nineBlock].filter (checkId (byteRealm.lookupId ()))).map
          (readBlock { rangeChecks := true } Libraries.stored fresh (byteRealm.ty ()))) := by
  intro h
  have hvisit := visitAll_between { rangeChecks := true } Libraries.stored (byteRealm.lookupId ())
    (byteRealm.ty ()) (fun _ _ => 0) [] [sizelessBlock, nineBlock] false
  rw [h (fun _ _ => 0) (fun _ => 0) [] false] at hvisit
  have hread : readBlock { rangeChecks := true } Libraries.stored (fun _ => 0) (byteRealm.ty ())
      sizelessBlock = .error .undefinedBehaviour := by rfl
  rw [List.filter_cons_of_pos (by decide), outcomes, hread] at hvisit
  cases hvisit

end Isolation

end BambooShoot.Pbsf
