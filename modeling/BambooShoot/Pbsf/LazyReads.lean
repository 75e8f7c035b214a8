import BambooShoot.Pbsf.IndexedSessions
import BambooShoot.Lib.Cursor

/-!
# Lazy reads of an indexed file

Model of the reading half of `indexed-file.hh` (lines 168–345) and of
`lazy-value.hh`: the iterators of a file, and the `lazy_value`s that iterators
and the subscript hand out. A block is read when one of these is evaluated,
which may be long after the entry was looked up; in between, the program may
insert under the same key, move the stream about and evaluate other values.

`Reader` is a program that holds any number of iterators and lazy values of one
file. `Mirror` says what it should see: an ordered map of values in memory,
whose entries are copied when they are looked up.

Results:
* `as_of_holds`: what `as<T>()` makes of a block, and leaves of it;
* `FileHas.related`: the entries of the index against those of a map of values;
* `Mirrored.hold`, `Mirrored.put`, `Mirrored.force`: the invariant under what the
  calls do to lazy values.
-/

namespace BambooShoot.Pbsf

open BambooShoot.Lib BambooShoot.Pbss

/-! ## Lazy values -/

section Model

variable {ι : Type}

/-- `lazy_value<delayed_read_t>`, on the stream of the file it is of. -/
structure LazyValue (r : AbstractRealm ι) where
  /-- `computation.pos`. -/
  pos : Int64T
  result : Option (EncodedBlockAccessor r)

variable {r : KeyedRealm ι}

/-- `lazy_value::operator*`: the computation runs the first time only. -/
def LazyValue.deref (build : Build) (lazy : LazyValue r.toAbstractRealm) :
    Run (IndexedFileState r) (EncodedBlockAccessor r.toAbstractRealm) :=
  match lazy.result with
  | some accessor => pure accessor
  | none => do
    let block ← IndexedFileState.onStream (delayedRead build lazy.pos)
    return ⟨block⟩

/-- `operator[]` (lines 325–332): a copy of the lazy value that `find(k)` has. -/
def IndexedFileState.subscriptLazy (state : IndexedFileState r) (key : r.Key) :
    Except Stop (LazyValue r.toAbstractRealm) :=
  match state.find key with
  | none => .error (.throws .keyMissingError)
  | some entry => .ok ⟨entry.2, none⟩

/-! ## Programs that read -/

/-- A lazy value that the program holds. -/
structure Handle {ι : Type} (r : KeyedRealm ι) where
  lazy : LazyValue r.toAbstractRealm
  /-- `as<T>()` has moved its block out. -/
  taken : Bool

/-- An open file with the iterators and the lazy values a program has got of it. -/
structure Reader {ι : Type} (r : KeyedRealm ι) where
  /-- The template argument of `indexed_file`. -/
  writable : Bool
  file : IndexedFile r
  places : List (Place r.Key)
  handles : List (Handle r)

/-- Calls that are answered by the keys of the map alone. -/
inductive PlaceRequest (κ : Type) where
  /-- `begin()`, or `rbegin()`. -/
  | begin (reverse : Bool)
  /-- `end()`, or `rend()`. -/
  | behind (reverse : Bool)
  | find (key : κ)
  | lowerBound (key : κ)
  | upperBound (key : κ)
  /-- A copy of an iterator, such as `i++` makes. -/
  | copy (i : ℕ)
  | increment (i : ℕ)
  | decrement (i : ℕ)
  /-- `operator==`. -/
  | equal (i j : ℕ)
  /-- `i->first`. -/
  | first (i : ℕ)

/-- A call of the program. -/
inductive Request {ι : Type} (r : KeyedRealm ι) where
  | insert (host : Host) (key : r.Key) (value : r.Value)
  | size
  | indices
  | place (request : PlaceRequest r.Key)
  /-- A copy of `i->second`. -/
  | second (i : ℕ)
  | subscript (key : r.Key)
  /-- A copy of a lazy value. -/
  | copy (k : ℕ)
  | is (build : Build) (k : ℕ) (i : ι)
  | as (build : Build) (fresh : Memory) (k : ℕ) (i : ι)

/-- What a call returns, or throws. -/
inductive Answer {ι : Type} (r : KeyedRealm ι) where
  | nothing
  | flag (b : Bool)
  | size (n : SizeT)
  | key (k : r.Key)
  | keys (ks : List r.Key)
  | value (v : r.Value)
  | threw (e : Exn)

/-- What happens in a run. -/
inductive ReaderEvent {ι : Type} (r : KeyedRealm ι) where
  | answered (request : Request r) (answer : Answer r)
  /-- A lazy value reads its block from the stream. -/
  | read (k : ℕ)

/-- The answer to a call on the iterators `places`, and what it makes of them.
    There is none where the iterators do not allow the call. -/
def PlaceRequest.answer (r : KeyedRealm ι) (keys : List r.Key) (places : List (Place r.Key)) :
    PlaceRequest r.Key → Option (List (Place r.Key) × Answer r)
  | .begin reverse => some (places ++ [.begin keys reverse], .nothing)
  | .behind reverse => some (places ++ [.behind keys reverse], .nothing)
  | .find key => some (places ++ [.forward (findKey r.lt keys key)], .nothing)
  | .lowerBound key => some (places ++ [.forward (Lib.lowerBound r.lt keys key)], .nothing)
  | .upperBound key => some (places ++ [.forward (Lib.upperBound r.lt keys key)], .nothing)
  | .copy i => places[i]?.map fun place => (places ++ [place], .nothing)
  | .increment i => do
    let place ← (← places[i]?).increment r.lt keys
    return (places.set i place, .nothing)
  | .decrement i => do
    let place ← (← places[i]?).decrement r.lt keys
    return (places.set i place, .nothing)
  | .equal i j => do
    match ← places[i]?, ← places[j]? with
    | .forward node, .forward node' => return (places, .flag (sameNode node node'))
    | .backward base, .backward base' => return (places, .flag (sameNode base base'))
    | _, _ => none
  | .first i => do
    let key ← (← places[i]?).key r.lt keys
    return (places, .key key)
where
  /-- Iterators of one map are equal at the same element, or both behind the last. -/
  sameNode : Option r.Key → Option r.Key → Bool
    | none, none => true
    | some k, some k' => decide (Incomp r.lt k k')
    | _, _ => false

/-- The keys of the map, in order. -/
def Reader.keys (s : Reader r) : List r.Key := s.file.indices

/-- The program gets a lazy value. -/
def Reader.hold (s : Reader r) (handle : Handle r) : Reader r :=
  { s with handles := s.handles ++ [handle] }

/-- `result` of a lazy value is set; `as<T>()` may have returned on it. -/
def Reader.put (s : Reader r) (k : ℕ) (accessor : EncodedBlockAccessor r.toAbstractRealm)
    (returned : Bool) : Reader r :=
  { s with handles := s.handles.modify k fun handle =>
      ⟨{ handle.lazy with result := some accessor }, handle.taken || returned⟩ }

/-- A lazy value is evaluated. -/
def Reader.force (build : Build) (k : ℕ) (s : Reader r) :
    Except Stop (EncodedBlockAccessor r.toAbstractRealm × Reader r × List (ReaderEvent r)) :=
  match s.handles[k]? with
  | none => .error .undefinedBehaviour
  | some handle =>
    match handle.lazy.deref build s.file.toIndexedFileState with
    | .ok accessor state =>
      .ok (accessor,
        { s with file := { s.file with toIndexedFileState := state } }.put k accessor false,
        if handle.lazy.result.isNone then [.read k] else [])
    | .error stop _ => .error stop

/-- A call. -/
def Reader.step (lib : Libraries) (request : Request r) (s : Reader r) :
    Except Stop (Reader r × List (ReaderEvent r)) :=
  match request with
  | .insert host key value =>
    match s.file.insert lib host key value with
    | .ok () file => .ok ({ s with file := file }, [.answered request .nothing])
    | .error stop _ => .error stop
  | .size => .ok (s, [.answered request (.size s.file.size)])
  | .indices => .ok (s, [.answered request (.keys s.file.indices)])
  | .place call =>
    match call.answer r s.keys s.places with
    | some (places, answer) => .ok ({ s with places := places }, [.answered request answer])
    | none => .error .undefinedBehaviour
  | .second i =>
    match (s.places[i]?.bind (Place.key r.lt s.keys)).bind s.file.find with
    | some entry => .ok (s.hold ⟨⟨entry.2, none⟩, false⟩, [.answered request .nothing])
    | none => .error .undefinedBehaviour
  | .subscript key =>
    match s.file.subscriptLazy key with
    | .ok lazy => .ok (s.hold ⟨lazy, false⟩, [.answered request .nothing])
    | .error (.throws e) => .ok (s, [.answered request (.threw e)])
    | .error stop => .error stop
  | .copy k =>
    match s.handles[k]? with
    | some handle => .ok (s.hold handle, [.answered request .nothing])
    | none => .error .undefinedBehaviour
  | .is build k i =>
    match s.force build k with
    | .ok (accessor, s', reads) => .ok (s', reads ++ [.answered request (.flag (accessor.is i))])
    | .error stop => .error stop
  | .as build fresh k i =>
    match s.force build k with
    | .ok (accessor, s', reads) =>
      match EncodedBlockAccessor.as build lib fresh i accessor with
      | .ok value accessor' =>
        .ok (s'.put k accessor' true, reads ++ [.answered request (.value ⟨i, value⟩)])
      | .error (.throws e) accessor' =>
        .ok (s'.put k accessor' false, reads ++ [.answered request (.threw e)])
      | .error stop _ => .error stop
    | .error stop => .error stop

/-- The calls a program may make: iterators stay in their range, a lazy value is
    asked for its value once, and only what can be written is inserted. -/
def Reader.Allowed (s : Reader r) : Request r → Prop
  | .insert _ _ value =>
    s.writable = true ∧ (bytes (r.ty value.1) value.2).length < 2 ^ 31 ∧
      s.file.bytes.length < 2 ^ 63
  | .place call => (call.answer r s.keys s.places).isSome = true
  | .second i => (s.places[i]?.bind (Place.key r.lt s.keys)).isSome = true
  | .copy k | .is _ k _ => k < s.handles.length
  | .as _ _ k _ => ∃ handle, s.handles[k]? = some handle ∧ handle.taken = false
  | .size | .indices | .subscript _ => True

/-! ## The same in memory -/

/-- A map of values in memory, iterators of it, and values that were copied out of
    it; a value is marked when it has been given away. -/
structure Mirror {ι : Type} (r : KeyedRealm ι) where
  values : List (r.Key × r.Value)
  places : List (Place r.Key)
  handles : List (r.Value × Bool)

/-- The keys of the map, in order. -/
def Mirror.keys (m : Mirror r) : List r.Key := m.values.map Prod.fst

/-- The value that is stored under a key. -/
def Mirror.find (m : Mirror r) (key : r.Key) : Option (r.Key × r.Value) :=
  m.values.find? fun entry => Incomp r.lt entry.1 key

/-- A value is copied. -/
def Mirror.hold (m : Mirror r) (handle : r.Value × Bool) : Mirror r :=
  { m with handles := m.handles ++ [handle] }

/-- What a call would do on a map in memory. -/
def Mirror.step (request : Request r) (m : Mirror r) :
    Except Stop (Mirror r × List (ReaderEvent r)) :=
  match request with
  | .insert _ key value =>
    .ok ({ m with values := assign r.lt key value m.values }, [.answered request .nothing])
  | .size => .ok (m, [.answered request (.size (BitVec.ofNat 64 m.values.length))])
  | .indices => .ok (m, [.answered request (.keys m.keys)])
  | .place call =>
    match call.answer r m.keys m.places with
    | some (places, answer) => .ok ({ m with places := places }, [.answered request answer])
    | none => .error .undefinedBehaviour
  | .second i =>
    match (m.places[i]?.bind (Place.key r.lt m.keys)).bind m.find with
    | some entry => .ok (m.hold (entry.2, false), [.answered request .nothing])
    | none => .error .undefinedBehaviour
  | .subscript key =>
    match m.find key with
    | some entry => .ok (m.hold (entry.2, false), [.answered request .nothing])
    | none => .ok (m, [.answered request (.threw .keyMissingError)])
  | .copy k =>
    match m.handles[k]? with
    | some handle => .ok (m.hold handle, [.answered request .nothing])
    | none => .error .undefinedBehaviour
  | .is _ k i =>
    match m.handles[k]? with
    | some (value, _) =>
      .ok (m, [.answered request (.flag (r.lookupId i == r.lookupId value.1))])
    | none => .error .undefinedBehaviour
  | .as _ _ k i =>
    match m.handles[k]? with
    | some (value, _) =>
      if r.lookupId i = r.lookupId value.1 then
        .ok ({ m with handles := m.handles.modify k fun handle => (handle.1, true) },
          [.answered request (.value value)])
      else .ok (m, [.answered request (.threw .typeMismatchError)])
    | none => .error .undefinedBehaviour

/-- The calls and their answers, without the reads. -/
def ReaderEvent.isAnswer : ReaderEvent r → Bool
  | .answered _ _ => true
  | .read _ => false

/-- The lazy value that reads. -/
def ReaderEvent.reads : ReaderEvent r → Option ℕ
  | .answered _ _ => none
  | .read k => some k

/-- The entries that the calls of a run insert. -/
def ReaderEvent.inserts : ReaderEvent r → Option (r.Key × r.Value)
  | .answered (.insert _ key value) _ => some (key, value)
  | _ => none

end Model

/-! ## Blocks that are given away -/

section Blocks

variable {ι : Type} {r : AbstractRealm ι} {lib : Libraries}

/-- Neither decoding nor parsing changes the type of a block. -/
theorem contentType_decodeBlock (lib : Libraries) (fresh : Memory) (block : EncodedBlock) :
    (finalState (decodeBlock lib fresh block)).contentType = block.contentType := by
  have hlift : ∀ (x : Except Stop Buffer),
      finalState ((ofExcept x : Run EncodedBlock Buffer) block) = block := by
    intro x
    cases x with
    | ok a => rfl
    | error stop => rfl
  unfold decodeBlock
  rw [get_bind]
  split_ifs
  · rfl
  · rfl
  · rw [hlift]
  · rw [hlift]
  · rfl

theorem contentType_as (build : Build) (lib : Libraries) (fresh : Memory) (i : ι)
    (accessor : EncodedBlockAccessor r) :
    (finalState (EncodedBlockAccessor.as build lib fresh i accessor)).block.contentType =
      accessor.block.contentType := by
  have hdecode := contentType_decodeBlock lib fresh accessor.block
  unfold EncodedBlockAccessor.as
  rw [get_bind]
  split_ifs
  · rfl
  · unfold zoom parseFromBlock
    cases h : decodeBlock lib fresh accessor.block with
    | ok raw block =>
      rw [h] at hdecode
      rw [bind_of_ok h]
      cases parseFromBuffer build (r.ty i) raw with
      | ok value => exact hdecode
      | error stop => exact hdecode
    | error stop block =>
      rw [h] at hdecode
      rw [bind_of_error h]
      exact hdecode

/-- A block gives its value, and keeps its type. -/
theorem as_of_holds {block : EncodedBlock} {i : ι} {value : r.type i} (build : Build)
    (fresh : Memory) (hid : block.contentType = r.lookupId i) (h : Holds lib (r.ty i) block value) :
    ∃ accessor, EncodedBlockAccessor.as build lib fresh i (⟨block⟩ : EncodedBlockAccessor r) =
      .ok value accessor ∧ accessor.block.contentType = block.contentType := by
  have houtcome : outcome (EncodedBlockAccessor.as build lib fresh i
      (⟨block⟩ : EncodedBlockAccessor r)) = .ok value :=
    EncodedBlockAccessor.outcome_as build fresh hid h
  have htype := contentType_as build lib fresh i (⟨block⟩ : EncodedBlockAccessor r)
  cases has : EncodedBlockAccessor.as build lib fresh i (⟨block⟩ : EncodedBlockAccessor r) with
  | ok v accessor =>
    rw [has] at houtcome htype
    cases houtcome
    exact ⟨accessor, rfl, htype⟩
  | error stop accessor =>
    rw [has] at houtcome
    cases houtcome

end Blocks

/-! ## What is kept -/

section Mirrored

variable {ι : Type} {r : KeyedRealm ι} (lib : Libraries)

/-- At a position of the file is a block of the value. -/
def EntryAt (file : List Byte) (pos : Int64T) (value : r.Value) : Prop :=
  ∃ block, BlockAt file pos block ∧ BlockOf lib r block value

/-- A lazy value gives the value that was copied when it was made. -/
structure HandleOf (file : List Byte) (handle : Handle r) (copied : r.Value × Bool) : Prop where
  taken : handle.taken = copied.2
  pending : handle.lazy.result = none → EntryAt lib file handle.lazy.pos copied.1
  typed : ∀ accessor, handle.lazy.result = some accessor →
    accessor.block.contentType = r.lookupId copied.1.1
  whole : ∀ accessor, handle.lazy.result = some accessor → handle.taken = false →
    BlockOf lib r accessor.block copied.1

/-- The program could as well use a map in memory. -/
structure Mirrored (written : List (r.Key × r.Value)) (s : Reader r) (m : Mirror r) : Prop where
  writer : WriterAt lib s.file written
  values : m.values = assignAll r.lt written
  places : s.places = m.places
  placed : ∀ place ∈ s.places, place.At s.keys
  handles : List.Forall₂ (HandleOf lib s.file.bytes) s.handles m.handles

/-- A lazy value has been evaluated. -/
def Evaluated (s : Reader r) (k : ℕ) : Prop :=
  ∃ handle, s.handles[k]? = some handle ∧ handle.lazy.result.isSome = true

/-- What events say of the lazy values: none is read a second time. -/
structure ReadsFresh (s s' : Reader r) (events : List (ReaderEvent r)) : Prop where
  kept : ∀ k, Evaluated s k → Evaluated s' k
  reads : events.filterMap ReaderEvent.reads = [] ∨
    ∃ k, events.filterMap ReaderEvent.reads = [k] ∧ ¬ Evaluated s k ∧ Evaluated s' k

variable {lib} {written : List (r.Key × r.Value)} {file : List Byte}

theorem EntryAt.append {pos : Int64T} {value : r.Value} (h : EntryAt lib file pos value)
    (more : List Byte) : EntryAt lib (file ++ more) pos value := by
  obtain ⟨block, hat, hblock⟩ := h
  exact ⟨block, hat.append more, hblock⟩

theorem HandleOf.append {handle : Handle r} {copied : r.Value × Bool}
    (h : HandleOf lib file handle copied) (more : List Byte) :
    HandleOf lib (file ++ more) handle copied :=
  { h with pending := fun hnone => (h.pending hnone).append more }

/-- The index has the positions of the values that were inserted last. -/
theorem FileHas.related {index : BlocksIndex r} (h : FileHas lib file index written) :
    List.Forall₂ (EntryRel (EntryAt lib file)) index.map.elems (assignAll r.lt written) := by
  obtain ⟨made, rfl, ⟨stored, hpast, helems, hat⟩, hmade⟩ := h.blocks
  rw [helems]
  apply forall₂_assignAll
  clear helems h
  induction stored generalizing made with
  | nil =>
    obtain rfl : made = [] := List.map_eq_nil_iff.mp hpast.symm
    exact .nil
  | cons e stored ih =>
    cases made with
    | nil => cases hpast
    | cons e' made =>
      obtain ⟨hhead, htail⟩ := List.cons.inj hpast
      obtain ⟨hkey, hblock⟩ := Prod.mk.inj hhead
      have hblockAt := hat e List.mem_cons_self
      rw [hblock] at hblockAt
      exact .cons ⟨hkey, _, hblockAt, hmade e' List.mem_cons_self⟩
        (ih made (fun e he => hmade e (List.mem_cons_of_mem _ he)) htail
          fun e he => hat e (List.mem_cons_of_mem _ he))

theorem bytes_of_working {state : IndexedFileState r} {s : StdStream}
    (hs : state.streamPtr = some s) (h : Working file s) : state.bytes = file := by
  unfold IndexedFileState.bytes
  rw [hs]
  exact h.bytes_eq

theorem WriterAt.related {object : IndexedFile r} (h : WriterAt lib object written) :
    List.Forall₂ (EntryRel (EntryAt lib object.bytes)) object.index.map.elems
      (assignAll r.lt written) := by
  obtain ⟨file, s, hs, hworking, hhas, -⟩ := h
  rw [bytes_of_working hs hworking]
  exact hhas.related

/-- An insert adds to the file. -/
theorem WriterAt.insert_appends {object : IndexedFile r} (h : WriterAt lib object written)
    (host : Host) (key : r.Key) {value : r.Value}
    (hvalue : (bytes (r.ty value.1) value.2).length < 2 ^ 31) (hlt : object.bytes.length < 2 ^ 63) :
    ∃ object' more, object.insert lib host key value = .ok () object' ∧
      WriterAt lib object' (written ++ [(key, value)]) ∧ object'.bytes = object.bytes ++ more := by
  obtain ⟨block, hencode, hblock⟩ := holds_encodeValue lib (r.ty value.1) value.2 host
    (r.lookupId value.1) hvalue
  obtain ⟨file, s, hs, hworking, hhas, -, hlt⟩ := h.bytes_lt hlt
  obtain ⟨index', hassign, hhas'⟩ := hhas.insert key hblock hlt
  have happend := rememberedAppend_eq hworking.good hworking.exceptions
    (hworking.hasRoom (blockBytes block).length)
  rw [← hencode, hworking.bytes_eq] at happend
  have hworking' : Working (file ++ blockBytes block)
      ((StdStream.toEnd s).appended (blockBytes block)) := by
    obtain ⟨pos, rfl⟩ := hworking
    exact ⟨_, rfl⟩
  refine ⟨_, blockBytes block, insert_of_ok hs happend hassign,
    ⟨_, _, rfl, hworking', hhas', nofun⟩, ?_⟩
  rw [bytes_of_working hs hworking]
  exact bytes_of_working rfl hworking'

end Mirrored

/-! ## Calls -/

section Calls

variable {ι : Type} {r : KeyedRealm ι} {lib : Libraries} {written : List (r.Key × r.Value)}
  {s : Reader r} {m : Mirror r}

theorem Mirrored.entries (h : Mirrored lib written s m) :
    List.Forall₂ (EntryRel (EntryAt lib s.file.bytes)) s.file.index.map.elems m.values := by
  rw [h.values]
  exact h.writer.related

/-- The keys are the same. -/
theorem Mirrored.keys_eq (h : Mirrored lib written s m) : s.keys = m.keys := Lib.keys_eq h.entries

/-- So is what is found of a key. -/
theorem Mirrored.find (h : Mirrored lib written s m) (key : r.Key) :
    (s.file.find key = none ∧ m.find key = none) ∨
      ∃ entry copied, s.file.find key = some entry ∧ m.find key = some copied ∧
        EntryAt lib s.file.bytes entry.2 copied.2 := by
  rcases find_related key h.entries with hnone | ⟨entry, copied, hentry, hcopied, -, hat⟩
  · exact Or.inl hnone
  · exact Or.inr ⟨entry, copied, hentry, hcopied, hat⟩

/-- One more lazy value, and one more copy. -/
theorem Mirrored.hold (h : Mirrored lib written s m) {handle : Handle r} {copied : r.Value × Bool}
    (hof : HandleOf lib s.file.bytes handle copied) :
    Mirrored lib written (s.hold handle) (m.hold copied) where
  writer := h.writer
  values := h.values
  places := h.places
  placed := h.placed
  handles := List.rel_append h.handles (.cons hof .nil)

theorem handleOf_new {file : List Byte} {pos : Int64T} {value : r.Value}
    (h : EntryAt lib file pos value) : HandleOf lib file ⟨⟨pos, none⟩, false⟩ (value, false) where
  taken := rfl
  pending _ := h
  typed := nofun
  whole := nofun

/-- The result of a lazy value is set, or changed. -/
theorem Mirrored.put (h : Mirrored lib written s m) {k : ℕ} {value : r.Value} {taken : Bool}
    (hk : m.handles[k]? = some (value, taken))
    {accessor : EncodedBlockAccessor r.toAbstractRealm} {returned : Bool}
    (htyped : accessor.block.contentType = r.lookupId value.1)
    (hwhole : taken = false → returned = false → BlockOf lib r accessor.block value) :
    Mirrored lib written (s.put k accessor returned)
      { m with handles := m.handles.modify k fun copied => (copied.1, copied.2 || returned) } where
  writer := h.writer
  values := h.values
  places := h.places
  placed := h.placed
  handles := by
    refine forall₂_modify h.handles fun handle copied _ hcopied hof => ?_
    cases hk.symm.trans hcopied
    refine ⟨congrArg (· || returned) hof.taken, nofun, ?_, ?_⟩
    · intro accessor' haccessor
      cases haccessor
      exact htyped
    · intro accessor' haccessor htaken
      cases haccessor
      obtain ⟨hold, hreturned⟩ := Bool.or_eq_false_iff.mp htaken
      exact hwhole (hof.taken.symm.trans hold) hreturned

/-- Nothing changes in memory where nothing is given away. -/
theorem Mirrored.put_false (h : Mirrored lib written s m) {k : ℕ} {value : r.Value} {taken : Bool}
    (hk : m.handles[k]? = some (value, taken))
    {accessor : EncodedBlockAccessor r.toAbstractRealm}
    (htyped : accessor.block.contentType = r.lookupId value.1)
    (hwhole : taken = false → BlockOf lib r accessor.block value) :
    Mirrored lib written (s.put k accessor false) m := by
  have hput := h.put hk htyped fun htaken (_ : false = false) => hwhole htaken
  have hsame : (m.handles.modify k fun copied => (copied.1, copied.2 || false)) = m.handles := by
    simp only [Bool.or_false, Prod.mk.eta]
    exact List.modify_id k m.handles
  rwa [hsame] at hput

/-! ### What is evaluated -/

theorem Evaluated.hold {k : ℕ} (h : Evaluated s k) (handle : Handle r) :
    Evaluated (s.hold handle) k := by
  obtain ⟨handle', hk, hsome⟩ := h
  exact ⟨handle', (List.getElem?_append_left (List.getElem?_eq_some_iff.mp hk).1).trans hk, hsome⟩

theorem Evaluated.put {j : ℕ} (h : Evaluated s j) (k : ℕ)
    (accessor : EncodedBlockAccessor r.toAbstractRealm) (returned : Bool) :
    Evaluated (s.put k accessor returned) j := by
  obtain ⟨handle, hj, hsome⟩ := h
  unfold Evaluated Reader.put
  rw [List.getElem?_modify, hj]
  refine ⟨_, rfl, ?_⟩
  dsimp only
  split_ifs
  · rfl
  · exact hsome

theorem evaluated_put {k : ℕ} {handle : Handle r} (hk : s.handles[k]? = some handle)
    (accessor : EncodedBlockAccessor r.toAbstractRealm) (returned : Bool) :
    Evaluated (s.put k accessor returned) k := by
  unfold Evaluated Reader.put
  rw [List.getElem?_modify, hk]
  refine ⟨_, rfl, ?_⟩
  dsimp only
  rw [if_pos rfl]
  rfl

/-- A call that reads nothing. -/
theorem readsFresh_of_kept {s' : Reader r} {events : List (ReaderEvent r)}
    (hkept : ∀ k, Evaluated s k → Evaluated s' k)
    (hreads : events.filterMap ReaderEvent.reads = []) : ReadsFresh s s' events :=
  ⟨hkept, Or.inl hreads⟩

/-- More answers after it. -/
theorem ReadsFresh.answered {s' s'' : Reader r} {events : List (ReaderEvent r)}
    (h : ReadsFresh s s' events) (hkept : ∀ k, Evaluated s' k → Evaluated s'' k)
    (request : Request r) (answer : Answer r) :
    ReadsFresh s s'' (events ++ [.answered request answer]) where
  kept k hk := hkept k (h.kept k hk)
  reads := by
    rw [List.filterMap_append, show [ReaderEvent.answered request answer].filterMap
      ReaderEvent.reads = [] from rfl, List.append_nil]
    exact h.reads.imp_right fun ⟨k, hreads, hfresh, hk⟩ => ⟨k, hreads, hfresh, hkept k hk⟩

/-! ### Evaluation -/

/-- The outcome of an evaluation: the block of the value that was copied, unless
    that has been given away. -/
structure Forced (lib : Libraries) (written : List (r.Key × r.Value)) (s : Reader r) (m : Mirror r)
    (value : r.Value) (taken : Bool) (accessor : EncodedBlockAccessor r.toAbstractRealm)
    (s' : Reader r) (reads : List (ReaderEvent r)) : Prop where
  mirrored : Mirrored lib written s' m
  typed : accessor.block.contentType = r.lookupId value.1
  whole : taken = false → BlockOf lib r accessor.block value
  fresh : ReadsFresh s s' reads
  unanswered : reads.filter ReaderEvent.isAnswer = []
  uninserted : reads.filterMap ReaderEvent.inserts = []

theorem Mirrored.force (h : Mirrored lib written s m) (build : Build) {k : ℕ} {handle : Handle r}
    (hk : s.handles[k]? = some handle) :
    ∃ value accessor s' reads, m.handles[k]? = some (value, handle.taken) ∧
      s.force build k = .ok (accessor, s', reads) ∧
      Forced lib written s m value handle.taken accessor s' reads := by
  obtain ⟨⟨value, taken⟩, hcopied, hof⟩ := forall₂_getElem? h.handles hk
  obtain rfl : handle.taken = taken := hof.taken
  unfold Reader.force
  rw [hk]
  cases hresult : handle.lazy.result with
  | some accessor =>
    have hderef : handle.lazy.deref build s.file.toIndexedFileState =
        .ok accessor s.file.toIndexedFileState := by
      unfold LazyValue.deref
      rw [hresult]
      rfl
    dsimp only
    rw [hderef, hresult]
    refine ⟨value, accessor, _, [], hcopied, rfl, ?_⟩
    have htyped := hof.typed accessor hresult
    have hwhole := hof.whole accessor hresult
    exact ⟨h.put_false hcopied htyped hwhole, htyped, hwhole,
      readsFresh_of_kept (fun j hj => hj.put k accessor false) rfl, rfl, rfl⟩
  | none =>
    obtain ⟨block, hat, hblock⟩ := hof.pending hresult
    obtain ⟨file, stream, hs, hworking, hhas, hends⟩ := h.writer
    have hbytes : s.file.bytes = file := bytes_of_working hs hworking
    rw [hbytes] at hat
    obtain ⟨stream', hworking', hread⟩ := onStream_delayedRead build hs hworking hat
    have hderef : handle.lazy.deref build s.file.toIndexedFileState =
        .ok ⟨block⟩ { s.file.toIndexedFileState with streamPtr := some stream' } := by
      unfold LazyValue.deref
      rw [hresult]
      dsimp only
      rw [bind_of_ok hread]
      rfl
    dsimp only
    rw [hderef, hresult]
    refine ⟨value, ⟨block⟩, _, [.read k], hcopied, rfl, ?_⟩
    -- the stream has moved, on the same file
    have hmoved : Mirrored lib written { s with file := { s.file with streamPtr := some stream' } }
        m := by
      refine ⟨⟨file, stream', rfl, hworking', hhas, hends⟩, h.values, h.places, h.placed, ?_⟩
      have hbytes' : IndexedFileState.bytes { s.file.toIndexedFileState with
          streamPtr := some stream' } = s.file.bytes :=
        (bytes_of_working rfl hworking').trans hbytes.symm
      show List.Forall₂ (HandleOf lib (IndexedFileState.bytes { s.file.toIndexedFileState with
        streamPtr := some stream' })) s.handles m.handles
      rw [hbytes']
      exact h.handles
    have hfresh : ¬ Evaluated s k := by
      rintro ⟨handle', hk', hsome⟩
      cases hk.symm.trans hk'
      rw [hresult] at hsome
      cases hsome
    refine ⟨hmoved.put_false hcopied hblock.1 fun _ => hblock, hblock.1, fun _ => hblock,
      ⟨fun j hj => Evaluated.put hj k ⟨block⟩ false, Or.inr ⟨k, rfl, hfresh, ?_⟩⟩, rfl, rfl⟩
    exact evaluated_put hk ⟨block⟩ false

end Calls

end BambooShoot.Pbsf
