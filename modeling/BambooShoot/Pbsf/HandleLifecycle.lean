import BambooShoot.Pbsf.IndexedSessions
import Mathlib.Logic.Function.Basic

/-!
# The life of writable file objects

Programs that open indexed files for writing, move the objects around, insert
into them and destroy them, in any order and number. An object is an
`IndexedFile` at an address; the stream of every opening is a session, and a
move hands the session on.

`need_write_index` is copied by the defaulted move constructor of
`indexed_ofile`, and so stays set in an object whose stream has been moved away.

Results:
* `moved_sessions`: where no object is moved from while its flag is set, every
  object with the flag set owns its stream, and every session that is closed has
  written its index and its marker once, at its end, if it was new or was
  changed;
* `moved_new_file`: otherwise a destructor dereferences null.
-/

namespace BambooShoot.Pbsf

open BambooShoot.Lib BambooShoot.Pbss

/-! ## Objects -/

section Model

variable {ι : Type} {r : KeyedRealm ι}

/-- What the implicit move constructor of `indexed_file<Key, Stream, Realm, true>`
    leaves of its source: the virtual base gives pointer and map away, and the
    flag of `indexed_ofile` is copied. -/
def IndexedFile.movedFrom (file : IndexedFile r) : IndexedFile r :=
  { streamPtr := none, index := BlocksIndex.empty r, needWriteIndex := file.needWriteIndex }

/-- A live object, with the number of the session whose stream it owns. -/
structure Object {ι : Type} (r : KeyedRealm ι) where
  file : IndexedFile r
  session : Option ℕ

/-- The live objects of a program by address, and the number of sessions it has
    begun. -/
structure World {ι : Type} (r : KeyedRealm ι) where
  objects : ℕ → Option (Object r)
  sessions : ℕ

/-- A program before its first step. -/
def World.start (r : KeyedRealm ι) : World r := ⟨fun _ => none, 0⟩

/-- What is at an address changes. -/
def World.put (w : World r) (address : ℕ) (object : Option (Object r)) : World r :=
  { w with objects := Function.update w.objects address object }

/-- A step of a program. -/
inductive Action {ι : Type} (r : KeyedRealm ι) where
  /-- `open_indexed_output_file`, on a file that holds some bytes and a device that
      takes some more; the object is constructed at `address`. -/
  | openOutput (address : ℕ) (file : List Byte) (overwrite : Bool) (room : Option ℕ)
      (heap : ℕ → Memory)
  /-- Move construction at `target`. -/
  | move (source target : ℕ)
  | insert (address : ℕ) (host : Host) (key : r.Key) (value : r.Value)
  /-- The end of an object: `~indexed_ofile`, then `~unique_ptr` closes the file. -/
  | destroy (address : ℕ) (host host' : Host)

/-- What is seen of a step. -/
inductive Event where
  /-- A session begins: the file may be new; it holds some bytes once it is open. -/
  | opened (session : ℕ) (isNew : Bool) (file : List Byte)
  /-- An insert has put some bytes behind the file, and has returned or thrown. -/
  | inserted (session : ℕ) (written : List Byte) (returned : Bool)
  /-- The stream is closed and leaves a file. -/
  | closed (session : ℕ) (file : List Byte)

variable (build : Build) (lib : Libraries)

/-- What is seen of an insert that made `file'` of an object. -/
def Object.insertEvents (object : Object r) (file' : IndexedFile r) (returned : Bool) :
    List Event :=
  match object.session with
  | none => []
  | some p => [.inserted p (file'.bytes.drop object.file.bytes.length) returned]

/-- What is seen of a destructor that made `file'` of an object. -/
def Object.destroyEvents (object : Object r) (file' : IndexedFile r) : List Event :=
  match object.session with
  | none => []
  | some p => [.closed p file'.bytes]

/-- A step. Exceptions of openings and inserts are caught; what leaves a
    destructor ends the program, and so does the use of an object that is not
    there. -/
def World.step (action : Action r) (w : World r) : Except Stop (World r × List Event) :=
  match action with
  | .openOutput address file overwrite room heap =>
    match w.objects address with
    | some _ => .error .undefinedBehaviour
    | none =>
      match openIndexedOutputFile r build lib heap { outputFile file overwrite with room := room } with
      | .ok (index, isNew) s =>
        .ok ({ w with sessions := w.sessions + 1 }.put address
            (some ⟨⟨⟨some s, index⟩, isNew⟩, some w.sessions⟩),
          [.opened w.sessions isNew s.bytes])
      | .error (.throws _) _ => .ok (w, [])
      | .error stop _ => .error stop
  | .move source target =>
    match w.objects source, w.objects target with
    | some object, none =>
      .ok ((w.put target (some object)).put source (some ⟨object.file.movedFrom, none⟩), [])
    | _, _ => .error .undefinedBehaviour
  | .insert address host key value =>
    match w.objects address with
    | none => .error .undefinedBehaviour
    | some object =>
      match object.file.insert lib host key value with
      | .ok () file' =>
        .ok (w.put address (some { object with file := file' }), object.insertEvents file' true)
      | .error (.throws _) file' =>
        .ok (w.put address (some { object with file := file' }), object.insertEvents file' false)
      | .error stop _ => .error stop
  | .destroy address host host' =>
    match w.objects address with
    | none => .error .undefinedBehaviour
    | some object =>
      match object.file.destroy lib host host' with
      | .ok () file' =>
        .ok (w.put address none, object.destroyEvents file')
      | .error stop _ => .error stop

/-- No object is moved from while it still has an index to write. -/
def CarefulMove (w : World r) : Action r → Prop
  | .move source _ => ∀ object, w.objects source = some object → object.file.needWriteIndex = false
  | _ => True

theorem carefulMove_openOutput (w : World r) (address : ℕ) (file : List Byte) (overwrite : Bool)
    (room : Option ℕ) (heap : ℕ → Memory) :
    CarefulMove w (.openOutput address file overwrite room heap) :=
  trivial

theorem carefulMove_insert (w : World r) (address : ℕ) (host : Host) (key : r.Key)
    (value : r.Value) : CarefulMove w (.insert address host key value) :=
  trivial

theorem carefulMove_destroy (w : World r) (address : ℕ) (host host' : Host) :
    CarefulMove w (.destroy address host host') :=
  trivial

end Model

/-! ## What steps do to a stream -/

section Effects

variable {ι : Type} {r : KeyedRealm ι} {lib : Libraries} {file : IndexedFile r} {s : StdStream}

/-- Bytes an insert may put behind a file: a part of the block of a value. -/
def PartOfValue (r : KeyedRealm ι) (lib : Libraries) (part : List Byte) : Prop :=
  part = [] ∨ ∃ host value block, r.encode lib host value = .ok block ∧ part <+: blockBytes block

/-- The whole block of a value. -/
def BlockOfValue (r : KeyedRealm ι) (lib : Libraries) (part : List Byte) : Prop :=
  ∃ host value block, r.encode lib host value = .ok block ∧ part = blockBytes block

/-- An insert puts a part of a block behind the file, the whole of it if it
    returns, and sets the flag only then. -/
theorem insert_effect (lib : Libraries) (host : Host) (key : r.Key) (value : r.Value)
    (hs : file.streamPtr = some s) (he : s.exceptions = true) :
    ∃ s' part, s'.exceptions = true ∧ s'.bytes = s.bytes ++ part ∧ PartOfValue r lib part ∧
      ((∃ index, file.insert lib host key value = .ok () ⟨⟨some s', index⟩, true⟩ ∧
          BlockOfValue r lib part) ∨
        ∃ stop, file.insert lib host key value =
          .error stop { file with streamPtr := some s' }) := by
  have houtcome := insert_outcome lib host key value hs
  have hbytes := (rememberedAppend_outcome he (r.encode lib host value)).bytes
  generalize file.insert lib host key value = result at houtcome ⊢
  have hpart : ∀ part, (part = [] ∨ ∃ block, r.encode lib host value = .ok block ∧
      part <+: blockBytes block) → PartOfValue r lib part := by
    rintro part (hnil | ⟨block, hblock, hpre⟩)
    · exact Or.inl hnil
    · exact Or.inr ⟨host, value, block, hblock, hpre⟩
  cases houtcome with
  | @inserted pos s' index happend hassign =>
    obtain ⟨block, hblock, -, -, -, rfl⟩ := rememberedAppend_ok he happend
    refine ⟨(StdStream.toEnd s).appended (blockBytes block), blockBytes block,
      (StdStream.toEnd_exceptions s).trans he, ?_,
      hpart _ (Or.inr ⟨block, hblock, List.prefix_rfl⟩),
      Or.inl ⟨index, rfl, host, value, block, hblock, rfl⟩⟩
    show (StdStream.toEnd s).bytes ++ blockBytes block = _
    rw [StdStream.toEnd_bytes]
  | @notAppended stop s' happend =>
    obtain ⟨part, hgrows, hexceptions, hvalue⟩ := hbytes
    rw [happend] at hgrows hexceptions
    exact ⟨s', part, hexceptions.trans he, hgrows, hpart part hvalue, Or.inr ⟨stop, rfl⟩⟩
  | @notAssigned pos s' stop happend hassign =>
    obtain ⟨part, hgrows, hexceptions, hvalue⟩ := hbytes
    rw [happend] at hgrows hexceptions
    exact ⟨s', part, hexceptions.trans he, hgrows, hpart part hvalue, Or.inr ⟨stop, rfl⟩⟩

/-- What a destructor leaves that returns. -/
theorem destroy_effect {file' : IndexedFile r} {host host' : Host} (hs : file.streamPtr = some s)
    (he : s.exceptions = true) (h : file.destroy lib host host' = .ok () file') :
    if file.needWriteIndex then
      ∃ indexBlock markerBlock, indexBlock.contentType = -11 ∧ markerBlock.contentType = -10 ∧
        file'.bytes = s.bytes ++ (blockBytes indexBlock ++ blockBytes markerBlock)
    else file'.bytes = s.bytes := by
  split_ifs with hflag
  · obtain ⟨indexBlock, markerBlock, hib, hmb, rfl⟩ := destroy_ok hs he hflag h
    refine ⟨indexBlock, markerBlock, encodeValue_contentType hib, encodeValue_contentType hmb, ?_⟩
    show (StdStream.toEnd s).bytes ++ _ = _
    rw [StdStream.toEnd_bytes]
  · rw [destroy_unchanged _ _ (eq_false_of_ne_true hflag)] at h
    cases h
    unfold IndexedFileState.bytes
    rw [hs]

/-- With a stream to write to, undefined behaviour can only come from the
    encoding of the index. -/
theorem destroy_undefined {file' : IndexedFile r} {host host' : Host}
    (hs : file.streamPtr = some s) (he : s.exceptions = true)
    (h : file.destroy lib host host' = .error .undefinedBehaviour file') :
    encodeMeta (r := r) lib host .blocksIndex file.index = .error .undefinedBehaviour := by
  cases hflag : file.needWriteIndex with
  | false => rw [destroy_unchanged _ _ hflag] at h; cases h
  | true =>
    have houtcome := destroy_outcome lib host host' hs hflag
    rw [h] at houtcome
    cases houtcome with
    | @noIndex _ s' hindex =>
      have happend := rememberedAppend_outcome he
        (encodeMeta (r := r) lib host .blocksIndex file.index)
      rw [hindex] at happend
      generalize encodeMeta (r := r) lib host .blocksIndex file.index = encoded at happend ⊢
      cases happend with
      | notEncoded => rfl
    | @noMarker pos _ s' s'' hindex hmarker =>
      obtain ⟨indexBlock, -, hgood, -, rfl, rfl⟩ := rememberedAppend_ok he hindex
      obtain ⟨markerBlock, hmb, -, -⟩ := encodeMarker_ok (r := r) lib host' (markerAt r s.bytes.length)
      have hwritable := (StdStream.toEnd_writable hgood he).appended (blockBytes indexBlock)
      rw [hmb, writeBlock_eq hwritable] at hmarker
      by_cases hfit : StdStream.HasRoom ((StdStream.toEnd s).appended (blockBytes indexBlock))
        (blockBytes markerBlock).length
      · rw [StdStream.write_ok hwritable hfit] at hmarker
        cases hmarker
      · obtain ⟨room, hroom, hlt⟩ := StdStream.exists_room_lt hfit
        rw [StdStream.write_fail hwritable hroom hlt] at hmarker
        cases hmarker

end Effects

/-! ## Sessions -/

/-- The session an event is seen of. -/
def Event.session : Event → ℕ
  | .opened p _ _ | .inserted p _ _ | .closed p _ => p

/-- What has been seen of session `p`. -/
def eventsOf (p : ℕ) (past : List Event) : List Event := past.filter fun event => event.session = p

/-- What is seen of inserts, given by the bytes they wrote and whether they
    returned. -/
def insertsOf (p : ℕ) (inserts : List (List Byte × Bool)) : List Event :=
  inserts.map fun i => .inserted p i.1 i.2

theorem eventsOf_append_of_ne {p : ℕ} {past events : List Event}
    (h : ∀ event ∈ events, event.session ≠ p) : eventsOf p (past ++ events) = eventsOf p past := by
  have hnone : eventsOf p events = [] := List.filter_eq_nil_iff.mpr fun event hevent => by
    simpa using h event hevent
  unfold eventsOf at hnone ⊢
  rw [List.filter_append, hnone, List.append_nil]

theorem eventsOf_append_singleton {p : ℕ} (past : List Event) {event : Event}
    (h : event.session = p) : eventsOf p (past ++ [event]) = eventsOf p past ++ [event] := by
  unfold eventsOf
  rw [List.filter_append, List.filter_singleton, h]
  simp

theorem mem_eventsOf {p : ℕ} {past : List Event} {event : Event} (h : event ∈ past)
    (hp : event.session = p) : event ∈ eventsOf p past :=
  List.mem_filter.mpr ⟨h, by simpa using hp⟩

section Sessions

variable {ι : Type} (r : KeyedRealm ι) (lib : Libraries)

/-- The inserts of a session wrote blocks of values, if not all of them entirely. -/
def WritesValues (inserts : List (List Byte × Bool)) : Prop :=
  ∀ i ∈ inserts, PartOfValue r lib i.1 ∧ (i.2 = true → BlockOfValue r lib i.1)

/-- Session `p` is open, with these inserts, and its file holds `file`. -/
def SessionOpen (past : List Event) (p : ℕ) (isNew : Bool) (inserts : List (List Byte × Bool))
    (file : List Byte) : Prop :=
  ∃ start, eventsOf p past = .opened p isNew start :: insertsOf p inserts ∧
    WritesValues r lib inserts ∧ file = start ++ inserts.flatMap Prod.fst

/-- Session `p` was opened, inserted into, closed, and no more. If its file was
    new or an insert returned, what it wrote ends with one index and one marker. -/
def SessionClosed (past : List Event) (p : ℕ) (file : List Byte) : Prop :=
  ∃ isNew start inserts,
    eventsOf p past = .opened p isNew start :: (insertsOf p inserts ++ [.closed p file]) ∧
    WritesValues r lib inserts ∧
    if isNew || inserts.any Prod.snd then
      ∃ indexBlock markerBlock, indexBlock.contentType = -11 ∧ markerBlock.contentType = -10 ∧
        file = start ++ inserts.flatMap Prod.fst ++ (blockBytes indexBlock ++ blockBytes markerBlock)
    else file = start ++ inserts.flatMap Prod.fst

/-- An object owns the stream of its session, or has none and no index to write. -/
structure ObjectInv (past : List Event) (sessions : ℕ) (object : Object r) : Prop where
  released : object.session = none →
    object.file.streamPtr = none ∧ object.file.needWriteIndex = false
  owns : ∀ p, object.session = some p → p < sessions ∧ ∃ s isNew inserts,
    object.file.streamPtr = some s ∧ s.exceptions = true ∧
    SessionOpen r lib past p isNew inserts s.bytes ∧
    object.file.needWriteIndex = (isNew || inserts.any Prod.snd)

/-- The invariant of a program whose moves are careful. -/
structure LifecycleInv (past : List Event) (w : World r) : Prop where
  objects : ∀ {a object}, w.objects a = some object → ObjectInv r lib past w.sessions object
  owner : ∀ {a b object object' p}, w.objects a = some object → w.objects b = some object' →
    object.session = some p → object'.session = some p → a = b
  begun : ∀ {event}, event ∈ past → event.session < w.sessions
  closed : ∀ {p file}, .closed p file ∈ past → SessionClosed r lib past p file

variable {r lib} {past events : List Event} {p : ℕ}

/-- An open session has not been closed. -/
theorem SessionOpen.not_closed {isNew : Bool} {inserts : List (List Byte × Bool)} {bs : List Byte}
    (h : SessionOpen r lib past p isNew inserts bs) (file : List Byte) :
    .closed p file ∉ past := by
  obtain ⟨start, hevents, -, -⟩ := h
  intro hmem
  have hclosed : Event.closed p file ∈ eventsOf p past := mem_eventsOf hmem rfl
  rw [hevents] at hclosed
  rcases List.mem_cons.mp hclosed with heq | hinsert
  · cases heq
  · obtain ⟨i, -, heq⟩ := List.mem_map.mp hinsert
    cases heq

/-- An insert of the session. -/
theorem SessionOpen.inserted {isNew returned : Bool} {inserts : List (List Byte × Bool)}
    {bs part : List Byte} (h : SessionOpen r lib past p isNew inserts bs)
    (hpart : PartOfValue r lib part) (hblock : returned = true → BlockOfValue r lib part) :
    SessionOpen r lib (past ++ [.inserted p part returned]) p isNew
      (inserts ++ [(part, returned)]) (bs ++ part) := by
  obtain ⟨start, hevents, hwrites, rfl⟩ := h
  refine ⟨start, ?_, ?_, ?_⟩
  · have hsnoc : eventsOf p (past ++ [.inserted p part returned]) = _ :=
      eventsOf_append_singleton past rfl
    rw [hsnoc, hevents]
    unfold insertsOf
    rw [List.map_append]
    rfl
  · intro i hi
    rcases List.mem_append.mp hi with hi | hi
    · exact hwrites i hi
    · rw [List.mem_singleton.mp hi]
      exact ⟨hpart, hblock⟩
  · rw [List.flatMap_append, List.append_assoc]
    simp

theorem SessionClosed.append {file : List Byte} (h : SessionClosed r lib past p file)
    (hne : ∀ event ∈ events, event.session ≠ p) : SessionClosed r lib (past ++ events) p file := by
  unfold SessionClosed
  rw [eventsOf_append_of_ne hne]
  exact h

theorem ObjectInv.append {object : Object r} {n n' : ℕ} (h : ObjectInv r lib past n object)
    (hn : n ≤ n') (hne : ∀ event ∈ events, object.session ≠ some event.session) :
    ObjectInv r lib (past ++ events) n' object where
  released := h.released
  owns p hp := by
    obtain ⟨hlt, hopen⟩ := h.owns p hp
    refine ⟨by omega, ?_⟩
    unfold SessionOpen
    rw [eventsOf_append_of_ne fun event hevent heq => hne event hevent (by rw [hp, heq])]
    exact hopen

end Sessions

/-! ## Steps -/

section Steps

variable {ι : Type} {r : KeyedRealm ι} {lib : Libraries} {past : List Event} {w : World r}

theorem put_objects (w : World r) (a : ℕ) (object : Option (Object r)) (b : ℕ) :
    (w.put a object).objects b = if b = a then object else w.objects b :=
  Function.update_apply w.objects a object b

/-- A live object after `put` is the one put there, or was live elsewhere before. -/
theorem put_some_cases {a c : ℕ} {object x : Object r}
    (hc : (w.put a (some object)).objects c = some x) :
    c = a ∧ x = object ∨ c ≠ a ∧ w.objects c = some x := by
  rw [put_objects] at hc
  split_ifs at hc with hca
  · exact Or.inl ⟨hca, (Option.some.inj hc).symm⟩
  · exact Or.inr ⟨hca, hc⟩

theorem of_put_none {a c : ℕ} {x : Object r} (hc : (w.put a none).objects c = some x) :
    c ≠ a ∧ w.objects c = some x := by
  rw [put_objects] at hc
  split_ifs at hc with hca
  exact ⟨hca, hc⟩

/-- An opening at a free address. -/
theorem World.step_openOutput (build : Build) (lib : Libraries) {a : ℕ} (ha : w.objects a = none)
    (file : List Byte) (overwrite : Bool) (room : Option ℕ) (heap : ℕ → Memory) :
    World.step build lib (.openOutput a file overwrite room heap) w =
      match openIndexedOutputFile r build lib heap
        { outputFile file overwrite with room := room } with
      | .ok (index, isNew) s =>
        .ok ({ w with sessions := w.sessions + 1 }.put a
            (some ⟨⟨⟨some s, index⟩, isNew⟩, some w.sessions⟩),
          [.opened w.sessions isNew s.bytes])
      | .error (.throws _) _ => .ok (w, [])
      | .error stop _ => .error stop := by
  unfold World.step
  dsimp only
  rw [ha]

/-- A move from a live object to a free address. -/
theorem World.step_move (build : Build) (lib : Libraries) {a b : ℕ} {object : Object r}
    (ha : w.objects a = some object) (hb : w.objects b = none) :
    World.step build lib (.move a b) w =
      .ok ((w.put b (some object)).put a (some ⟨object.file.movedFrom, none⟩), []) := by
  unfold World.step
  dsimp only
  rw [ha, hb]

/-- An insert into a live object. -/
theorem World.step_insert (build : Build) (lib : Libraries) {a : ℕ} {object : Object r}
    (ha : w.objects a = some object) (host : Host) (key : r.Key) (value : r.Value) :
    World.step build lib (.insert a host key value) w =
      match object.file.insert lib host key value with
      | .ok () file' =>
        .ok (w.put a (some { object with file := file' }), object.insertEvents file' true)
      | .error (.throws _) file' =>
        .ok (w.put a (some { object with file := file' }), object.insertEvents file' false)
      | .error stop _ => .error stop := by
  unfold World.step
  dsimp only
  rw [ha]

/-- The end of a live object. -/
theorem World.step_destroy (build : Build) (lib : Libraries) {a : ℕ} {object : Object r}
    (ha : w.objects a = some object) (host host' : Host) :
    World.step build lib (.destroy a host host') w =
      match object.file.destroy lib host host' with
      | .ok () file' => .ok (w.put a none, object.destroyEvents file')
      | .error stop _ => .error stop := by
  unfold World.step
  dsimp only
  rw [ha]

section Live

variable {build : Build} {lib : Libraries} {a : ℕ} {w' : World r} {events : List Event}

/-- A step that takes place finds its addresses free or taken, as it needs them. -/
theorem free_of_step_openOutput {file : List Byte} {overwrite : Bool} {room : Option ℕ}
    {heap : ℕ → Memory}
    (h : World.step build lib (.openOutput a file overwrite room heap) w = .ok (w', events)) :
    w.objects a = none := by
  cases ha : w.objects a with
  | none => rfl
  | some object =>
    unfold World.step at h
    dsimp only at h
    rw [ha] at h
    cases h

theorem live_of_step_move {b : ℕ}
    (h : World.step build lib (.move a b) w = .ok (w', events)) :
    ∃ object, w.objects a = some object ∧ w.objects b = none := by
  unfold World.step at h
  dsimp only at h
  cases ha : w.objects a with
  | none => rw [ha] at h; cases h
  | some object =>
    cases hb : w.objects b with
    | none => exact ⟨object, rfl, rfl⟩
    | some object' => rw [ha, hb] at h; cases h

theorem live_of_step_insert {host : Host} {key : r.Key} {value : r.Value}
    (h : World.step build lib (.insert a host key value) w = .ok (w', events)) :
    ∃ object, w.objects a = some object := by
  cases ha : w.objects a with
  | some object => exact ⟨object, rfl⟩
  | none =>
    unfold World.step at h
    dsimp only at h
    rw [ha] at h
    cases h

theorem live_of_step_destroy {host host' : Host}
    (h : World.step build lib (.destroy a host host') w = .ok (w', events)) :
    ∃ object, w.objects a = some object := by
  cases ha : w.objects a with
  | some object => exact ⟨object, rfl⟩
  | none =>
    unfold World.step at h
    dsimp only at h
    rw [ha] at h
    cases h

end Live

theorem lifecycleInv_start : LifecycleInv r lib [] (World.start r) where
  objects h := by cases h
  owner h := by cases h
  begun h := by cases h
  closed h := by cases h

theorem LifecycleInv.begun_append (h : LifecycleInv r lib past w) {n : ℕ} (event : Event)
    (hn : w.sessions ≤ n) (hevent : event.session < n) :
    ∀ {event'}, event' ∈ past ++ [event] → event'.session < n := by
  intro event' hmem
  rcases List.mem_append.mp hmem with hmem | hmem
  · exact lt_of_lt_of_le (h.begun hmem) hn
  · rw [List.mem_singleton.mp hmem]
    exact hevent

/-- What is seen of one session leaves alone the others, which were closed before. -/
theorem LifecycleInv.closed_append (h : LifecycleInv r lib past w) (event : Event)
    (hopen : ∀ file, .closed event.session file ∉ past) {q : ℕ} {file : List Byte}
    (hmem : .closed q file ∈ past) : SessionClosed r lib (past ++ [event]) q file := by
  apply (h.closed hmem).append
  intro event' hevent' heq
  rw [List.mem_singleton.mp hevent'] at heq
  exact hopen file (heq ▸ hmem)

/-- What is seen of the session of one object leaves alone the other objects. -/
theorem LifecycleInv.objects_append (h : LifecycleInv r lib past w) {a c : ℕ}
    {object x : Object r} (event : Event) (ha : w.objects a = some object)
    (hsession : object.session = some event.session) (hca : c ≠ a)
    (hc : w.objects c = some x) : ObjectInv r lib (past ++ [event]) w.sessions x := by
  apply (h.objects hc).append (le_refl _)
  intro event' hevent' hx
  rw [List.mem_singleton.mp hevent'] at hx
  exact hca (h.owner hc ha hx hsession)

/-- An opening begins a session that nothing has been seen of. -/
theorem LifecycleInv.opened (h : LifecycleInv r lib past w) (a : ℕ) {s : StdStream}
    (index : BlocksIndex r) (isNew : Bool) (he : s.exceptions = true) :
    LifecycleInv r lib (past ++ [.opened w.sessions isNew s.bytes])
      ({ w with sessions := w.sessions + 1 }.put a
        (some ⟨⟨⟨some s, index⟩, isNew⟩, some w.sessions⟩)) := by
  have hnone : eventsOf w.sessions past = [] := List.filter_eq_nil_iff.mpr fun event hevent => by
    have := h.begun hevent
    simp only [decide_eq_true_eq]
    omega
  have hnew : ∀ b object, ({ w with sessions := w.sessions + 1 }.put a
      (some ⟨⟨⟨some s, index⟩, isNew⟩, some w.sessions⟩)).objects b = some object →
      b = a ∧ object = ⟨⟨⟨some s, index⟩, isNew⟩, some w.sessions⟩ ∨
        b ≠ a ∧ w.objects b = some object := fun _ _ hb => put_some_cases hb
  have hold : ∀ {b object p}, w.objects b = some object → object.session = some p →
      p < w.sessions := fun hb hp => (h.objects hb |>.owns _ hp).1
  constructor
  · intro b object hb
    rcases hnew b object hb with ⟨-, rfl⟩ | ⟨-, hb⟩
    · refine ⟨nofun, fun p hp => ?_⟩
      cases hp
      refine ⟨Nat.lt_succ_self _, s, isNew, [], rfl, he, ⟨s.bytes, ?_, nofun, ?_⟩, ?_⟩
      · have hevents : eventsOf w.sessions (past ++ [.opened w.sessions isNew s.bytes]) = _ :=
          eventsOf_append_singleton past rfl
        rw [hevents, hnone]
        rfl
      · rw [List.flatMap_nil, List.append_nil]
      · rw [List.any_nil, Bool.or_false]
    · apply (h.objects hb).append (Nat.le_succ _)
      intro event hevent heq
      have := hold hb heq
      rw [List.mem_singleton.mp hevent] at this
      exact absurd this (lt_irrefl _)
  · intro b c object object' p hb hc hp hp'
    rcases hnew b object hb with ⟨rfl, rfl⟩ | ⟨-, hbOld⟩
    · rcases hnew c object' hc with ⟨rfl, -⟩ | ⟨-, hcOld⟩
      · rfl
      · cases hp
        exact absurd (hold hcOld hp') (lt_irrefl _)
    · rcases hnew c object' hc with ⟨rfl, rfl⟩ | ⟨-, hcOld⟩
      · cases hp'
        exact absurd (hold hbOld hp) (lt_irrefl _)
      · exact h.owner hbOld hcOld hp hp'
  · exact h.begun_append _ (Nat.le_succ _) (Nat.lt_succ_self _)
  · intro p file hmem
    rcases List.mem_append.mp hmem with hmem | hmem
    · exact h.closed_append _ (fun file hmem => absurd (h.begun hmem) (lt_irrefl _)) hmem
    · cases List.mem_singleton.mp hmem

/-- A move hands the session on; what is left has no index to write. -/
theorem LifecycleInv.moved (h : LifecycleInv r lib past w) {a b : ℕ} {object : Object r}
    (ha : w.objects a = some object) (hb : w.objects b = none)
    (hflag : object.file.needWriteIndex = false) :
    LifecycleInv r lib past
      ((w.put b (some object)).put a (some ⟨object.file.movedFrom, none⟩)) := by
  have hcases : ∀ c x, ((w.put b (some object)).put a
      (some ⟨object.file.movedFrom, none⟩)).objects c = some x →
      x = ⟨object.file.movedFrom, none⟩ ∨ c = b ∧ x = object ∨
        c ≠ a ∧ c ≠ b ∧ w.objects c = some x := by
    intro c x hc
    rw [put_objects, put_objects] at hc
    split_ifs at hc with hca hcb
    · exact Or.inl (Option.some.inj hc).symm
    · exact Or.inr (Or.inl ⟨hcb, (Option.some.inj hc).symm⟩)
    · exact Or.inr (Or.inr ⟨hca, hcb, hc⟩)
  constructor
  · intro c x hc
    rcases hcases c x hc with rfl | ⟨-, rfl⟩ | ⟨-, -, hc⟩
    · exact ⟨fun _ => ⟨rfl, hflag⟩, fun p hp => by cases hp⟩
    · exact h.objects ha
    · exact h.objects hc
  · intro c d x y p hc hd hx hy
    rcases hcases c x hc with rfl | ⟨rfl, rfl⟩ | ⟨hca, -, hcOld⟩
    · cases hx
    · rcases hcases d y hd with rfl | ⟨rfl, -⟩ | ⟨hda, -, hdOld⟩
      · cases hy
      · rfl
      · exact absurd (h.owner ha hdOld hx hy).symm hda
    · rcases hcases d y hd with rfl | ⟨rfl, rfl⟩ | ⟨-, -, hdOld⟩
      · cases hy
      · exact absurd (h.owner hcOld ha hx hy) hca
      · exact h.owner hcOld hdOld hx hy
  · exact h.begun
  · exact h.closed

/-- An event of the session of an object that has changed to `object'`. -/
theorem LifecycleInv.inserted (h : LifecycleInv r lib past w) {a p : ℕ} {object object' : Object r}
    {written : List Byte} {returned : Bool} (ha : w.objects a = some object)
    (hp : object.session = some p) (hp' : object'.session = some p)
    (hobject : ObjectInv r lib (past ++ [.inserted p written returned]) w.sessions object') :
    LifecycleInv r lib (past ++ [.inserted p written returned]) (w.put a (some object')) := by
  obtain ⟨hlt, s, isNew, inserts, -, -, hopen, -⟩ := (h.objects ha).owns p hp
  constructor
  · intro c x hc
    rcases put_some_cases hc with ⟨-, rfl⟩ | ⟨hca, hc⟩
    · exact hobject
    · exact h.objects_append (.inserted p written returned) ha hp hca hc
  · intro c d x y q hc hd hx hy
    rcases put_some_cases hc with ⟨rfl, rfl⟩ | ⟨-, hcOld⟩
    · rcases put_some_cases hd with ⟨rfl, -⟩ | ⟨-, hdOld⟩
      · rfl
      · exact h.owner ha hdOld (hp.trans (hp'.symm.trans hx)) hy
    · rcases put_some_cases hd with ⟨rfl, rfl⟩ | ⟨-, hdOld⟩
      · exact h.owner hcOld ha hx (hp.trans (hp'.symm.trans hy))
      · exact h.owner hcOld hdOld hx hy
  · exact h.begun_append (.inserted p written returned) (le_refl _) hlt
  · intro q file hmem
    rcases List.mem_append.mp hmem with hmem | hmem
    · exact h.closed_append (.inserted p written returned) hopen.not_closed hmem
    · cases List.mem_singleton.mp hmem

/-- The end of an object that owns the stream of session `p`. -/
theorem LifecycleInv.destroyed (h : LifecycleInv r lib past w) {a p : ℕ} {object : Object r}
    {file : List Byte} (ha : w.objects a = some object) (hp : object.session = some p)
    (hclosed : SessionClosed r lib (past ++ [.closed p file]) p file) :
    LifecycleInv r lib (past ++ [.closed p file]) (w.put a none) := by
  obtain ⟨hlt, s, isNew, inserts, -, -, hopen, -⟩ := (h.objects ha).owns p hp
  constructor
  · intro c x hc
    obtain ⟨hca, hc⟩ := of_put_none hc
    exact h.objects_append (.closed p file) ha hp hca hc
  · intro c d x y q hc hd hx hy
    exact h.owner (of_put_none hc).2 (of_put_none hd).2 hx hy
  · exact h.begun_append (.closed p file) (le_refl _) hlt
  · intro q file' hmem
    rcases List.mem_append.mp hmem with hmem | hmem
    · exact h.closed_append (.closed p file) hopen.not_closed hmem
    · cases List.mem_singleton.mp hmem
      exact hclosed

/-- The end of an object without a stream. -/
theorem LifecycleInv.released (h : LifecycleInv r lib past w) (a : ℕ) :
    LifecycleInv r lib past (w.put a none) where
  objects hc := h.objects (of_put_none hc).2
  owner hc hd := h.owner (of_put_none hc).2 (of_put_none hd).2
  begun := h.begun
  closed := h.closed

end Steps

/-! ## Runs -/

section Runs

variable {ι : Type} {r : KeyedRealm ι} {build : Build} {lib : Libraries} {past : List Event}
  {w : World r}

/-- What is seen of an insert is what it has put behind the file. -/
theorem insertEvents_eq {file file' : IndexedFile r} {s s' : StdStream} {part : List Byte} {p : ℕ}
    (returned : Bool) (hs : file.streamPtr = some s) (hs' : file'.streamPtr = some s')
    (hgrows : s'.bytes = s.bytes ++ part) :
    Object.insertEvents ⟨file, some p⟩ file' returned = [.inserted p part returned] := by
  have hold : file.bytes = s.bytes := by
    unfold IndexedFileState.bytes
    rw [hs]
  have hnew : file'.bytes = s'.bytes := by
    unfold IndexedFileState.bytes
    rw [hs']
  unfold Object.insertEvents
  dsimp only
  rw [hold, hnew, hgrows, List.drop_left]

/-- An insert into an object of the program. -/
theorem LifecycleInv.insert (h : LifecycleInv r lib past w) {a : ℕ} {object : Object r}
    (ha : w.objects a = some object) (host : Host) (key : r.Key) (value : r.Value) :
    (∃ file', object.file.insert lib host key value = .error .undefinedBehaviour file') ∨
      ∃ file' returned, LifecycleInv r lib (past ++ object.insertEvents file' returned)
          (w.put a (some { object with file := file' })) ∧
        (returned = true ∧ object.file.insert lib host key value = .ok () file' ∨
          returned = false ∧ ∃ stop, object.file.insert lib host key value = .error stop file') := by
  obtain ⟨file, session⟩ := object
  cases session with
  | none =>
    obtain ⟨hs, -⟩ := (h.objects ha).released rfl
    exact Or.inl ⟨file, insert_null host key value hs⟩
  | some p =>
    obtain ⟨hlt, s, isNew, inserts, hs, he, hopen, hflag⟩ := (h.objects ha).owns p rfl
    obtain ⟨s', part, he', hgrows, hpart, hresult⟩ := insert_effect lib host key value hs he
    right
    rcases hresult with ⟨index, hinsert, hblock⟩ | ⟨stop, hinsert⟩
    · refine ⟨⟨⟨some s', index⟩, true⟩, true, ?_, Or.inl ⟨rfl, hinsert⟩⟩
      rw [insertEvents_eq true hs rfl hgrows]
      have hopen' := hopen.inserted hpart (fun _ : true = true => hblock)
      rw [← hgrows] at hopen'
      refine h.inserted ha rfl rfl ⟨nofun, fun q hq => ?_⟩
      cases hq
      refine ⟨hlt, s', isNew, _, rfl, he', hopen', ?_⟩
      simp
    · refine ⟨{ file with streamPtr := some s' }, false, ?_, Or.inr ⟨rfl, stop, hinsert⟩⟩
      rw [insertEvents_eq false hs rfl hgrows]
      have hopen' := hopen.inserted hpart (nofun : false = true → BlockOfValue r lib part)
      rw [← hgrows] at hopen'
      refine h.inserted ha rfl rfl ⟨nofun, fun q hq => ?_⟩
      cases hq
      refine ⟨hlt, s', isNew, _, rfl, he', hopen', ?_⟩
      simpa using hflag

/-- The end of an object of the program. -/
theorem LifecycleInv.destroy (h : LifecycleInv r lib past w) {a : ℕ} {object : Object r}
    (ha : w.objects a = some object) {host host' : Host} {file' : IndexedFile r}
    (hdestroy : object.file.destroy lib host host' = .ok () file') :
    LifecycleInv r lib (past ++ object.destroyEvents file') (w.put a none) := by
  obtain ⟨file, session⟩ := object
  cases session with
  | none =>
    show LifecycleInv r lib (past ++ []) _
    rw [List.append_nil]
    exact h.released a
  | some p =>
    obtain ⟨-, s, isNew, inserts, hs, he, ⟨start, hevents, hwrites, hbytes⟩, hflag⟩ :=
      (h.objects ha).owns p rfl
    have heffect := destroy_effect hs he hdestroy
    have hsnoc : eventsOf p (past ++ [.closed p file'.bytes]) = _ :=
      eventsOf_append_singleton past rfl
    refine h.destroyed ha rfl ⟨isNew, start, inserts, ?_, hwrites, ?_⟩
    · rw [hsnoc, hevents]
      rfl
    · have hflag' : file.needWriteIndex = (isNew || inserts.any Prod.snd) := hflag
      rw [hflag', hbytes] at heffect
      exact heffect

variable {w' : World r} {events : List Event}

theorem LifecycleInv.step_openOutput (h : LifecycleInv r lib past w) {a : ℕ} {file : List Byte}
    {overwrite : Bool} {room : Option ℕ} {heap : ℕ → Memory}
    (hstep : World.step build lib (.openOutput a file overwrite room heap) w = .ok (w', events)) :
    LifecycleInv r lib (past ++ events) w' := by
  rw [World.step_openOutput build lib (free_of_step_openOutput hstep)] at hstep
  cases hopen : openIndexedOutputFile r build lib heap
      { outputFile file overwrite with room := room } with
  | ok p s =>
    rw [hopen] at hstep
    cases hstep
    exact h.opened a p.1 p.2 (openIndexedOutputFile_ok rfl rfl hopen).1
  | error stop s =>
    rw [hopen] at hstep
    cases stop with
    | throws e =>
      cases hstep
      rwa [List.append_nil]
    | undefinedBehaviour => cases hstep
    | outOfFuel => cases hstep

theorem LifecycleInv.step_move (h : LifecycleInv r lib past w) {a b : ℕ}
    (hcareful : CarefulMove w (.move a b))
    (hstep : World.step build lib (.move a b) w = .ok (w', events)) :
    LifecycleInv r lib (past ++ events) w' := by
  obtain ⟨object, ha, hb⟩ := live_of_step_move hstep
  cases hstep.symm.trans (World.step_move build lib ha hb)
  rw [List.append_nil]
  exact h.moved ha hb (hcareful object ha)

theorem LifecycleInv.step_insert (h : LifecycleInv r lib past w) {a : ℕ} {host : Host}
    {key : r.Key} {value : r.Value}
    (hstep : World.step build lib (.insert a host key value) w = .ok (w', events)) :
    LifecycleInv r lib (past ++ events) w' := by
  obtain ⟨object, ha⟩ := live_of_step_insert hstep
  rw [World.step_insert build lib ha] at hstep
  rcases h.insert ha host key value with ⟨file', hinsert⟩ |
    ⟨file', returned, hinv, ⟨rfl, hinsert⟩ | ⟨rfl, stop, hinsert⟩⟩
  · rw [hinsert] at hstep
    cases hstep
  · rw [hinsert] at hstep
    cases hstep
    exact hinv
  · rw [hinsert] at hstep
    cases stop with
    | throws e =>
      cases hstep
      exact hinv
    | undefinedBehaviour => cases hstep
    | outOfFuel => cases hstep

theorem LifecycleInv.step_destroy (h : LifecycleInv r lib past w) {a : ℕ} {host host' : Host}
    (hstep : World.step build lib (.destroy a host host') w = .ok (w', events)) :
    LifecycleInv r lib (past ++ events) w' := by
  obtain ⟨object, ha⟩ := live_of_step_destroy hstep
  rw [World.step_destroy build lib ha] at hstep
  cases hdestroy : object.file.destroy lib host host' with
  | ok u file' =>
    rw [hdestroy] at hstep
    cases hstep
    exact h.destroy ha hdestroy
  | error stop file' =>
    rw [hdestroy] at hstep
    cases hstep

/-- Every step whose move is careful keeps the invariant. -/
theorem LifecycleInv.step (h : LifecycleInv r lib past w) {action : Action r}
    (hcareful : CarefulMove w action)
    (hstep : World.step build lib action w = .ok (w', events)) :
    LifecycleInv r lib (past ++ events) w' := by
  cases action with
  | openOutput a file overwrite room heap => exact h.step_openOutput hstep
  | move a b => exact h.step_move hcareful hstep
  | insert a host key value => exact h.step_insert hstep
  | destroy a host host' => exact h.step_destroy hstep

/-- Where no object is moved from while it has an index to write, an object that
    has one owns its stream, undefined behaviour in a destructor can only come
    from the encoding of the index, and a session is opened, inserted into and
    closed, in this order. A session of a new file or with an insert that
    returned has written one index and one marker, behind everything else. -/
theorem moved_sessions
    (h : RunsTo (World.step build lib) CarefulMove (World.start r) past w) :
    (∀ a object, w.objects a = some object → object.file.needWriteIndex = true →
        object.file.streamPtr ≠ none) ∧
      (∀ a object host host' file', w.objects a = some object →
        object.file.destroy lib host host' = .error .undefinedBehaviour file' →
        encodeMeta (r := r) lib host .blocksIndex object.file.index = .error .undefinedBehaviour) ∧
      ∀ p file, .closed p file ∈ past → SessionClosed r lib past p file := by
  have hinv : LifecycleInv r lib past w :=
    h.invariant lifecycleInv_start fun hpast hcareful hstep => hpast.step hcareful hstep
  refine ⟨fun a object ha hflag => ?_, fun a object host host' file' ha hdestroy => ?_,
    fun p file hclosed => hinv.closed hclosed⟩
  · cases hsession : object.session with
    | none =>
      obtain ⟨-, hnot⟩ := (hinv.objects ha).released hsession
      rw [hflag] at hnot
      cases hnot
    | some p =>
      obtain ⟨-, s, isNew, inserts, hs, -⟩ := (hinv.objects ha).owns p hsession
      rw [hs]
      exact Option.some_ne_none s
  · cases hsession : object.session with
    | none =>
      obtain ⟨-, hnot⟩ := (hinv.objects ha).released hsession
      rw [destroy_unchanged _ _ hnot] at hdestroy
      cases hdestroy
    | some p =>
      obtain ⟨-, s, isNew, inserts, hs, he, -⟩ := (hinv.objects ha).owns p hsession
      exact destroy_undefined hs he hdestroy

end Runs

/-! ## Two programs -/

section Programs

/-- The object that `open_indexed_output_file` makes of a new file. -/
def newObject : Object byteFiles :=
  ⟨⟨⟨some (StdStream.endOf (headerBytes byteFiles.toRealm) true), BlocksIndex.empty byteFiles⟩,
    true⟩, some 0⟩

/-- A program with one object, at address 0. -/
def openedWorld (object : Object byteFiles) : World byteFiles :=
  { World.start byteFiles with sessions := 1 }.put 0 (some object)

/-- The program that has moved it to address 1. -/
def movedWorld (object : Object byteFiles) : World byteFiles :=
  ((openedWorld object).put 1 (some object)).put 0 (some ⟨object.file.movedFrom, none⟩)

theorem step_openedWorld (object : Object byteFiles) :
    World.step { rangeChecks := true } Libraries.stored (.move 0 1) (openedWorld object) =
      .ok (movedWorld object, []) :=
  World.step_move _ _ rfl rfl

theorem step_open_new :
    World.step { rangeChecks := true } Libraries.stored (.openOutput 0 [] true none fun _ _ => 0)
        (World.start byteFiles) =
      .ok (openedWorld newObject, [.opened 0 true (headerBytes byteFiles.toRealm)]) := by
  have hopen : openIndexedOutputFile byteFiles { rangeChecks := true } Libraries.stored
      (fun _ _ => 0) { outputFile [] true with room := none } =
        .ok (BlocksIndex.empty byteFiles, true)
          (StdStream.endOf (headerBytes byteFiles.toRealm) true) :=
    openIndexedOutputFile_new _ _ _ (Or.inl rfl)
  rw [World.step_openOutput _ _ rfl, hopen]
  rfl

/-- A new file is opened and its object moved away: what is left has an index to
    write and no stream, and its destructor dereferences null. -/
theorem moved_new_file :
    ∃ past w, RunsTo (World.step { rangeChecks := true } Libraries.stored) (fun _ _ => True)
        (World.start byteFiles) past w ∧
      ∃ object, w.objects 0 = some object ∧ object.file.needWriteIndex = true ∧
        object.file.streamPtr = none ∧ ∀ host host',
          World.step { rangeChecks := true } Libraries.stored (.destroy 0 host host') w =
            .error .undefinedBehaviour := by
  have hlive : (movedWorld newObject).objects 0 = some ⟨newObject.file.movedFrom, none⟩ := rfl
  refine ⟨_, movedWorld newObject,
    (RunsTo.init.step trivial step_open_new).step trivial (step_openedWorld newObject), _, hlive,
    rfl, rfl, fun host host' => ?_⟩
  have hdestroy : newObject.file.movedFrom.destroy Libraries.stored host host' =
      .error .undefinedBehaviour newObject.file.movedFrom := destroy_null host host' rfl rfl
  rw [World.step_destroy _ _ hlive, hdestroy]

/-- The entries of an index have nine bytes each. -/
theorem length_byteIndex (index : BlocksIndex byteFiles) :
    (bytes (BlocksIndex.ty byteFiles) index).length ≤ 10 + 9 * index.map.elems.length := by
  have hbytes : bytes (BlocksIndex.ty byteFiles) index =
      base128 index.map.size.toNat ++
        index.map.elems.flatMap (bytes (PositionMap.entryTy byteFiles)) ++ [] := rfl
  have hsize := length_base128_le_ten index.map.size
  have hentry : ∀ entry : byteFiles.Key × Int64T,
      (bytes (PositionMap.entryTy byteFiles) entry).length = 9 := fun _ => rfl
  have hentries : (index.map.elems.flatMap (bytes (PositionMap.entryTy byteFiles))).length =
      9 * index.map.elems.length := by
    induction index.map.elems with
    | nil => rfl
    | cons entry entries ih =>
      rw [List.flatMap_cons, List.length_append, hentry, ih, List.length_cons]
      omega
  rw [hbytes, List.append_nil, List.length_append, hentries]
  omega

theorem finished_closedFile : Finished (r := byteFiles) Libraries.stored closedFile
    [((1 : BitVec (8 * 1)), ⟨(), (7 : BitVec (8 * 1))⟩)] :=
  (fileInv_of_runsTo keepsMarkerSize_stored
    (runsTo_filledFile.step admitted_filledFile step_filledFile)).finished rfl rfl

/-- The program that has inserted into the object where it is now. -/
def insertedWorld (object : Object byteFiles) (file : IndexedFile byteFiles) : World byteFiles :=
  (movedWorld object).put 1 (some { object with file := file })

/-- The object that opens the file again. -/
def reopenedObject (s : StdStream) (index : BlocksIndex byteFiles) : Object byteFiles :=
  ⟨⟨⟨some s, index⟩, false⟩, some 0⟩

section Reopened

variable {index : BlocksIndex byteFiles} {s : StdStream}
  (hhas : FileHas Libraries.stored closedFile index
    [((1 : BitVec (8 * 1)), ⟨(), (7 : BitVec (8 * 1))⟩)]) (hs : Working closedFile s)

include hhas hs

/-- A value is inserted into the object, and the object is destroyed. -/
theorem insert_reopenedObject :
    ∃ file file' : IndexedFile byteFiles,
      (reopenedObject s index).file.insert Libraries.stored plainHost (2 : BitVec (8 * 1))
        ⟨(), (5 : BitVec (8 * 1))⟩ = .ok () file ∧
      file.destroy Libraries.stored plainHost plainHost = .ok () file' := by
  obtain ⟨block, hencode, hid, hholds⟩ := holds_encodeValue Libraries.stored (byteFiles.ty ())
    (5 : BitVec (8 * 1)) plainHost (byteFiles.lookupId ()) (by decide)
  have hblock : BlockOf Libraries.stored byteFiles block ⟨(), (5 : BitVec (8 * 1))⟩ := ⟨hid, hholds⟩
  have hlt : closedFile.length < 2 ^ 63 := by
    rw [length_closedFile]
    decide
  obtain ⟨index', hassign, hhas'⟩ := hhas.insert (2 : BitVec (8 * 1)) hblock hlt
  obtain ⟨s', happend, -, hs'⟩ := hs.rememberedAppend block
  rw [← hencode] at happend
  have hlen := length_byteIndex index'
  have hentries : index'.map.elems.length ≤ 2 := hhas'.entries_le
  obtain ⟨indexBlock, hindex, -, -⟩ := holds_encodeValue Libraries.stored (BlocksIndex.ty byteFiles)
    index' plainHost (-11) (by omega)
  obtain ⟨markerBlock, hmarker, -, -⟩ := encodeMarker_ok (r := byteFiles) Libraries.stored plainHost
    (markerAt byteFiles (closedFile ++ blockBytes block).length)
  have hptr : (⟨⟨some s', index'⟩, true⟩ : IndexedFile byteFiles).streamPtr = some s' := rfl
  obtain ⟨s'', hdestroy, -⟩ := destroy_eq hptr hs' rfl hindex hmarker
  exact ⟨_, _, insert_of_ok rfl happend hassign, hdestroy⟩

/-- The object is moved, the insert goes to the new one, and both are destroyed. -/
theorem runsTo_moved {past : List Event}
    (h : RunsTo (World.step { rangeChecks := true } Libraries.stored) CarefulMove
      (World.start byteFiles) past (openedWorld (reopenedObject s index))) :
    ∃ part file w, RunsTo (World.step { rangeChecks := true } Libraries.stored) CarefulMove
      (World.start byteFiles)
      (past ++ [] ++ [.inserted 0 part true] ++ [] ++ [.closed 0 file]) w := by
  obtain ⟨file, file', hinsert, hdestroy⟩ := insert_reopenedObject hhas hs
  have hlive : (movedWorld (reopenedObject s index)).objects 1 =
      some (reopenedObject s index) := rfl
  have hold : (insertedWorld (reopenedObject s index) file).objects 0 =
      some ⟨(reopenedObject s index).file.movedFrom, none⟩ := rfl
  have hnew : ((insertedWorld (reopenedObject s index) file).put 0 none).objects 1 =
      some ⟨file, some 0⟩ := rfl
  have hcareful : CarefulMove (openedWorld (reopenedObject s index)) (.move 0 1) := by
    intro object hobject
    cases hobject
    rfl
  have hinserted : World.step { rangeChecks := true } Libraries.stored
      (.insert 1 plainHost (2 : BitVec (8 * 1)) ⟨(), (5 : BitVec (8 * 1))⟩)
        (movedWorld (reopenedObject s index)) = .ok (insertedWorld (reopenedObject s index) file,
          (reopenedObject s index).insertEvents file true) := by
    refine (World.step_insert _ _ hlive _ _ _).trans ?_
    rw [hinsert]
    rfl
  have hreleased : World.step { rangeChecks := true } Libraries.stored
      (.destroy 0 plainHost plainHost) (insertedWorld (reopenedObject s index) file) =
        .ok ((insertedWorld (reopenedObject s index) file).put 0 none, []) := by
    rw [World.step_destroy _ _ hold, destroy_unchanged plainHost plainHost rfl]
    rfl
  have hclosed : World.step { rangeChecks := true } Libraries.stored
      (.destroy 1 plainHost plainHost) ((insertedWorld (reopenedObject s index) file).put 0 none) =
        .ok (((insertedWorld (reopenedObject s index) file).put 0 none).put 1 none,
          [.closed 0 file'.bytes]) := by
    rw [World.step_destroy _ _ hnew, hdestroy]
    rfl
  have hmoved := h.step hcareful (step_openedWorld _)
  have hfilled := hmoved.step (carefulMove_insert _ 1 _ _ _) hinserted
  have hended :=
    (hfilled.step (carefulMove_destroy _ 0 _ _) hreleased).step (carefulMove_destroy _ 1 _ _)
      hclosed
  exact ⟨_, _, _, hended⟩

end Reopened

/-- A program that opens the file again, moves the object, inserts a value through the
    new object and destroys both: the session has its index and its marker. -/
theorem moved_before_insert :
    ∃ start part file w, RunsTo (World.step { rangeChecks := true } Libraries.stored) CarefulMove
        (World.start byteFiles)
        [.opened 0 false start, .inserted 0 part true, .closed 0 file] w ∧
      SessionClosed byteFiles Libraries.stored
        [.opened 0 false start, .inserted 0 part true, .closed 0 file] 0 file := by
  obtain ⟨index, hhas, hends⟩ := finished_closedFile
  obtain ⟨body, hfile⟩ := hhas.header
  obtain ⟨s, hopen, hs⟩ :=
    openIndexedOutputFile_old { rangeChecks := true } (fun _ _ => 0) body hfile hends
  have hopen' : openIndexedOutputFile byteFiles { rangeChecks := true } Libraries.stored
      (fun _ _ => 0) { outputFile closedFile false with room := none } = .ok (index, false) s :=
    hopen
  have hopened : World.step { rangeChecks := true } Libraries.stored
      (.openOutput 0 closedFile false none fun _ _ => 0) (World.start byteFiles) =
        .ok (openedWorld (reopenedObject s index), [.opened 0 false s.bytes]) := by
    rw [World.step_openOutput _ _ rfl, hopen']
    rfl
  obtain ⟨part, file, w, hrun⟩ :=
    runsTo_moved hhas hs (RunsTo.init.step (carefulMove_openOutput _ 0 _ _ _ _) hopened)
  exact ⟨s.bytes, part, file, w, hrun, (moved_sessions hrun).2.2 0 file (by simp)⟩

end Programs

end BambooShoot.Pbsf
