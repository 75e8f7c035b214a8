import BambooShoot.Pbsf.LazyReads

/-!
# Programs that read an indexed file

The runs of programs that hold iterators and lazy values of a file, against the
runs on a map in memory.

Results:
* `Mirrored.step`: a call gives the same answer as it does in memory;
* `lazy_reads`: so do all runs of calls, each lazy value reads the file at most
  once, and the file is left ready for the rest of the session;
* `sweep_visits`: the keys a loop over a file comes to.
-/

namespace BambooShoot.Pbsf

open BambooShoot.Lib BambooShoot.Pbss

/-! ## Steps -/

section Steps

variable {ι : Type} {r : KeyedRealm ι} {lib : Libraries} {written : List (r.Key × r.Value)}
  {s : Reader r} {m : Mirror r}

/-- What a call comes to in both. -/
structure Simulated (lib : Libraries) (written : List (r.Key × r.Value)) (s : Reader r)
    (m : Mirror r) (request : Request r) (s' : Reader r) (m' : Mirror r)
    (events : List (ReaderEvent r)) : Prop where
  taken : Reader.step lib request s = .ok (s', events)
  copied : Mirror.step request m = .ok (m', events.filter ReaderEvent.isAnswer)
  mirrored : Mirrored lib (written ++ events.filterMap ReaderEvent.inserts) s' m'
  fresh : ReadsFresh s s' events

/-- A call that inserts nothing and reads nothing. -/
theorem simulated_of_quiet {request : Request r} {answer : Answer r} {s' : Reader r}
    {m' : Mirror r} (htaken : Reader.step lib request s = .ok (s', [.answered request answer]))
    (hcopied : Mirror.step request m = .ok (m', [.answered request answer]))
    (hquiet : ReaderEvent.inserts (.answered request answer) = none)
    (hmirrored : Mirrored lib written s' m') (hkept : ∀ k, Evaluated s k → Evaluated s' k) :
    Simulated lib written s m request s' m' [.answered request answer] where
  taken := htaken
  copied := hcopied
  mirrored := by
    rw [List.filterMap_cons_none hquiet, List.filterMap_nil, List.append_nil]
    exact hmirrored
  fresh := readsFresh_of_kept hkept rfl

theorem Mirrored.insert (h : Mirrored lib written s m) (host : Host) (key : r.Key)
    {value : r.Value} (hvalue : (bytes (r.ty value.1) value.2).length < 2 ^ 31)
    (hlt : s.file.bytes.length < 2 ^ 63) :
    ∃ s' m' events, Simulated lib written s m (.insert host key value) s' m' events := by
  obtain ⟨file, more, hinsert, hwriter, hbytes⟩ := h.writer.insert_appends host key hvalue hlt
  have hstep : Reader.step lib (.insert host key value) s =
      .ok ({ s with file := file }, [.answered (.insert host key value) .nothing]) := by
    unfold Reader.step
    dsimp only
    rw [hinsert]
  have hvalues : assign r.lt key value m.values = assignAll r.lt (written ++ [(key, value)]) := by
    rw [assignAll_concat, h.values]
  have hkeys : s.keys ⊆ file.indices := by
    have hkeys' : file.indices = (assign r.lt key value m.values).map Prod.fst := by
      rw [hvalues]
      exact Lib.keys_eq hwriter.related
    rw [hkeys', h.keys_eq]
    exact keys_subset_assign key value m.values
  have hhandles : List.Forall₂ (HandleOf lib file.bytes) s.handles m.handles := by
    rw [hbytes]
    exact h.handles.imp fun _ _ hof => hof.append more
  exact ⟨_, _, _, hstep, rfl,
    ⟨hwriter, hvalues, h.places, fun place hplace => (h.placed place hplace).mono hkeys, hhandles⟩,
    readsFresh_of_kept (fun _ hk => hk) rfl⟩

/-- The iterators that calls make and move are at elements. -/
theorem at_answer {keys : List r.Key} {places places' : List (Place r.Key)} {answer : Answer r}
    (hplaces : ∀ place ∈ places, place.At keys) {call : PlaceRequest r.Key}
    (h : call.answer r keys places = some (places', answer)) :
    ∀ place ∈ places', place.At keys := by
  have happend : ∀ {place}, place.At keys → ∀ place' ∈ places ++ [place], place'.At keys := by
    intro place hplace place' hmem
    rcases List.mem_append.mp hmem with hmem | hmem
    · exact hplaces place' hmem
    · rw [List.mem_singleton.mp hmem]
      exact hplace
  have hset : ∀ {i place}, place.At keys → ∀ place' ∈ places.set i place, place'.At keys := by
    intro i place hplace place' hmem
    rcases List.mem_or_eq_of_mem_set hmem with hmem | rfl
    · exact hplaces place' hmem
    · exact hplace
  cases call with
  | begin reverse =>
    cases h
    exact happend (Place.at_begin reverse)
  | behind reverse =>
    cases h
    exact happend (Place.at_behind reverse)
  | find key =>
    cases h
    exact happend Place.at_forward_find
  | lowerBound key =>
    cases h
    exact happend Place.at_forward_find
  | upperBound key =>
    cases h
    exact happend Place.at_forward_find
  | copy i =>
    obtain ⟨place, hi, hanswer⟩ := Option.map_eq_some_iff.mp h
    cases hanswer
    exact happend (hplaces place (List.mem_of_getElem? hi))
  | increment i =>
    obtain ⟨place, hi, h⟩ := Option.bind_eq_some_iff.mp h
    obtain ⟨place', hplace', h⟩ := Option.bind_eq_some_iff.mp h
    cases h
    exact hset (Place.at_increment hplace')
  | decrement i =>
    obtain ⟨place, hi, h⟩ := Option.bind_eq_some_iff.mp h
    obtain ⟨place', hplace', h⟩ := Option.bind_eq_some_iff.mp h
    cases h
    exact hset (Place.at_decrement hplace')
  | equal i j =>
    obtain ⟨place, hi, h⟩ := Option.bind_eq_some_iff.mp h
    obtain ⟨place', hj, h⟩ := Option.bind_eq_some_iff.mp h
    cases place <;> cases place' <;> cases h
    · exact hplaces
    · exact hplaces
  | first i =>
    obtain ⟨place, hi, h⟩ := Option.bind_eq_some_iff.mp h
    obtain ⟨key, hkey, h⟩ := Option.bind_eq_some_iff.mp h
    cases h
    exact hplaces

theorem Mirrored.place (h : Mirrored lib written s m) {call : PlaceRequest r.Key}
    (hcall : (call.answer r s.keys s.places).isSome = true) :
    ∃ s' m' events, Simulated lib written s m (.place call) s' m' events := by
  obtain ⟨⟨places, answer⟩, hanswer⟩ := Option.isSome_iff_exists.mp hcall
  have hsame := hanswer
  rw [h.keys_eq, h.places] at hsame
  have hstep : Reader.step lib (.place call) s =
      .ok ({ s with places := places }, [.answered (.place call) answer]) := by
    unfold Reader.step
    dsimp only
    rw [hanswer]
  have hstep' : Mirror.step (.place call) m =
      .ok ({ m with places := places }, [.answered (.place call) answer]) := by
    unfold Mirror.step
    dsimp only
    rw [hsame]
  exact ⟨_, _, _, simulated_of_quiet hstep hstep' rfl
    ⟨h.writer, h.values, rfl, at_answer h.placed hanswer, h.handles⟩ fun _ hk => hk⟩

theorem Mirrored.second (h : Mirrored lib written s m) {i : ℕ}
    (hi : (s.places[i]?.bind (Place.key r.lt s.keys)).isSome = true) :
    ∃ s' m' events, Simulated lib written s m (.second i) s' m' events := by
  obtain ⟨key, hkey⟩ := Option.isSome_iff_exists.mp hi
  obtain ⟨place, hplace, hkeyOf⟩ := Option.bind_eq_some_iff.mp hkey
  have hmem : key ∈ s.keys := (h.placed place (List.mem_of_getElem? hplace)).key_mem hkeyOf
  have hcopied := hkey
  rw [h.keys_eq, h.places] at hcopied
  rcases h.find key with ⟨hnone, -⟩ | ⟨entry, copied, hentry, hvalue, hat⟩
  · -- the element of an iterator is in the map
    obtain ⟨entry, hentry, rfl⟩ := List.mem_map.mp hmem
    have hno := List.find?_eq_none.mp hnone entry hentry
    exact absurd (decide_eq_true (r.strictWeak.incomp_refl entry.1)) hno
  · have hstep : Reader.step lib (.second i) s =
        .ok (s.hold ⟨⟨entry.2, none⟩, false⟩, [.answered (.second i) .nothing]) := by
      unfold Reader.step
      dsimp only
      rw [hkey, Option.bind_some, hentry]
    have hstep' : Mirror.step (.second i) m =
        .ok (m.hold (copied.2, false), [.answered (.second i) .nothing]) := by
      unfold Mirror.step
      dsimp only
      rw [hcopied, Option.bind_some, hvalue]
    exact ⟨_, _, _, simulated_of_quiet hstep hstep' rfl (h.hold (handleOf_new hat))
      fun _ hk => hk.hold _⟩

theorem Mirrored.subscript (h : Mirrored lib written s m) (key : r.Key) :
    ∃ s' m' events, Simulated lib written s m (.subscript key) s' m' events := by
  rcases h.find key with ⟨hnone, hnone'⟩ | ⟨entry, copied, hentry, hvalue, hat⟩
  · have hstep : Reader.step lib (.subscript key) s =
        .ok (s, [.answered (.subscript key) (.threw .keyMissingError)]) := by
      unfold Reader.step IndexedFileState.subscriptLazy
      dsimp only
      rw [hnone]
    have hstep' : Mirror.step (.subscript key) m =
        .ok (m, [.answered (.subscript key) (.threw .keyMissingError)]) := by
      unfold Mirror.step
      dsimp only
      rw [hnone']
    exact ⟨_, _, _, simulated_of_quiet hstep hstep' rfl h fun _ hk => hk⟩
  · have hstep : Reader.step lib (.subscript key) s =
        .ok (s.hold ⟨⟨entry.2, none⟩, false⟩, [.answered (.subscript key) .nothing]) := by
      unfold Reader.step IndexedFileState.subscriptLazy
      dsimp only
      rw [hentry]
    have hstep' : Mirror.step (.subscript key) m =
        .ok (m.hold (copied.2, false), [.answered (.subscript key) .nothing]) := by
      unfold Mirror.step
      dsimp only
      rw [hvalue]
    exact ⟨_, _, _, simulated_of_quiet hstep hstep' rfl (h.hold (handleOf_new hat))
      fun _ hk => hk.hold _⟩

theorem Mirrored.copy (h : Mirrored lib written s m) {k : ℕ} (hk : k < s.handles.length) :
    ∃ s' m' events, Simulated lib written s m (.copy k) s' m' events := by
  have hhandle := List.getElem?_eq_getElem hk
  obtain ⟨copied, hcopied, hof⟩ := forall₂_getElem? h.handles hhandle
  have hstep : Reader.step lib (.copy k) s =
      .ok (s.hold s.handles[k], [.answered (.copy k) .nothing]) := by
    unfold Reader.step
    dsimp only
    rw [hhandle]
  have hstep' : Mirror.step (.copy k) m = .ok (m.hold copied, [.answered (.copy k) .nothing]) := by
    unfold Mirror.step
    dsimp only
    rw [hcopied]
  exact ⟨_, _, _, simulated_of_quiet hstep hstep' rfl (h.hold hof) fun _ hk => hk.hold _⟩

/-- Reads and then an answer. -/
theorem simulated_of_forced {request : Request r} {answer : Answer r} {value : r.Value}
    {taken : Bool} {accessor : EncodedBlockAccessor r.toAbstractRealm} {s' s'' : Reader r}
    {m' : Mirror r} {reads : List (ReaderEvent r)}
    (hforced : Forced lib written s m value taken accessor s' reads)
    (htaken : Reader.step lib request s = .ok (s'', reads ++ [.answered request answer]))
    (hcopied : Mirror.step request m = .ok (m', [.answered request answer]))
    (hquiet : ReaderEvent.inserts (.answered request answer) = none)
    (hmirrored : Mirrored lib written s'' m') (hkept : ∀ k, Evaluated s' k → Evaluated s'' k) :
    Simulated lib written s m request s'' m' (reads ++ [.answered request answer]) where
  taken := htaken
  copied := by
    rw [hcopied, List.filter_append, hforced.unanswered]
    rfl
  mirrored := by
    rw [List.filterMap_append, hforced.uninserted, List.filterMap_cons_none hquiet,
      List.filterMap_nil, List.append_nil, List.append_nil]
    exact hmirrored
  fresh := hforced.fresh.answered hkept request answer

theorem Mirrored.is (h : Mirrored lib written s m) (build : Build) {k : ℕ} (i : ι)
    (hk : k < s.handles.length) :
    ∃ s' m' events, Simulated lib written s m (.is build k i) s' m' events := by
  obtain ⟨value, accessor, s', reads, hcopied, hforce, hforced⟩ :=
    h.force build (List.getElem?_eq_getElem hk)
  have his : accessor.is i = (r.lookupId i == r.lookupId value.1) := by
    unfold EncodedBlockAccessor.is
    rw [hforced.typed]
  have hstep : Reader.step lib (.is build k i) s = .ok (s',
      reads ++ [.answered (.is build k i) (.flag (r.lookupId i == r.lookupId value.1))]) := by
    unfold Reader.step
    dsimp only
    rw [hforce]
    dsimp only
    rw [his]
  have hstep' : Mirror.step (.is build k i) m =
      .ok (m, [.answered (.is build k i) (.flag (r.lookupId i == r.lookupId value.1))]) := by
    unfold Mirror.step
    dsimp only
    rw [hcopied]
  exact ⟨_, _, _, simulated_of_forced hforced hstep hstep' rfl hforced.mirrored fun _ hk => hk⟩

theorem Mirrored.as (h : Mirrored lib written s m) (build : Build) (fresh : Memory) {k : ℕ} (i : ι)
    {handle : Handle r} (hk : s.handles[k]? = some handle) (hnot : handle.taken = false) :
    ∃ s' m' events, Simulated lib written s m (.as build fresh k i) s' m' events := by
  obtain ⟨⟨j, value⟩, accessor, s', reads, hcopied, hforce, hforced⟩ := h.force build hk
  rw [hnot] at hcopied hforced
  have hblock := hforced.whole rfl
  by_cases hij : r.lookupId i = r.lookupId j
  · obtain rfl : i = j := r.lookupId_injective hij
    obtain ⟨accessor', has, htype⟩ := as_of_holds build fresh hblock.1 hblock.2
    have hstep : Reader.step lib (.as build fresh k i) s = .ok (s'.put k accessor' true,
        reads ++ [.answered (.as build fresh k i) (.value ⟨i, value⟩)]) := by
      unfold Reader.step
      dsimp only
      rw [hforce]
      dsimp only
      rw [show EncodedBlockAccessor.as build lib fresh i accessor = _ from has]
    have hstep' : Mirror.step (.as build fresh k i) m =
        .ok ({ m with handles := m.handles.modify k fun copied => (copied.1, copied.2 || true) },
          [.answered (.as build fresh k i) (.value ⟨i, value⟩)]) := by
      unfold Mirror.step
      dsimp only
      rw [hcopied]
      simp only [Bool.or_true, if_pos]
    exact ⟨_, _, _, simulated_of_forced hforced hstep hstep' rfl
      (hforced.mirrored.put hcopied (htype.trans hblock.1) nofun)
      fun _ hk => hk.put k accessor' true⟩
  · have has := EncodedBlockAccessor.as_of_ne build lib fresh
      (show accessor.block.contentType ≠ r.lookupId i from hforced.typed ▸ Ne.symm hij)
    have hstep : Reader.step lib (.as build fresh k i) s = .ok (s'.put k accessor false,
        reads ++ [.answered (.as build fresh k i) (.threw .typeMismatchError)]) := by
      unfold Reader.step
      dsimp only
      rw [hforce]
      dsimp only
      rw [has]
    have hstep' : Mirror.step (.as build fresh k i) m =
        .ok (m, [.answered (.as build fresh k i) (.threw .typeMismatchError)]) := by
      unfold Mirror.step
      dsimp only
      rw [hcopied]
      dsimp only
      rw [if_neg hij]
    exact ⟨_, _, _, simulated_of_forced hforced hstep hstep' rfl
      (hforced.mirrored.put_false hcopied hforced.typed fun _ => hblock)
      fun _ hk => hk.put k accessor false⟩

/-- Every call that may be made returns, and its answer is the one it has in memory. -/
theorem Mirrored.step (h : Mirrored lib written s m) {request : Request r}
    (hallowed : s.Allowed request) :
    ∃ s' m' events, Simulated lib written s m request s' m' events := by
  cases request with
  | insert host key value => exact h.insert host key hallowed.2.1 hallowed.2.2
  | size =>
    have hsize : s.file.size = BitVec.ofNat 64 m.values.length := by
      show BitVec.ofNat 64 s.file.index.map.elems.length = _
      rw [h.entries.length_eq]
    have hstep : Reader.step lib .size s =
        .ok (s, [.answered .size (.size (BitVec.ofNat 64 m.values.length))]) := by
      unfold Reader.step
      dsimp only
      rw [hsize]
    exact ⟨_, _, _, simulated_of_quiet hstep rfl rfl h fun _ hk => hk⟩
  | indices =>
    have hstep : Reader.step lib .indices s = .ok (s, [.answered .indices (.keys m.keys)]) := by
      unfold Reader.step
      dsimp only
      rw [← h.keys_eq]
      rfl
    exact ⟨_, _, _, simulated_of_quiet hstep rfl rfl h fun _ hk => hk⟩
  | place call => exact h.place hallowed
  | second i => exact h.second hallowed
  | subscript key => exact h.subscript key
  | copy k => exact h.copy hallowed
  | is build k i => exact h.is build i hallowed
  | as build fresh k i =>
    obtain ⟨handle, hk, hnot⟩ := hallowed
    exact h.as build fresh i hk hnot

end Steps

/-! ## Runs -/

section Runs

variable {ι : Type} {r : KeyedRealm ι}

/-- The map in memory, before anything has been asked. -/
def Mirror.start (written : List (r.Key × r.Value)) : Mirror r := ⟨assignAll r.lt written, [], []⟩

/-- The objects of a file that can be read: the one of the session that is going on,
    and between two sessions those that open the file as input. -/
inductive Opened (lib : Libraries) (p : Program r) : Reader r → Prop
  | output {object : IndexedFile r} (hobject : p.object = some object) :
    Opened lib p ⟨true, object, [], []⟩
  | input {build : Build} {heap : ℕ → Memory} {index : BlocksIndex r} {stream : StdStream}
    (hnone : p.object = none) (hcreated : p.created = true)
    (hopen : openIndexedInputFile r build lib heap (inputFile p.file) = .ok index stream) :
    Opened lib p ⟨false, ⟨⟨some stream, index⟩, false⟩, [], []⟩

variable {lib : Libraries} {past : List (Change r)} {p : Program r}

theorem mirrored_start {object : IndexedFile r} {written : List (r.Key × r.Value)}
    (h : WriterAt lib object written) (writable : Bool) :
    Mirrored lib written ⟨writable, object, [], []⟩ (Mirror.start written) where
  writer := h
  values := rfl
  places := rfl
  placed := nofun
  handles := .nil

/-- Every object shows what has been written. -/
theorem FileInv.mirrored (h : FileInv lib past p) {start : Reader r}
    (hopened : Opened lib p start) :
    Mirrored lib (written past) start (Mirror.start (written past)) := by
  cases hopened with
  | output hobject => exact mirrored_start (h.writing hobject) true
  | @input build heap index stream hnone hcreated hopen =>
    obtain ⟨index', hhas, hends⟩ := h.finished hnone hcreated
    obtain ⟨body, hfile⟩ := hhas.header
    obtain ⟨stream', hopen', hworking⟩ := openIndexedInputFile_eq build heap body hfile hends
    cases hopen.symm.trans hopen'
    exact mirrored_start ⟨p.file, stream, rfl, hworking, hhas, fun _ => hends⟩ false

/-- The invariant of the runs of calls. -/
structure ReaderInv (lib : Libraries) (written : List (r.Key × r.Value))
    (events : List (ReaderEvent r)) (s : Reader r) (m : Mirror r) : Prop where
  copied : RunsTo Mirror.step (fun _ _ => True) (Mirror.start written)
    (events.filter ReaderEvent.isAnswer) m
  mirrored : Mirrored lib (written ++ events.filterMap ReaderEvent.inserts) s m
  once : (events.filterMap ReaderEvent.reads).Nodup
  evaluated : ∀ k ∈ events.filterMap ReaderEvent.reads, Evaluated s k

/-- A call keeps it. -/
theorem ReaderInv.step {written : List (r.Key × r.Value)} {events : List (ReaderEvent r)}
    {s : Reader r} {m : Mirror r} (h : ReaderInv lib written events s m) {request : Request r}
    (hallowed : s.Allowed request) :
    ∃ s' m' more, Reader.step lib request s = .ok (s', more) ∧
      ReaderInv lib written (events ++ more) s' m' := by
  obtain ⟨s', m', more, hsim⟩ := h.mirrored.step hallowed
  have hcopied := h.copied.step trivial hsim.copied
  have hmirrored := hsim.mirrored
  rw [List.append_assoc, ← List.filterMap_append] at hmirrored
  rw [← List.filter_append] at hcopied
  have hkept : ∀ k ∈ events.filterMap ReaderEvent.reads, Evaluated s' k := fun k hk =>
    hsim.fresh.kept k (h.evaluated k hk)
  refine ⟨s', m', more, hsim.taken, hcopied, hmirrored, ?_, ?_⟩
  · rw [List.filterMap_append]
    rcases hsim.fresh.reads with hnil | ⟨k, hone, hfresh, -⟩
    · rw [hnil, List.append_nil]
      exact h.once
    · rw [hone]
      -- what is read now had not been evaluated, so it had not been read
      refine List.Nodup.append h.once (List.nodup_singleton k) ?_
      rw [List.disjoint_singleton]
      exact fun hmem => hfresh (h.evaluated k hmem)
  · intro k hk
    rw [List.filterMap_append, List.mem_append] at hk
    rcases hk with hk | hk
    · exact hkept k hk
    · rcases hsim.fresh.reads with hnil | ⟨j, hone, -, hj⟩
      · rw [hnil] at hk
        cases hk
      · rw [hone, List.mem_singleton] at hk
        exact hk ▸ hj

theorem readerInv_of_runsTo {written : List (r.Key × r.Value)} {start s : Reader r}
    {events : List (ReaderEvent r)} (h : Mirrored lib written start (Mirror.start written))
    (hrun : RunsTo (Reader.step lib) Reader.Allowed start events s) :
    ∃ m, ReaderInv lib written events s m := by
  have hinit : ReaderInv lib written [] start (Mirror.start written) :=
    ⟨.init, (List.append_nil written).symm ▸ h, List.nodup_nil, nofun⟩
  refine hrun.invariant (I := fun events s => ∃ m, ReaderInv lib written events s m) ⟨_, hinit⟩ ?_
  rintro events more s s' request ⟨m, hinv⟩ hallowed hstep
  obtain ⟨s'', m', more', hstep', hinv'⟩ := hinv.step hallowed
  cases hstep.symm.trans hstep'
  exact ⟨m', hinv'⟩

/-- An open file reads like a map in memory that held, when the file was opened,
    the values that were inserted last: no call that may be made fails, whatever
    iterators and lazy values are held and in whatever order they are used, and
    every answer is the one the map would have given. A lazy value gives what its
    entry had when it was looked up, also if the key has got another value since.
    It reads the file at most once. The session can go on as if nothing had been
    read. -/
theorem lazy_reads (hlib : KeepsMarkerSize lib) {file : List Byte}
    (h : RunsTo (Program.step lib) (Admitted lib) (Program.start r file) past p)
    {start s : Reader r} (hopened : Opened lib p start) {events : List (ReaderEvent r)}
    (hrun : RunsTo (Reader.step lib) Reader.Allowed start events s) :
    (∀ request, s.Allowed request →
      ∃ s' more, Reader.step lib request s = .ok (s', more)) ∧
    (∃ m, RunsTo Mirror.step (fun _ _ => True) (Mirror.start (written past))
      (events.filter ReaderEvent.isAnswer) m) ∧
    (events.filterMap ReaderEvent.reads).Nodup ∧
    WriterAt lib s.file (written past ++ events.filterMap ReaderEvent.inserts) := by
  have hstart := (fileInv_of_runsTo hlib h).mirrored hopened
  obtain ⟨m, hinv⟩ := readerInv_of_runsTo hstart hrun
  refine ⟨fun request hallowed => ?_, ⟨m, hinv.copied⟩, hinv.once, hinv.mirrored.writer⟩
  obtain ⟨s', m', more, hstep, -⟩ := hinv.step hallowed
  exact ⟨s', more, hstep⟩

/-- An iterator is at the first element of a file with one entry. -/
def atFirst : Reader byteFiles :=
  ⟨true, filledObject, [.forward (some (1 : BitVec (8 * 1)))], []⟩

/-- Its value has been looked up. -/
def firstLooked : Reader byteFiles := atFirst.hold ⟨⟨8, none⟩, false⟩

theorem runsTo_atFirst : RunsTo (Reader.step Libraries.stored) Reader.Allowed
    (⟨true, filledObject, [], []⟩ : Reader byteFiles)
    ([] ++ [.answered (.place (.begin false)) .nothing]) atFirst :=
  RunsTo.init.step (show Reader.Allowed _ (.place (.begin false)) from rfl) rfl

theorem runsTo_firstLooked : RunsTo (Reader.step Libraries.stored) Reader.Allowed
    (⟨true, filledObject, [], []⟩ : Reader byteFiles)
    [.answered (.place (.begin false)) .nothing, .answered (.second 0) .nothing] firstLooked :=
  runsTo_atFirst.step (show Reader.Allowed _ (.second 0) from rfl) rfl

theorem lazy_reads_firstLooked :
    (∀ request, firstLooked.Allowed request →
      ∃ s' more, Reader.step Libraries.stored request firstLooked = .ok (s', more)) ∧
    (∃ m, RunsTo Mirror.step (fun _ _ => True)
      (Mirror.start [((1 : BitVec (8 * 1)), (⟨(), (7 : BitVec (8 * 1))⟩ : byteFiles.Value))])
      [.answered (.place (.begin false)) .nothing, .answered (.second 0) .nothing] m) ∧
    ([] : List ℕ).Nodup ∧
    WriterAt Libraries.stored filledObject
      [((1 : BitVec (8 * 1)), (⟨(), (7 : BitVec (8 * 1))⟩ : byteFiles.Value))] :=
  lazy_reads keepsMarkerSize_stored runsTo_filledFile (.output rfl) runsTo_firstLooked

end Runs

/-! ## Loops -/

section Loops

variable {ι : Type} {r : KeyedRealm ι} {lib : Libraries} {written : List (r.Key × r.Value)}
  {s s' : Reader r} {m m' : Mirror r}

/-- What the body of a loop over iterator `i` may do: anything but move it. -/
def BodyAllowed (i : ℕ) (s : Reader r) (request : Request r) : Prop :=
  s.Allowed request ∧ request ≠ .place (.increment i) ∧ request ≠ .place (.decrement i)

/-- `for (; it != file.end(); ++it)` from `s` to `t`, with the keys it comes to. -/
inductive Sweep (lib : Libraries) (i : ℕ) : Reader r → List r.Key → Reader r → Prop
  | done {s : Reader r} (hend : s.places[i]? = some (.forward none)) : Sweep lib i s [] s
  | visit {s s' s'' t : Reader r} {key : r.Key} {keys : List r.Key}
    {events more : List (ReaderEvent r)} (hat : s.places[i]? = some (.forward (some key)))
    (body : RunsTo (Reader.step lib) (BodyAllowed i) s events s')
    (incremented : Reader.step lib (.place (.increment i)) s' = .ok (s'', more))
    (rest : Sweep lib i s'' keys t) : Sweep lib i s (key :: keys) t

/-- Calls never remove a key. -/
theorem keys_subset_step {request : Request r} {events : List (ReaderEvent r)}
    (h : Mirror.step request m = .ok (m', events)) : m.keys ⊆ m'.keys := by
  cases request with
  | insert host key value =>
    cases h
    exact keys_subset_assign key value m.values
  | size =>
    cases h
    exact List.Subset.refl _
  | indices =>
    cases h
    exact List.Subset.refl _
  | _ =>
    unfold Mirror.step at h
    dsimp only at h
    split at h <;> (try split at h) <;> cases h
    all_goals exact List.Subset.refl _

/-- Calls other than `++` and `--` leave an iterator where it is. -/
theorem place_kept_step {request : Request r} {events : List (ReaderEvent r)} {i : ℕ}
    {place : Place r.Key} (h : Mirror.step request m = .ok (m', events))
    (hi : m.places[i]? = some place) (hinc : request ≠ .place (.increment i))
    (hdec : request ≠ .place (.decrement i)) : m'.places[i]? = some place := by
  have happend : ∀ more, (m.places ++ more)[i]? = some place := fun more =>
    (List.getElem?_append_left (List.getElem?_eq_some_iff.mp hi).1).trans hi
  have hset : ∀ {j} place', j ≠ i → (m.places.set j place')[i]? = some place :=
    fun place' hne => (List.getElem?_set_ne hne).trans hi
  cases request with
  | insert host key value =>
    cases h
    exact hi
  | size =>
    cases h
    exact hi
  | indices =>
    cases h
    exact hi
  | place call =>
    unfold Mirror.step at h
    dsimp only at h
    split at h
    · rename_i places answer hanswer
      cases h
      cases call with
      | increment j =>
        obtain ⟨_, -, hanswer⟩ := Option.bind_eq_some_iff.mp hanswer
        obtain ⟨_, -, hanswer⟩ := Option.bind_eq_some_iff.mp hanswer
        cases hanswer
        exact hset _ fun hji => hinc (hji ▸ rfl)
      | decrement j =>
        obtain ⟨_, -, hanswer⟩ := Option.bind_eq_some_iff.mp hanswer
        obtain ⟨_, -, hanswer⟩ := Option.bind_eq_some_iff.mp hanswer
        cases hanswer
        exact hset _ fun hji => hdec (hji ▸ rfl)
      | copy j =>
        obtain ⟨_, -, hanswer⟩ := Option.map_eq_some_iff.mp hanswer
        cases hanswer
        exact happend _
      | equal j k =>
        obtain ⟨place, -, hanswer⟩ := Option.bind_eq_some_iff.mp hanswer
        obtain ⟨place', -, hanswer⟩ := Option.bind_eq_some_iff.mp hanswer
        cases place <;> cases place' <;> cases hanswer
        · exact hi
        · exact hi
      | first j =>
        obtain ⟨_, -, hanswer⟩ := Option.bind_eq_some_iff.mp hanswer
        obtain ⟨_, -, hanswer⟩ := Option.bind_eq_some_iff.mp hanswer
        cases hanswer
        exact hi
      | _ =>
        cases hanswer
        exact happend _
    · cases h
  | _ =>
    unfold Mirror.step at h
    dsimp only at h
    split at h <;> (try split at h) <;> cases h
    all_goals exact hi

/-- A step, seen from one iterator. -/
theorem Mirrored.step_kept (h : Mirrored lib written s m) {request : Request r}
    (hallowed : s.Allowed request) {events : List (ReaderEvent r)}
    (hstep : Reader.step lib request s = .ok (s', events)) :
    ∃ m', Mirror.step request m = .ok (m', events.filter ReaderEvent.isAnswer) ∧
      Mirrored lib (written ++ events.filterMap ReaderEvent.inserts) s' m' ∧ s.keys ⊆ s'.keys := by
  obtain ⟨s'', m', events', hsim⟩ := h.step hallowed
  cases hstep.symm.trans hsim.taken
  refine ⟨m', hsim.copied, hsim.mirrored, ?_⟩
  rw [h.keys_eq, hsim.mirrored.keys_eq]
  exact keys_subset_step hsim.copied

/-- The body of a loop leaves its iterator where it is, and the keys in the map. -/
theorem Mirrored.body (h : Mirrored lib written s m) {i : ℕ} {events : List (ReaderEvent r)}
    (hrun : RunsTo (Reader.step lib) (BodyAllowed i) s events s') {place : Place r.Key}
    (hi : s.places[i]? = some place) :
    ∃ written' m', Mirrored lib written' s' m' ∧ s.keys ⊆ s'.keys ∧
      s'.places[i]? = some place := by
  refine hrun.invariant (I := fun _ s' => ∃ written' m', Mirrored lib written' s' m' ∧
    s.keys ⊆ s'.keys ∧ s'.places[i]? = some place) ⟨_, m, h, List.Subset.refl _, hi⟩ ?_
  rintro past events s₁ s₂ request ⟨written', m', hm, hkeys, hi'⟩ ⟨hallowed, hinc, hdec⟩ hstep
  obtain ⟨m'', hcopied, hm', hkeys'⟩ := hm.step_kept hallowed hstep
  refine ⟨_, m'', hm', List.Subset.trans hkeys hkeys', ?_⟩
  rw [hm'.places]
  rw [hm.places] at hi'
  exact place_kept_step hcopied hi' hinc hdec

theorem step_increment (lib : Libraries) {i : ℕ} {key : r.Key}
    (hi : s.places[i]? = some (.forward (some key))) :
    Reader.step lib (.place (.increment i)) s =
      .ok ({ s with places := s.places.set i (.forward (next r.lt s.keys key)) },
        [.answered (.place (.increment i)) .nothing]) := by
  have hanswer : (PlaceRequest.increment i).answer r s.keys s.places =
      some (s.places.set i (.forward (next r.lt s.keys key)), .nothing) := by
    rw [PlaceRequest.answer, hi]
    rfl
  unfold Reader.step
  dsimp only
  rw [hanswer]

theorem keys_ascending (s : Reader r) : Ascending r.lt s.keys :=
  List.pairwise_map.mpr s.file.index.map.ascending

/-- The keys a loop comes to: those at its iterator and after, in ascending order. -/
theorem Sweep.visits {i : ℕ} {keys : List r.Key} {t : Reader r} (hsweep : Sweep lib i s keys t)
    (h : Mirrored lib written s m) :
    ∃ node, s.places[i]? = some (.forward node) ∧ Ascending r.lt keys ∧
      (∀ k ∈ keys, ∃ key, node = some key ∧ r.lt k key = false) ∧
      (∀ key, node = some key → ∀ k ∈ s.keys, r.lt k key = false → k ∈ keys) ∧
      keys ⊆ t.keys ∧ s.keys ⊆ t.keys := by
  induction hsweep generalizing written m with
  | @done s hend =>
    exact ⟨none, hend, List.Pairwise.nil, nofun, nofun, List.nil_subset _, List.Subset.refl _⟩
  | @visit s s' s'' t key keys events more hat body incremented rest ih =>
    obtain ⟨written', m', h', hkeys, hat'⟩ := h.body body hat
    have hstep := step_increment lib hat'
    cases incremented.symm.trans hstep
    have hallowed : s'.Allowed (.place (.increment i)) := by
      show ((PlaceRequest.increment i).answer r s'.keys s'.places).isSome = true
      rw [PlaceRequest.answer, hat']
      rfl
    obtain ⟨m'', -, h'', -⟩ := h'.step_kept hallowed hstep
    obtain ⟨node, hnode, hascending, hbehind, hall, hsub, hgrow⟩ := ih h''
    have hnext : node = next r.lt s'.keys key := by
      have hlen := (List.getElem?_eq_some_iff.mp hat').1
      have hset := (List.getElem?_set_self hlen).symm.trans hnode
      cases hset
      rfl
    have hkey : key ∈ s'.keys := h'.placed _ (List.mem_of_getElem? hat')
    -- what comes later is behind this key
    have hafter : ∀ k ∈ keys, r.lt key k = true := by
      intro k hk
      obtain ⟨key', hkey', hle⟩ := hbehind k hk
      obtain ⟨-, hlt, -⟩ := next_eq_some r.strictWeak (keys_ascending s') (hnext.symm.trans hkey')
      by_contra hno
      exact absurd (r.strictWeak.negTrans (eq_false_of_ne_true hno) hle) (ne_false_of_eq_true hlt)
    refine ⟨some key, hat, List.pairwise_cons.mpr ⟨hafter, hascending⟩, ?_, ?_, ?_,
      List.Subset.trans hkeys hgrow⟩
    · intro k hk
      refine ⟨key, rfl, ?_⟩
      rcases List.mem_cons.mp hk with rfl | hk
      · exact r.strictWeak.irrefl k
      · exact r.strictWeak.asymm (hafter k hk)
    · intro key' hkey' k hk hle
      cases hkey'
      cases hlt : r.lt key k with
      | false =>
        rw [eq_of_incomp (keys_ascending s') (hkeys hk) hkey ⟨hle, hlt⟩]
        exact List.mem_cons_self
      | true =>
        cases hn : next r.lt s'.keys key with
        | none => exact absurd hlt (ne_true_of_eq_false (next_eq_none hn (hkeys hk)))
        | some key' =>
          obtain ⟨-, -, hleast⟩ := next_eq_some r.strictWeak (keys_ascending s') hn
          exact List.mem_cons_of_mem _
            (hall key' (hnext.trans hn) k (hkeys hk) (hleast k (hkeys hk) hlt))
    · intro k hk
      rcases List.mem_cons.mp hk with rfl | hk
      · exact hgrow hkey
      · exact hsub hk

/-- A loop over all of a file comes to its keys in ascending order, to each of them
    once, and misses none that the file had at its beginning, whatever is inserted
    and read while it goes on. If no key is new, it comes to the keys of the file. -/
theorem sweep_visits {past : List (Change r)} {p : Program r} (hlib : KeepsMarkerSize lib)
    {file : List Byte}
    (h : RunsTo (Program.step lib) (Admitted lib) (Program.start r file) past p)
    {start : Reader r} (hopened : Opened lib p start) {events : List (ReaderEvent r)}
    (hrun : RunsTo (Reader.step lib) Reader.Allowed start events s) {i : ℕ}
    (hbegin : s.places[i]? = some (.begin s.keys false)) {keys : List r.Key} {t : Reader r}
    (hsweep : Sweep lib i s keys t) :
    Ascending r.lt keys ∧ s.keys ⊆ keys ∧ keys ⊆ t.keys ∧ (t.keys ⊆ s.keys → keys = s.keys) := by
  obtain ⟨m, hinv⟩ := readerInv_of_runsTo ((fileInv_of_runsTo hlib h).mirrored hopened) hrun
  obtain ⟨node, hnode, hascending, -, hall, hsub, -⟩ := hsweep.visits hinv.mirrored
  have hhead : node = s.keys.head? := by
    cases hbegin.symm.trans hnode
    rfl
  have hmissed : s.keys ⊆ keys := by
    intro k hk
    cases hkeys : s.keys with
    | nil =>
      rw [hkeys] at hk
      cases hk
    | cons key rest =>
      refine hall key (by rw [hhead, hkeys]; rfl) k hk ?_
      have hsorted := keys_ascending s
      rw [hkeys] at hsorted hk
      rcases List.mem_cons.mp hk with rfl | hk
      · exact r.strictWeak.irrefl k
      · exact r.strictWeak.asymm ((List.pairwise_cons.mp hsorted).1 k hk)
  exact ⟨hascending, hmissed, hsub, fun hold => eq_of_subset_of_ascending r.strictWeak hascending
    (keys_ascending s) (List.Subset.trans hsub hold) hmissed⟩

/-- An iterator is behind it. -/
def behindFirst : Reader byteFiles := ⟨true, filledObject, [.forward none], []⟩

theorem sweep_atFirst :
    Sweep Libraries.stored 0 atFirst [(1 : BitVec (8 * 1))] behindFirst :=
  .visit rfl .init rfl (.done rfl)

theorem sweep_visits_atFirst :
    Ascending byteFiles.lt [(1 : BitVec (8 * 1))] ∧ atFirst.keys ⊆ [(1 : BitVec (8 * 1))] ∧
      [(1 : BitVec (8 * 1))] ⊆ behindFirst.keys ∧
      (behindFirst.keys ⊆ atFirst.keys → [(1 : BitVec (8 * 1))] = atFirst.keys) :=
  sweep_visits keepsMarkerSize_stored runsTo_filledFile (.output rfl) runsTo_atFirst
    (i := 0) rfl sweep_atFirst

end Loops

end BambooShoot.Pbsf
