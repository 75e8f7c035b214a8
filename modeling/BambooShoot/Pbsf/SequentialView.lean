import BambooShoot.Pbsf.IndexedSessions

/-!
# Sequential view of a file

What `read_one_type` finds in a file after any number of sessions that wrote to
it, some of them with `open_sequential_output_file` and some with
`open_indexed_output_file` and any `Key`. `Carries` says that a file consists of a
header and of blocks, of which those of each type hold its values.

Results:
* `Carries.value`, `Carries.metaBlock`: one more block;
* `Carries.writeValues`, `WritesTo.insertAll`, `WritesTo.destroy`: what a session does;
* `Session.run_carries`: a whole session;
* `sequential_view`: all sessions, and what is read behind them.
-/

namespace BambooShoot.Pbsf

open BambooShoot.Lib BambooShoot.Pbss

/-! ## Sessions -/

section Model

variable {ι : Type}

/-- A `Key` of an indexed file in the realm, with its `std::less`. -/
structure KeyType (r : Realm ι) where
  key : ι
  lt : r.type key → r.type key → Bool
  strictWeak : StrictWeak lt

/-- The realm with the `Key`. -/
@[reducible] def KeyType.files {r : Realm ι} (k : KeyType r) : KeyedRealm ι where
  toRealm := r
  key := k.key
  lt := k.lt
  strictWeak := k.strictWeak

/-- A session that writes to a file. The environment and the memory may be others
    at any time. -/
inductive Session (r : Realm ι) where
  /-- `open_sequential_output_file(filename, r, overwrite)`, and assignments to
      iterators over it. -/
  | sequential (build : Build) (overwrite : Bool) (writes : List (Host × List r.Value))
  /-- `open_indexed_output_file<Key>(filename, r, overwrite)`, inserts, and the
      destructor. -/
  | indexed (build : Build) (overwrite : Bool) (k : KeyType r) (heap : ℕ → Memory)
      (inserts : List (Host × r.type k.key × r.Value)) (host host' : Host)

variable {r : Realm ι} (lib : Libraries)

/-- The file is truncated. -/
def Session.overwrite : Session r → Bool
  | .sequential _ overwrite _ => overwrite
  | .indexed _ overwrite _ _ _ _ _ => overwrite

/-- The values it writes, in order. -/
def Session.values : Session r → List r.Value
  | .sequential _ _ writes => writes.flatMap fun w => w.2
  | .indexed _ _ _ _ inserts _ _ => inserts.map fun w => w.2.2

/-- One `write_iterator` after the other. -/
def writeValues (writes : List (Host × List r.Value)) : Run StdStream Unit :=
  writes.forM fun w => writeAll r lib w.1 w.2

/-- Inserting values, one after the other. -/
def IndexedFile.insertAll {r : KeyedRealm ι} (inserts : List (Host × r.Key × r.Value)) :
    Run (IndexedFile r) Unit :=
  inserts.forM fun w => IndexedFile.insert lib w.1 w.2.1 w.2.2

/-- The file a session leaves behind that returns. -/
def Session.run (file : List Byte) : Session r → Except Stop (List Byte)
  | .sequential build overwrite writes =>
    match (openSequentialOutputFile r build >>= fun _ => writeValues lib writes)
      (outputFile file overwrite) with
    | .ok () stream => .ok stream.bytes
    | .error stop _ => .error stop
  | .indexed build overwrite k heap inserts host host' =>
    match openIndexedOutputFile k.files build lib heap (outputFile file overwrite) with
    | .ok (index, isNew) stream =>
      match (IndexedFile.insertAll lib inserts >>= fun _ => IndexedFile.destroy lib host host')
        (⟨⟨some stream, index⟩, isNew⟩ : IndexedFile k.files) with
      | .ok () object => .ok object.bytes
      | .error stop _ => .error stop
    | .error stop _ => .error stop

/-- Sessions, one after the other. -/
def runSessions (file : List Byte) : List (Session r) → Except Stop (List Byte)
  | [] => .ok file
  | session :: sessions =>
    match session.run lib file with
    | .ok file => runSessions file sessions
    | .error stop => .error stop

/-- What is in the file behind a session, in front of which there was `values`. -/
def Session.after (values : List r.Value) (session : Session r) : List r.Value :=
  if session.overwrite then session.values else values ++ session.values

/-- The values since the last truncation. -/
def writtenSince (sessions : List (Session r)) : List r.Value := sessions.foldl Session.after []

end Model

/-! ## What a file carries -/

section Blocks

variable {ι : Type} [DecidableEq ι] (lib : Libraries) (r : Realm ι)

/-- A header and blocks; those of each type hold its values. -/
def Carries (file : List Byte) (values : List r.Value) : Prop :=
  ∃ blocks : List EncodedBlock, file = headerBytes r ++ blocks.flatMap blockBytes ∧
    ∀ i, List.Forall₂ (Holds lib (r.ty i)) (blocks.filter (checkId (r.lookupId i)))
      (r.valuesOf i values)

variable {lib r} {file : List Byte} {values : List r.Value} {block : EncodedBlock}

theorem carries_header : Carries lib r (headerBytes r) [] := by
  refine ⟨[], ?_, fun i => List.Forall₂.nil⟩
  rw [List.flatMap_nil, List.append_nil]

/-- The block of a value. -/
theorem Carries.value (h : Carries lib r file values) {value : r.Value}
    (hid : block.contentType = r.lookupId value.1)
    (hholds : Holds lib (r.ty value.1) block value.2) :
    Carries lib r (file ++ blockBytes block) (values ++ [value]) := by
  obtain ⟨blocks, rfl, hblocks⟩ := h
  refine ⟨blocks ++ [block], ?_, fun i => ?_⟩
  · rw [List.flatMap_append, List.flatMap_singleton, List.append_assoc]
  · rw [List.filter_append, valuesOf_append]
    apply List.rel_append (hblocks i)
    obtain ⟨j, v⟩ := value
    by_cases hj : j = i
    · subst hj
      have hcheck : checkId (r.lookupId j) block = true := beq_iff_eq.2 hid
      rw [List.filter_cons_of_pos hcheck, valuesOf_cons_eq]
      exact List.Forall₂.cons hholds List.Forall₂.nil
    · have hne : r.lookupId j ≠ r.lookupId i := fun heq => hj (r.lookupId_injective heq)
      have hcheck : ¬ checkId (r.lookupId i) block = true := by
        intro hcheck
        exact hne (hid.symm.trans (beq_iff_eq.1 hcheck))
      rw [List.filter_cons_of_neg hcheck, valuesOf_cons_ne hj]
      exact List.Forall₂.nil

/-- A block of a type that no value has. -/
theorem Carries.metaBlock (h : Carries lib r file values)
    (hid : ∀ i, block.contentType ≠ r.lookupId i) :
    Carries lib r (file ++ blockBytes block) values := by
  obtain ⟨blocks, rfl, hblocks⟩ := h
  refine ⟨blocks ++ [block], ?_, fun i => ?_⟩
  · rw [List.flatMap_append, List.flatMap_singleton, List.append_assoc]
  · have hcheck : ¬ checkId (r.lookupId i) block = true := fun hcheck => hid i (beq_iff_eq.1 hcheck)
    rw [List.filter_append, List.filter_cons_of_neg hcheck, List.filter_nil, List.append_nil]
    exact hblocks i

/-- It can be opened, and the loop over `read_one_type` receives the values. -/
theorem Carries.read (h : Carries lib r file values) (build : Build) :
    ∃ stream, openSequentialInputFile r build (inputFile file) = .ok () stream ∧ ∀ i heap,
      readOneType build lib (r.lookupId i) (r.ty i) heap stream = (r.valuesOf i values, none) := by
  obtain ⟨blocks, rfl, hblocks⟩ := h
  refine ⟨_, openSequentialInputFile_header r build _, fun i heap => ?_⟩
  have hready : Source.Ready (StdStream.between (headerBytes r) (blocks.flatMap blockBytes) true)
      (blocks.flatMap blockBytes ++ []) := by
    rw [List.append_nil]
    exact StdStream.between_ready _ _ _
  exact (readOneType_eq build lib (r.lookupId i) (r.ty i) heap partOfBlock_nil hready).trans
    (received_of_holds (hblocks i) 0)

end Blocks

/-! ## Sequential sessions -/

section Sequential

variable {ι : Type} [DecidableEq ι] {lib : Libraries} {r : Realm ι} {file : List Byte}
  {values : List r.Value}

/-- The serialization is shorter than 2 GiB. -/
def Realm.Short (r : Realm ι) (value : r.Value) : Prop :=
  (bytes (r.ty value.1) value.2).length < 2 ^ 31

theorem writeBlock_endOf (block : EncodedBlock) (before : List Byte) (e : Bool) :
    writeBlock (.ok block) (StdStream.endOf before e) =
      .ok () (StdStream.endOf (before ++ blockBytes block) e) :=
  serialize_stdStream EncodedBlock.ty block before e

/-- Every value is written, by induction on those that are still to come. -/
theorem Carries.writeAll (h : Carries lib r file values) (host : Host) {more : List r.Value}
    (hshort : ∀ value ∈ more, r.Short value) :
    ∃ file', Pbsf.writeAll r lib host more (StdStream.endOf file true) =
        .ok () (StdStream.endOf file' true) ∧ Carries lib r file' (values ++ more) := by
  induction more generalizing file values with
  | nil =>
    rw [List.append_nil]
    exact ⟨file, rfl, h⟩
  | cons value more ih =>
    obtain ⟨block, hencode, hid, hholds⟩ := holds_encodeValue lib (r.ty value.1) value.2 host
      (r.lookupId value.1) (hshort value List.mem_cons_self)
    have hwrite : writeBlock (r.encode lib host value) (StdStream.endOf file true) =
        .ok () (StdStream.endOf (file ++ blockBytes block) true) := by
      rw [show r.encode lib host value = .ok block from hencode, writeBlock_endOf]
    obtain ⟨file', hrest, hcarries⟩ := ih (h.value hid hholds) fun value hvalue =>
      hshort value (List.mem_cons_of_mem _ hvalue)
    rw [List.append_assoc, List.singleton_append] at hcarries
    exact ⟨file', (bind_of_ok hwrite).trans hrest, hcarries⟩

theorem Carries.writeValues (h : Carries lib r file values) {writes : List (Host × List r.Value)}
    (hshort : ∀ value ∈ writes.flatMap fun w => w.2, r.Short value) :
    ∃ file', Pbsf.writeValues lib writes (StdStream.endOf file true) =
        .ok () (StdStream.endOf file' true) ∧
      Carries lib r file' (values ++ writes.flatMap fun w => w.2) := by
  induction writes generalizing file values with
  | nil =>
    rw [List.flatMap_nil, List.append_nil]
    exact ⟨file, rfl, h⟩
  | cons w writes ih =>
    rw [List.flatMap_cons] at hshort ⊢
    obtain ⟨file₁, hfirst, h₁⟩ := h.writeAll w.1 fun value hvalue =>
      hshort value (List.mem_append_left _ hvalue)
    obtain ⟨file', hrest, hcarries⟩ := ih h₁ fun value hvalue =>
      hshort value (List.mem_append_right _ hvalue)
    rw [List.append_assoc] at hcarries
    exact ⟨file', (bind_of_ok hfirst).trans hrest, hcarries⟩

/-- The files that a session can be opened on: there is nothing in it, or what is in
    it is known, or does not matter. -/
def Known (lib : Libraries) (r : Realm ι) (overwrite : Bool) (file : List Byte)
    (values : List r.Value) : Prop :=
  overwrite = true ∨ file = [] ∧ values = [] ∨ Carries lib r file values

/-- A sequential session returns. -/
theorem Known.sequential (build : Build) {overwrite : Bool} (h : Known lib r overwrite file values)
    {writes : List (Host × List r.Value)}
    (hshort : ∀ value ∈ writes.flatMap fun w => w.2, r.Short value) :
    ∃ file', (Session.sequential build overwrite writes).run lib file = .ok file' ∧
      Carries lib r file' ((Session.sequential build overwrite writes).after values) := by
  -- the file that the values are written to
  obtain ⟨file₁, values₁, hopen, h₁, hvalues⟩ : ∃ file₁ values₁,
      openSequentialOutputFile r build (outputFile file overwrite) =
        .ok () (StdStream.endOf file₁ true) ∧ Carries lib r file₁ values₁ ∧
      (if overwrite then [] else values) = values₁ := by
    by_cases hnew : overwrite = true ∨ file = [] ∧ values = []
    · refine ⟨_, [], openSequentialOutputFile_new r build (hnew.imp_right fun h => h.1),
        carries_header, ?_⟩
      rcases hnew with rfl | ⟨-, rfl⟩
      · rfl
      · exact ite_self _
    · obtain ⟨hoverwrite, hold⟩ := not_or.1 hnew
      obtain rfl : overwrite = false := eq_false_of_ne_true hoverwrite
      obtain ⟨blocks, hfile, hblocks⟩ := (h.resolve_left hoverwrite).resolve_left hold
      refine ⟨file, values, ?_, ⟨blocks, hfile, hblocks⟩, rfl⟩
      rw [hfile]
      exact openSequentialOutputFile_old r build _
  obtain ⟨file', hwrite, hcarries⟩ := h₁.writeValues hshort
  refine ⟨file', ?_, ?_⟩
  · unfold Session.run
    dsimp only
    rw [bind_of_ok hopen, hwrite]
    rfl
  · rw [← hvalues] at hcarries
    unfold Session.after Session.overwrite Session.values
    cases overwrite with
    | false => exact hcarries
    | true => exact hcarries

end Sequential

/-! ## Indexed sessions -/

section Indexed

variable {ι : Type} [DecidableEq ι] {lib : Libraries} {r : KeyedRealm ι}
  {object object' : IndexedFile r} {values : List r.Value}

/-- An object that is open for writing to a file that carries `values`. -/
def WritesTo (lib : Libraries) (object : IndexedFile r) (values : List r.Value) : Prop :=
  ∃ s, object.streamPtr = some s ∧ s.exceptions = true ∧ Carries lib r.toRealm s.bytes values

/-- An insert that returns has appended the block of its value. -/
theorem WritesTo.insert (h : WritesTo lib object values) {host : Host} {key : r.Key}
    {value : r.Value} (hshort : r.toRealm.Short value)
    (hrun : object.insert lib host key value = .ok () object') :
    WritesTo lib object' (values ++ [value]) := by
  obtain ⟨s, hs, he, hcarries⟩ := h
  have houtcome := insert_outcome lib host key value hs
  rw [hrun] at houtcome
  cases houtcome with
  | inserted happend hassign =>
    obtain ⟨block, hencode, hid, hholds⟩ := holds_encodeValue lib (r.ty value.1) value.2 host
      (r.lookupId value.1) hshort
    obtain ⟨block', hencode', -, -, -, rfl⟩ := rememberedAppend_ok he happend
    cases hencode.symm.trans hencode'
    refine ⟨_, rfl, (StdStream.toEnd_exceptions s).trans he, ?_⟩
    have hbytes : ((StdStream.toEnd s).appended (blockBytes block)).bytes =
        s.bytes ++ blockBytes block := by
      show (StdStream.toEnd s).bytes ++ blockBytes block = _
      rw [StdStream.toEnd_bytes]
    rw [hbytes]
    exact hcarries.value hid hholds

theorem WritesTo.insertAll (h : WritesTo lib object values)
    {inserts : List (Host × r.Key × r.Value)}
    (hshort : ∀ value ∈ inserts.map fun w => w.2.2, r.toRealm.Short value)
    (hrun : IndexedFile.insertAll lib inserts object = .ok () object') :
    WritesTo lib object' (values ++ inserts.map fun w => w.2.2) := by
  induction inserts generalizing object values with
  | nil =>
    cases hrun
    rw [List.map_nil, List.append_nil]
    exact h
  | cons w inserts ih =>
    obtain ⟨u, object₁, hfirst, hrest⟩ := bind_eq_ok hrun
    have h₁ := h.insert (hshort w.2.2 List.mem_cons_self) hfirst
    have hall := ih h₁ (fun value hvalue => hshort value (List.mem_cons_of_mem _ hvalue)) hrest
    rw [List.append_assoc] at hall
    exact hall

omit [DecidableEq ι] in
/-- The ids of the index and of its marker are negative. -/
theorem lookupId_indexMetaRealm_ne (hids : ∀ i, 0 ≤ (r.lookupId i).toInt) (t : MetaType) (i : ι) :
    (indexMetaRealm r).lookupId t ≠ r.lookupId i := by
  intro heq
  have hnonneg := hids i
  rw [← heq] at hnonneg
  cases t with
  | indexPositionMarker => exact absurd (show 0 ≤ (-10 : Int16T).toInt from hnonneg) (by decide)
  | blocksIndex => exact absurd (show 0 ≤ (-11 : Int16T).toInt from hnonneg) (by decide)

/-- A destructor that returns has appended blocks that no value is in. -/
theorem WritesTo.destroy (h : WritesTo lib object values) (hids : ∀ i, 0 ≤ (r.lookupId i).toInt)
    {host host' : Host} (hrun : object.destroy lib host host' = .ok () object') :
    Carries lib r.toRealm object'.bytes values := by
  obtain ⟨s, hs, he, hcarries⟩ := h
  cases hflag : object.needWriteIndex with
  | false =>
    rw [destroy_unchanged host host' hflag] at hrun
    cases hrun
    unfold IndexedFileState.bytes
    rw [hs]
    exact hcarries
  | true =>
    obtain ⟨indexBlock, markerBlock, hindex, hmarker, rfl⟩ := destroy_ok hs he hflag hrun
    have hbytes : IndexedFileState.bytes (⟨some ((StdStream.toEnd s).appended
        (blockBytes indexBlock ++ blockBytes markerBlock)), object.index⟩ : IndexedFileState r) =
        s.bytes ++ blockBytes indexBlock ++ blockBytes markerBlock := by
      show (StdStream.toEnd s).bytes ++ (blockBytes indexBlock ++ blockBytes markerBlock) = _
      rw [StdStream.toEnd_bytes, List.append_assoc]
    rw [hbytes]
    apply Carries.metaBlock
    · apply hcarries.metaBlock
      intro i
      rw [encodeValue_contentType hindex]
      exact lookupId_indexMetaRealm_ne hids .blocksIndex i
    · intro i
      rw [encodeValue_contentType hmarker]
      exact lookupId_indexMetaRealm_ne hids .indexPositionMarker i

/-- An opening that returns. -/
theorem Known.openIndexed {overwrite : Bool} {file : List Byte}
    (h : Known lib r.toRealm overwrite file values) {build : Build} {heap : ℕ → Memory}
    {index : BlocksIndex r} {isNew : Bool} {s : StdStream}
    (hopen : openIndexedOutputFile r build lib heap (outputFile file overwrite) =
      .ok (index, isNew) s) :
    WritesTo lib ⟨⟨some s, index⟩, isNew⟩ (if overwrite then [] else values) := by
  obtain ⟨he, hcases⟩ := openIndexedOutputFile_ok rfl rfl hopen
  refine ⟨s, rfl, he, ?_⟩
  rcases hcases with ⟨-, hnil, -, hbytes⟩ | ⟨-, hne, hbytes⟩
  · rw [hbytes]
    cases overwrite with
    | true => exact carries_header
    | false =>
      have hfile : file = [] := hnil
      rcases h with hfalse | ⟨-, hvalues⟩ | ⟨blocks, hblocks, -⟩
      · cases hfalse
      · rw [hvalues]
        exact carries_header
      · have hlen := congrArg List.length (hblocks.symm.trans hfile)
        rw [List.length_append, length_headerBytes, List.length_nil] at hlen
        omega
  · rw [hbytes]
    cases overwrite with
    | true => exact absurd rfl hne
    | false =>
      rcases h with hfalse | ⟨hfile, -⟩ | hcarries
      · cases hfalse
      · exact absurd hfile hne
      · exact hcarries

end Indexed

/-! ## Any sessions -/

section Runs

variable {ι : Type} [DecidableEq ι] {lib : Libraries} {r : Realm ι} {file file' : List Byte}
  {values : List r.Value}

/-- A session that returns. -/
theorem Session.run_carries (hids : ∀ i, 0 ≤ (r.lookupId i).toInt) {session : Session r}
    (h : Known lib r session.overwrite file values)
    (hshort : ∀ value ∈ session.values, r.Short value)
    (hrun : session.run lib file = .ok file') : Carries lib r file' (session.after values) := by
  cases session with
  | sequential build overwrite writes =>
    obtain ⟨file₁, hfile₁, hcarries⟩ := Known.sequential build h hshort
    cases hfile₁.symm.trans hrun
    exact hcarries
  | indexed build overwrite k heap inserts host host' =>
    unfold Session.run at hrun
    dsimp only at hrun
    cases hopen : openIndexedOutputFile k.files build lib heap (outputFile file overwrite) with
    | error stop s =>
      rw [hopen] at hrun
      cases hrun
    | ok opened s =>
      obtain ⟨index, isNew⟩ := opened
      rw [hopen] at hrun
      dsimp only at hrun
      cases hobject : (IndexedFile.insertAll lib inserts >>= fun _ =>
          IndexedFile.destroy lib host host')
          (⟨⟨some s, index⟩, isNew⟩ : IndexedFile k.files) with
      | error stop object =>
        rw [hobject] at hrun
        cases hrun
      | ok u object =>
        rw [hobject] at hrun
        cases hrun
        obtain ⟨u, object₁, hinserts, hdestroy⟩ := bind_eq_ok hobject
        have hwrites := (Known.openIndexed (r := k.files) h hopen).insertAll hshort hinserts
        have hcarries := hwrites.destroy hids hdestroy
        unfold Session.after Session.values
        cases overwrite with
        | true => exact hcarries
        | false => exact hcarries

omit [DecidableEq ι] in
/-- An indexed session whose steps return. -/
theorem Session.run_indexed {build : Build} {overwrite : Bool} {k : KeyType r} {heap : ℕ → Memory}
    {inserts : List (Host × r.type k.key × r.Value)} {host host' : Host}
    {index : BlocksIndex k.files} {isNew : Bool} {s : StdStream}
    {object object' : IndexedFile k.files}
    (hopen : openIndexedOutputFile k.files build lib heap (outputFile file overwrite) =
      .ok (index, isNew) s)
    (hinserts : IndexedFile.insertAll lib inserts (⟨⟨some s, index⟩, isNew⟩ : IndexedFile k.files) =
      .ok () object)
    (hdestroy : object.destroy lib host host' = .ok () object') :
    (Session.indexed build overwrite k heap inserts host host').run lib file = .ok object'.bytes := by
  unfold Session.run
  dsimp only
  rw [hopen]
  dsimp only
  rw [bind_of_ok hinserts, hdestroy]

omit [DecidableEq ι] in
theorem runSessions_cons {session : Session r} (h : session.run lib file = .ok file')
    (sessions : List (Session r)) :
    runSessions lib file (session :: sessions) = runSessions lib file' sessions := by
  conv_lhs => unfold runSessions
  rw [h]

omit [DecidableEq ι] in
theorem runSessions_cons_ok {session : Session r} {sessions : List (Session r)}
    (h : runSessions lib file (session :: sessions) = .ok file') :
    ∃ file₁, session.run lib file = .ok file₁ ∧ runSessions lib file₁ sessions = .ok file' := by
  cases hfirst : session.run lib file with
  | ok file₁ => exact ⟨file₁, rfl, (runSessions_cons hfirst sessions).symm.trans h⟩
  | error stop =>
    unfold runSessions at h
    rw [hfirst] at h
    cases h

/-- Sessions that return, on a file that is known. -/
theorem runSessions_carries (hids : ∀ i, 0 ≤ (r.lookupId i).toInt) {sessions : List (Session r)}
    (hshort : ∀ session ∈ sessions, ∀ value ∈ session.values, r.Short value)
    (h : Carries lib r file values) (hrun : runSessions lib file sessions = .ok file') :
    Carries lib r file' (sessions.foldl Session.after values) := by
  induction sessions generalizing file values with
  | nil =>
    cases hrun
    exact h
  | cons session sessions ih =>
    obtain ⟨file₁, hfirst, hrest⟩ := runSessions_cons_ok hrun
    have h₁ := Session.run_carries hids (Or.inr (Or.inr h)) (hshort session List.mem_cons_self)
      hfirst
    exact ih (fun s hs => hshort s (List.mem_cons_of_mem _ hs)) h₁ hrest

/-- A file that any sessions have written to, the first of which created or
    truncated it: a loop over `read_one_type` receives the values of the type that
    were written since the last truncation, in this order. No write of a further
    sequential session fails. -/
theorem sequential_view (hids : ∀ i, 0 ≤ (r.lookupId i).toInt) {first : Session r}
    {sessions : List (Session r)} (hstart : first.overwrite = true ∨ file = [])
    (hshort : ∀ session ∈ first :: sessions, ∀ value ∈ session.values, r.Short value)
    (hrun : runSessions lib file (first :: sessions) = .ok file') :
    (∀ build, ∃ stream, openSequentialInputFile r build (inputFile file') = .ok () stream ∧
      ∀ i heap, readOneType build lib (r.lookupId i) (r.ty i) heap stream =
        (r.valuesOf i (writtenSince (first :: sessions)), none)) ∧
      ∀ build overwrite (writes : List (Host × List r.Value)),
        (∀ value ∈ writes.flatMap fun w => w.2, r.Short value) →
        ∃ file'', (Session.sequential build overwrite writes).run lib file' = .ok file'' := by
  have hknown : Known lib r first.overwrite file [] :=
    hstart.imp_right fun hnil => Or.inl ⟨hnil, rfl⟩
  have hcarries : Carries lib r file' (writtenSince (first :: sessions)) := by
    obtain ⟨file₁, hfirst, hrest⟩ := runSessions_cons_ok hrun
    have h₁ := Session.run_carries hids hknown (hshort first List.mem_cons_self) hfirst
    have hshort' : ∀ session ∈ sessions, ∀ value ∈ session.values, r.Short value :=
      fun s hs => hshort s (List.mem_cons_of_mem first hs)
    have hall := runSessions_carries hids hshort' h₁ hrest
    exact hall
  constructor
  · intro build
    exact hcarries.read build
  · intro build overwrite writes hwrites
    obtain ⟨file'', hfile, -⟩ := Known.sequential build (Or.inr (Or.inr hcarries)) hwrites
    exact ⟨file'', hfile⟩

end Runs

/-! ## Three sessions -/

section ThreeSessions

/-- A sequential session on a new file. -/
def createBytes : Session byteFiles.toRealm :=
  .sequential { rangeChecks := true } true [(defaultHost, [⟨(), (9 : BitVec (8 * 1))⟩])]

/-- An indexed session that truncates it. -/
def indexBytes : Session byteFiles.toRealm :=
  .indexed { rangeChecks := true } true ⟨(), byteFiles.lt, byteFiles.strictWeak⟩ (fun _ _ => 0)
    [(defaultHost, (1 : BitVec (8 * 1)), ⟨(), (7 : BitVec (8 * 1))⟩)] defaultHost defaultHost

/-- A sequential session that appends. -/
def appendBytes : Session byteFiles.toRealm :=
  .sequential { rangeChecks := true } false [(defaultHost, [⟨(), (5 : BitVec (8 * 1))⟩])]

theorem short_byteFiles (value : byteFiles.toRealm.Value) : byteFiles.toRealm.Short value := by
  have hlen : (wordBytes (k := 1) value.2).length = 1 := length_wordBytes (k := 1) value.2
  exact lt_of_eq_of_lt hlen (by decide)

theorem run_indexBytes (file : List Byte) :
    ∃ file', indexBytes.run Libraries.stored file = .ok file' := by
  obtain ⟨object, hdestroy, -⟩ := destroy_filledObject
  have hopen : openIndexedOutputFile byteFiles { rangeChecks := true } Libraries.stored
      (fun _ _ => 0) (outputFile file true) =
        .ok (BlocksIndex.empty byteFiles, true)
          (StdStream.endOf (headerBytes byteFiles.toRealm) true) :=
    openIndexedOutputFile_new _ _ _ (Or.inl rfl)
  have hinserts : IndexedFile.insertAll Libraries.stored
      [(defaultHost, (1 : BitVec (8 * 1)), ⟨(), (7 : BitVec (8 * 1))⟩)] emptyObject =
        .ok () filledObject := bind_of_ok insert_emptyObject
  exact ⟨object.bytes, Session.run_indexed hopen hinserts hdestroy⟩

/-- What was written before the truncation is gone. -/
theorem sequential_view_three :
    ∃ file, runSessions Libraries.stored [] [createBytes, indexBytes, appendBytes] = .ok file ∧
      ∀ build, ∃ stream,
        openSequentialInputFile byteFiles.toRealm build (inputFile file) = .ok () stream ∧
          ∀ i heap, readOneType build Libraries.stored (byteFiles.lookupId i) (byteFiles.ty i) heap
            stream = ([(7 : BitVec (8 * 1)), 5], none) := by
  have hids : ∀ i, 0 ≤ (byteFiles.lookupId i).toInt := by decide
  have hshort (sessions : List (Session byteFiles.toRealm)) :
      ∀ session ∈ sessions, ∀ value ∈ session.values, byteFiles.toRealm.Short value :=
    fun _ _ value _ => short_byteFiles value
  obtain ⟨file₁, hcreate, -⟩ : ∃ file₁, createBytes.run Libraries.stored [] = .ok file₁ ∧
      Carries Libraries.stored byteFiles.toRealm file₁ (createBytes.after []) :=
    Known.sequential _ (Or.inl rfl) fun value _ => short_byteFiles value
  obtain ⟨file₂, hindex⟩ := run_indexBytes file₁
  have htwo : runSessions Libraries.stored [] [createBytes, indexBytes] = .ok file₂ := by
    rw [runSessions_cons hcreate, runSessions_cons hindex]
    rfl
  obtain ⟨file₃, happend⟩ : ∃ file₃, appendBytes.run Libraries.stored file₂ = .ok file₃ :=
    (sequential_view hids (Or.inl rfl) (hshort _) htwo).2 _ _ _ fun value _ => short_byteFiles value
  have hthree : runSessions Libraries.stored [] [createBytes, indexBytes, appendBytes] =
      .ok file₃ := by
    rw [runSessions_cons hcreate, runSessions_cons hindex, runSessions_cons happend]
    rfl
  exact ⟨file₃, hthree, (sequential_view hids (Or.inl rfl) (hshort _) hthree).1⟩

end ThreeSessions

end BambooShoot.Pbsf
