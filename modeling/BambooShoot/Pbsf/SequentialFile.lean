import BambooShoot.Pbsf.ReadIterator

/-!
# Sequential files

Model of `FileHeader` (`defs.hh`, lines 85–98), of `check_file` and
`write_header` (`file-header.hh`) and of the functions of `range-api.hh`.

Results:
* `checkFile_header`, `writeHeader_endOf`: the header of a realm;
* `readOneType_eq`: a loop over `read_one_type` receives what the blocks of the
  type read as, up to the first that does not read;
* `truncated_file`: when it receives the values before a cut, and no others.
-/

namespace BambooShoot.Pbsf

open BambooShoot.Lib BambooShoot.Pbss
open Source

/-! ## File header -/

/-- `magic` (`defs.hh`, line 39). -/
def magic : UInt32T := 0x70 ||| (0x62 ||| (0x73 ||| 0x33 <<< 8) <<< 8) <<< 8

/-- `FileHeader`. -/
structure FileHeader where
  magic : UInt32T
  realm : UInt32T
  deriving DecidableEq

/-- `PBSS_TUPLE_MEMBERS` of `FileHeader`. -/
def FileHeader.members : FileHeader ≃ UInt32T × UInt32T × Unit where
  toFun header := (header.magic, header.realm, ())
  invFun t := ⟨t.1, t.2.1⟩
  left_inv _ := rfl
  right_inv _ := rfl

/-- `FileHeader` as a type to serialize. -/
def FileHeader.ty : Ty FileHeader :=
  .tupleStruct FileHeader.members
    (.cons (.arith (.bits 4 sizeof_uint32_pos))
      (.cons (.arith (.bits 4 sizeof_uint32_pos)) .nil))

section Header

variable {ι : Type} (r : Realm ι)

/-- The header of the files of a realm. -/
def headerOf : FileHeader := ⟨magic, r.id⟩

/-- Its bytes. -/
def headerBytes : List Byte := bytes FileHeader.ty (headerOf r)

/-- `write_header(stream, realm)`. -/
def writeHeader {ω : Type} [OutputStream ω] : Run ω Unit := serialize FileHeader.ty (headerOf r)

/-- `check_file(stream, realm)`. -/
def checkFile (build : Build) {σ : Type} [InputStream σ] [ForwardInputStream σ] : Run σ Bool := do
  return decide (headerOf r = (← parse build FileHeader.ty))

theorem length_headerBytes : (headerBytes r).length = 8 := by
  show (wordBytes _ ++ (wordBytes _ ++ [])).length = 8
  simp

theorem checkFile_header (build : Build) {σ : Type} [InputStream σ] [ForwardInputStream σ]
    [LawfulInputStream σ] : Consumes (checkFile r build : Run σ Bool) (headerBytes r) true := by
  unfold checkFile
  apply (consumes_parse_self build FileHeader.ty (headerOf r)).bind_pure
  rw [decide_eq_true rfl]

theorem writeHeader_endOf (before : List Byte) (e : Bool) :
    writeHeader r (StdStream.endOf before e) = .ok () (StdStream.endOf (before ++ headerBytes r) e) :=
  serialize_stdStream FileHeader.ty (headerOf r) before e

end Header

/-! ## Opening -/

/-- `std::ifstream(filename)`. -/
def inputFile (file : List Byte) : StdStream := { bytes := file }

/-- `std::fstream(filename, out | in | ate | (overwrite ? trunc : app))`. A file
    that does not exist is created. -/
def outputFile (file : List Byte) (overwrite : Bool) : StdStream :=
  StdStream.endOf (if overwrite then [] else file) false

section Open

variable {ι : Type} (r : Realm ι) (build : Build)

/-- `exceptions(failbit | badbit)`: it throws where the stream has failed before. -/
def setExceptions : Run StdStream Unit := fun s =>
  StdStream.raiseIfFailed () { s with exceptions := true }

instance : SeekableStream StdStream where
  setExceptions := setExceptions
  tell := StdStream.tell
  seekg := StdStream.seekg
  seekgEnd := StdStream.seekgEnd
  seekpEnd := StdStream.seekpEnd

@[simp] theorem seekable_setExceptions :
    (SeekableStream.setExceptions : Run StdStream Unit) = setExceptions := rfl

@[simp] theorem seekable_tell : (SeekableStream.tell : Run StdStream ℤ) = StdStream.tell := rfl

@[simp] theorem seekable_seekg (pos : ℤ) :
    (SeekableStream.seekg pos : Run StdStream Unit) = StdStream.seekg pos := rfl

@[simp] theorem seekable_seekgEnd (off : ℤ) :
    (SeekableStream.seekgEnd off : Run StdStream Unit) = StdStream.seekgEnd off := rfl

@[simp] theorem seekable_seekpEnd :
    (SeekableStream.seekpEnd : Run StdStream Unit) = StdStream.seekpEnd := rfl

/-- `open_sequential_input_file` (`range-api.hh`, lines 68–86), on the stream
    it opens or is given. -/
def openSequentialInputFile : Run StdStream Unit := do
  setExceptions
  if ← checkFile r build then pure () else raise .unknownRealmError

/-- `open_sequential_output_file` (lines 94–116), on the stream it opens. -/
def openSequentialOutputFile : Run StdStream Unit := do
  setExceptions
  if (← StdStream.tell) = 0 then writeHeader r
  else
    StdStream.seekg 0
    if ← checkFile r build then StdStream.seekpEnd else raise .unknownRealmError

theorem setExceptions_inputFile {file start body : List Byte} (hfile : file = start ++ body) :
    setExceptions (inputFile file) = .ok () (StdStream.between [] (start ++ body) true) := by
  rw [hfile]
  rfl

theorem outputFile_new {file : List Byte} {overwrite : Bool} (h : overwrite = true ∨ file = []) :
    outputFile file overwrite = StdStream.endOf [] false := by
  unfold outputFile
  rcases h with rfl | rfl
  · rfl
  · rw [ite_self]

/-- `check_file` at the start of a file of the realm. -/
theorem checkFile_between (body : List Byte) (e : Bool) :
    checkFile r build (StdStream.between [] (headerBytes r ++ body) e) =
      .ok true (StdStream.between (headerBytes r) body e) := by
  have h := StdStream.consumes_between (checkFile_header r build) [] body e
  rwa [List.nil_append] at h

theorem openSequentialInputFile_header (body : List Byte) :
    openSequentialInputFile r build (inputFile (headerBytes r ++ body)) =
      .ok () (StdStream.between (headerBytes r) body true) := by
  unfold openSequentialInputFile
  rw [bind_of_ok (setExceptions_inputFile rfl), bind_of_ok (checkFile_between r build body true)]
  rfl

/-- A file that is new or truncated gets a header. -/
theorem openSequentialOutputFile_new {file : List Byte} {overwrite : Bool}
    (h : overwrite = true ∨ file = []) :
    openSequentialOutputFile r build (outputFile file overwrite) =
      .ok () (StdStream.endOf (headerBytes r) true) := by
  have hopen : setExceptions (StdStream.endOf [] false) = .ok () (StdStream.endOf [] true) := rfl
  have htell : StdStream.tell (StdStream.endOf [] true) = .ok 0 (StdStream.endOf [] true) := rfl
  unfold openSequentialOutputFile
  rw [outputFile_new h, bind_of_ok hopen, bind_of_ok htell, if_pos rfl, writeHeader_endOf, List.nil_append]

/-- Any other file is checked, and written at its end. -/
theorem openSequentialOutputFile_old (body : List Byte) :
    openSequentialOutputFile r build (outputFile (headerBytes r ++ body) false) =
      .ok () (StdStream.endOf (headerBytes r ++ body) true) := by
  have hlen : (headerBytes r ++ body).length ≠ 0 := by
    rw [List.length_append, length_headerBytes]
    omega
  generalize hfile : headerBytes r ++ body = file at hlen ⊢
  have hopen : setExceptions (outputFile file false) = .ok () (StdStream.endOf file true) := rfl
  have htell : StdStream.tell (StdStream.endOf file true) =
      .ok (file.length : ℤ) (StdStream.endOf file true) := rfl
  have hseek : StdStream.seekg 0 (StdStream.endOf file true) =
      .ok () (StdStream.between [] (headerBytes r ++ body) true) :=
    StdStream.seekg_between rfl rfl [] hfile.symm
  have hend : StdStream.seekpEnd (StdStream.between (headerBytes r) body true) =
      .ok () (StdStream.endOf (headerBytes r ++ body) true) := rfl
  unfold openSequentialOutputFile
  rw [bind_of_ok hopen, bind_of_ok htell, if_neg (by exact_mod_cast hlen), bind_of_ok hseek,
    bind_of_ok (checkFile_between r build body true), if_pos rfl, hend, hfile]

end Open

/-! ## Writing -/

section Write

variable {ι : Type} (r : Realm ι) (lib : Libraries) (host : Host)

/-- A value of a registered type. -/
abbrev Realm.Value {ι : Type} (r : Realm ι) : Type := (i : ι) × r.type i

/-- The block that `write_block` makes of a value. -/
def Realm.encode (value : r.Value) : Except Stop EncodedBlock :=
  encodeValue lib host (r.lookupId value.1) (r.ty value.1) value.2

/-- Assigning values to a `heterogeneous_write_iterator` (`data-block.hh`,
    lines 126–131), one after the other. -/
def writeAll (values : List r.Value) : Run StdStream Unit :=
  values.forM fun value => writeBlock (r.encode lib host value)

end Write

/-! ## Reading -/

section Read

variable {σ α : Type}

/-- A loop over a range of values, with what its body has received. -/
structure Consumer (σ α : Type) where
  it : SkippingReadIterator σ α
  received : List α

/-- A call on the iterator of the loop. -/
def Consumer.onIt {β : Type} (p : Run (SkippingReadIterator σ α) β) : Run (Consumer σ α) β :=
  zoom Consumer.it (fun it c => { c with it := it }) p

theorem consumerOnIt_of_ok {β : Type} {p : Run (SkippingReadIterator σ α) β} {c : Consumer σ α}
    {it : SkippingReadIterator σ α} {b : β} (h : p c.it = .ok b it) :
    Consumer.onIt p c = .ok b { c with it := it } := zoom_of_ok h

theorem consumerOnIt_of_error {β : Type} {p : Run (SkippingReadIterator σ α) β} {c : Consumer σ α}
    {it : SkippingReadIterator σ α} {stop : Stop} (h : p c.it = .error stop it) :
    Consumer.onIt p c = .error stop { c with it := it } := zoom_of_error h

variable [InputStream σ] [ForwardInputStream σ]
  (build : Build) (lib : Libraries) (tid : Int16T) (s : Ty α)

/-- The rounds of `for (const T& value : file.read_one_type<T>())`. -/
def forLoop (heap : ℕ → Memory) : (fuel n : ℕ) → Run (Consumer σ α) Unit
  | 0, _ => throw .outOfFuel
  | fuel + 1, n => do
    if (← get).it.it.isEnd then pure ()
    else
      let value ← Consumer.onIt (SkippingReadIterator.deref build lib s (heap n))
      modify fun c => { c with received := c.received ++ [value] }
      Consumer.onIt (SkippingReadIterator.next build tid)
      forLoop heap fuel (n + 1)

/-- What the body of a loop received, and what ended it early. -/
def ended : EStateM.Result Stop (Consumer σ α) Unit → List α × Option Stop
  | .ok _ c => (c.received, none)
  | .error stop c => (c.received, some stop)

/-- A loop over `read_one_type<T>()`, from the construction of its iterator on. -/
def readOneType (heap : ℕ → Memory) (stream : σ) : List α × Option Stop :=
  ended ((do
    Consumer.onIt (SkippingReadIterator.next build tid)
    forLoop build lib tid s heap (Measured.left stream + 2) 0)
    ⟨SkippingReadIterator.over stream, []⟩)

variable (heap : ℕ → Memory) {c : Consumer σ α} (fuel n : ℕ)

theorem forLoop_end (h : c.it.it.isEnd = true) :
    forLoop build lib tid s heap (fuel + 1) n c = .ok () c := by
  unfold forLoop
  rw [get_bind, h]
  rfl

theorem forLoop_step (h : c.it.it.isEnd = false) :
    forLoop build lib tid s heap (fuel + 1) n c =
      (do
        let value ← Consumer.onIt (SkippingReadIterator.deref build lib s (heap n))
        modify fun c : Consumer σ α => { c with received := c.received ++ [value] }
        Consumer.onIt (SkippingReadIterator.next build tid)
        forLoop build lib tid s heap fuel (n + 1)) c := by
  conv_lhs => unfold forLoop
  rw [get_bind, h]
  rfl

end Read

section Loop

variable {σ α : Type} [InputStream σ] [ForwardInputStream σ] [LawfulInputStream σ]
  (build : Build) (lib : Libraries) (tid : Int16T) (s : Ty α) {e : Exn} {tail : List Byte}

/-- How a loop ends whose file ends with `tail`. -/
def endOfLoop (e : Exn) (tail : List Byte) : Option Stop :=
  if tail = [] then none else some (.throws e)

/-- What the body of a loop over `blocks` receives, and what ends the loop early: it
    goes on to the first block that does not read, or else ends with `last`. -/
def received (heap : ℕ → Memory) (last : Option Stop) : ℕ → List EncodedBlock → List α × Option Stop
  | _, [] => ([], last)
  | n, block :: blocks =>
    match readBlock build lib (heap n) s block with
    | .ok v => ((received heap last (n + 1) blocks).1.cons v, (received heap last (n + 1) blocks).2)
    | .error stop => ([], some stop)

/-- The rounds of a loop over blocks, by induction on those that are still to come. -/
theorem forLoop_eq (heap : ℕ → Memory) (htail : PartOfBlock tail)
    {it : ParseIterator σ EncodedBlock} {blocks : List EncodedBlock}
    (h : At e tail it (blocks.dropWhile fun block => !checkId tid block)) (before : List α)
    {fuel : ℕ} (n : ℕ) (hfuel : (blocks.filter (checkId tid)).length < fuel) :
    ended (forLoop build lib tid s heap fuel n ⟨⟨it, none⟩, before⟩) =
      (before ++ (received build lib s heap (endOfLoop e tail) n (blocks.filter (checkId tid))).1,
        (received build lib s heap (endOfLoop e tail) n (blocks.filter (checkId tid))).2) := by
  induction fuel generalizing it blocks before n with
  | zero => omega
  | succ fuel ih =>
    have hfilter := filter_eq_dropWhile (checkId tid) blocks
    have hend := isEnd_of_at h
    cases hdrop : blocks.dropWhile fun block => !checkId tid block with
    | nil =>
      rw [hdrop] at h hend hfilter
      rw [hfilter, forLoop_end build lib tid s heap fuel n hend, h.2, received, List.append_nil]
      rfl
    | cons block rest =>
      rw [hdrop] at h hend hfilter
      obtain ⟨hvalue, hahead⟩ := h
      dsimp only at hfilter
      rw [hfilter, List.length_cons] at hfuel
      rw [hfilter, received, forLoop_step build lib tid s heap fuel n hend]
      obtain ⟨moved, hderef⟩ := deref_eq (σ := σ) build lib s (heap n) hvalue
      cases hread : readBlock build lib (heap n) s block with
      | error stop =>
        rw [hread] at hderef
        rw [bind_of_error (consumerOnIt_of_error hderef)]
        exact congrArg (·, some stop) (List.append_nil before).symm
      | ok v =>
        rw [hread] at hderef
        rw [bind_of_ok (consumerOnIt_of_ok hderef), bind_of_ok (modify_run _ _)]
        rcases next_reaches build tid htail (m := ⟨{ it with value := moved }, some v⟩)
          ⟨hahead.streamPtr, hahead.ready, hahead.eofError⟩ with
          ⟨it', hnext, hat⟩ | ⟨hnil, hne, m, hnext⟩
        · rw [bind_of_ok (consumerOnIt_of_ok hnext), ih hat _ (n + 1) (by omega),
            List.append_assoc, List.singleton_append]
        · -- the file ends inside of a block that no body will see
          have hrest := filter_eq_dropWhile (checkId tid) rest
          rw [hnil] at hrest
          rw [bind_of_error (consumerOnIt_of_error hnext), hrest, received, endOfLoop, if_neg hne]
          rfl

/-- A loop over `read_one_type` on a stream in front of some blocks. -/
theorem readOneType_eq (heap : ℕ → Memory) (htail : PartOfBlock tail) {stream : σ}
    {blocks : List EncodedBlock} (h : Ready stream (blocks.flatMap blockBytes ++ tail)) :
    readOneType build lib tid s heap stream =
      received build lib s heap (endOfLoop (LawfulInputStream.eofError stream) tail) 0
        (blocks.filter (checkId tid)) := by
  have hleft := LawfulInputStream.left_ready h
  have hlen := length_le_flatMap_blockBytes blocks
  have hfilter : (blocks.filter (checkId tid)).length ≤ blocks.length := List.length_filter_le _ _
  rw [List.length_append] at hleft
  unfold readOneType
  rcases next_reaches build tid htail (ahead_over (α := α) h) with
    ⟨it, hnext, hat⟩ | ⟨hnil, hne, m, hnext⟩
  · rw [bind_of_ok (consumerOnIt_of_ok hnext)]
    exact forLoop_eq build lib tid s heap htail hat [] 0 (by omega)
  · have hrest := filter_eq_dropWhile (checkId tid) blocks
    rw [hnil] at hrest
    rw [bind_of_error (consumerOnIt_of_error hnext), hrest, received, endOfLoop, if_neg hne]
    rfl

variable {build lib s} {heap : ℕ → Memory} {last : Option Stop} {blocks : List EncodedBlock}

/-- Blocks that hold values are all received. -/
theorem received_of_holds {values : List α} (h : List.Forall₂ (Holds lib s) blocks values) (n : ℕ) :
    received build lib s heap last n blocks = (values, last) := by
  induction h generalizing n with
  | nil => rfl
  | cons hholds hrest ih => rw [received, hholds build (heap n), ih]

/-- Where as many values are received as there are blocks, every block is read. -/
theorem exists_readBlock_of_received {n : ℕ}
    (h : (received build lib s heap last n blocks).1.length = blocks.length) :
    ∀ block ∈ blocks, ∃ fresh v, readBlock build lib fresh s block = .ok v := by
  induction blocks generalizing n with
  | nil => exact fun _ hmem => absurd hmem List.not_mem_nil
  | cons block blocks ih =>
    rw [received] at h
    cases hread : readBlock build lib (heap n) s block with
    | error stop =>
      rw [hread] at h
      cases h
    | ok v =>
      rw [hread] at h
      intro block' hmem
      rcases List.mem_cons.mp hmem with rfl | hmem
      · exact ⟨_, v, hread⟩
      · exact ih (Nat.succ.inj h) block' hmem

end Loop

/-! ## Truncated files -/

section Values

variable {ι : Type} [DecidableEq ι] (r : Realm ι)

/-- The values of one type, in the order they were written. -/
def Realm.valuesOf (i : ι) (values : List r.Value) : List (r.type i) :=
  values.filterMap fun value => if h : value.1 = i then some (h ▸ value.2) else none

variable {r} {i : ι}

theorem valuesOf_cons_eq (v : r.type i) (values : List r.Value) :
    r.valuesOf i (⟨i, v⟩ :: values) = v :: r.valuesOf i values := by
  simp [Realm.valuesOf]

theorem valuesOf_cons_ne {value : r.Value} (h : value.1 ≠ i) (values : List r.Value) :
    r.valuesOf i (value :: values) = r.valuesOf i values := by
  simp [Realm.valuesOf, h]

theorem valuesOf_append (values values' : List r.Value) :
    r.valuesOf i (values ++ values') = r.valuesOf i values ++ r.valuesOf i values' :=
  List.filterMap_append

end Values

/-! ## Files that were cut off -/

section Cut

/-- The blocks that lie before a cut `n` bytes behind the header, and what is
    left of the block it falls into. -/
def cutAt : (n : ℕ) → List EncodedBlock → List EncodedBlock × List Byte
  | _, [] => ([], [])
  | n, block :: blocks =>
    if (blockBytes block).length ≤ n then
      let (before, part) := cutAt (n - (blockBytes block).length) blocks
      (block :: before, part)
    else ([], (blockBytes block).take n)

theorem take_flatMap_blockBytes (n : ℕ) (blocks : List EncodedBlock) :
    (blocks.flatMap blockBytes).take n =
      (cutAt n blocks).1.flatMap blockBytes ++ (cutAt n blocks).2 := by
  induction blocks generalizing n with
  | nil => rw [List.flatMap_nil, List.take_nil]; rfl
  | cons block blocks ih =>
    rw [List.flatMap_cons, List.take_append, cutAt]
    split_ifs with h
    · rw [List.take_of_length_le h, ih, ← List.append_assoc]
      rfl
    · rw [Nat.sub_eq_zero_of_le (by omega), List.take_zero, List.append_nil]
      rfl

/-- What is left of a block is not the whole block. -/
theorem partOfBlock_cutAt (n : ℕ) (blocks : List EncodedBlock) : PartOfBlock (cutAt n blocks).2 := by
  induction blocks generalizing n with
  | nil => exact partOfBlock_nil
  | cons block blocks ih =>
    rw [cutAt]
    split_ifs with h
    · exact ih _
    · refine ⟨block, List.take_prefix _ _, fun heq => ?_⟩
      have hlen := congrArg List.length heq
      rw [List.length_take] at hlen
      omega

theorem cutAt_fst_eq_take (n : ℕ) (blocks : List EncodedBlock) :
    (cutAt n blocks).1 = blocks.take (cutAt n blocks).1.length := by
  induction blocks generalizing n with
  | nil => rfl
  | cons block blocks ih =>
    rw [cutAt]
    split_ifs with h
    · rw [List.length_cons, List.take_succ_cons, ← ih]
    · rfl

/-- Where the cut falls depends on the lengths of the blocks only. -/
theorem length_cutAt_congr {blocks blocks' : List EncodedBlock}
    (h : List.Forall₂ (fun b b' => (blockBytes b).length = (blockBytes b').length) blocks blocks')
    (n : ℕ) : (cutAt n blocks).1.length = (cutAt n blocks').1.length := by
  induction h generalizing n with
  | nil => rfl
  | cons hlen hrest ih =>
    rw [cutAt, cutAt, hlen]
    split_ifs
    · rw [List.length_cons, List.length_cons, ih]
    · rfl

end Cut

section Written

variable {ι : Type} (r : Realm ι) (lib : Libraries)

/-- A value that `write_block` has written. -/
structure Written where
  value : r.Value
  /-- `getenv("PBSF_COMPRESSION")`. -/
  pbsfCompression : Option String
  /-- `pbss::serialize_to_buffer(value)`. -/
  raw : Buffer
  raw_eq : raw.bytes = bytes (r.ty value.1) value.2
  /-- The block that is made of it, by what fresh memory holds. -/
  block : Memory → EncodedBlock
  encoded : ∀ fresh, r.encode lib ⟨pbsfCompression, fresh⟩ value = .ok (block fresh)

variable {r lib}

/-- The encoding that `encode_block` is asked for. -/
def Written.encoding (w : Written r lib) : Int16T := envPreferredEncoding w.pbsfCompression

theorem Written.encodeBlock_eq (w : Written r lib) (fresh : Memory) :
    encodeBlock lib fresh (r.lookupId w.value.1) w.raw w.encoding = .ok (w.block fresh) := by
  have hencoded := w.encoded fresh
  unfold Realm.encode at hencoded
  rwa [encodeValue_eq lib _ _ _ _ w.raw_eq] at hencoded

theorem Written.contentType (w : Written r lib) (fresh : Memory) :
    (w.block fresh).contentType = r.lookupId w.value.1 :=
  encodeBlock_contentType (w.encodeBlock_eq fresh)

/-- What fresh memory holds does not change the length of a block. -/
theorem Written.length_block (w : Written r lib) (fresh fresh' : Memory) :
    (blockBytes (w.block fresh)).length = (blockBytes (w.block fresh')).length := by
  rw [length_blockBytes, length_blockBytes,
    length_encodeBlock (w.encodeBlock_eq fresh) (w.encodeBlock_eq fresh')]

/-- Every value that is written is such a value: whether a block is made of it does
    not depend on fresh memory. -/
theorem exists_written {value : r.Value} {host : Host} {block : EncodedBlock} {raw : Buffer}
    (hraw : raw.bytes = bytes (r.ty value.1) value.2) (h : r.encode lib host value = .ok block) :
    ∃ w : Written r lib, w.value = value ∧ w.pbsfCompression = host.pbsfCompression ∧
      w.raw = raw ∧ w.block host.fresh = block := by
  have hencode : ∀ fresh, r.encode lib ⟨host.pbsfCompression, fresh⟩ value =
      encodeBlock lib fresh (r.lookupId value.1) raw (envPreferredEncoding host.pbsfCompression) :=
    fun fresh => encodeValue_eq lib (r.ty value.1) value.2 ⟨host.pbsfCompression, fresh⟩
      (r.lookupId value.1) hraw
  have hblock : ∀ fresh, ∃ b, r.encode lib ⟨host.pbsfCompression, fresh⟩ value = .ok b := by
    intro fresh
    obtain ⟨b, hb⟩ := exists_encodeBlock fresh ((hencode host.fresh).symm.trans h)
    exact ⟨b, (hencode fresh).trans hb⟩
  choose block' hblock' using hblock
  refine ⟨⟨value, host.pbsfCompression, raw, hraw, block', hblock'⟩, rfl, rfl, rfl, ?_⟩
  exact Except.ok.inj ((hblock' host.fresh).symm.trans h)

/-- The block of an encodable value gives it back. -/
theorem Written.holds (w : Written r lib) (h : Encodable lib w.raw w.encoding) (fresh : Memory) :
    Holds lib (r.ty w.value.1) (w.block fresh) w.value.2 := by
  obtain ⟨block, hblock, -, hholds⟩ := holds_encodeBlock lib (r.ty w.value.1) w.value.2 fresh
    (r.lookupId w.value.1) _ w.raw_eq h
  cases hblock.symm.trans (w.encodeBlock_eq fresh)
  exact hholds

/-- Blocks that were written of some values, whatever fresh memory held. -/
def BlocksOf (ws : List (Written r lib)) (blocks : List EncodedBlock) : Prop :=
  List.Forall₂ (fun w block => ∃ fresh, block = w.block fresh) ws blocks

/-- The blocks that are made where fresh memory holds zeros. -/
def zeroBlocks (ws : List (Written r lib)) : List EncodedBlock := ws.map fun w => w.block fun _ => 0

theorem blocksOf_zeroBlocks (ws : List (Written r lib)) : BlocksOf ws (zeroBlocks ws) := by
  induction ws with
  | nil => exact List.Forall₂.nil
  | cons w ws ih => exact List.Forall₂.cons ⟨_, rfl⟩ ih

/-- How many of the values lie before a cut `n` bytes behind the header. -/
def countBefore (n : ℕ) (ws : List (Written r lib)) : ℕ := (cutAt n (zeroBlocks ws)).1.length

/-- They are as many whatever fresh memory held. -/
theorem length_cutAt {ws : List (Written r lib)} {blocks : List EncodedBlock}
    (h : BlocksOf ws blocks) (n : ℕ) : (cutAt n blocks).1.length = countBefore n ws := by
  apply length_cutAt_congr
  unfold zeroBlocks
  induction h with
  | nil => exact List.Forall₂.nil
  | @cons w block ws blocks hblock hrest ih =>
    obtain ⟨fresh, rfl⟩ := hblock
    exact List.Forall₂.cons (w.length_block _ _) ih

variable [DecidableEq ι] (i : ι)

/-- The blocks of one type hold its values, if those are encodable. -/
theorem holds_valuesOf {ws : List (Written r lib)} {blocks : List EncodedBlock}
    (h : BlocksOf ws blocks) (hencodable : ∀ w ∈ ws, w.value.1 = i → Encodable lib w.raw w.encoding) :
    List.Forall₂ (Holds lib (r.ty i)) (blocks.filter (checkId (r.lookupId i)))
      (r.valuesOf i (ws.map fun w => w.value)) := by
  induction h with
  | nil => exact List.Forall₂.nil
  | @cons w block ws blocks hblock hrest ih =>
    obtain ⟨fresh, rfl⟩ := hblock
    have hid := w.contentType fresh
    have hrest := ih fun w' hw' => hencodable w' (List.mem_cons_of_mem _ hw')
    rw [List.map_cons]
    by_cases hi : w.value.1 = i
    · have hholds := w.holds (hencodable w List.mem_cons_self hi) fresh
      obtain ⟨⟨j, v⟩, compression, raw, hraw, block, hencoded⟩ := w
      subst hi
      rw [List.filter_cons_of_pos (by simpa [checkId] using hid), valuesOf_cons_eq]
      exact List.Forall₂.cons hholds hrest
    · have hne : r.lookupId w.value.1 ≠ r.lookupId i := fun heq => hi (r.lookupId_injective heq)
      rw [List.filter_cons_of_neg (by simpa [checkId, hid] using hne), valuesOf_cons_ne hi]
      exact hrest

/-- There are as many blocks of the type as values. -/
theorem length_valuesOf (ws : List (Written r lib)) :
    (r.valuesOf i (ws.map fun w => w.value)).length =
      ((zeroBlocks ws).filter (checkId (r.lookupId i))).length := by
  unfold zeroBlocks
  induction ws with
  | nil => rfl
  | cons w ws ih =>
    have hid := w.contentType fun _ => 0
    rw [List.map_cons, List.map_cons]
    by_cases hi : w.value.1 = i
    · obtain ⟨⟨j, v⟩, compression, raw, hraw, block, hencoded⟩ := w
      subst hi
      rw [List.filter_cons_of_pos (by simpa [checkId] using hid), valuesOf_cons_eq, List.length_cons,
        List.length_cons, ih]
    · have hne : (w.block fun _ => 0).contentType ≠ r.lookupId i := by
        rw [hid]
        exact fun heq => hi (r.lookupId_injective heq)
      rw [List.filter_cons_of_neg (by simpa [checkId] using hne), valuesOf_cons_ne hi, ih]

/-- A file of a header and blocks that is cut off `n` bytes behind the header: it is
    opened, and a loop over `read_one_type` receives the values before the cut; at a
    block boundary it ends, anywhere else it throws. This is so whatever fresh memory
    held when the blocks were written, and holds when they are read. -/
def ReadsBeforeCut (ws : List (Written r lib)) (n : ℕ) : Prop :=
  ∀ blocks, BlocksOf ws blocks → ∀ build heap,
    let rest := (cutAt n blocks).1.flatMap blockBytes ++ (cutAt n blocks).2
    openSequentialInputFile r build
        (inputFile ((headerBytes r ++ blocks.flatMap blockBytes).take (8 + n))) =
      .ok () (StdStream.between (headerBytes r) rest true) ∧
    ∀ e, readOneType build lib (r.lookupId i) (r.ty i) heap
        (StdStream.between (headerBytes r) rest e) =
      (r.valuesOf i ((ws.take (countBefore n ws)).map fun w => w.value),
        if (cutAt n blocks).2 = [] then none
        else some (.throws (if e then .iosFailure else .earlyEofError)))

variable {i} {ws : List (Written r lib)} {n : ℕ}

omit [DecidableEq ι] in
/-- What a loop makes of the file. -/
theorem readOneType_cut (blocks : List EncodedBlock) (n : ℕ) (build : Build) (heap : ℕ → Memory)
    (e : Bool) :
    readOneType build lib (r.lookupId i) (r.ty i) heap (StdStream.between (headerBytes r)
        ((cutAt n blocks).1.flatMap blockBytes ++ (cutAt n blocks).2) e) =
      received build lib (r.ty i) heap
        (endOfLoop (if e then .iosFailure else .earlyEofError) (cutAt n blocks).2) 0
        ((cutAt n blocks).1.filter (checkId (r.lookupId i))) := by
  have hready := StdStream.between_ready (headerBytes r)
    ((cutAt n blocks).1.flatMap blockBytes ++ (cutAt n blocks).2) e
  exact readOneType_eq build lib (r.lookupId i) (r.ty i) heap (partOfBlock_cutAt n blocks) hready

theorem readsBeforeCut_of_encodable
    (h : ∀ w ∈ ws.take (countBefore n ws), w.value.1 = i → Encodable lib w.raw w.encoding) :
    ReadsBeforeCut i ws n := by
  intro blocks hblocks build heap rest
  have hfile : (headerBytes r ++ blocks.flatMap blockBytes).take (8 + n) = headerBytes r ++ rest := by
    rw [List.take_append, length_headerBytes, List.take_of_length_le (by
      rw [length_headerBytes]
      omega), Nat.add_sub_cancel_left, take_flatMap_blockBytes]
  constructor
  · rw [hfile]
    exact openSequentialInputFile_header r build rest
  · intro e
    have hbefore : BlocksOf (ws.take (countBefore n ws)) (cutAt n blocks).1 := by
      rw [cutAt_fst_eq_take, length_cutAt hblocks]
      exact List.forall₂_take _ hblocks
    exact (readOneType_cut blocks n build heap e).trans
      (received_of_holds (holds_valuesOf i hbefore h) 0)

/-- A value whose block is received wherever memory held zeros is encodable. -/
theorem encodable_of_readsBeforeCut (h : ReadsBeforeCut i ws n) :
    ∀ w ∈ ws.take (countBefore n ws), w.value.1 = i → Encodable lib w.raw w.encoding := by
  intro w hw hi
  have hread := (h _ (blocksOf_zeroBlocks ws) ⟨true, 8⟩ fun _ _ => 0).2 false
  have hbefore : (cutAt n (zeroBlocks ws)).1 = zeroBlocks (ws.take (countBefore n ws)) :=
    (cutAt_fst_eq_take n (zeroBlocks ws)).trans List.map_take.symm
  rw [readOneType_cut] at hread
  have hlen := congrArg (fun received => received.1.length) hread
  dsimp only at hlen
  rw [length_valuesOf, ← hbefore] at hlen
  have hmem : (w.block fun _ => 0) ∈
      (cutAt n (zeroBlocks ws)).1.filter (checkId (r.lookupId i)) := by
    rw [hbefore]
    refine List.mem_filter.mpr ⟨List.mem_map_of_mem hw, ?_⟩
    have hid := w.contentType fun _ => 0
    rw [hi] at hid
    simpa [checkId] using hid
  obtain ⟨fresh, v, hblock⟩ := exists_readBlock_of_received hlen _ hmem
  obtain ⟨raw, moved, hdecode⟩ := decodeBlock_of_readBlock hblock
  exact encodable_of_decodeBlock lib w.raw w.encoding (w.encodeBlock_eq fun _ => 0) hdecode

/-- The loop receives the values before the cut exactly if those of its type are
    encodable. -/
theorem truncated_file (i : ι) (ws : List (Written r lib)) (n : ℕ) :
    ReadsBeforeCut i ws n ↔
      ∀ w ∈ ws.take (countBefore n ws), w.value.1 = i → Encodable lib w.raw w.encoding :=
  ⟨encodable_of_readsBeforeCut, readsBeforeCut_of_encodable⟩

end Written

/-! ## A file that is not cut off -/

section Huge

/-- A realm of buffers. -/
def bufferRealm : Realm Unit where
  type _ := Buffer
  ty _ := bufferTy
  lookupId _ := 7
  lookupId_injective _ _ _ := rfl
  id := 1

/-- `write_block` of a buffer, with the default encoding. -/
def Written.ofBuffer (content : Buffer) (h : (bytes bufferTy content).length ≤ maxElems 1) :
    Written bufferRealm Libraries.stored where
  value := ⟨(), content⟩
  pbsfCompression := none
  raw := Buffer.ofBytes (bytes bufferTy content) h
  raw_eq := rfl
  block fresh := smallerBlock 7 (Buffer.ofBytes (bytes bufferTy content) h) encodingZstd
    (zstdCompress Zstd.stored fresh (Buffer.ofBytes (bytes bufferTy content) h))
  encoded fresh := encodeValue_eq Libraries.stored bufferTy content ⟨none, fresh⟩ 7 rfl

/-- A file of one block, to its end. -/
theorem encodable_of_receives {w : Written bufferRealm Libraries.stored}
    (h : ReadsBeforeCut () [w] (blockBytes (w.block fun _ => 0)).length) :
    Encodable Libraries.stored w.raw w.encoding := by
  have hcount : countBefore (blockBytes (w.block fun _ => 0)).length [w] = 1 := by
    unfold countBefore zeroBlocks
    rw [List.map_singleton, cutAt, if_pos (le_refl _)]
    rfl
  refine encodable_of_readsBeforeCut h w ?_ rfl
  rw [hcount]
  exact List.mem_cons_self

theorem four_gigabytes_le_maxElems : 2 ^ 32 ≤ maxElems 1 := by decide

/-- Four gigabytes of zeros can be serialized. -/
theorem length_bytes_fourGigabytes :
    2 ^ 32 ≤ (bytes bufferTy (zeroBuffer (2 ^ 32) four_gigabytes_le_maxElems)).length ∧
      (bytes bufferTy (zeroBuffer (2 ^ 32) four_gigabytes_le_maxElems)).length ≤ maxElems 1 := by
  have hlen := length_zeroBuffer (2 ^ 32) four_gigabytes_le_maxElems
  generalize zeroBuffer (2 ^ 32) four_gigabytes_le_maxElems = content at hlen ⊢
  have hsize : (base128 (2 ^ 32)).length ≤ 4 + 1 := base128_length_le (by norm_num)
  rw [bytes_bufferTy, List.length_append, hlen, maxElems_one]
  omega

/-- They lie completely before the end of the file, but are not received. -/
theorem fourGigabytes_not_received :
    ∃ w : Written bufferRealm Libraries.stored,
      w.value = ⟨(), zeroBuffer (2 ^ 32) four_gigabytes_le_maxElems⟩ ∧
      ¬ ReadsBeforeCut () [w] (blockBytes (w.block fun _ => 0)).length := by
  obtain ⟨hge, hle⟩ := length_bytes_fourGigabytes
  generalize zeroBuffer (2 ^ 32) four_gigabytes_le_maxElems = content at hge hle ⊢
  have hraw : 2 ^ 32 ≤ (Written.ofBuffer content hle).raw.bytes.length := hge
  exact ⟨.ofBuffer content hle, rfl, fun h => not_encodable_stored hraw (encodable_of_receives h)⟩

end Huge

end BambooShoot.Pbsf
