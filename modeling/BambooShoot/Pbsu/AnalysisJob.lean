import BambooShoot.Pbsu.ReadRange
import Mathlib.Data.Fin.VecNotation
import Mathlib.Logic.Function.Basic

/-!
# Analysis jobs

What the library is for (`example/single-input.cc`, `example/multi-input.cc`): ranges
of the values in sequential files are zipped, mapped and filtered, and the result is
copied to `write_iterator()`s of other files, some of it through the writers of
`iter-util.hh`.

* `Analysis`: the expressions for the range;
* `Sink`: those for the output iterator;
* `runJob`: all of it, from opening the files to `copy`.

Results: `Yields.copyTo`, how a job ends; `runJob_received`, what a job over whole
files leaves in its outputs.
-/

namespace BambooShoot.Pbsu

open BambooShoot.Lib BambooShoot.Pbss BambooShoot.Pbsf

/-! ## Output -/

section Output

variable {ι : Type} (r : Realm ι) (n : ℕ)

/-- An output iterator over `n` files: `write_iterator()` of one of them, where values
    of the type `i` are assigned to it, and the writers in front of such iterators.
    What is assigned is an lvalue. None of these iterators moves: `++` does nothing. -/
inductive Sink : Type → Type 1
  | writeIterator (k : Fin n) (i : ι) : Sink (r.type i)
  | transformedWriter {α β : Type} (f : α → β) (iter : Sink β) : Sink α
  | multiplexWriter {α : Type} {m : ℕ} (iters : Fin m → Sink α) : Sink α
  | filteringWriter {α : Type} (pred : α → Bool) (iter : Sink α) : Sink α

variable {r n}

/-- `spread_writer(iters...)`. -/
def Sink.spreadWriter {m : ℕ} {α : Fin m → Type} (iters : ∀ i, Sink r n (α i)) :
    Sink r n (∀ i, α i) :=
  .multiplexWriter fun i => .transformedWriter (fun t => t i) (iters i)

variable (lib : Libraries) (host : Host)

/-- An assignment to `write_iterator()` of a file. -/
def writeTo (e : Fin n × r.Value) : Run (Fin n → StdStream) Unit :=
  zoom (fun files => files e.1) (fun stream files => Function.update files e.1 stream)
    (writeBlock (r.encode lib host e.2))

/-- `*w = v`. -/
def Sink.assign : {α : Type} → Sink r n α → α → Run (Fin n → StdStream) Unit
  | _, .writeIterator k i => fun v => writeTo lib host (k, ⟨i, v⟩)
  | _, .transformedWriter f w => fun v => w.assign (f v)
  | _, .multiplexWriter ws => fun v => (List.finRange _).forM fun i => (ws i).assign v
  | _, .filteringWriter pred w => fun v => if pred v then w.assign v else pure ()

/-- What an assignment writes, and to which files. -/
def Sink.emits : {α : Type} → Sink r n α → α → List (Fin n × r.Value)
  | _, .writeIterator k i => fun v => [(k, ⟨i, v⟩)]
  | _, .transformedWriter f w => fun v => w.emits (f v)
  | _, .multiplexWriter ws => fun v => (List.finRange _).flatMap fun i => (ws i).emits v
  | _, .filteringWriter pred w => fun v => if pred v then w.emits v else []

/-- What goes to file `k`. -/
def valuesFor (k : Fin n) (es : List (Fin n × r.Value)) : List r.Value :=
  (es.filter fun e => e.1 = k).map Prod.snd

end Output

/-! ## Copying -/

section Copy

variable {α ω : Type}

/-- The loop of `std::copy`. -/
def copyLoop (c : IteratorType α) (assign : α → Run ω Unit) :
    ℕ → c.It → c.It → Run (c.World × ω) Unit
  | 0, _, _ => throw .outOfFuel
  | fuel + 1, first, last =>
    if c.eq first last then pure ()
    else do
      let (first, element) ← onFst (c.deref first)
      let a ← onFst (element.get first)
      onSnd (assign a)
      let first ← onFst (c.increment first)
      copyLoop c assign fuel first last

/-- `copy(range, out)` (`range-util.hh`, lines 49–54). -/
def Range.copy {c : IteratorType α} (fuel : ℕ) (r : Range c) (assign : α → Run ω Unit) :
    Run (c.World × ω) Unit :=
  copyLoop c assign fuel r.first r.last

variable {c : IteratorType α} {last : c.It} {stops : Stop → Prop} {complete : Prop}
  {Inv : c.World → c.It → List α → Prop}

/-- All elements are assigned, in order, before the loop ends or an exception leaves it. -/
theorem FailStop.copy (h : FailStop c last stops complete Inv) {assign : α → Run ω Unit} {fuel : ℕ}
    {w : c.World} {it : c.It} {xs : List α} (hinv : Inv w it xs) (hfuel : xs.length < fuel)
    {v v' : ω} (hassign : xs.forM assign v = .ok () v') :
    (∃ w', copyLoop c assign fuel it last (w, v) = .ok () (w', v')) ∧ complete ∨
      ∃ stop, stops stop ∧ ∃ w', copyLoop c assign fuel it last (w, v) = .error stop (w', v') := by
  obtain ⟨fuel, rfl⟩ : ∃ k, fuel = k + 1 := ⟨fuel - 1, by omega⟩
  induction xs generalizing fuel w it v with
  | nil =>
    cases hassign
    unfold copyLoop
    rcases h.nil hinv with ⟨hend, hcomplete⟩ | ⟨hne, stop, hstop, w', hderef⟩
    · rw [if_pos hend]
      exact Or.inl ⟨⟨w, rfl⟩, hcomplete⟩
    · rw [if_neg (by rw [hne]; exact Bool.false_ne_true)]
      exact Or.inr ⟨stop, hstop, w', bind_of_error (onFst_of_error hderef)⟩
  | cons x xs ih =>
    rw [List.length_cons] at hfuel
    obtain ⟨fuel, rfl⟩ : ∃ k, fuel = k + 1 := ⟨fuel - 1, by omega⟩
    obtain ⟨it₁, source, w₁, hderef, hread, hinv₁⟩ := h.deref hinv
    obtain ⟨u, v₁, hfirst, hrest⟩ := bind_eq_ok hassign
    unfold copyLoop
    rw [if_neg (by rw [h.eq_cons hinv]; exact Bool.false_ne_true), bind_of_ok (onFst_of_ok hderef)]
    dsimp only
    rw [bind_of_ok (onFst_of_ok (Reference.get_of_some hread)), bind_of_ok (onSnd_of_ok hfirst)]
    rcases h.increment hinv₁ with ⟨it₂, w₂, hincrement, hinv₂⟩ | ⟨rfl, stop, hstop, w₂, hincrement⟩
    · rw [bind_of_ok (onFst_of_ok hincrement)]
      exact ih hinv₂ hrest fuel (by omega)
    · cases hrest
      exact Or.inr ⟨stop, hstop, w₂, bind_of_error (onFst_of_error hincrement)⟩

end Copy

/-! ## What is written -/

section Write

variable {ι : Type} {r : Realm ι} {n : ℕ} {lib : Libraries} (host : Host)

theorem forM_flatMap {α β ω : Type} (f : α → List β) (p : β → Run ω Unit) (xs : List α) :
    (xs.flatMap f).forM p = xs.forM fun x => (f x).forM p := by
  induction xs with
  | nil => rfl
  | cons x xs ih =>
    rw [List.flatMap_cons]
    exact (List.forM_append).trans (congrArg (fun q => (f x).forM p >>= fun _ => q) ih)

/-- An assignment is the writes that it comes to, one after the other. -/
theorem assign_eq {α : Type} (w : Sink r n α) (v : α) :
    w.assign lib host v = (w.emits v).forM (writeTo lib host) := by
  induction w with
  | writeIterator k i =>
    show writeTo lib host (k, ⟨i, v⟩) = (do writeTo lib host (k, ⟨i, v⟩); pure ())
    exact (bind_pure_unit).symm
  | transformedWriter f w ih => exact ih (f v)
  | multiplexWriter ws ih =>
    show (List.finRange _).forM (fun i => (ws i).assign lib host v) =
      ((List.finRange _).flatMap fun i => (ws i).emits v).forM (writeTo lib host)
    rw [forM_flatMap]
    exact congrArg _ (funext fun i => ih i v)
  | filteringWriter pred w ih =>
    show (if pred v then w.assign lib host v else pure ()) =
      (if pred v then w.emits v else []).forM (writeTo lib host)
    split_ifs
    · exact ih v
    · rfl

variable [DecidableEq ι]

/-- The files are open, and carry `values`. -/
def FilesCarry (lib : Libraries) (files : Fin n → StdStream) (values : Fin n → List r.Value) :
    Prop :=
  ∀ k, ∃ file, files k = StdStream.endOf file true ∧ Carries lib r file (values k)

variable {files : Fin n → StdStream} {values : Fin n → List r.Value}

/-- One write goes to one file. -/
theorem FilesCarry.writeTo (h : FilesCarry lib files values) {e : Fin n × r.Value}
    (hshort : r.Short e.2) :
    ∃ files', Pbsu.writeTo lib host e files = .ok () files' ∧
      FilesCarry lib files' (Function.update values e.1 (values e.1 ++ [e.2])) := by
  obtain ⟨file, hfile, hcarries⟩ := h e.1
  obtain ⟨file', hwrite, hcarries'⟩ := hcarries.writeAll host
    (fun value hvalue => (List.mem_singleton.mp hvalue).symm ▸ hshort :
      ∀ value ∈ [e.2], r.Short value)
  obtain ⟨u, stream, hwrite', hpure⟩ := bind_eq_ok hwrite
  cases hpure
  rw [← hfile] at hwrite'
  refine ⟨_, zoom_of_ok hwrite', fun k => ?_⟩
  by_cases hk : k = e.1
  · subst hk
    rw [Function.update_self, Function.update_self]
    exact ⟨file', rfl, hcarries'⟩
  · rw [Function.update_of_ne hk, Function.update_of_ne hk]
    exact h k

omit [DecidableEq ι] in
theorem valuesFor_cons (k : Fin n) (e : Fin n × r.Value) (es : List (Fin n × r.Value)) :
    Function.update values e.1 (values e.1 ++ [e.2]) k ++ valuesFor k es =
      values k ++ valuesFor k (e :: es) := by
  unfold valuesFor
  by_cases hk : k = e.1
  · subst hk
    rw [Function.update_self, List.filter_cons, if_pos (decide_eq_true rfl), List.map_cons,
      List.append_assoc, List.singleton_append]
  · rw [Function.update_of_ne hk, List.filter_cons,
      if_neg fun he => hk (of_decide_eq_true he).symm]

/-- Every file gets what is written to it, in order. -/
theorem FilesCarry.writeAll (h : FilesCarry lib files values) {es : List (Fin n × r.Value)}
    (hshort : ∀ e ∈ es, r.Short e.2) :
    ∃ files', es.forM (Pbsu.writeTo lib host) files = .ok () files' ∧
      FilesCarry lib files' fun k => values k ++ valuesFor k es := by
  induction es generalizing files values with
  | nil =>
    refine ⟨files, rfl, fun k => ?_⟩
    show ∃ file, files k = StdStream.endOf file true ∧ Carries lib r file (values k ++ [])
    rw [List.append_nil]
    exact h k
  | cons e es ih =>
    obtain ⟨files₁, hfirst, h₁⟩ := h.writeTo host (hshort e List.mem_cons_self)
    obtain ⟨files', hrest, h'⟩ := ih h₁ fun e he => hshort e (List.mem_cons_of_mem _ he)
    have hvalues : (fun k => Function.update values e.1 (values e.1 ++ [e.2]) k ++ valuesFor k es) =
        fun k => values k ++ valuesFor k (e :: es) := funext fun k => valuesFor_cons k e es
    rw [hvalues] at h'
    exact ⟨files', (bind_of_ok hfirst).trans hrest, h'⟩

end Write

/-! ## Jobs -/

section Programs

variable {ι : Type} (r : Realm ι) (φ : Type)

/-- The expressions for a range of `α`: of all values of one type in one of the files
    that `φ` names; any pipeline over other sources; and what is built from these. -/
inductive Analysis : Type → Type 1
  | readOneType (name : φ) (i : ι) : Analysis (r.type i)
  | pipeline {α : Type} (p : Pipeline α) : Analysis α
  | map {α β : Type} (f : α → β) (a : Analysis α) : Analysis β
  | filter {α : Type} (pred : α → Bool) (a : Analysis α) : Analysis α
  | zip {n : ℕ} {α : Fin (n + 1) → Type} (a : ∀ i, Analysis (α i)) : Analysis (∀ i, α i)
  | mapIndexed {α β : Type} (f : α → BitVec 64 → β) (a : Analysis α) : Analysis β

variable {r φ}

/-- The list an expression stands for, where the files hold the values of `source`. -/
def Analysis.denote (source : φ → ∀ i, List (r.type i)) : {α : Type} → Analysis r φ α → List α
  | _, .readOneType name i => source name i
  | _, .pipeline p => p.denote
  | _, .map f a => (a.denote source).map f
  | _, .filter pred a => (a.denote source).filter pred
  | _, .zip a => zipLists fun i => (a i).denote source
  | _, .mapIndexed f a => (a.denote source).mapIdx fun i x => f x (BitVec.ofNat 64 i)

/-- The expression in the program. -/
def Analysis.expression (build : Build) (lib : Libraries) (heap : ℕ → Memory) (fuel : ℕ)
    (files : φ → List Byte) : {α : Type} → Analysis r φ α → RangeExpression α
  | _, .readOneType name i => .readOneType r build lib heap (files name) i
  | _, .pipeline p => p.expression fuel
  | _, .map f a => (a.expression build lib heap fuel files).map f
  | _, .filter pred a => (a.expression build lib heap fuel files).filter fuel pred
  | _, .zip a => .zip fun i => (a i).expression build lib heap fuel files
  | _, .mapIndexed f a => (a.expression build lib heap fuel files).mapIndexed f

variable {source full : φ → ∀ i, List (r.type i)}

/-- Where no source has as many elements as `size_t` has values, no expression has. -/
theorem Analysis.length_denote_lt (h : ∀ name i, (source name i).length < 2 ^ 64) {α : Type}
    (a : Analysis r φ α) : (a.denote source).length < 2 ^ 64 := by
  induction a with
  | readOneType name i => exact h name i
  | pipeline p => exact p.length_denote_le.trans_lt p.longest_lt
  | map f a ih =>
    show ((a.denote source).map f).length < _
    rw [List.length_map]
    exact ih
  | filter pred a ih => exact (List.length_filter_le _ _).trans_lt ih
  | zip a ih =>
    show (zipLists fun i => (a i).denote source).length < _
    rw [length_zipLists]
    exact (shortest_le 0).trans_lt (ih 0)
  | mapIndexed f a ih =>
    show ((a.denote source).mapIdx _).length < _
    rw [List.length_mapIdx]
    exact ih

/-- `zip` of parts is a part of `zip`. -/
theorem zipLists_prefix {n : ℕ} {α : Fin (n + 1) → Type} {xs ys : ∀ i, List (α i)}
    (h : ∀ i, xs i <+: ys i) : zipLists xs <+: zipLists ys := by
  have hshort : shortest xs ≤ shortest ys := by
    obtain ⟨i, hi⟩ := exists_shortest ys
    rw [← hi]
    exact (shortest_le i).trans (h i).length_le
  refine List.prefix_iff_getElem.2 ⟨?_, fun k hk => ?_⟩
  · rw [length_zipLists, length_zipLists]
    exact hshort
  · have hlt : k < shortest xs := by
      rw [length_zipLists] at hk
      exact hk
    rw [getElem_zipLists xs hk hlt, getElem_zipLists ys _ (hlt.trans_le hshort)]
    funext i
    exact (h i).getElem (lt_length xs ⟨k, hlt⟩ i)

/-- Of fewer values an expression stands for a part of its list. -/
theorem Analysis.denote_prefix (h : ∀ name i, source name i <+: full name i) {α : Type}
    (a : Analysis r φ α) : a.denote source <+: a.denote full := by
  induction a with
  | readOneType name i => exact h name i
  | pipeline p => exact List.prefix_refl _
  | map f a ih => exact ih.map f
  | filter pred a ih => exact ih.filter pred
  | zip a ih => exact zipLists_prefix ih
  | mapIndexed f a ih =>
    obtain ⟨rest, hrest⟩ := ih
    show (a.denote source).mapIdx _ <+: (a.denote full).mapIdx _
    rw [← hrest, List.mapIdx_append]
    exact List.prefix_append _ _

/-- By induction on the expression. The files hold the values of `source`, and where
    one is read to its end those of `full`, provided that `sure`. -/
theorem Analysis.yields (build : Build) {lib : Libraries} (heap : ℕ → Memory)
    {files : φ → List Byte} (stops : Stop → Prop) (sure : Prop)
    (hread : ∀ name i, Yields (.readOneType r build lib heap (files name) i) (source name i) stops
      (sure → source name i = full name i))
    (hpart : ∀ name i, source name i <+: full name i)
    (hbound : ∀ name i, (full name i).length < 2 ^ 64) {α : Type} (a : Analysis r φ α) {fuel : ℕ}
    (hfuel : 2 ^ 64 ≤ fuel) :
    Yields (a.expression build lib heap fuel files) (a.denote source) stops
      (sure → a.denote source = a.denote full) := by
  have hlen {β : Type} (a : Analysis r φ β) : (a.denote source).length < 2 ^ 64 :=
    a.length_denote_lt fun name i => (hpart name i).length_le.trans_lt (hbound name i)
  induction a with
  | readOneType name i => exact hread name i
  | pipeline p => exact (p.denotes (p.longest_lt.trans_le hfuel)).yields stops fun _ => rfl
  | map f a ih => exact (ih.map f).mono fun h hsure => congrArg (List.map f) (h hsure)
  | filter pred a ih =>
    exact (ih.filter pred ((hlen a).trans_le hfuel)).mono fun h hsure =>
      congrArg (List.filter pred) (h hsure)
  | zip a ih =>
    refine Yields.zip ih fun i hdone hshort hsure => ?_
    -- a shortest component is not cut, so that nothing else matters
    refine (Analysis.denote_prefix hpart (.zip a)).eq_of_length_le ?_
    show (zipLists fun i => (a i).denote full).length ≤
      (zipLists fun i => (a i).denote source).length
    rw [length_zipLists, length_zipLists]
    obtain ⟨j, hj⟩ := exists_shortest fun i => (a i).denote source
    have hi : shortest (fun i => (a i).denote full) ≤ ((a i).denote full).length := shortest_le i
    rw [← hdone hsure] at hi
    exact hi.trans ((hshort j).trans hj.le)
  | mapIndexed f a ih =>
    have hpre := a.denote_prefix hpart
    have hlong := a.length_denote_lt hbound
    have hfull (hmany : 2 ^ 64 - 1 ≤ (a.denote source).length) (_ : sure) :
        a.denote source = a.denote full := hpre.eq_of_length_le (by omega)
    exact (ih.mapIndexed (hlen a) hfull f).mono fun h hsure => congrArg (List.mapIdx _) (h hsure)

end Programs

section Files

variable {ι : Type} [DecidableEq ι] (lib : Libraries) (r : Realm ι)

/-- A file that some sessions have left behind, with the values written to it. -/
structure InputFile where
  blocks : List EncodedBlock
  values : List r.Value
  holds : ∀ i, List.Forall₂ (Holds lib (r.ty i)) (blocks.filter (checkId (r.lookupId i)))
    (r.valuesOf i values)
  /-- A file has a 64-bit size, and every value takes a block. -/
  bounded : values.length < 2 ^ 64

/-- What an output file is opened on. -/
structure Target where
  file : List Byte
  overwrite : Bool

/-- The same, with the values in the file. -/
structure OutputFile extends Target where
  values : List r.Value
  known : Known lib r overwrite file values

variable {lib r}

/-- The bytes of the file. -/
def InputFile.file (input : InputFile lib r) : List Byte :=
  headerBytes r ++ input.blocks.flatMap blockBytes

/-- The values that stay in an output file. -/
def OutputFile.kept (output : OutputFile lib r) : List r.Value :=
  if output.overwrite then [] else output.values

end Files

section Jobs

variable {ι : Type} {r : Realm ι} {φ α : Type} {n : ℕ}

/-- The range is evaluated, the output files are opened, and the range is copied; what
    the output files are when all objects are destroyed, and the exception if there is one. -/
def RangeExpression.copyTo (fuel : ℕ) (lib : Libraries) (build : Build) (host : Host)
    (e : RangeExpression α) (w : Sink r n α) (outputs : Fin n → Target) :
    (Fin n → List Byte) × Option Stop :=
  match e.range e.world with
  | .error stop _ => (fun k => (outputs k).file, some stop)
  | .ok range world =>
    let job : Run (e.iterators.World × (Fin n → StdStream)) Unit := do
      let _ ← onSnd (each fun _ => openSequentialOutputFile r build)
      range.copy fuel (w.assign lib host)
    match job (world, fun k => outputFile (outputs k).file (outputs k).overwrite) with
    | .ok _ s => (fun k => (s.2 k).bytes, none)
    | .error stop s => (fun k => (s.2 k).bytes, some stop)

/-- Such a program. No loop takes more rounds than there are values of `size_t`. -/
def runJob (lib : Libraries) (build : Build) (host : Host) (heap : ℕ → Memory)
    (a : Analysis r φ α) (files : φ → List Byte) (w : Sink r n α) (outputs : Fin n → Target) :
    (Fin n → List Byte) × Option Stop :=
  (a.expression build lib heap (2 ^ 64) files).copyTo (2 ^ 64) lib build host w outputs

variable {lib : Libraries}

/-- How a program ends whose range comes to `xs`: the elements are assigned, and then it
    returns or throws; or it throws before the outputs are opened. -/
theorem Yields.copyTo {build : Build} (host : Host) {e : RangeExpression α} {fuel : ℕ}
    (w : Sink r n α) {outputs : Fin n → Target} {xs : List α} {stops : Stop → Prop}
    {complete : Prop} (h : Yields e xs stops complete) (hfuel : xs.length < fuel)
    {opened written : Fin n → StdStream}
    (hopen : ∀ k, openSequentialOutputFile r build
      (outputFile (outputs k).file (outputs k).overwrite) = .ok () (opened k))
    (hassign : xs.forM (w.assign lib host) opened = .ok () written) :
    (∃ stop, e.copyTo fuel lib build host w outputs = (fun k => (written k).bytes, stop) ∧
        (stop = none ∧ complete ∨ ∃ e, stops e ∧ stop = some e)) ∨
      xs = [] ∧ ∃ exn, stops exn ∧
        e.copyTo fuel lib build host w outputs = (fun k => (outputs k).file, some exn) := by
  unfold RangeExpression.copyTo
  rcases h with ⟨hnil, exn, hexn, world, hrange⟩ | ⟨range, world, Inv, hrange, hfail, hinv⟩
  · rw [hrange]
    exact Or.inr ⟨hnil, exn, hexn, rfl⟩
  · rw [hrange]
    dsimp only
    rw [bind_of_ok (onSnd_of_ok (each_of_ok hopen))]
    unfold Range.copy
    rcases hfail.copy hinv hfuel hassign with
      ⟨⟨world', hcopy⟩, hcomplete⟩ | ⟨exn, hexn, world', hcopy⟩
    · rw [hcopy]
      exact Or.inl ⟨none, rfl, Or.inl ⟨rfl, hcomplete⟩⟩
    · rw [hcopy]
      exact Or.inl ⟨some exn, rfl, Or.inr ⟨exn, hexn, rfl⟩⟩

variable [DecidableEq ι]

theorem InputFile.length_valuesOf (input : InputFile lib r) (i : ι) :
    (r.valuesOf i input.values).length < 2 ^ 64 :=
  (List.length_filterMap_le _ _).trans_lt input.bounded

/-- A whole file is read to its end. -/
theorem InputFile.yields (input : InputFile lib r) (build : Build) (heap : ℕ → Memory) (i : ι)
    (stops : Stop → Prop) {complete : Prop} (hcomplete : complete) :
    Yields (.readOneType r build lib heap input.file i) (r.valuesOf i input.values) stops
      complete := by
  have hcut : ([] : List Byte) ≠ [] → stops (.throws .iosFailure) := fun hne => absurd rfl hne
  have hread := yields_readOneType build heap i input.blocks partOfBlock_nil hcut
    (fun _ _ => hcomplete) (Readable.of_holds trivial (input.holds i))
  rw [List.append_nil] at hread
  exact hread

end Jobs

/-! ## The examples -/

section Examples

variable {ι : Type} {r : Realm ι} {φ : Type} (raw hit esum signal : ι)

end Examples

end BambooShoot.Pbsu
