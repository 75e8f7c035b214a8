import BambooShoot.Lib.Effect

/-!
# Streams

The concepts `Stream` of `serialize` and `parse` (`doc/pbss.md`, "Serializing"
and "Parsing"), the ways a call can end early, and what the proofs use of a
stream in working order:

* `InputStream`, `OutputStream`: the members the library calls;
* `ForwardInputStream`: no call moves the stream back;
* `LawfulInputStream`: reading from a stream that holds the wanted bytes, and
  what a read past the end looks like;
* `EndedInputStream`: what calls find behind the end;
* `LawfulOutputStream`: `put` and `write` append.
-/

namespace BambooShoot.Pbss

open BambooShoot.Lib

/-- The exceptions the library throws or lets through. -/
inductive Exn where
  /-- `pbss::early_eof_error` (`pbss.hh`, lines 48–53). -/
  | earlyEofError
  /-- `pbsf::unknown_encoding_error` (`defs.hh`, lines 41–46). -/
  | unknownEncodingError
  /-- `pbsf::bad_checksum_error` (`defs.hh`, lines 48–53). -/
  | badChecksumError
  /-- `pbsf::unknown_realm_error` (`defs.hh`, lines 55–60). -/
  | unknownRealmError
  /-- `pbsf::type_mismatch_error` (`defs.hh`, lines 62–67). -/
  | typeMismatchError
  /-- `pbsf::key_mismatch_error` (`defs.hh`, lines 69–74). -/
  | keyMismatchError
  /-- `pbsf::key_missing_error` (`defs.hh`, lines 76–81). -/
  | keyMissingError
  /-- `std::out_of_range`. -/
  | outOfRange (what : String)
  /-- `std::length_error`, from a container asked for more than its `max_size()`. -/
  | lengthError
  /-- `std::runtime_error`. -/
  | runtimeError (what : String)
  /-- `std::ios_base::failure`, from a stream with exceptions enabled. -/
  | iosFailure
  /-- Any other exception, such as `std::bad_alloc` or one of a user's type. -/
  | other
  deriving DecidableEq

/-- The texts of `what()` that the source fixes. -/
def Exn.what : Exn → Option String
  | .earlyEofError => some "Unexpected EOF"
  | .unknownEncodingError => some "Unknown Content-Encoding of data block"
  | .badChecksumError => some "Data checksum mismatch"
  | .unknownRealmError => some "Unknown realm"
  | .typeMismatchError => some "Type mismatch"
  | .keyMismatchError => some "Expected key type does not match"
  | .keyMissingError => some "Provided key was not found"
  | .outOfRange what => some what
  | .runtimeError what => some what
  | .lengthError | .iosFailure | .other => none

/-- How a call can end without a result. -/
inductive Stop where
  | throws (e : Exn)
  /-- The call reaches undefined behaviour: nothing can be said after it. -/
  | undefinedBehaviour
  /-- A loop of the model did not finish within its fuel. -/
  | outOfFuel
  deriving DecidableEq

/-- A call on a stream, or on any object whose state outlives an exception. -/
abbrev Run (σ α : Type) := EStateM Stop σ α

/-- `throw e`. -/
def raise {σ α : Type} (e : Exn) : Run σ α := throw (.throws e)

/-- Undefined behaviour. -/
def undefined {σ α : Type} : Run σ α := throw .undefinedBehaviour

@[simp] theorem raise_run {σ α : Type} (e : Exn) (s : σ) :
    (raise e : Run σ α) s = .error (.throws e) s := rfl

@[simp] theorem undefined_run {σ α : Type} (s : σ) :
    (undefined : Run σ α) s = .error .undefinedBehaviour s := rfl

@[simp] theorem ofExcept_ok {σ α : Type} (a : α) (s : σ) :
    (ofExcept (.ok a : Except Stop α) : Run σ α) s = .ok a s := rfl

@[simp] theorem ofExcept_error {σ α : Type} (e : Stop) (s : σ) :
    (ofExcept (.error e : Except Stop α) : Run σ α) s = .error e s := rfl

/-! ## Concepts -/

/-- What `parse` needs of a stream (`doc/pbss.md`, lines 187–194). `get` and
    `peek` return `none` for `eof()`; `read n` returns the bytes it stored. -/
class InputStream (σ : Type) where
  get : Run σ (Option Byte)
  peek : Run σ (Option Byte)
  read : ℤ → Run σ (List Byte)
  ignore : ℤ → Run σ Unit
  eof : σ → Bool

/-- What `serialize` needs of a stream (`doc/pbss.md`, lines 136–141). -/
class OutputStream (ω : Type) where
  put : Byte → Run ω Unit
  write : List Byte → Run ω Unit

/-- What the library uses of a file besides: `exceptions(failbit | badbit)`,
    `tellg()` and `tellp()`, `seekg(pos)`, `seekg(off, std::ios_base::end)` and
    `seekp(0, std::ios_base::end)`. -/
class SeekableStream (σ : Type) where
  setExceptions : Run σ Unit
  tell : Run σ ℤ
  seekg : ℤ → Run σ Unit
  seekgEnd : ℤ → Run σ Unit
  seekpEnd : Run σ Unit

/-- `bool eof()` as a call. -/
def eofOf {σ : Type} [InputStream σ] : Run σ Bool := do return InputStream.eof (← get)

@[simp] theorem eofOf_run {σ : Type} [InputStream σ] (s : σ) :
    (eofOf : Run σ Bool) s = .ok (InputStream.eof s) s := rfl

theorem eofOf_bind {σ α : Type} [InputStream σ] {f : Bool → Run σ α} {s : σ}
    (h : InputStream.eof s = true) : (eofOf >>= f) s = f true s := by
  rw [bind_of_ok (eofOf_run s), h]

/-! ## Laws -/

open Source Measured

/-- No call moves the stream back, and `get` moves it on when it returns a byte. -/
class ForwardInputStream (σ : Type) [InputStream σ] extends Measured Stop σ where
  exhausted_eq : exhausted = Stop.outOfFuel
  get_lt : ∀ {s s' : σ} {b}, InputStream.get s = .ok (some b) s' → left s' < left s
  get_forward : ∀ s : σ, Forward s (InputStream.get s)
  peek_forward : ∀ s : σ, Forward s (InputStream.peek s)
  read_forward : ∀ (n : ℕ) (s : σ), Forward s (InputStream.read (n : ℤ) s)
  ignore_forward : ∀ (n : ℕ) (s : σ), Forward s (InputStream.ignore (n : ℤ) s)

/-- Reading from a stream in working order. -/
class LawfulInputStream (σ : Type) [InputStream σ] [ForwardInputStream σ] extends Source σ where
  left_ready : ∀ {s : σ} {bs}, Ready s bs → left s = bs.length
  get_ready : ∀ {s : σ} {b rest}, Ready s (b :: rest) →
    InputStream.get s = .ok (some b) (advance 1 s)
  read_ready : ∀ {s : σ} {bs rest}, Ready s (bs ++ rest) →
    InputStream.read bs.length s = .ok bs (advance bs.length s)
  ignore_ready : ∀ {s : σ} {bs rest}, Ready s (bs ++ rest) →
    InputStream.ignore bs.length s = .ok () (advance bs.length s)
  eof_ready : ∀ {s : σ} {bs}, Ready s bs → InputStream.eof s = false
  peek_ready : ∀ {s : σ} {b rest}, Ready s (b :: rest) → InputStream.peek s = .ok (some b) s
  peek_end : ∀ {s : σ}, Ready s [] → ∃ s', InputStream.peek s = .ok none s'
  /-- What a parser that meets the end of the data throws: the stream may throw
      by itself, or leave it to the parser to ask for `eof()`. -/
  eofError : σ → Exn
  eofError_advance : ∀ n s, eofError (advance n s) = eofError s
  get_end : ∀ {s : σ}, Ready s [] →
    (eofError s = .earlyEofError ∧ ∃ s', InputStream.get s = .ok none s') ∨
      ∃ s', InputStream.get s = .error (.throws (eofError s)) s'
  read_short : ∀ {s : σ} {bs} {n : ℕ}, Ready s bs → bs.length < n →
    (eofError s = .earlyEofError ∧
      ∃ got s', InputStream.read n s = .ok got s' ∧ InputStream.eof s' = true) ∨
      ∃ s', InputStream.read n s = .error (.throws (eofError s)) s'

/-- Behind the end of the data nothing is read any more. -/
class EndedInputStream (σ : Type) [InputStream σ] [ForwardInputStream σ]
    [LawfulInputStream σ] where
  Ended : σ → Prop
  get_end_ended : ∀ {s s' : σ}, Ready s [] → InputStream.get s = .ok none s' → Ended s'
  get_ended : ∀ {s : σ}, Ended s → ∃ s', InputStream.get s = .ok none s' ∧ Ended s'
  read_ended : ∀ {s : σ} (n : ℕ), Ended s →
    ∃ got s', InputStream.read n s = .ok got s' ∧ InputStream.eof s' = true

/-- Writing appends. -/
class LawfulOutputStream (ω : Type) [OutputStream ω] extends Sink Stop ω where
  put_good : ∀ {s : ω} {b}, Good s → OutputStream.put b s = emit [b] s
  write_good : ∀ {s : ω} {bs}, Good s → OutputStream.write bs s = emit bs s

section Lawful

variable {σ : Type} [InputStream σ] [ForwardInputStream σ] [LawfulInputStream σ]

theorem consumes_get (b : Byte) : Consumes (InputStream.get : Run σ _) [b] (some b) :=
  fun _ _ h => LawfulInputStream.get_ready h

theorem consumes_read (bs : List Byte) : Consumes (InputStream.read bs.length : Run σ _) bs bs :=
  fun _ _ h => LawfulInputStream.read_ready h

theorem consumes_ignore (bs : List Byte) :
    Consumes (InputStream.ignore bs.length : Run σ _) bs () :=
  fun _ _ h => LawfulInputStream.ignore_ready h

theorem consumes_eof : Consumes (eofOf : Run σ Bool) [] false := by
  intro s rest h
  rw [eofOf_run, LawfulInputStream.eof_ready h]
  simp [advance_zero]

/-- `p` on a stream that ends inside of `bs` throws what the stream is set to. -/
abbrev RejectsPrefix {α : Type} (p : Run σ α) (bs : List Byte) : Prop :=
  Starves (fun s e => e = Stop.throws (LawfulInputStream.eofError s)) p bs

theorem RejectsPrefix.bind {α β : Type} {p : Run σ α} {f : α → Run σ β} {bs cs : List Byte} {a : α}
    (hconsumes : Consumes p bs a) (hp : RejectsPrefix p bs) (hf : RejectsPrefix (f a) cs) :
    RejectsPrefix (p >>= f) (bs ++ cs) := by
  apply Starves.bind _ hconsumes hp hf
  intro n s e he
  rw [he, LawfulInputStream.eofError_advance]

/-- A parser whose last step reads nothing more. -/
theorem RejectsPrefix.last {α β : Type} {p : Run σ α} {bs : List Byte} (hp : RejectsPrefix p bs)
    (f : α → Run σ β) : RejectsPrefix (p >>= f) bs := by
  intro s part hready hpre hne
  obtain ⟨e, s', he, hE⟩ := hp s part hready hpre hne
  exact ⟨e, s', bind_of_error he, hE⟩

/-- A parser that starts with `get` and reports its end. -/
theorem rejectsPrefix_get {α : Type} {f : Option Byte → Run σ α} {b : Byte} {bs : List Byte}
    (hnone : f none = raise .earlyEofError) (hf : RejectsPrefix (f (some b)) bs) :
    RejectsPrefix (InputStream.get >>= f) (b :: bs) := by
  intro s part hready hpre hne
  cases part with
  | cons c part =>
    obtain ⟨rfl, hpart⟩ := List.cons_prefix_cons.mp hpre
    have hrest : Ready (advance [c].length s) part := ready_advance hready
    obtain ⟨e, s', he, hE⟩ := hf _ part hrest hpart (fun h => hne (by rw [h]))
    rw [LawfulInputStream.eofError_advance] at hE
    refine ⟨e, s', ?_, hE⟩
    rw [bind_of_ok (LawfulInputStream.get_ready hready), ← he]
    rfl
  | nil =>
    rcases LawfulInputStream.get_end hready with ⟨heof, s', hget⟩ | ⟨s', hget⟩
    · refine ⟨_, s', ?_, rfl⟩
      rw [bind_of_ok hget, hnone, raise_run, heof]
    · exact ⟨_, s', bind_of_error hget, rfl⟩

/-- A parser that starts with `read` and asks for `eof()` behind it. -/
theorem rejectsPrefix_read {α : Type} {f : List Byte → Run σ α} (bs : List Byte) {n : ℕ}
    (hn : bs.length = n)
    (hf : ∀ got s, InputStream.eof s = true → f got s = .error (.throws .earlyEofError) s) :
    RejectsPrefix (InputStream.read (n : ℤ) >>= f) bs := by
  intro s part hready hpre hne
  have hlt : part.length < n := by
    have hle := hpre.length_le
    have hlen : part.length ≠ bs.length := fun h => hne (hpre.eq_of_length h)
    omega
  rcases LawfulInputStream.read_short hready hlt with ⟨heof, got, s', hread, hs'⟩ | ⟨s', hread⟩
  · refine ⟨_, s', ?_, rfl⟩
    rw [bind_of_ok hread, hf got s' hs', heof]
  · exact ⟨_, s', bind_of_error hread, rfl⟩

end Lawful

section LawfulOutput

variable {ω : Type} [OutputStream ω] [LawfulOutputStream ω]

theorem emits_put (b : Byte) : Emits (OutputStream.put b : Run ω Unit) [b] :=
  fun _ h => LawfulOutputStream.put_good h

theorem emits_write (bs : List Byte) : Emits (OutputStream.write bs : Run ω Unit) bs :=
  fun _ h => LawfulOutputStream.write_good h

end LawfulOutput

end BambooShoot.Pbss
