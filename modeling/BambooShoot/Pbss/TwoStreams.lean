import BambooShoot.Pbss.Progress
import BambooShoot.Pbss.Relational
import BambooShoot.Pbss.StdStream
import BambooShoot.Pbss.CharRange

/-!
# Reading from memory and from a standard stream

`char_range_reader` reports the end of its range by a cursor that has run past
it, a standard stream by flags that stay set. `InStep` relates the states of the
two over the same bytes; with it every step of `parse` returns the same
(`respects_inStep`), and so does `parse` (`parse_abreast`).
-/

namespace BambooShoot.Pbss

open BambooShoot.Lib

/-- Both streams are at the same byte. -/
structure Abreast (r : CharRangeReader) (t : StdStream) : Prop where
  bytes : t.bytes = r.buffer
  pos : r.current = t.pos
  pos_le : t.pos ≤ t.bytes.length
  good : t.good = true
  silent : t.exceptions = false

/-- Both streams have met the end of the data. -/
structure Past (r : CharRangeReader) (t : StdStream) : Prop where
  cursor : r.current > (r.buffer.length : ℤ)
  eofbit : t.eofbit = true
  silent : t.exceptions = false

/-- The states of the two streams in a phase of `parse`. -/
def InStep : Phase → CharRangeReader → StdStream → Prop
  | .live, r, t => Abreast r t
  | .any, r, t => Abreast r t ∨ Past r t

/-- `p` and `q` do the same, from phase `a` to phase `b`. -/
def StepRelation (a b : Phase) {α : Type} (p : Run CharRangeReader α) (q : Run StdStream α) : Prop :=
  ∀ r t, InStep a r t → SameResult (InStep b) (p r) (q t)

/-! ## Calls -/

theorem Abreast.left_eq {r : CharRangeReader} {t : StdStream} (h : Abreast r t) :
    Measured.left r = Measured.left t := by
  have hpos := h.pos
  have hle := h.pos_le
  show (r.buffer.length - r.current).toNat = t.bytes.length - t.pos
  rw [← h.bytes]
  omega

theorem Abreast.ready_reader {r : CharRangeReader} {t : StdStream} (h : Abreast r t) :
    Source.Ready r (t.bytes.drop t.pos) :=
  ⟨t.pos, h.pos, by rw [← h.bytes]; exact h.pos_le, by rw [h.bytes]⟩

theorem Abreast.ready_stream {r : CharRangeReader} {t : StdStream} (h : Abreast r t) :
    Source.Ready t (t.bytes.drop t.pos) := ⟨h.good, h.pos_le, rfl⟩

theorem Abreast.advance {r : CharRangeReader} {t : StdStream} (h : Abreast r t) {n : ℕ}
    (hn : t.pos + n ≤ t.bytes.length) : Abreast (Source.advance n r) (Source.advance n t) := by
  have hpos := h.pos
  refine ⟨h.bytes, ?_, hn, h.good, h.silent⟩
  show r.current + n = ((t.pos + n : ℕ) : ℤ)
  omega

theorem Past.after {r : CharRangeReader} {t : StdStream} (h : Past r t) (n : ℕ) :
    Past { r with current := r.current + n } { t with failbit := true } := by
  have hcursor := h.cursor
  exact ⟨by dsimp only; omega, h.eofbit, h.silent⟩

/-- Where a byte is read, both streams are past it; at the end both say so. -/
theorem get_both {r : CharRangeReader} {t : StdStream} (h : InStep .any r t) :
    ∃ x r' t', CharRangeReader.get r = .ok x r' ∧ StdStream.get t = .ok x t' ∧
      if x = none then Past r' t' else Abreast r' t' := by
  rcases h with h | h
  · have hpos := h.pos
    have hle := h.pos_le
    have hbytes := h.bytes
    unfold CharRangeReader.get StdStream.get
    rw [if_pos h.good]
    by_cases hend : t.pos < t.bytes.length
    · have hbyte : t.bytes[t.pos]? = some t.bytes[t.pos] := List.getElem?_eq_getElem hend
      rw [if_neg (by rw [← hbytes]; dsimp only; omega), if_neg (by omega), ← hbytes, hpos,
        Int.toNat_natCast, hbyte]
      refine ⟨_, _, _, rfl, rfl, ?_⟩
      rw [if_neg (Option.some_ne_none _)]
      exact ⟨rfl, by dsimp only; omega, by dsimp only; omega, h.good, h.silent⟩
    · have hbyte : t.bytes[t.pos]? = none := List.getElem?_eq_none (by omega)
      rw [if_pos (by rw [← hbytes]; dsimp only; omega), hbyte]
      refine ⟨none, _, { t with eofbit := true, failbit := true }, rfl, ?_, ?_⟩
      · unfold StdStream.raiseIfFailed
        rw [h.silent]
        rfl
      · rw [if_pos rfl]
        exact ⟨by dsimp only; rw [← hbytes]; omega, rfl, h.silent⟩
  · have hcursor := h.cursor
    unfold CharRangeReader.get StdStream.get
    rw [if_pos (by dsimp only; omega), if_neg (StdStream.not_good_of_eofbit h.eofbit),
      StdStream.sentryFailure_ended none h.silent]
    exact ⟨none, _, _, rfl, rfl, by rw [if_pos rfl]; exact h.after 1⟩

theorem get_inStep : StepRelation .any .any InputStream.get InputStream.get := by
  intro r t h
  obtain ⟨x, r', t', hr, ht, hstate⟩ := get_both h
  show SameResult _ (CharRangeReader.get r) (StdStream.get t)
  rw [hr, ht]
  refine .ok ?_
  split_ifs at hstate
  · exact Or.inr hstate
  · exact Or.inl hstate

theorem parseByte_inStep : StepRelation .any .live parseByte parseByte := by
  intro r t h
  obtain ⟨x, r', t', hr, ht, hstate⟩ := get_both h
  unfold parseByte
  rw [bind_of_ok (show InputStream.get r = .ok x r' from hr),
    bind_of_ok (show InputStream.get t = .ok x t' from ht)]
  cases x with
  | none => exact .error
  | some c =>
    rw [if_neg (Option.some_ne_none c)] at hstate
    exact .ok hstate

/-- A read that comes too short is an error on both. -/
theorem readOrThrow_inStep (n : ℕ) : StepRelation .any .live (readOrThrow n) (readOrThrow n) := by
  rintro r t (h | h)
  · have hr := h.ready_reader
    have ht := h.ready_stream
    by_cases hn : n ≤ (t.bytes.drop t.pos).length
    · rw [readOrThrow_ready hr hn, readOrThrow_ready ht hn]
      refine .ok (h.advance ?_)
      rw [List.length_drop] at hn
      have hle := h.pos_le
      omega
    · obtain ⟨r', hr'⟩ := readOrThrow_short hr (Nat.lt_of_not_le hn)
      obtain ⟨t', ht'⟩ := readOrThrow_short ht (Nat.lt_of_not_le hn)
      have heof : LawfulInputStream.eofError t = LawfulInputStream.eofError r := by
        show StdStream.eofError t = .earlyEofError
        unfold StdStream.eofError
        rw [h.silent]
        rfl
      rw [hr', ht', heof]
      exact .error
  · obtain ⟨r', hr'⟩ := readOrThrow_ended n (show EndedInputStream.Ended r from h.cursor)
    obtain ⟨t', ht'⟩ := readOrThrow_ended n
      (show EndedInputStream.Ended t from ⟨h.eofbit, h.silent⟩)
    rw [hr', ht']
    exact .error

/-- Ignoring more than there is takes both streams past the end; with the check
    of `to_signed` there is no way back. -/
theorem ignoreLength_inStep {build : Build} (hbuild : build.rangeChecks = true) (length : SizeT) :
    StepRelation .live .any (ignoreLength build length) (ignoreLength build length) := by
  intro r t h
  unfold ignoreLength toSigned
  by_cases hlarge : 2 ^ 63 - 1 < length.toNat
  · rw [if_pos ⟨hbuild, hlarge⟩, if_pos ⟨hbuild, hlarge⟩]
    exact .error
  · have hnat : length.toInt = (length.toNat : ℤ) := BitVec.toInt_eq_toNat_of_lt (by omega)
    have hpos := h.pos
    have hle := h.pos_le
    have hbytes := h.bytes
    rw [if_neg (fun hc => hlarge hc.2), if_neg (fun hc => hlarge hc.2), pure_bind, pure_bind, hnat]
    show SameResult _ (CharRangeReader.ignore length.toNat r) (StdStream.ignore length.toNat t)
    unfold CharRangeReader.ignore StdStream.ignore
    rw [if_pos h.good]
    dsimp only
    rw [List.length_drop]
    split_ifs with hfits
    · refine .ok (Or.inl (h.advance ?_))
      omega
    · refine .ok (Or.inr ⟨?_, rfl, h.silent⟩)
      dsimp only
      rw [← hbytes]
      omega

theorem respects_inStep {build : Build} (hbuild : build.rangeChecks = true) :
    Respects build build (fun a b {_} p q => StepRelation a b p q) where
  sameThreshold := rfl
  of_any h r t hlive := h r t (Or.inl hlive)
  to_any h r t hstart := (h r t hstart).imp fun _ _ => Or.inl
  pure _ _ _ h := .ok h
  bind hp hf r t h := (hp r t h).bind fun x s' t' h' => hf x s' t' h'
  undefined _ _ _ := .error
  lengthError _ _ _ := .error
  outOfFuel _ _ _ := .error
  byte := parseByte_inStep
  read := readOrThrow_inStep
  get := get_inStep
  ignore := ignoreLength_inStep hbuild

/-- `parse` does the same on both streams and leaves them at the same byte. -/
theorem parse_abreast {build : Build} (hbuild : build.rangeChecks = true) {α : Type} (s : Ty α)
    {r : CharRangeReader} {t : StdStream} (h : Abreast r t) :
    SameResult Abreast (parse build s r) (parse build s t) := by
  unfold parse
  rw [h.left_eq]
  exact related_parse (respects_inStep hbuild) (Measured.left t + 1) s r t h

end BambooShoot.Pbss
