import BambooShoot.Pbss.Truncation

/-!
# The two ways to copy elements

A contiguous container of elements of memory layout is written and read with
one call; any other container, element by element
(`pbss-serialize-iterable.hh`, lines 86–98; `pbss-parse-container.hh`,
lines 51–91). `bulk_agrees` says that the two ways cannot be told apart, on
input that is too short either.
-/

namespace BambooShoot.Pbss

open BambooShoot.Lib
open Source

section Words

variable {k : ℕ}

/-- As many bytes as `n` words take are the representations of `n` words. -/
theorem flatMap_wordsOfBytes {n : ℕ} {bs : List Byte} (h : bs.length = k * n) :
    (wordsOfBytes k n bs).flatMap wordBytes = bs := by
  induction n generalizing bs with
  | zero =>
    rw [Nat.mul_zero, List.length_eq_zero_iff] at h
    rw [h]
    rfl
  | succ n ih =>
    rw [Nat.mul_succ] at h
    have htake : (bs.take k).length = k := by rw [List.length_take]; omega
    have hdrop : (bs.drop k).length = k * n := by rw [List.length_drop]; omega
    rw [wordsOfBytes, List.flatMap_cons, wordBytes_wordOfBytes htake, ih hdrop,
      List.take_append_drop]

/-- Some words whose representations begin with `bs`. -/
theorem exists_words_prefix {n : ℕ} {bs : List Byte} (h : bs.length ≤ k * n) :
    ∃ l : List (BitVec (8 * k)), l.length = n ∧ bs <+: l.flatMap wordBytes := by
  let padded : List Byte := bs ++ List.replicate (k * n - bs.length) 0
  have hlen : padded.length = k * n := by
    rw [List.length_append, List.length_replicate]
    omega
  refine ⟨wordsOfBytes k n padded, length_wordsOfBytes k n padded, ?_⟩
  rw [flatMap_wordsOfBytes hlen]
  exact List.prefix_append _ _

end Words

section Agree

variable {ω σ : Type} [OutputStream ω] [LawfulOutputStream ω] [InputStream σ]
  [ForwardInputStream σ] [LawfulInputStream σ] {k : ℕ}

/-- Both readers on a stream that has all elements. -/
theorem parseElems_agree_ok (hk : 0 < k) (valueInit reserve : Bool) {m : ℕ} {size : SizeT}
    (hmax : size.toNat ≤ maxElems k) (hm : size.toNat ≤ m) {s : σ} {l : List (BitVec (8 * k))}
    (hl : l.length = size.toNat) {rest : List Byte} (hs : Ready s (l.flatMap wordBytes ++ rest)) :
    ∃ s', parseElemsBulk k valueInit size s = .ok ⟨l, hl.trans_le hmax⟩ s' ∧
      parseElems m reserve (readPrim (.bits k hk)) size s = .ok ⟨l, hl.trans_le hm⟩ s' := by
  have hsize : (⟨l, hl.trans_le hmax⟩ : Vec (maxElems k) (BitVec (8 * k))).size = size := by
    unfold Vec.size
    rw [hl, BitVec.ofNat_toNat, BitVec.setWidth_eq]
  have hbulk := consumes_parseElemsBulk (σ := σ) valueInit
    (⟨l, hl.trans_le hmax⟩ : Vec (maxElems k) (BitVec (8 * k)))
  rw [hsize] at hbulk
  have hslow := consumes_parseN (g := id) l hl fun x _ => consumes_readPrim (σ := σ) (.bits k hk) x
  refine ⟨_, hbulk.run hs, ?_⟩
  unfold parseElems
  rw [dif_pos hm, bind_of_ok (hslow.run hs)]
  simp only [List.map_id]
  rfl

/-- Both readers on a stream that ends earlier. -/
theorem parseElems_agree_end (hk : 0 < k) (valueInit reserve : Bool) {m : ℕ} {size : SizeT}
    (hmax : size.toNat ≤ maxElems k) (hm : size.toNat ≤ m) {s : σ} {bs : List Byte}
    (hs : Ready s bs) (hlt : bs.length < k * size.toNat) :
    (∃ s', parseElemsBulk k valueInit size s =
        .error (.throws (LawfulInputStream.eofError s)) s') ∧
      ∃ s', parseElems m reserve (readPrim (.bits k hk)) size s =
        .error (.throws (LawfulInputStream.eofError s)) s' := by
  obtain ⟨l, hl, hpre⟩ := exists_words_prefix hlt.le
  have hne : bs ≠ l.flatMap wordBytes := by
    rintro rfl
    rw [length_flatMap_wordBytes, hl] at hlt
    exact lt_irrefl _ hlt
  have hsize : (⟨l, hl.trans_le hmax⟩ : Vec (maxElems k) (BitVec (8 * k))).size = size := by
    unfold Vec.size
    rw [hl, BitVec.ofNat_toNat, BitVec.setWidth_eq]
  have hbulk := rejectsPrefix_parseElemsBulk (σ := σ) valueInit
    (⟨l, hl.trans_le hmax⟩ : Vec (maxElems k) (BitVec (8 * k)))
  rw [hsize] at hbulk
  have hslow := rejectsPrefix_parseElems (g := id) reserve l hl hm
    (fun x _ => consumes_readPrim (σ := σ) (.bits k hk) x)
    fun x _ => rejectsPrefix_readPrim (.bits k hk) x
  constructor
  · obtain ⟨_, s', he, rfl⟩ := hbulk s bs hs hpre hne
    exact ⟨s', he⟩
  · obtain ⟨_, s', he, rfl⟩ := hslow s bs hs hpre hne
    exact ⟨s', he⟩

/-- Writing at once and one by one give the same bytes, and reading at once and
    one by one give the same elements and leave the stream at the same byte, or
    both throw. -/
theorem bulk_agrees (hk : 0 < k) (valueInit reserve : Bool) (m : ℕ) :
    (∀ (coll : List (BitVec (8 * k))) (sink : ω), Sink.Good sink →
      writeElems (.arith (.bits k hk)) true (writePrim (.bits k hk)) coll sink =
        writeElems (.arith (.bits k hk)) false (writePrim (.bits k hk)) coll sink) ∧
      ∀ size : SizeT, size.toNat ≤ maxElems k → size.toNat ≤ m → ∀ (s : σ) (bs : List Byte),
        Ready s bs →
          (∃ v w s', parseElemsBulk k valueInit size s = .ok v s' ∧
              parseElems m reserve (readPrim (.bits k hk)) size s = .ok w s' ∧
              v.elems = w.elems) ∨
            (∃ s', parseElemsBulk k valueInit size s =
                .error (.throws (LawfulInputStream.eofError s)) s') ∧
              ∃ s', parseElems m reserve (readPrim (.bits k hk)) size s =
                .error (.throws (LawfulInputStream.eofError s)) s' := by
  constructor
  · intro coll sink hgood
    have hbytes : ∀ x, Emits (writePrim (.bits k hk) x : Run ω Unit)
        (bytes (.arith (.bits k hk)) x) := fun x => emits_writePrim (.bits k hk) x
    rw [emits_writeElems (.arith (.bits k hk)) true hbytes coll sink hgood,
      emits_writeElems (.arith (.bits k hk)) false hbytes coll sink hgood]
  · intro size hmax hm s bs hs
    by_cases h : k * size.toNat ≤ bs.length
    · left
      have htake : (bs.take (k * size.toNat)).length = k * size.toNat := by
        rw [List.length_take]
        omega
      have hsplit : Ready s ((wordsOfBytes k size.toNat (bs.take (k * size.toNat))).flatMap
          wordBytes ++ bs.drop (k * size.toNat)) := by
        rwa [flatMap_wordsOfBytes htake, List.take_append_drop]
      obtain ⟨s', hbulk, hslow⟩ := parseElems_agree_ok hk valueInit reserve hmax hm
        (length_wordsOfBytes _ _ _) hsplit
      exact ⟨_, _, s', hbulk, hslow, rfl⟩
    · right
      exact parseElems_agree_end hk valueInit reserve hmax hm hs (by omega)

end Agree

/-- Two 16-bit words are asked for, and three bytes are left. -/
theorem bulk_agrees_short :
    (∃ s', parseElemsBulk 2 true 2 (CharRangeReader.ofBytes [1, 2, 3]) =
        .error (.throws .earlyEofError) s') ∧
      ∃ s', parseElems 8 false (readPrim (.bits 2 (by decide))) 2
        (CharRangeReader.ofBytes [1, 2, 3]) = .error (.throws .earlyEofError) s' := by
  have hagree := (bulk_agrees (ω := CharRangeWriter) (k := 2) (by decide) true false 8).2 2
    (by decide) (by decide) (CharRangeReader.ofBytes [1, 2, 3]) [1, 2, 3]
    (CharRangeReader.between_ready [] [1, 2, 3])
  rcases hagree with ⟨v, w, s', hbulk, -⟩ | hend
  · cases hbulk
  · exact hend

end BambooShoot.Pbss
