import BambooShoot.Pbss.CharRange
import BambooShoot.Pbss.Parse

/-!
# Arrays of fixed length

`parse` of a `std::array` (`pbss-parse-container.hh`, lines 102–112, with
`maybe_insert` of `pbss-parse-container-fwd.hh`, lines 52–56) again, with the
assignments that its loop makes. An array has no `push_back`, so the reader that
copies the elements at once is never chosen for it.

Results:
* `parse_array_eq`: what is observed here is what `parse` does;
* `arraySafe_iff`: the inputs whose length is not the one of the array, and
  that do not fail first, are taken all the same, or written past the end.
-/

namespace BambooShoot.Pbss

open BambooShoot.Lib

section Model

variable {σ α : Type}

/-- The stream, and the assignments `c[i] = x` made so far as pairs of `x` and `i`. -/
structure Insertion (σ α : Type) where
  stream : σ
  stores : List (α × ℕ)

/-- A call on the stream. -/
def Insertion.onStream {β : Type} (p : Run σ β) : Run (Insertion σ α) β :=
  zoom Insertion.stream (fun stream c => { c with stream := stream }) p

/-- `c[i] = x` in an array of `n` elements. -/
def Insertion.assign (n i : ℕ) (x : α) : Run (Insertion σ α) Unit := do
  modify fun c => { c with stores := c.stores ++ [(x, i)] }
  if i < n then pure () else undefined

/-- The loop of `parse` from `i` on, with `rounds` elements to come. -/
def insertLoop (n : ℕ) (parseElem : Run σ α) : (rounds i : ℕ) → Run (Insertion σ α) Unit
  | 0, _ => pure ()
  | rounds + 1, i => do
    let x ← Insertion.onStream parseElem
    Insertion.assign n i x
    insertLoop n parseElem rounds (i + 1)

variable [InputStream σ]

/-- `parse<std::array<T, n>>` up to the `return`, with the length it has read. -/
def fillFromStream (build : Build) (fuel n : ℕ) (s : Ty α) : Run (Insertion σ α) SizeT := do
  let size ← Insertion.onStream (readVarUint fuel 64)
  insertLoop n (Fuel.parse build fuel s) size.toNat 0
  pure size

end Model

/-! ## The loop -/

section Loop

variable {σ α : Type} {parseElem : Run σ α} {n : ℕ}

theorem parseN_zero (s : σ) : parseN parseElem 0 s = .ok ⟨[], rfl⟩ s := rfl

theorem parseN_cons_ok {x : α} {s t t' : σ} {k : ℕ} {l : { l : List α // l.length = k }}
    (hx : parseElem s = .ok x t) (hl : parseN parseElem k t = .ok l t') :
    parseN parseElem (k + 1) s = .ok ⟨x :: l.1, by rw [List.length_cons, l.2]⟩ t' := by
  unfold parseN
  rw [bind_of_ok hx, bind_of_ok hl]
  rfl

theorem parseN_cons_error {x : α} {s t t' : σ} {k : ℕ} {e : Stop} (hx : parseElem s = .ok x t)
    (hl : parseN parseElem k t = .error e t') : parseN parseElem (k + 1) s = .error e t' := by
  unfold parseN
  rw [bind_of_ok hx, bind_of_error hl]

theorem parseN_head_error {s t : σ} {e : Stop} (k : ℕ) (hx : parseElem s = .error e t) :
    parseN parseElem (k + 1) s = .error e t := by
  unfold parseN
  exact bind_of_error hx

theorem parseN_succ_ok {s t : σ} {k : ℕ} {l : { l : List α // l.length = k + 1 }}
    (h : parseN parseElem (k + 1) s = .ok l t) :
    ∃ x s' l', parseElem s = .ok x s' ∧ parseN parseElem k s' = .ok l' t ∧ l.1 = x :: l'.1 := by
  unfold parseN at h
  obtain ⟨x, s', hx, h⟩ := bind_eq_ok h
  obtain ⟨l', t', hl, h⟩ := bind_eq_ok h
  cases h
  exact ⟨x, s', l', hx, hl, rfl⟩

variable (stores : List (α × ℕ))

/-- One round. -/
theorem insertLoop_cons {x : α} {s t : σ} (rounds i : ℕ) (hx : parseElem s = .ok x t) :
    insertLoop n parseElem (rounds + 1) i ⟨s, stores⟩ =
      if i < n then insertLoop n parseElem rounds (i + 1) ⟨t, stores ++ [(x, i)]⟩
      else .error .undefinedBehaviour ⟨t, stores ++ [(x, i)]⟩ := by
  have hparse : Insertion.onStream parseElem (⟨s, stores⟩ : Insertion σ α) = .ok x ⟨t, stores⟩ :=
    zoom_of_ok hx
  conv_lhs => unfold insertLoop
  rw [bind_of_ok hparse]
  unfold Insertion.assign
  rw [bind_assoc, bind_of_ok (modify_run _ _)]
  split_ifs
  · rfl
  · rfl

theorem insertLoop_error {s t : σ} {e : Stop} (rounds i : ℕ) (hx : parseElem s = .error e t) :
    insertLoop n parseElem (rounds + 1) i ⟨s, stores⟩ = .error e ⟨t, stores⟩ := by
  have hparse : Insertion.onStream parseElem (⟨s, stores⟩ : Insertion σ α) = .error e ⟨t, stores⟩ :=
    zoom_of_error hx
  unfold insertLoop
  exact bind_of_error hparse

/-- The elements before the first one that fails are assigned, and the array has
    room for them. -/
theorem insertLoop_stops {s t : σ} {e : Stop} {rounds i k : ℕ}
    (hk : k = min rounds (n + 1 - i)) (hi : i ≤ n) (h : parseN parseElem k s = .error e t) :
    ∃ l : List α, insertLoop n parseElem rounds i ⟨s, stores⟩ =
      .error e ⟨t, stores ++ l.zipIdx i⟩ ∧ i + l.length ≤ n := by
  induction rounds generalizing i s stores k with
  | zero =>
    rw [Nat.zero_min] at hk
    subst hk
    cases h
  | succ rounds ih =>
    obtain ⟨k, rfl⟩ : ∃ k', k = k' + 1 := ⟨k - 1, by omega⟩
    cases hx : parseElem s with
    | error e' t' =>
      rw [parseN_head_error _ hx] at h
      cases h
      exact ⟨[], by rw [insertLoop_error stores rounds i hx]; simp, hi⟩
    | ok x s' =>
      rw [insertLoop_cons stores rounds i hx]
      by_cases hlt : i < n
      · cases hl : parseN parseElem k s' with
        | ok l t' =>
          rw [parseN_cons_ok hx hl] at h
          cases h
        | error e' t' =>
          rw [parseN_cons_error hx hl] at h
          cases h
          obtain ⟨l, hloop, hlen⟩ := ih _ (by omega) hlt hl
          refine ⟨x :: l, ?_, by rw [List.length_cons]; omega⟩
          rw [if_pos hlt, hloop, List.zipIdx_cons, List.append_assoc, List.singleton_append]
      · -- the element behind the last one was read
        obtain rfl : k = 0 := by omega
        rw [parseN_cons_ok hx (parseN_zero s')] at h
        cases h

/-- Elements that are all there are assigned in turn, if there is room for them. -/
theorem insertLoop_ok {s t : σ} {rounds i : ℕ} {l : { l : List α // l.length = rounds }}
    (hroom : i + rounds ≤ n) (h : parseN parseElem rounds s = .ok l t) :
    insertLoop n parseElem rounds i ⟨s, stores⟩ = .ok () ⟨t, stores ++ l.1.zipIdx i⟩ := by
  induction rounds generalizing i s stores with
  | zero =>
    cases h
    rw [List.zipIdx_nil, List.append_nil]
    rfl
  | succ rounds ih =>
    obtain ⟨x, s', l', hx, hl, hxs⟩ := parseN_succ_ok h
    rw [insertLoop_cons stores rounds i hx, if_pos (by omega), ih _ (by omega) hl, hxs,
      List.zipIdx_cons, List.append_assoc, List.singleton_append]

/-- One element more than there is room for is assigned past the end. -/
theorem insertLoop_over {s t : σ} {rounds i k : ℕ} {l : { l : List α // l.length = k + 1 }}
    (hk : i + k = n) (hrounds : k < rounds) (h : parseN parseElem (k + 1) s = .ok l t) :
    insertLoop n parseElem rounds i ⟨s, stores⟩ =
      .error .undefinedBehaviour ⟨t, stores ++ l.1.zipIdx i⟩ := by
  induction k generalizing i s stores rounds with
  | zero =>
    obtain ⟨rounds, rfl⟩ : ∃ r, rounds = r + 1 := ⟨rounds - 1, by omega⟩
    obtain ⟨x, s', l', hx, hl, hxs⟩ := parseN_succ_ok h
    cases hl
    rw [insertLoop_cons stores rounds i hx, if_neg (by omega), hxs]
    rfl
  | succ k ih =>
    obtain ⟨rounds, rfl⟩ : ∃ r, rounds = r + 1 := ⟨rounds - 1, by omega⟩
    obtain ⟨x, s', l', hx, hl, hxs⟩ := parseN_succ_ok h
    rw [insertLoop_cons stores rounds i hx, if_pos (by omega), ih _ (by omega) (by omega) hl, hxs,
      List.zipIdx_cons, List.append_assoc, List.singleton_append]

end Loop

/-! ## `parse` -/

section Parse

variable {σ α : Type} [InputStream σ] (build : Build) (fuel n : ℕ) (s : Ty α)

/-- The array that `parse` returns is made of the values assigned. -/
theorem parse_array_eq (hn : n < 2 ^ 64) (init : Option α) (stream : σ) :
    Fuel.parse build fuel (.array n hn init s) stream =
      match fillFromStream build fuel n s ⟨stream, []⟩ with
      | .ok _ c =>
        match fillArray n init (c.stores.map Prod.fst) with
        | some v => .ok v c.stream
        | none => .error .undefinedBehaviour c.stream
      | .error e c => .error e c.stream := by
  unfold Fuel.parse fillFromStream
  cases hsize : readVarUint fuel 64 stream with
  | error e t =>
    have hread : Insertion.onStream (readVarUint fuel 64) (⟨stream, []⟩ : Insertion σ α) =
        .error e ⟨t, []⟩ := zoom_of_error hsize
    rw [bind_of_error hsize, bind_of_error hread]
  | ok size t =>
    have hread : Insertion.onStream (readVarUint fuel 64) (⟨stream, []⟩ : Insertion σ α) =
        .ok size ⟨t, []⟩ := zoom_of_ok hsize
    rw [bind_of_ok hsize, bind_of_ok hread]
    unfold parseArray
    by_cases hle : size.toNat ≤ n
    · have hroom : 0 + size.toNat ≤ n := by omega
      have hk : size.toNat = min size.toNat (n + 1 - 0) := by omega
      rw [if_pos hle]
      cases hparsed : parseN (Fuel.parse build fuel s) size.toNat t with
      | error e t' =>
        obtain ⟨l, hloop, -⟩ := insertLoop_stops [] hk (Nat.zero_le n) hparsed
        rw [bind_of_error hparsed, bind_of_error hloop]
      | ok l t' =>
        have hloop := insertLoop_ok [] hroom hparsed
        have hstores : ([] ++ l.1.zipIdx).map Prod.fst = l.1 := List.zipIdx_map_fst 0 l.1
        rw [bind_of_ok hparsed, bind_of_ok hloop]
        show _ = match fillArray n init (([] ++ l.1.zipIdx).map Prod.fst) with
          | some v => EStateM.Result.ok v t'
          | none => EStateM.Result.error Stop.undefinedBehaviour t'
        rw [hstores]
        cases fillArray n init l.1 with
        | none => rfl
        | some v => rfl
    · have hk : n + 1 = min size.toNat (n + 1 - 0) := by omega
      rw [if_neg hle]
      cases hparsed : parseN (Fuel.parse build fuel s) (n + 1) t with
      | error e t' =>
        obtain ⟨l, hloop, -⟩ := insertLoop_stops [] hk (Nat.zero_le n) hparsed
        rw [bind_of_error hparsed, bind_of_error hloop]
      | ok l t' =>
        have hloop := insertLoop_over [] (Nat.zero_add n) (not_le.mp hle) hparsed
        rw [bind_of_ok hparsed, bind_of_error hloop]
        rfl

end Parse

/-! ## Safety -/

section Safe

variable {σ α : Type} [InputStream σ] (build : Build) (n : ℕ) (s : Ty α)

/-- The loop has assigned to elements of the array only, and `parse` returns only
    when the length in the input is that of the array. Undefined behaviour is not
    safe, also that of an element. -/
def SafeOutcome : EStateM.Result Stop (Insertion σ α) SizeT → Prop
  | .ok size c => (∀ store ∈ c.stores, store.2 < n) ∧ size.toNat = n
  | .error stop c => (∀ store ∈ c.stores, store.2 < n) ∧ stop ≠ .undefinedBehaviour

/-- `parse` is safe, however many rounds its loops go. -/
def ArraySafe (stream : σ) : Prop :=
  ∀ fuel, SafeOutcome n (fillFromStream build fuel n s ⟨stream, []⟩)

/-- What is read is defined, and `P` holds if all of it is there. -/
def IfRead {β : Type} (P : β → σ → Prop) : EStateM.Result Stop σ β → Prop
  | .ok b t => P b t
  | .error stop _ => stop ≠ .undefinedBehaviour

/-- Reading the length and the elements, at most one more than the array has, is
    defined; and either the length is that of the array, or it cannot be read, or
    an element fails to parse. -/
def LengthMatches (stream : σ) : Prop :=
  ∀ fuel, IfRead (fun size t =>
    IfRead (fun _ _ => size.toNat = n) (parseN (Fuel.parse build fuel s) (min size.toNat (n + 1)) t))
    (readVarUint fuel 64 stream)

variable {build n s}

theorem lt_of_mem_zipIdx {l : List α} (h : l.length ≤ n) :
    ∀ store ∈ [] ++ l.zipIdx, store.2 < n := by
  intro store hmem
  have hlt := List.snd_lt_of_mem_zipIdx (x := store) hmem
  omega

omit [InputStream σ] in
/-- The loop behind a length. -/
theorem safeOutcome_insertLoop (parseElem : Run σ α) (size : SizeT) (t : σ) :
    SafeOutcome n ((do insertLoop n parseElem size.toNat 0; pure size) ⟨t, []⟩) ↔
      IfRead (fun _ _ => size.toNat = n) (parseN parseElem (min size.toNat (n + 1)) t) := by
  rcases Nat.lt_or_ge n size.toNat with hgt | hle
  · have hk : n + 1 = min size.toNat (n + 1 - 0) := by omega
    rw [show min size.toNat (n + 1) = n + 1 by omega]
    cases hparsed : parseN parseElem (n + 1) t with
    | error stop t' =>
      obtain ⟨l, hloop, hlen⟩ := insertLoop_stops [] hk (Nat.zero_le n) hparsed
      rw [bind_of_error hloop]
      exact and_iff_right (lt_of_mem_zipIdx (by omega))
    | ok l t' =>
      -- the element behind the last one is stored
      rw [bind_of_error (insertLoop_over [] (Nat.zero_add n) hgt hparsed)]
      exact iff_of_false (fun hsafe => hsafe.2 rfl) hgt.ne'
  · have hk : size.toNat = min size.toNat (n + 1 - 0) := by omega
    rw [show min size.toNat (n + 1) = size.toNat by omega]
    cases hparsed : parseN parseElem size.toNat t with
    | error stop t' =>
      obtain ⟨l, hloop, hlen⟩ := insertLoop_stops [] hk (Nat.zero_le n) hparsed
      rw [bind_of_error hloop]
      exact and_iff_right (lt_of_mem_zipIdx (by omega))
    | ok l t' =>
      rw [bind_of_ok (insertLoop_ok [] (by omega) hparsed)]
      exact and_iff_right (lt_of_mem_zipIdx (by rw [l.2]; exact hle))

/-- The array is overrun, or returned with a length that is not its own, exactly
    on the inputs with another length whose elements do not fail first; undefined
    behaviour apart. -/
theorem arraySafe_iff (stream : σ) : ArraySafe build n s stream ↔ LengthMatches build n s stream := by
  refine forall_congr' fun fuel => ?_
  unfold fillFromStream
  cases hsize : readVarUint fuel 64 stream with
  | error stop t =>
    have hread : Insertion.onStream (readVarUint fuel 64) (⟨stream, []⟩ : Insertion σ α) =
        .error stop ⟨t, []⟩ := zoom_of_error hsize
    rw [bind_of_error hread]
    exact and_iff_right fun _ hmem => absurd hmem List.not_mem_nil
  | ok size t =>
    have hread : Insertion.onStream (readVarUint fuel 64) (⟨stream, []⟩ : Insertion σ α) =
        .ok size ⟨t, []⟩ := zoom_of_ok hsize
    rw [bind_of_ok hread]
    exact safeOutcome_insertLoop (Fuel.parse build fuel s) size t

end Safe

/-- `parse<std::array<uint8_t, 2>>` of a sequence of three bytes stores the third
    one behind the array. -/
theorem array_overrun :
    ¬ ArraySafe ⟨true, 8⟩ 2 (.arith (.bits 1 Nat.one_pos)) (CharRangeReader.ofBytes [3, 7, 8, 9]) := by
  intro h
  have hstore : ((9 : Byte), 2) ∈ [((7 : Byte), 0), (8, 1), (9, 2)] := by decide
  exact absurd ((h 5).1 _ hstore) (lt_irrefl 2)

end BambooShoot.Pbss
