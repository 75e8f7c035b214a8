import BambooShoot.Pbsf.ParseAll
import BambooShoot.Pbsu.Iterator
import BambooShoot.Pbsu.ZipView
import Mathlib.Data.Finset.Lattice.Fold

/-!
# Pipelines

The ranges of `map`, `filter`, `zip` and `map_indexed` (`range-util.hh`, lines 85–127
and 293–402) over containers and `parse_all`, nested to any depth, and the lists
they stand for.

* `RangeExpression`: the iterators of a range, the streams they read and what
  its evaluation does;
* `Denotes`: evaluated, it is a range whose traversal comes to the elements of a list;
* `Denotes.map`, `Denotes.filter`, `Denotes.zip`, `Denotes.mapIndexed`: one layer of
  a pipeline.

Every container may be read in several places; every stream is in one place only.
Result: `traversal_eq`, a traversal of any pipeline.
-/

namespace BambooShoot.Pbsu

open BambooShoot.Lib BambooShoot.Pbss BambooShoot.Pbsf

/-! ## `zip` of input iterators -/

section Zip

variable {n : ℕ} {α : Fin (n + 1) → Type} {c : ∀ i, IteratorType (α i)}

/-- The members of a `zip_iterator` (`range-util.hh`, lines 97–100). -/
structure Zipping (c : ∀ i, IteratorType (α i)) where
  begins : ∀ i, (c i).It
  ends : ∀ i, (c i).It

/-- `tuple_any_equal` (lines 65–82). -/
def Zipping.tupleAnyEqual (a b : ∀ i, (c i).It) : Bool := decide (∃ i, (c i).eq (a i) (b i) = true)

/-- `_check_end` (lines 108–113). -/
def Zipping.checkEnd (z : Zipping c) : Zipping c :=
  if tupleAnyEqual z.begins z.ends then { z with begins := z.ends } else z

/-- A tuple of references, each into its own iterator. To move from it moves the
    references; to assign to it assigns to each of them. -/
def tupleReference (r : ∀ i, Reference (c i).World (c i).It (α i)) :
    Reference (∀ i, (c i).World) (Zipping c) (∀ i, α i) where
  read z w := allSome fun i => (r i).read (z.begins i) (w i)
  moveOut z w := (z, w)
  assign := (allSome fun i => (r i).assign).map fun assign a z w =>
    ({ z with begins := fun i => (assign i (a i) (z.begins i) (w i)).1 },
      fun i => (assign i (a i) (z.begins i) (w i)).2)
  inside := decide (∃ i, (r i).inside = true)
  isTuple := true

/-- `operator*` (lines 115–119). -/
def Zipping.deref (z : Zipping c) :
    Run (∀ i, (c i).World) (Zipping c × Reference (∀ i, (c i).World) (Zipping c) (∀ i, α i)) := do
  let r ← each fun i => (c i).deref (z.begins i)
  pure ({ z with begins := fun i => (r i).1 }, tupleReference fun i => (r i).2)

/-- `operator++` (lines 121–127). -/
def Zipping.increment (z : Zipping c) : Run (∀ i, (c i).World) (Zipping c) := do
  let begins ← each fun i => (c i).increment (z.begins i)
  pure (Zipping.checkEnd { z with begins := begins })

variable (c)

/-- `zip_iterator<Iterator...>`. -/
@[reducible] def zipping : IteratorType (∀ i, α i) where
  World := ∀ i, (c i).World
  It := Zipping c
  eq a b := decide (∀ i, (c i).eq (a.begins i) (b.begins i) = true)
  deref := Zipping.deref
  increment := Zipping.increment

end Zip

/-! ## Ranges -/

/-- `range<Iterator>`. -/
structure Range {α : Type} (c : IteratorType α) where
  first : c.It
  last : c.It

section Ranges

variable {α β : Type} {c : IteratorType α}

/-- `map` (`range-util.hh`, lines 311–320). -/
def Range.map (f : α → β) (r : Range c) : Range (mapping false (FunctionObject.ofFun f) c) where
  first := ⟨(), r.first, none⟩
  last := ⟨(), r.last, none⟩

/-- `filter` (lines 350–359): the constructors of both iterators skip. -/
def Range.filter (pred : α → Bool) (fuel : ℕ) (r : Range c) :
    Run c.World (Range (filtering pred c fuel)) := do
  let first ← Filtering.forwardSkip pred fuel ⟨r.first, r.last⟩
  let last ← Filtering.forwardSkip pred fuel ⟨r.last, r.last⟩
  pure ⟨first, last⟩

/-- `zip` (lines 290–298). -/
def Range.zip {n : ℕ} {α : Fin (n + 1) → Type} {c : ∀ i, IteratorType (α i)}
    (r : ∀ i, Range (c i)) : Range (zipping c) where
  first := Zipping.checkEnd ⟨fun i => (r i).first, fun i => (r i).last⟩
  last := Zipping.checkEnd ⟨fun i => (r i).last, fun i => (r i).last⟩

/-- The components of the tuples of `map_indexed`. -/
def Indexed (α : Type) (i : Fin 2) : Type := Fin.cases α (fun _ => BitVec 64) i

/-- `make_range(integral_iterator<size_t>(0), ...(std::numeric_limits<size_t>::max()))`. -/
def Range.indices : Range (integral 64) := ⟨0, BitVec.allOnes 64⟩

/-- `spread(f)` on the tuple of an element and its index. -/
def spread (f : α → BitVec 64 → β) (t : ∀ i, Indexed α i) : β := f (t 0) (t 1)

end Ranges

/-! ## Expressions -/

/-- An expression for a range of `α`: its iterators, what lies outside of them
    before it is evaluated, and its evaluation. -/
structure RangeExpression (α : Type) where
  iterators : IteratorType α
  world : iterators.World
  range : Run iterators.World (Range iterators)

/-- The element `i` of a container that nobody writes to. -/
def constElement {α : Type} (elements : List α) (i : ℕ) : Reference Unit ℕ α where
  read _ _ := elements[i]?
  moveOut it w := (it, w)
  assign := none
  inside := false
  isTuple := false

/-- Iterators of a container that nobody writes to: any number of them may be
    in it at a time. -/
@[reducible] def constContainer {α : Type} (elements : List α) : IteratorType α where
  World := Unit
  It := ℕ
  eq i j := i == j
  deref i :=
    if i < elements.length then pure (i, constElement elements i) else undefined
  increment i := if i < elements.length then pure (i + 1) else undefined

/-- A stream that a loop over `parse_all<T>` finds `values` in, `rounds` rounds of
    it at most; `init` is the value of a new `T`. -/
structure ValueStream (β : Type) where
  Stream : Type
  [inputStream : InputStream Stream]
  [forwardInputStream : ForwardInputStream Stream]
  build : Build
  ty : Ty β
  init : β
  stream : Stream
  values : List β
  rounds : ℕ
  parses : Pbsf.parseAll build ty rounds init stream = (values, .reached)

attribute [instance] ValueStream.inputStream ValueStream.forwardInputStream

/-- A stream of serialized values that take a byte at least. -/
def ValueStream.serialized {σ β : Type} [InputStream σ] [ForwardInputStream σ] [LawfulInputStream σ]
    (build : Build) (s : Ty β) (init : β) (stream : σ) (values : List β)
    (hne : ∀ v ∈ values, bytes s v ≠ []) (h : Source.Ready stream (values.flatMap (bytes s))) :
    ValueStream β where
  Stream := σ
  build := build
  ty := s
  init := init
  stream := stream
  values := values
  rounds := values.length
  parses := parseAll_serialized hne h init

section Expressions

variable {α β : Type} (fuel : ℕ)

/-- A container. -/
def RangeExpression.container (elements : List α) : RangeExpression α where
  iterators := constContainer elements
  world := ()
  range := pure ⟨(0 : ℕ), elements.length⟩

/-- `parse_all<T>(stream)` (`pbss.hh`, lines 192–196 and 231–237). -/
def RangeExpression.parseAll (s : ValueStream β) : RangeExpression β where
  iterators := parsing (σ := s.Stream) s.build s.ty id
  world := s.stream
  range := do
    let first ← ParsePosition.increment s.build s.ty ⟨true, s.init⟩
    pure ⟨first, ⟨false, s.init⟩⟩

/-- `map(f, r)`. -/
def RangeExpression.map (f : α → β) (e : RangeExpression α) : RangeExpression β where
  iterators := mapping false (FunctionObject.ofFun f) e.iterators
  world := (e.world, ())
  range := do
    let r ← onFst e.range
    pure (r.map f)

/-- `filter(pred, r)`. -/
def RangeExpression.filter (pred : α → Bool) (e : RangeExpression α) : RangeExpression α where
  iterators := filtering pred e.iterators fuel
  world := e.world
  range := do
    let r ← e.range
    r.filter pred fuel

/-- `zip(ranges...)`. -/
def RangeExpression.zip {n : ℕ} {α : Fin (n + 1) → Type} (e : ∀ i, RangeExpression (α i)) :
    RangeExpression (∀ i, α i) where
  iterators := zipping fun i => (e i).iterators
  world i := (e i).world
  range := do
    let r ← each fun i => (e i).range
    pure (Range.zip r)

/-- The range of all indices. -/
def RangeExpression.indices : RangeExpression (BitVec 64) where
  iterators := integral 64
  world := ()
  range := pure Range.indices

/-- A range and all indices. -/
def RangeExpression.withIndex (e : RangeExpression α) (i : Fin 2) : RangeExpression (Indexed α i) :=
  Fin.cases (motive := fun i => RangeExpression (Indexed α i)) e (fun _ => indices) i

/-- `map_indexed(f, r)` (lines 392–402). -/
def RangeExpression.mapIndexed (f : α → BitVec 64 → β) (e : RangeExpression α) :
    RangeExpression β :=
  map (spread f) (zip e.withIndex)

/-- `for (auto&& a : r)`: the elements it comes to. -/
def RangeExpression.traverse (e : RangeExpression α) : Run e.iterators.World (List α) := do
  let r ← e.range
  visit e.iterators fuel r.first r.last

end Expressions

/-! ## Pipelines -/

/-- The expressions; the number of the elements of a source is a `size_t`, and functions
    return values of their own. -/
inductive Pipeline : Type → Type 1
  | container {α : Type} (elements : List α) (h : elements.length < 2 ^ 64) : Pipeline α
  | parseAll {α : Type} (s : ValueStream α) (h : s.values.length < 2 ^ 64) : Pipeline α
  | map {α β : Type} (f : α → β) (p : Pipeline α) : Pipeline β
  | filter {α : Type} (pred : α → Bool) (p : Pipeline α) : Pipeline α
  | zip {n : ℕ} {α : Fin (n + 1) → Type} (p : ∀ i, Pipeline (α i)) : Pipeline (∀ i, α i)
  | mapIndexed {α β : Type} (f : α → BitVec 64 → β) (p : Pipeline α) : Pipeline β

/-- The tuples of `zip`, as many as the shortest list has elements. -/
def zipLists {n : ℕ} {α : Fin (n + 1) → Type} (xs : ∀ i, List (α i)) : List (∀ i, α i) :=
  List.ofFn fun (k : Fin (shortest xs)) i => (xs i).get ⟨k, lt_length xs k i⟩

/-- The list a pipeline stands for. -/
def Pipeline.denote : {α : Type} → Pipeline α → List α
  | _, .container elements _ => elements
  | _, .parseAll s _ => s.values
  | _, .map f p => p.denote.map f
  | _, .filter pred p => p.denote.filter pred
  | _, .zip p => zipLists fun i => (p i).denote
  | _, .mapIndexed f p => p.denote.mapIdx fun i a => f a (BitVec.ofNat 64 i)

/-- The expression in the program. -/
def Pipeline.expression (fuel : ℕ) : {α : Type} → Pipeline α → RangeExpression α
  | _, .container elements _ => .container elements
  | _, .parseAll s _ => .parseAll s
  | _, .map f p => (p.expression fuel).map f
  | _, .filter pred p => (p.expression fuel).filter fuel pred
  | _, .zip p => .zip fun i => (p i).expression fuel
  | _, .mapIndexed f p => (p.expression fuel).mapIndexed f

/-- A traversal from its begin to its end, with what it comes to. -/
def Pipeline.traverse {α : Type} (fuel : ℕ) (p : Pipeline α) : Except Stop (List α) :=
  outcome ((p.expression fuel).traverse fuel (p.expression fuel).world)

/-- The length of the longest source. -/
def Pipeline.longest : {α : Type} → Pipeline α → ℕ
  | _, .container elements _ => elements.length
  | _, .parseAll s _ => s.values.length
  | _, .map _ p => p.longest
  | _, .filter _ p => p.longest
  | _, .zip p => Finset.univ.sup fun i => (p i).longest
  | _, .mapIndexed _ p => p.longest

/-! ## Sources -/

section Sources

variable {α β : Type}

/-- Evaluated, `e` is a range whose iterators come to the elements of `xs`. -/
def Denotes (e : RangeExpression α) (xs : List α) : Prop :=
  ∃ (r : Range e.iterators) (w : e.iterators.World) (Inv : _ → _ → List α → Prop),
    e.range e.world = .ok r w ∧ Lawful e.iterators r.last Inv ∧ Inv w r.first xs

theorem lawful_constContainer (elements : List α) :
    Lawful (constContainer elements) elements.length fun _ i xs =>
      AtElement elements.length elements i xs where
  eq_last := beq_self_eq_true elements.length
  eq_nil {w i} h := beq_iff_eq.2 (AtElement.length_eq h)
  eq_cons {w i x xs} h := beq_false_of_ne (Nat.ne_of_lt (AtElement.lt h))
  deref {w i x xs} h := by
    refine ⟨i, constElement elements i, w, ?_, AtElement.getElem? h, h⟩
    show (if i < elements.length then _ else _ : Run Unit _) w = _
    rw [if_pos (AtElement.lt h)]
    rfl
  increment {w i x xs} h := by
    refine ⟨Nat.succ i, w, ?_, AtElement.next h⟩
    show (if i < elements.length then _ else _ : Run Unit _) w = _
    rw [if_pos (AtElement.lt h)]
    rfl

theorem denotes_container (elements : List α) : Denotes (.container elements) elements :=
  ⟨_, (), _, rfl, lawful_constContainer elements, ⟨rfl, Nat.zero_le _, rfl⟩⟩

/-- A `parse_iterator` in front of `values`. -/
inductive ParseAt (s : ValueStream β) : s.Stream → ParsePosition β → List β → Prop
  | reached {stream value} : ParseAt s stream ⟨false, value⟩ []
  | value {stream value values rounds}
      (h : valuesFrom s.build s.ty rounds
        (ParseIterator.increment s.build s.ty ⟨stream, true, value⟩) = (values, .reached)) :
      ParseAt s stream ⟨true, value⟩ (value :: values)

/-- Where the rest of an iteration comes to the end the increment returns. -/
theorem parseAt_of_valuesFrom {s : ValueStream β} {rounds : ℕ} {values : List β}
    {result : EStateM.Result Stop (ParseIterator s.Stream β) Unit}
    (h : valuesFrom s.build s.ty rounds result = (values, .reached)) :
    ∃ it, result = .ok () it ∧ ParseAt s it.stream ⟨it.streamPtr, it.value⟩ values := by
  cases result with
  | error stop it =>
    unfold valuesFrom at h
    cases h
  | ok u it =>
    refine ⟨it, rfl, ?_⟩
    obtain ⟨stream, streamPtr, value⟩ := it
    cases streamPtr with
    | false =>
      unfold valuesFrom at h
      cases h
      exact .reached
    | true =>
      cases rounds with
      | zero =>
        unfold valuesFrom at h
        cases h
      | succ rounds =>
        unfold valuesFrom at h
        obtain ⟨hvalues, hending⟩ := Prod.mk.inj h
        rw [← hvalues]
        exact .value (Prod.ext rfl hending)

theorem parsing_increment {s : ValueStream β} {stream : s.Stream} {value : β} {rounds : ℕ}
    {values : List β}
    (h : valuesFrom s.build s.ty rounds
      (ParseIterator.increment s.build s.ty ⟨stream, true, value⟩) = (values, .reached)) :
    ∃ it stream', ParsePosition.increment s.build s.ty ⟨true, value⟩ stream = .ok it stream' ∧
      ParseAt s stream' it values := by
  obtain ⟨it, hit, hat⟩ := parseAt_of_valuesFrom h
  refine ⟨_, _, ?_, hat⟩
  unfold ParsePosition.increment
  rw [hit]

theorem lawful_parsing (s : ValueStream β) :
    Lawful (parsing (σ := s.Stream) s.build s.ty id) ⟨false, s.init⟩ (ParseAt s) where
  eq_last := rfl
  eq_nil h := by
    cases h
    rfl
  eq_cons h := by
    cases h
    rfl
  deref {w it x xs} h := by
    refine ⟨it, _, w, rfl, ?_, h⟩
    cases h
    rfl
  increment h := by
    cases h with
    | value h => exact parsing_increment h

theorem denotes_parseAll (s : ValueStream β) : Denotes (.parseAll s) s.values := by
  obtain ⟨it, stream, hincrement, hat⟩ := parsing_increment s.parses
  refine ⟨⟨it, ⟨false, s.init⟩⟩, stream, ParseAt s, ?_, lawful_parsing s, hat⟩
  exact bind_of_ok hincrement

end Sources

/-! ## `map` and `filter` -/

section Map

variable {α β : Type} {c : IteratorType α} {last : c.It} {Inv : c.World → c.It → List α → Prop}

/-- A `mapping_iterator` in front of `xs`; its cache is empty or holds the first. -/
def MapAt (f : α → β) (Inv : c.World → c.It → List α → Prop) (w : c.World × Unit)
    (m : Mapping (FunctionObject.ofFun f) c) (xs : List β) : Prop :=
  ∃ ys, Inv w.1 m.it ys ∧ ys.map f = xs ∧ ∀ b, m.value = some b → xs.head? = some b

theorem MapAt.deref (h : Lawful c last Inv) {f : α → β} {w : c.World × Unit}
    {m : Mapping (FunctionObject.ofFun f) c} {x : β} {xs : List β}
    (hat : MapAt f Inv w m (x :: xs)) :
    ∃ m' w', m.deref w = .ok (m', Mapping.reference) w' ∧ m'.value = some x ∧
      MapAt f Inv w' m' (x :: xs) := by
  obtain ⟨ys, hinv, hys, hvalue⟩ := hat
  cases hm : m.value with
  | some b =>
    have hb : x = b := Option.some.inj (hvalue b hm)
    subst hb
    exact ⟨m, w, Mapping.deref_cached w hm, hm, ys, hinv, hys, hvalue⟩
  | none =>
    obtain ⟨y, ys, rfl⟩ := List.exists_cons_of_ne_nil (l := ys) (by
      rintro rfl
      cases hys)
    obtain ⟨hx, hxs⟩ := List.cons.inj hys
    obtain ⟨it, source, v, hderef, hread, hinv'⟩ := h.deref hinv
    refine ⟨⟨(), it, some x⟩, (v, ()), ?_, rfl, y :: ys, hinv', hys, fun b hb => hb⟩
    have hcall : (FunctionObject.ofFun f).call m.function y () = .ok ((), x) () := by
      rw [← hx]
      rfl
    exact (Mapping.deref_empty hm hderef hread).trans (bind_of_ok (onSnd_of_ok hcall))

theorem Lawful.mapping (h : Lawful c last Inv) (f : α → β) :
    Lawful (mapping false (FunctionObject.ofFun f) c) ⟨(), last, none⟩ (MapAt f Inv) where
  eq_last := h.eq_last
  eq_nil := by
    rintro w m ⟨ys, hinv, hys, -⟩
    rw [List.map_eq_nil_iff.1 hys] at hinv
    exact h.eq_nil hinv
  eq_cons := by
    rintro w m x xs ⟨ys, hinv, hys, -⟩
    obtain ⟨y, ys, rfl, -⟩ := List.map_eq_cons_iff.1 hys
    exact h.eq_cons hinv
  deref hat := by
    obtain ⟨m', w', hderef, hvalue, hat'⟩ := MapAt.deref h hat
    exact ⟨m', _, w', hderef, hvalue, hat'⟩
  increment hat := by
    obtain ⟨m', w', hderef, -, ys, hinv, hys, -⟩ := MapAt.deref h hat
    obtain ⟨y, ys, rfl, -, hxs⟩ := List.map_eq_cons_iff.1 hys
    obtain ⟨it, v, hinc, hinv'⟩ := h.increment hinv
    exact ⟨_, _, Mapping.increment_default hderef hinc, ys, hinv', hxs, nofun⟩

theorem Denotes.map {e : RangeExpression α} {xs : List α} (h : Denotes e xs) (f : α → β) :
    Denotes (e.map f) (xs.map f) := by
  obtain ⟨r, w, Inv, hrange, hlawful, hinv⟩ := h
  exact ⟨_, _, _, bind_of_ok (onFst_of_ok hrange), hlawful.mapping f, xs, hinv, rfl, nofun⟩

end Map

section Filter

variable {α : Type} {c : IteratorType α} {last : c.It} {Inv : c.World → c.It → List α → Prop}
  {pred : α → Bool} {fuel : ℕ}

/-- A `filtering_iterator` in front of `xs`: what is behind it begins with one
    that the predicate holds of. -/
def FilterAt (pred : α → Bool) (fuel : ℕ) (last : c.It) (Inv : c.World → c.It → List α → Prop)
    (w : c.World) (f : Filtering c) (xs : List α) : Prop :=
  f.last = last ∧ ∃ ys, Inv w f.it ys ∧ ys.filter pred = xs ∧ ys.head?.all pred = true ∧
    ys.length < fuel

theorem forwardSkip_last (pred : α → Bool) {f : Filtering c} (h : c.eq f.it f.last = true)
    (hfuel : 0 < fuel) (w : c.World) : Filtering.forwardSkip pred fuel f w = .ok f w := by
  obtain ⟨fuel, rfl⟩ : ∃ k, fuel = k + 1 := ⟨fuel - 1, by omega⟩
  unfold Filtering.forwardSkip
  rw [if_pos h]
  rfl

/-- `forward_skip` ends, at the next element that the predicate holds of. -/
theorem forwardSkip_at (pred : α → Bool) (h : Lawful c last Inv) {rounds : ℕ} {w : c.World}
    {it : c.It} {ys : List α} (hinv : Inv w it ys) (hrounds : ys.length < rounds)
    (hfuel : ys.length < fuel) :
    ∃ f w', Filtering.forwardSkip pred rounds ⟨it, last⟩ w = .ok f w' ∧
      FilterAt pred fuel last Inv w' f (ys.filter pred) := by
  obtain ⟨rounds, rfl⟩ : ∃ k, rounds = k + 1 := ⟨rounds - 1, by omega⟩
  induction ys generalizing rounds w it with
  | nil =>
    exact ⟨⟨it, last⟩, w, forwardSkip_last pred (h.eq_nil hinv) (Nat.succ_pos _) w, rfl, [],
      hinv, rfl, rfl, hfuel⟩
  | cons y ys ih =>
    rw [List.length_cons] at hrounds hfuel
    obtain ⟨rounds, rfl⟩ : ∃ k, rounds = k + 1 := ⟨rounds - 1, by omega⟩
    obtain ⟨it₁, source, w₁, hderef, hread, hinv₁⟩ := h.deref hinv
    have hne : ¬ c.eq it last = true := by
      rw [h.eq_cons hinv]
      exact Bool.false_ne_true
    unfold Filtering.forwardSkip
    rw [if_neg hne, bind_of_ok hderef]
    dsimp only
    rw [bind_of_ok (Reference.get_of_some hread)]
    cases hy : pred y with
    | true =>
      exact ⟨_, _, rfl, rfl, y :: ys, hinv₁, rfl, hy, hfuel⟩
    | false =>
      obtain ⟨it₂, w₂, hinc, hinv₂⟩ := h.increment hinv₁
      have hfilter : (y :: ys).filter pred = ys.filter pred :=
        List.filter_cons_of_neg (by rw [hy]; exact Bool.false_ne_true)
      rw [if_neg Bool.false_ne_true, bind_of_ok hinc, hfilter]
      exact ih hinv₂ (by omega) rounds (by omega)

theorem Lawful.filtering (h : Lawful c last Inv) :
    Lawful (filtering pred c fuel) ⟨last, last⟩ (FilterAt pred fuel last Inv) where
  eq_last := h.eq_last
  eq_nil := by
    rintro w f ⟨-, ys, hinv, hys, hhead, -⟩
    cases ys with
    | nil => exact h.eq_nil hinv
    | cons y ys => exact absurd hhead (List.filter_eq_nil_iff.1 hys y List.mem_cons_self)
  eq_cons := by
    rintro w f x xs ⟨-, ys, hinv, hys, -, -⟩
    cases ys with
    | nil => cases hys
    | cons y ys => exact h.eq_cons hinv
  deref := by
    rintro w f x xs ⟨hlast, ys, hinv, hys, hhead, hlen⟩
    cases ys with
    | nil => cases hys
    | cons y ys =>
      have hy : pred y = true := hhead
      have hfirst := (List.cons.inj ((List.filter_cons_of_pos hy).symm.trans hys)).1
      obtain ⟨it, source, w', hderef, hread, hinv'⟩ := h.deref hinv
      refine ⟨{ f with it := it }, _, w', bind_of_ok hderef, ?_, hlast, y :: ys, hinv', hys, hhead,
        hlen⟩
      rw [← hfirst]
      exact hread
  increment := by
    rintro w ⟨it, last'⟩ x xs ⟨hlast, ys, hinv, hys, hhead, hlen⟩
    obtain rfl : last' = last := hlast
    cases ys with
    | nil => cases hys
    | cons y ys =>
      rw [List.length_cons] at hlen
      have hy : pred y = true := hhead
      have hrest := (List.cons.inj ((List.filter_cons_of_pos hy).symm.trans hys)).2
      obtain ⟨it', w', hinc, hinv'⟩ := h.increment hinv
      have hlt : ys.length < fuel := by omega
      obtain ⟨f, w'', hskip, hat⟩ := forwardSkip_at pred h hinv' hlt hlt
      rw [hrest] at hat
      exact ⟨f, w'', (bind_of_ok hinc).trans hskip, hat⟩

theorem Denotes.filter {e : RangeExpression α} {xs : List α} (h : Denotes e xs)
    (pred : α → Bool) (hfuel : xs.length < fuel) :
    Denotes (e.filter fuel pred) (xs.filter pred) := by
  obtain ⟨r, w, Inv, hrange, hlawful, hinv⟩ := h
  obtain ⟨f, w', hskip, hat⟩ := forwardSkip_at pred hlawful hinv hfuel hfuel
  have hend : Filtering.forwardSkip pred fuel ⟨r.last, r.last⟩ w' = .ok ⟨r.last, r.last⟩ w' :=
    forwardSkip_last pred hlawful.eq_last (Nat.zero_lt_of_lt hfuel) w'
  exact ⟨_, _, _, (bind_of_ok hrange).trans ((bind_of_ok hskip).trans (bind_of_ok hend)),
    hlawful.filtering, hat⟩

end Filter

/-! ## `zip` -/

section Lists

variable {n : ℕ} {α : Fin (n + 1) → Type}

theorem shortest_cons (y : ∀ i, α i) (ys : ∀ i, List (α i)) :
    shortest (fun i => y i :: ys i) = shortest ys + 1 := by
  obtain ⟨i, hi⟩ := exists_shortest fun i => y i :: ys i
  obtain ⟨j, hj⟩ := exists_shortest ys
  have hij : shortest ys ≤ (ys i).length := shortest_le i
  have hji : shortest (fun i => y i :: ys i) ≤ (y j :: ys j).length := shortest_le j
  rw [List.length_cons] at hi hji
  omega

theorem length_zipLists (xs : ∀ i, List (α i)) : (zipLists xs).length = shortest xs :=
  List.length_ofFn

theorem getElem_zipLists (xs : ∀ i, List (α i)) {k : ℕ} (hk : k < (zipLists xs).length)
    (hlt : k < shortest xs) :
    (zipLists xs)[k] = fun i => (xs i).get ⟨k, lt_length xs ⟨k, hlt⟩ i⟩ :=
  List.getElem_ofFn hk

theorem zipLists_eq_nil {xs : ∀ i, List (α i)} {i : Fin (n + 1)} (h : xs i = []) :
    zipLists xs = [] := by
  have hle : shortest xs ≤ (xs i).length := shortest_le i
  rw [h] at hle
  rw [← List.length_eq_zero_iff, length_zipLists]
  exact Nat.le_zero.1 hle

theorem zipLists_cons (y : ∀ i, α i) (ys : ∀ i, List (α i)) :
    zipLists (fun i => y i :: ys i) = y :: zipLists ys := by
  apply List.ext_getElem
  · rw [List.length_cons, length_zipLists, length_zipLists, shortest_cons]
  · intro k hk hk'
    have hlen := length_zipLists fun i => y i :: ys i
    have hshort := shortest_cons y ys
    rw [getElem_zipLists _ hk (by omega)]
    cases k with
    | zero => rfl
    | succ k =>
      rw [List.getElem_cons_succ, getElem_zipLists _ _ (by omega)]
      rfl

end Lists

section Zip

variable {n : ℕ} {α : Fin (n + 1) → Type} {c : ∀ i, IteratorType (α i)} {last : ∀ i, (c i).It}
  {Inv : ∀ i, (c i).World → (c i).It → List (α i) → Prop}

/-- A `zip_iterator` in front of `xs`: all components are at their ends, or none is. -/
def ZipAt (last : ∀ i, (c i).It) (Inv : ∀ i, (c i).World → (c i).It → List (α i) → Prop)
    (w : ∀ i, (c i).World) (z : Zipping c) (xs : List (∀ i, α i)) : Prop :=
  z.ends = last ∧ (z.begins = last ∧ xs = [] ∨ ∃ y ys,
    (∀ i, Inv i (w i) (z.begins i) (y i :: ys i)) ∧ xs = y :: zipLists ys)

/-- `_check_end`: where one component is at its end all are moved there. -/
theorem checkEnd_at (h : ∀ i, Lawful (c i) (last i) (Inv i)) {w : ∀ i, (c i).World}
    {begins : ∀ i, (c i).It} {xs : ∀ i, List (α i)} (hinv : ∀ i, Inv i (w i) (begins i) (xs i)) :
    ZipAt last Inv w (Zipping.checkEnd ⟨begins, last⟩) (zipLists xs) := by
  by_cases hend : ∃ i, xs i = []
  · obtain ⟨i, hi⟩ := hend
    have hany : Zipping.tupleAnyEqual begins last = true := by
      have hinvi := hinv i
      rw [hi] at hinvi
      exact decide_eq_true ⟨i, (h i).eq_nil hinvi⟩
    unfold Zipping.checkEnd
    rw [if_pos hany]
    exact ⟨rfl, Or.inl ⟨rfl, zipLists_eq_nil hi⟩⟩
  · have hcons (i : Fin (n + 1)) : ∃ y ys, xs i = y :: ys :=
      List.exists_cons_of_ne_nil fun hi => hend ⟨i, hi⟩
    choose y ys hxs using hcons
    obtain rfl : xs = fun i => y i :: ys i := funext hxs
    have hany : Zipping.tupleAnyEqual begins last = false := by
      refine decide_eq_false ?_
      rintro ⟨i, hi⟩
      rw [(h i).eq_cons (hinv i)] at hi
      cases hi
    unfold Zipping.checkEnd
    rw [if_neg (by rw [hany]; exact Bool.false_ne_true)]
    exact ⟨rfl, Or.inr ⟨y, ys, hinv, zipLists_cons y ys⟩⟩

theorem checkEnd_last (last : ∀ i, (c i).It) :
    Zipping.checkEnd (⟨last, last⟩ : Zipping c) = ⟨last, last⟩ := by
  unfold Zipping.checkEnd
  split_ifs
  · rfl
  · rfl

theorem Lawful.zipping (h : ∀ i, Lawful (c i) (last i) (Inv i)) :
    Lawful (zipping c) ⟨last, last⟩ (ZipAt last Inv) where
  eq_last := decide_eq_true fun i => (h i).eq_last
  eq_nil := by
    rintro w z ⟨-, ⟨hbegins, -⟩ | ⟨y, ys, -, hcons⟩⟩
    · refine decide_eq_true fun i => ?_
      rw [hbegins]
      exact (h i).eq_last
    · cases hcons
  eq_cons := by
    rintro w z x xs ⟨-, ⟨-, hnil⟩ | ⟨y, ys, hinv, -⟩⟩
    · cases hnil
    · refine decide_eq_false fun hall => ?_
      have hfirst := hall 0
      rw [(h 0).eq_cons (hinv 0)] at hfirst
      cases hfirst
  deref := by
    rintro w z x xs ⟨hends, ⟨-, hnil⟩ | ⟨y, ys, hinv, hcons⟩⟩
    · cases hnil
    · obtain ⟨rfl, rfl⟩ := List.cons.inj hcons
      choose it source w' hderef hread hinv' using fun i => (h i).deref (hinv i)
      have heach : each (fun i => (c i).deref (z.begins i)) w =
          .ok (fun i => (it i, source i)) w' := each_of_ok hderef
      exact ⟨{ z with begins := it }, tupleReference source, w', bind_of_ok heach,
        allSome_of_some hread, hends, Or.inr ⟨x, ys, hinv', rfl⟩⟩
  increment := by
    rintro w ⟨begins, ends⟩ x xs ⟨hends, ⟨-, hnil⟩ | ⟨y, ys, hinv, hcons⟩⟩
    · cases hnil
    · obtain ⟨rfl, rfl⟩ := List.cons.inj hcons
      obtain rfl : ends = last := hends
      choose it w' hinc hinv' using fun i => (h i).increment (hinv i)
      exact ⟨_, w', bind_of_ok (each_of_ok hinc), checkEnd_at h hinv'⟩

theorem Denotes.zip {e : ∀ i, RangeExpression (α i)} {xs : ∀ i, List (α i)}
    (h : ∀ i, Denotes (e i) (xs i)) : Denotes (.zip e) (zipLists xs) := by
  choose r w Inv hrange hlawful hinv using h
  refine ⟨_, w, ZipAt (fun i => (r i).last) Inv, bind_of_ok (each_of_ok hrange), ?_,
    checkEnd_at hlawful hinv⟩
  have hlast : (Range.zip r).last = ⟨fun i => (r i).last, fun i => (r i).last⟩ := checkEnd_last _
  rw [hlast]
  exact Lawful.zipping hlawful

end Zip

/-! ## `map_indexed` -/

section Indices

variable {bits : ℕ}

/-- The values from 0 up to the last but one. -/
def indexList (bits : ℕ) : List (BitVec bits) :=
  (List.range' 0 (2 ^ bits - 1)).map (BitVec.ofNat bits)

/-- An `integral_iterator` that has `xs` in front of it up to the largest value. -/
def IndexAt (v : BitVec bits) (xs : List (BitVec bits)) : Prop :=
  ∃ k, v.toNat + k = 2 ^ bits - 1 ∧ xs = (List.range' v.toNat k).map (BitVec.ofNat bits)

theorem lawful_integral (bits : ℕ) :
    Lawful (integral bits) (BitVec.allOnes bits) fun _ v xs => IndexAt v xs where
  eq_last := beq_self_eq_true _
  eq_nil := by
    rintro w v ⟨k, hk, hnil⟩
    obtain rfl : k = 0 := by
      rw [eq_comm, List.map_eq_nil_iff, List.range'_eq_nil_iff] at hnil
      exact hnil
    have hv : v.toNat = (BitVec.allOnes bits).toNat := by
      rw [BitVec.toNat_allOnes, ← hk]
      rfl
    exact beq_iff_eq.2 (BitVec.eq_of_toNat_eq hv)
  eq_cons := by
    rintro w v x xs ⟨k, hk, hcons⟩
    refine beq_false_of_ne ?_
    rintro rfl
    rw [BitVec.toNat_allOnes] at hk
    obtain rfl : k = 0 := by omega
    cases hcons
  deref := by
    rintro w v x xs ⟨k, hk, hcons⟩
    refine ⟨v, _, w, rfl, ?_, k, hk, hcons⟩
    cases k with
    | zero => cases hcons
    | succ k =>
      rw [List.range'_succ, List.map_cons] at hcons
      rw [(List.cons.inj hcons).1, BitVec.ofNat_toNat, BitVec.setWidth_eq]
      rfl
  increment := by
    rintro w v x xs ⟨k, hk, hcons⟩
    cases k with
    | zero => cases hcons
    | succ k =>
      rw [List.range'_succ, List.map_cons] at hcons
      have hnext : (v + 1).toNat = v.toNat + 1 := by
        rw [BitVec.toNat_add]
        have hone : (1 : BitVec bits).toNat = 1 % 2 ^ bits := BitVec.toNat_ofNat 1 bits
        rw [hone, Nat.add_mod_mod, Nat.mod_eq_of_lt (by omega)]
      refine ⟨v + 1, w, rfl, k, by omega, ?_⟩
      rw [hnext, (List.cons.inj hcons).2]

theorem indexAt_zero (bits : ℕ) : IndexAt (0 : BitVec bits) (indexList bits) := by
  have hzero : (0 : BitVec bits).toNat = 0 := BitVec.toNat_zero
  refine ⟨2 ^ bits - 1, ?_, ?_⟩
  · rw [hzero, Nat.zero_add]
  · rw [hzero]
    rfl

theorem denotes_indices : Denotes .indices (indexList 64) :=
  ⟨_, (), _, rfl, lawful_integral 64, indexAt_zero 64⟩

variable {α β : Type}

/-- The lists of `zip` in `map_indexed`. -/
def indexedLists (xs : List α) (is : List (BitVec 64)) (i : Fin 2) : List (Indexed α i) :=
  Fin.cases (motive := fun i => List (Indexed α i)) xs (fun _ => is) i

/-- An element with its index, for every element. -/
theorem map_spread_zipLists (f : α → BitVec 64 → β) (xs : List α) (hlen : xs.length < 2 ^ 64) :
    (zipLists (indexedLists xs (indexList 64))).map (spread f) =
      xs.mapIdx fun i a => f a (BitVec.ofNat 64 i) := by
  have hindices : (indexList 64).length = 2 ^ 64 - 1 := by
    unfold indexList
    rw [List.length_map, List.length_range']
  have hshort : shortest (indexedLists xs (indexList 64)) = xs.length := by
    apply Nat.le_antisymm
    · exact shortest_le (n := 1) 0
    · obtain ⟨i, hi⟩ := exists_shortest (indexedLists xs (indexList 64))
      rw [← hi]
      refine Fin.cases (le_refl xs.length) (fun _ => ?_) i
      show xs.length ≤ (indexList 64).length
      omega
  apply List.ext_getElem
  · rw [List.length_map, length_zipLists, hshort, List.length_mapIdx]
  · intro k hk hk'
    have hlt : k < xs.length := by
      rw [List.length_mapIdx] at hk'
      exact hk'
    rw [List.getElem_map, getElem_zipLists _ _ (by omega), List.getElem_mapIdx]
    have hindex : (indexList 64).get ⟨k, by omega⟩ = BitVec.ofNat 64 k := by
      unfold indexList
      rw [List.get_eq_getElem, List.getElem_map, List.getElem_range']
      show BitVec.ofNat 64 (0 + 1 * k) = _
      rw [Nat.one_mul, Nat.zero_add]
    rw [← hindex]
    rfl

theorem Denotes.mapIndexed {e : RangeExpression α} {xs : List α} (h : Denotes e xs)
    (hlen : xs.length < 2 ^ 64) (f : α → BitVec 64 → β) :
    Denotes (e.mapIndexed f) (xs.mapIdx fun i a => f a (BitVec.ofNat 64 i)) := by
  have hzip : Denotes (.zip e.withIndex) (zipLists (indexedLists xs (indexList 64))) :=
    Denotes.zip fun i =>
      Fin.cases (motive := fun i => Denotes (e.withIndex i) (indexedLists xs _ i)) h
        (fun _ => denotes_indices) i
  rw [← map_spread_zipLists f xs hlen]
  exact hzip.map (spread f)

end Indices

/-! ## Pipelines -/

section Pipelines

theorem Pipeline.length_denote_le {α : Type} (p : Pipeline α) : p.denote.length ≤ p.longest := by
  induction p with
  | container elements h => exact le_refl _
  | parseAll s h => exact le_refl _
  | map f p ih =>
    show (p.denote.map f).length ≤ _
    rw [List.length_map]
    exact ih
  | filter pred p ih => exact (List.length_filter_le _ _).trans ih
  | zip p ih =>
    show (zipLists fun i => (p i).denote).length ≤ _
    rw [length_zipLists]
    have hle : (p 0).longest ≤ (Pipeline.zip p).longest :=
      Finset.le_sup (f := fun i => (p i).longest) (Finset.mem_univ 0)
    exact (shortest_le 0).trans ((ih 0).trans hle)
  | mapIndexed f p ih =>
    show (p.denote.mapIdx _).length ≤ _
    rw [List.length_mapIdx]
    exact ih

theorem Pipeline.longest_lt {α : Type} (p : Pipeline α) : p.longest < 2 ^ 64 := by
  induction p with
  | container elements h => exact h
  | parseAll s h => exact h
  | map f p ih => exact ih
  | filter pred p ih => exact ih
  | zip p ih => exact (Finset.sup_lt_iff (by decide)).2 fun i _ => ih i
  | mapIndexed f p ih => exact ih

/-- By induction on the expression. -/
theorem Pipeline.denotes {α : Type} (p : Pipeline α) {fuel : ℕ} (hfuel : p.longest < fuel) :
    Denotes (p.expression fuel) p.denote := by
  induction p with
  | container elements h => exact denotes_container elements
  | parseAll s h => exact denotes_parseAll s
  | map f p ih => exact (ih hfuel).map f
  | filter pred p ih => exact (ih hfuel).filter pred (p.length_denote_le.trans_lt hfuel)
  | zip p ih =>
    have hle (i : Fin _) : (p i).longest ≤ (Pipeline.zip p).longest :=
      Finset.le_sup (f := fun i => (p i).longest) (Finset.mem_univ i)
    exact Denotes.zip fun i => ih i ((hle i).trans_lt hfuel)
  | mapIndexed f p ih =>
    exact (ih hfuel).mapIndexed (p.length_denote_le.trans_lt p.longest_lt) f

/-- A traversal of a pipeline terminates and comes to the elements of its list. -/
theorem traversal_eq {α : Type} (p : Pipeline α) {fuel : ℕ} (hfuel : p.longest < fuel) :
    p.traverse fuel = .ok p.denote := by
  obtain ⟨r, w, Inv, hrange, hlawful, hinv⟩ := p.denotes hfuel
  obtain ⟨w', hvisit⟩ := hlawful.visit hinv (p.length_denote_le.trans_lt hfuel)
  have hloop : (p.expression fuel).traverse fuel (p.expression fuel).world = .ok p.denote w' :=
    (bind_of_ok hrange).trans hvisit
  unfold Pipeline.traverse
  rw [hloop]
  rfl

end Pipelines

theorem fiveSix_ne_nil (b : BitVec (8 * 1)) (_ : b ∈ [5, 6]) :
    bytes (.arith (.bits 1 Nat.one_pos)) b ≠ [] := by
  rw [bytes]
  exact List.ne_nil_of_length_pos (by rw [Arith.length_bytes]; exact Nat.one_pos)

/-- The values 5 and 6 in a range of chars. -/
def fiveSix : ValueStream (BitVec (8 * 1)) :=
  .serialized { rangeChecks := true } (.arith (.bits 1 Nat.one_pos)) 0
    (CharRangeReader.between [] [5, 6]) [5, 6] fiveSix_ne_nil
    (CharRangeReader.between_ready [] [5, 6])

/-- `map(plus, zip(filter(ne_2, {1, 2, 3, 4}), map_indexed(plus, parse_all(stream))))`. -/
theorem traversal_two_sources :
    (Pipeline.map (fun t : Fin 2 → ℕ => t 0 + t 1) (.zip (n := 1) (α := fun _ => ℕ)
      (Fin.cons (.filter (fun k => k != 2) (.container [1, 2, 3, 4] (by decide))) fun _ =>
        .mapIndexed (fun b i => b.toNat + i.toNat) (.parseAll fiveSix (by decide))))).traverse 5 =
      .ok [6, 10] :=
  traversal_eq _ (by decide)

end BambooShoot.Pbsu
