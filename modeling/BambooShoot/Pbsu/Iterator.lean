import BambooShoot.Lib.Parts
import BambooShoot.Pbsf.ReadIterator

/-!
# Iterators

The input iterators of the library: those of containers, `integral_iterator`
(`iter-util.hh`, lines 595–643), `parse_iterator` (`pbss.hh`, lines 171–229),
`mapping_iterator` (lines 238–315) and `filtering_iterator` (lines 502–580).

An `IteratorType` says what one type of iterators does. What lies outside of the
iterators, such as a stream, is its `World`. A dereference returns a reference,
which may lead into the iterator itself, so that what it denotes depends on the
iterator at the time it is read.

Results: `Lawful`, an invariant that ties an iterator to the elements it has still
to come to, with the rule `Lawful.visit` for whole traversals, and
`lawful_container`.
-/

namespace BambooShoot.Pbsu

open BambooShoot.Lib BambooShoot.Pbss BambooShoot.Pbsf

/-! ## Concepts -/

/-- What `*it` returns. -/
structure Reference (σ ι α : Type) where
  /-- The value it denotes; `none` where the object is gone. -/
  read : ι → σ → Option α
  /-- What is left when the value has been moved out by `std::move`. -/
  moveOut : ι → σ → ι × σ
  /-- What an assignment makes of it, if one compiles. -/
  assign : Option (α → ι → σ → ι × σ)
  /-- Whether some of what it denotes is in the iterator itself. -/
  inside : Bool
  /-- Whether it is a tuple of references, of which a copy refers to the same. -/
  isTuple : Bool

/-- The use of a reference as a value. -/
def Reference.get {σ ι α : Type} (r : Reference σ ι α) (it : ι) : Run σ α := fun w =>
  match r.read it w with
  | some a => .ok a w
  | none => .error .undefinedBehaviour w

theorem Reference.get_of_some {σ ι α : Type} {r : Reference σ ι α} {it : ι} {w : σ} {a : α}
    (h : r.read it w = some a) : r.get it w = .ok a w := by
  unfold Reference.get
  rw [h]

/-- A type of input iterators over elements of type `α`. Dereferencing returns
    the iterator too, part of which may be a mutable cache. -/
structure IteratorType (α : Type) where
  World : Type
  It : Type
  eq : It → It → Bool
  deref : It → Run World (It × Reference World It α)
  increment : It → Run World It

/-! ## Elements and values -/

/-- The element `i` of a container; `movedFrom` is what a move leaves of it. -/
def elementReference {α : Type} (movedFrom : α → α) (i : ℕ) : Reference (List α) ℕ α where
  read _ elements := elements[i]?
  moveOut it elements := (it, elements.modify i movedFrom)
  assign := some fun a it elements => (it, elements.set i a)
  inside := false
  isTuple := false

/-- Iterators of a container of `α`, by position; the world is its contents. If
    the container is const, a move is a copy and `movedFrom` the identity. -/
@[reducible] def container {α : Type} (movedFrom : α → α) : IteratorType α where
  World := List α
  It := ℕ
  eq i j := i == j
  deref i := fun elements =>
    if i < elements.length then .ok (i, elementReference movedFrom i) elements
    else .error .undefinedBehaviour elements
  increment i := fun elements =>
    if i < elements.length then .ok (i + 1) elements else .error .undefinedBehaviour elements

/-- A const reference to what `read` finds in the iterator. -/
def memberReference {σ ι α : Type} (read : ι → Option α) : Reference σ ι α where
  read it _ := read it
  moveOut it w := (it, w)
  assign := none
  inside := true
  isTuple := false

/-- `integral_iterator<Int>` for an unsigned `Int`: the reference is to its member. -/
@[reducible] def integral (bits : ℕ) : IteratorType (BitVec bits) where
  World := Unit
  It := BitVec bits
  eq v v' := v == v'
  deref v := pure (v, memberReference some)
  increment v := pure (v + 1)

section Parse

variable {σ β : Type} [InputStream σ] [ForwardInputStream σ] (build : Build) (s : Ty β)

/-- The members of a `parse_iterator`. -/
structure ParsePosition (β : Type) where
  streamPtr : Bool
  value : β

/-- `parse_iterator::operator++` with the stream outside of the iterator. -/
def ParsePosition.increment (it : ParsePosition β) : Run σ (ParsePosition β) := fun stream =>
  match ParseIterator.increment build s ⟨stream, it.streamPtr, it.value⟩ with
  | .ok _ it => .ok ⟨it.streamPtr, it.value⟩ it.stream
  | .error stop it => .error stop it.stream

/-- The reference to the mutable member of a `parse_iterator`. -/
def ParsePosition.reference (movedFrom : β → β) : Reference σ (ParsePosition β) β where
  read it _ := some it.value
  moveOut it w := ({ it with value := movedFrom it.value }, w)
  assign := some fun a it w => ({ it with value := a }, w)
  inside := true
  isTuple := false

/-- `parse_iterator<Stream, T>`: the reference is to its member. -/
@[reducible] def parsing (movedFrom : β → β) : IteratorType β where
  World := σ
  It := ParsePosition β
  eq it it' := it.streamPtr == it'.streamPtr
  deref it := pure (it, ParsePosition.reference movedFrom)
  increment := ParsePosition.increment build s

end Parse

/-! ## `mapping_iterator` -/

/-- A function object: its members, which are copied with it, and what it reads
    and writes elsewhere. It returns a value that does not refer to its argument. -/
structure FunctionObject (α β : Type) where
  State : Type
  World : Type
  call : State → α → Run World (State × β)

/-- A pure function. -/
@[reducible] def FunctionObject.ofFun {α β : Type} (f : α → β) : FunctionObject α β where
  State := Unit
  World := Unit
  call _ a := pure ((), f a)

section Mapping

variable {α β : Type} (skipUnused : Bool) (fn : FunctionObject α β) (c : IteratorType α)

/-- The members of a `mapping_iterator`. -/
structure Mapping where
  function : fn.State
  it : c.It
  value : Option β

variable {fn c}

/-- The reference to the cached value, which is const. -/
def Mapping.reference : Reference (c.World × fn.World) (Mapping fn c) β :=
  memberReference Mapping.value

/-- `operator*` (lines 273–278). -/
def Mapping.deref (m : Mapping fn c) :
    Run (c.World × fn.World) (Mapping fn c × Reference (c.World × fn.World) (Mapping fn c) β) :=
  match m.value with
  | some _ => pure (m, Mapping.reference)
  | none => do
    let (it, source) ← onFst (c.deref m.it)
    let a ← onFst (source.get it)
    let (function, value) ← onSnd (fn.call m.function a)
    pure (⟨function, it, some value⟩, Mapping.reference)

/-- `operator++` (lines 280–287). -/
def Mapping.increment (m : Mapping fn c) : Run (c.World × fn.World) (Mapping fn c) := do
  let m ← (if skipUnused then pure m else do
    let (m, _) ← m.deref
    pure m : Run (c.World × fn.World) (Mapping fn c))
  let it ← onFst (c.increment m.it)
  pure ⟨m.function, it, none⟩

section Calls

variable {m m' : Mapping fn c} {w w' : c.World × fn.World}
  {r : Reference (c.World × fn.World) (Mapping fn c) β}

theorem Mapping.deref_cached (w : c.World × fn.World) {b : β} (h : m.value = some b) :
    m.deref w = .ok (m, Mapping.reference) w := by
  unfold Mapping.deref
  rw [h]
  rfl

/-- Where the cache is empty the function is called. -/
theorem Mapping.deref_empty (h : m.value = none) {v : c.World} {e : fn.World} {it : c.It}
    {source : Reference c.World c.It α} {v' : c.World} {a : α}
    (hderef : c.deref m.it v = .ok (it, source) v') (hread : source.read it v' = some a) :
    m.deref (v, e) =
      (onSnd (fn.call m.function a) >>= fun p =>
        pure (⟨p.1, it, some p.2⟩, Mapping.reference)) (v', e) := by
  unfold Mapping.deref
  rw [h]
  dsimp only
  rw [bind_of_ok (onFst_of_ok hderef)]
  dsimp only
  rw [bind_of_ok (onFst_of_ok (Reference.get_of_some hread))]

theorem Mapping.deref_reference (h : m.deref w = .ok (m', r) w') : r = Mapping.reference := by
  unfold Mapping.deref at h
  cases hvalue : m.value with
  | some b =>
    rw [hvalue] at h
    cases h
    rfl
  | none =>
    rw [hvalue] at h
    obtain ⟨p, _, _, h⟩ := bind_eq_ok h
    obtain ⟨a, _, _, h⟩ := bind_eq_ok h
    obtain ⟨q, _, _, h⟩ := bind_eq_ok h
    cases h
    rfl

/-- The default increment reads the element it passes. -/
theorem Mapping.increment_default {v v' : c.World} {e : fn.World} {it : c.It}
    (hderef : m.deref w = .ok (m', r) (v, e)) (hinc : c.increment m'.it v = .ok it v') :
    m.increment false w = .ok ⟨m'.function, it, none⟩ (v', e) := by
  have hread : (m.deref >>= fun p => (pure p.1 : Run (c.World × fn.World) (Mapping fn c))) w =
      .ok m' (v, e) := bind_of_ok hderef
  show ((m.deref >>= fun p => (pure p.1 : Run (c.World × fn.World) (Mapping fn c))) >>= fun m =>
    onFst (c.increment m.it) >>= fun it => pure (⟨m.function, it, none⟩ : Mapping fn c)) w = _
  rw [bind_of_ok hread, bind_of_ok (onFst_of_ok hinc)]
  rfl

/-- An increment empties the cache. -/
theorem Mapping.increment_value (h : m.increment skipUnused w = .ok m' w') : m'.value = none := by
  unfold Mapping.increment at h
  obtain ⟨m, _, _, h⟩ := bind_eq_ok h
  obtain ⟨it, _, _, h⟩ := bind_eq_ok h
  cases h
  rfl

end Calls

variable (fn c)

/-- `mapping_iterator<Function, Iterator, skipUnused>`. -/
@[reducible] def mapping : IteratorType β where
  World := c.World × fn.World
  It := Mapping fn c
  eq m m' := c.eq m.it m'.it
  deref := Mapping.deref
  increment := Mapping.increment skipUnused

end Mapping

/-! ## `filtering_iterator` -/

section Filtering

variable {α : Type} (pred : α → Bool) (c : IteratorType α)

/-- The members of a `filtering_iterator`. -/
structure Filtering where
  it : c.It
  last : c.It

variable {c}

/-- `forward_skip` (lines 532–536). -/
def Filtering.forwardSkip : ℕ → Filtering c → Run c.World (Filtering c)
  | 0, _ => throw .outOfFuel
  | fuel + 1, f =>
    if c.eq f.it f.last then pure f
    else do
      let (it, source) ← c.deref f.it
      let a ← source.get it
      if pred a then pure { f with it := it }
      else do
        let it ← c.increment it
        forwardSkip fuel { f with it := it }

/-- A reference of the iterator behind a `filtering_iterator`. -/
def Filtering.reference (source : Reference c.World c.It α) :
    Reference c.World (Filtering c) α where
  read f w := source.read f.it w
  moveOut f w := ({ f with it := (source.moveOut f.it w).1 }, (source.moveOut f.it w).2)
  assign := source.assign.map fun assign a f w =>
    ({ f with it := (assign a f.it w).1 }, (assign a f.it w).2)
  inside := source.inside
  isTuple := source.isTuple

/-- `operator*` (lines 546–549). -/
def Filtering.deref (f : Filtering c) :
    Run c.World (Filtering c × Reference c.World (Filtering c) α) := do
  let (it, source) ← c.deref f.it
  pure ({ f with it := it }, Filtering.reference source)

/-- `operator++` (lines 551–556). -/
def Filtering.increment (fuel : ℕ) (f : Filtering c) : Run c.World (Filtering c) := do
  let it ← c.increment f.it
  Filtering.forwardSkip pred fuel { f with it := it }

variable (c)

/-- `filtering_iterator<Function, Iterator>`. -/
@[reducible] def filtering (fuel : ℕ) : IteratorType α where
  World := c.World
  It := Filtering c
  eq f f' := c.eq f.it f'.it
  deref := Filtering.deref
  increment := Filtering.increment pred fuel

end Filtering

/-! ## Traversals -/

section Traversal

variable {α : Type} (c : IteratorType α)

/-- One turn of `for (; first != last; ++first)`: what `*first` denotes, and the
    next iterator. -/
def turn (first : c.It) : Run c.World (α × c.It) := do
  let (first, element) ← c.deref first
  let a ← element.get first
  let first ← c.increment first
  pure (a, first)

/-- The elements that the loop comes to, in order. -/
def visit : ℕ → c.It → c.It → Run c.World (List α)
  | 0, _, _ => throw .outOfFuel
  | fuel + 1, first, last =>
    if c.eq first last then pure []
    else do
      let (a, first) ← turn c first
      let rest ← visit fuel first last
      pure (a :: rest)

theorem visit_last {fuel : ℕ} {first last : c.It} (w : c.World) (h : c.eq first last = true) :
    visit c (fuel + 1) first last w = .ok [] w := by
  unfold visit
  rw [if_pos h]
  rfl

/-- `Inv w it xs` says that from `it` on, in the world `w`, the elements `xs` are
    still to come: `it` is equal to `last` exactly when there are none, can be
    dereferenced any number of times and goes on to the next. -/
structure Lawful (last : c.It) (Inv : c.World → c.It → List α → Prop) : Prop where
  eq_last : c.eq last last = true
  eq_nil : ∀ {w it}, Inv w it [] → c.eq it last = true
  eq_cons : ∀ {w it x xs}, Inv w it (x :: xs) → c.eq it last = false
  deref : ∀ {w it x xs}, Inv w it (x :: xs) → ∃ it' source w',
    c.deref it w = .ok (it', source) w' ∧ source.read it' w' = some x ∧ Inv w' it' (x :: xs)
  increment : ∀ {w it x xs}, Inv w it (x :: xs) → ∃ it' w',
    c.increment it w = .ok it' w' ∧ Inv w' it' xs

variable {c} {last : c.It} {Inv : c.World → c.It → List α → Prop}

/-- One turn passes one element. -/
theorem Lawful.turn (h : Lawful c last Inv) {w : c.World} {it : c.It} {x : α} {xs : List α}
    (hinv : Inv w it (x :: xs)) :
    ∃ it' w', turn c it w = .ok (x, it') w' ∧ Inv w' it' xs := by
  obtain ⟨it₁, source, w₁, hderef, hread, hinv₁⟩ := h.deref hinv
  obtain ⟨it₂, w₂, hincrement, hinv₂⟩ := h.increment hinv₁
  refine ⟨it₂, w₂, ?_, hinv₂⟩
  unfold Pbsu.turn
  rw [bind_of_ok hderef]
  dsimp only
  rw [bind_of_ok (Reference.get_of_some hread), bind_of_ok hincrement]
  rfl

/-- A traversal terminates and comes to all elements, in order. -/
theorem Lawful.visit (h : Lawful c last Inv) {fuel : ℕ} {w : c.World} {it : c.It} {xs : List α}
    (hinv : Inv w it xs) (hfuel : xs.length < fuel) :
    ∃ w', visit c fuel it last w = .ok xs w' := by
  obtain ⟨fuel, rfl⟩ : ∃ k, fuel = k + 1 := ⟨fuel - 1, by omega⟩
  induction xs generalizing fuel w it with
  | nil => exact ⟨w, visit_last c w (h.eq_nil hinv)⟩
  | cons x xs ih =>
    rw [List.length_cons] at hfuel
    obtain ⟨fuel, rfl⟩ : ∃ k, fuel = k + 1 := ⟨fuel - 1, by omega⟩
    obtain ⟨it', w', hturn, hinv'⟩ := h.turn hinv
    obtain ⟨w'', hvisit⟩ := ih hinv' fuel (by omega)
    refine ⟨w'', ?_⟩
    unfold Pbsu.visit
    rw [if_neg (by rw [h.eq_cons hinv]; exact Bool.false_ne_true), bind_of_ok hturn]
    dsimp only
    rw [bind_of_ok hvisit]
    rfl

end Traversal

/-! ## Containers -/

/-- Position `i` of a container of `n` elements, in front of `xs`. -/
structure AtElement {α : Type} (n : ℕ) (elements : List α) (i : ℕ) (xs : List α) : Prop where
  length : elements.length = n
  le : i ≤ n
  drop : elements.drop i = xs

section Containers

variable {α : Type} {n : ℕ} {elements : List α} {i : ℕ} {x : α} {xs : List α}

theorem AtElement.length_eq (h : AtElement n elements i xs) : i + xs.length = n := by
  have hlen := congrArg List.length h.drop
  have hle := h.le
  rw [List.length_drop, h.length] at hlen
  omega

theorem AtElement.lt (h : AtElement n elements i (x :: xs)) : i < n := by
  have hlen := h.length_eq
  rw [List.length_cons] at hlen
  omega

theorem AtElement.getElem? (h : AtElement n elements i (x :: xs)) : elements[i]? = some x := by
  rw [← List.head?_drop, h.drop]
  rfl

theorem AtElement.next (h : AtElement n elements i (x :: xs)) : AtElement n elements (i + 1) xs where
  length := h.length
  le := h.lt
  drop := by
    rw [← List.drop_drop, h.drop]
    rfl

theorem container_deref (movedFrom : α → α) (h : i < elements.length) :
    (container movedFrom).deref i elements = .ok (i, elementReference movedFrom i) elements :=
  if_pos h

theorem container_increment (movedFrom : α → α) (h : i < elements.length) :
    (container movedFrom).increment i elements = .ok (Nat.succ i) elements :=
  if_pos h

theorem finalState_of_guard {ε σ α : Type} {p : Prop} [Decidable p] (a : α) (e : ε) (s : σ) :
    finalState (if p then EStateM.Result.ok a s else .error e s) = s := by
  split_ifs
  · rfl
  · rfl

theorem container_deref_world (movedFrom : α → α) (i : ℕ) (elements : List α) :
    finalState ((container movedFrom).deref i elements) = elements :=
  finalState_of_guard _ Stop.undefinedBehaviour elements

theorem container_increment_world (movedFrom : α → α) (i : ℕ) (elements : List α) :
    finalState ((container movedFrom).increment i elements) = elements :=
  finalState_of_guard _ Stop.undefinedBehaviour elements

/-- The iterators of a container. -/
theorem lawful_container (movedFrom : α → α) (n : ℕ) :
    Lawful (container movedFrom) (n : ℕ) fun elements i xs => AtElement n elements i xs where
  eq_last := beq_self_eq_true n
  eq_nil {elements i} h := by
    have hlen := AtElement.length_eq h
    exact beq_iff_eq.2 hlen
  eq_cons {elements i x xs} h := beq_false_of_ne (Nat.ne_of_lt (AtElement.lt h))
  deref {elements i x xs} h :=
    ⟨i, _, elements,
      container_deref movedFrom (lt_of_lt_of_eq (AtElement.lt h) (AtElement.length h).symm),
      AtElement.getElem? h, h⟩
  increment {elements i x xs} h :=
    ⟨_, elements,
      container_increment movedFrom (lt_of_lt_of_eq (AtElement.lt h) (AtElement.length h).symm),
      AtElement.next h⟩

end Containers

end BambooShoot.Pbsu
