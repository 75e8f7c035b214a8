import BambooShoot.Pbsu.Pipeline

/-!
# `map` with a function that keeps references

A function over the tuples of `zip` may return the tuple of references that it gets,
`[](auto t) { return t; }`. `mapping_iterator` (`iter-util.hh`, lines 238–315) caches
what it returns, and with it references into its own member `it`, where the sources of
`zip` keep their values there, as `parse_iterator` does. A copy of the iterator still
has the references to the original.

`range` copies the iterators that it is made of (`range.hh`, lines 46–48). `filter`
dereferences its first one before, in the constructor, and it is gone when the range is
made.

Results: `Denotes.mapHeld`, such a `map` alone; `Denotes.filterHeld`, under a `filter`
where the references lead out of the iterators; `filterHeld_inside`, where they do not.
-/

namespace BambooShoot.Pbsu

open BambooShoot.Lib BambooShoot.Pbss BambooShoot.Pbsf

/-! ## Model -/

section Holding

variable {α : Type}

/-- The members of a `mapping_iterator` whose function returns the references it gets:
    the cache has them, and whether the iterator that they were taken from is gone. -/
structure Holding (c : IteratorType α) where
  it : c.It
  value : Option (Reference c.World c.It α × Bool)

variable {c : IteratorType α}

/-- What the cached references denote. -/
def Holding.read (m : Holding c) (w : c.World) : Option α :=
  match m.value with
  | none => none
  | some (source, gone) => if gone && source.inside then none else source.read m.it w

/-- The reference to the cache, which is const. -/
def Holding.reference : Reference c.World (Holding c) α where
  read := Holding.read
  moveOut m w := (m, w)
  assign := none
  inside := true
  isTuple := true

/-- `operator*` (lines 273–278). -/
def Holding.deref (m : Holding c) :
    Run c.World (Holding c × Reference c.World (Holding c) α) :=
  match m.value with
  | some _ => pure (m, Holding.reference)
  | none => do
    let (it, source) ← c.deref m.it
    pure (⟨it, some (source, false)⟩, Holding.reference)

/-- `operator++` (lines 280–287). -/
def Holding.increment (m : Holding c) : Run c.World (Holding c) := do
  let (m, _) ← m.deref
  let it ← c.increment m.it
  pure ⟨it, none⟩

/-- A copy of an iterator that is gone. -/
def Holding.copied (m : Holding c) : Holding c :=
  { m with value := m.value.map fun p => (p.1, true) }

variable (c)

/-- `mapping_iterator<Function, Iterator>` with such a function. -/
@[reducible] def holding : IteratorType α where
  World := c.World
  It := Holding c
  eq m m' := c.eq m.it m'.it
  deref := Holding.deref
  increment := Holding.increment

variable {c}

/-- A copy of a `filtering_iterator` over such iterators. -/
def Filtering.copied (f : Filtering (holding c)) : Filtering (holding c) :=
  ⟨Holding.copied f.it, Holding.copied f.last⟩

/-- `map` (`range-util.hh`, lines 311–320). -/
def Range.mapHeld (r : Range c) : Range (holding c) := ⟨⟨r.first, none⟩, ⟨r.last, none⟩⟩

/-- `filter` (lines 350–359), which returns copies of the iterators it has made. -/
def Range.filterHeld (pred : α → Bool) (fuel : ℕ) (r : Range (holding c)) :
    Run c.World (Range (filtering pred (holding c) fuel)) := do
  let ⟨first, last⟩ ← r.filter pred fuel
  pure ⟨Filtering.copied first, Filtering.copied last⟩

/-- `map(f, e)`, where `f` returns the references it gets. -/
def RangeExpression.mapHeld (e : RangeExpression α) : RangeExpression α where
  iterators := holding e.iterators
  world := e.world
  range := do
    let r ← e.range
    pure r.mapHeld

/-- `filter(pred, map(f, e))` with the same `f`. -/
def RangeExpression.filterHeld (fuel : ℕ) (pred : α → Bool) (e : RangeExpression α) :
    RangeExpression α where
  iterators := filtering pred (holding e.iterators) fuel
  world := e.world
  range := do
    let r ← e.range
    r.mapHeld.filterHeld pred fuel

end Holding

/-! ## `map` -/

section Map

variable {α : Type} {c : IteratorType α} {last : c.It} {Inv : c.World → c.It → List α → Prop}

/-- In front of `xs`, with an empty cache or one that denotes the first of them. -/
def HeldAt (Inv : c.World → c.It → List α → Prop) (w : c.World) (m : Holding c) (xs : List α) :
    Prop :=
  Inv w m.it xs ∧ (m.value = none ∨ ∃ x rest, xs = x :: rest ∧ m.read w = some x)

theorem HeldAt.deref (h : Lawful c last Inv) {w : c.World} {m : Holding c} {x : α} {xs : List α}
    (hat : HeldAt Inv w m (x :: xs)) :
    ∃ m' w', m.deref w = .ok (m', Holding.reference) w' ∧ m'.read w' = some x ∧
      HeldAt Inv w' m' (x :: xs) := by
  obtain ⟨hinv, hvalue⟩ := hat
  unfold Holding.deref
  cases hm : m.value with
  | some p =>
    obtain hnone | ⟨x', rest, hcons, hread⟩ := hvalue
    · rw [hnone] at hm
      cases hm
    · cases hcons
      exact ⟨m, w, rfl, hread, hinv, Or.inr ⟨x, xs, rfl, hread⟩⟩
  | none =>
    obtain ⟨it, source, w', hderef, hread, hinv'⟩ := h.deref hinv
    exact ⟨⟨it, some (source, false)⟩, w', bind_of_ok hderef, hread, hinv',
      Or.inr ⟨x, xs, rfl, hread⟩⟩

theorem Lawful.holding (h : Lawful c last Inv) :
    Lawful (holding c) ⟨last, none⟩ (HeldAt Inv) where
  eq_last := h.eq_last
  eq_nil hat := h.eq_nil hat.1
  eq_cons hat := h.eq_cons hat.1
  deref hat := by
    obtain ⟨m', w', hderef, hread, hat'⟩ := HeldAt.deref h hat
    exact ⟨m', _, w', hderef, hread, hat'⟩
  increment hat := by
    obtain ⟨m', w', hderef, -, hinv, -⟩ := HeldAt.deref h hat
    obtain ⟨it, w'', hinc, hinv'⟩ := h.increment hinv
    exact ⟨⟨it, none⟩, w'', (bind_of_ok hderef).trans (bind_of_ok hinc), hinv', Or.inl rfl⟩

/-- In a traversal of `map` itself the iterator stays where it is. -/
theorem Denotes.mapHeld {e : RangeExpression α} {xs : List α} (h : Denotes e xs) :
    Denotes e.mapHeld xs := by
  obtain ⟨r, w, Inv, hrange, hlawful, hinv⟩ := h
  exact ⟨_, w, _, bind_of_ok hrange, hlawful.holding, hinv, Or.inl rfl⟩

end Map

/-! ## `filter` -/

section Filter

variable {α : Type} {c : IteratorType α} {pred : α → Bool}

/-- All that is cached is inside of the iterator it was taken from, or nothing is. -/
def CachedAs (inside : Bool) (m : Holding c) : Prop :=
  ∀ source gone, m.value = some (source, gone) → source.inside = inside

/-- What dereferencing gives is inside of the iterator, or never is. -/
def RefersAs (inside : Bool) (c : IteratorType α) : Prop :=
  ∀ it w it' source w', c.deref it w = .ok (it', source) w' → source.inside = inside

theorem CachedAs.deref {inside : Bool} (hc : RefersAs inside c) {m m' : Holding c}
    {r : Reference c.World (Holding c) α} {w w' : c.World} (h : CachedAs inside m)
    (hderef : m.deref w = .ok (m', r) w') : CachedAs inside m' ∧ m'.value ≠ none := by
  unfold Holding.deref at hderef
  cases hm : m.value with
  | some p =>
    rw [hm] at hderef
    cases hderef
    exact ⟨h, by rw [hm]; exact Option.some_ne_none p⟩
  | none =>
    rw [hm] at hderef
    obtain ⟨⟨it, source⟩, w₁, hsource, hok⟩ := bind_eq_ok hderef
    cases hok
    refine ⟨?_, Option.some_ne_none _⟩
    rintro _ _ ⟨⟩
    exact hc _ _ _ _ _ hsource

/-- `forward_skip` stops at the end, or with a cache that is filled. -/
theorem CachedAs.forwardSkip {inside : Bool} (hc : RefersAs inside c) {rounds : ℕ}
    {f f' : Filtering (holding c)} {w w' : c.World} (h : CachedAs inside f.it)
    (hskip : Filtering.forwardSkip pred rounds f w = .ok f' w') :
    CachedAs inside f'.it ∧ (c.eq f'.it.it f'.last.it = true ∨ f'.it.value ≠ none) := by
  induction rounds generalizing f w with
  | zero => cases hskip
  | succ rounds ih =>
    unfold Filtering.forwardSkip at hskip
    by_cases heq : c.eq f.it.it f.last.it = true
    · rw [if_pos heq] at hskip
      cases hskip
      exact ⟨h, Or.inl heq⟩
    · rw [if_neg heq] at hskip
      obtain ⟨⟨m, source⟩, w₁, hderef, hskip⟩ := bind_eq_ok hskip
      obtain ⟨a, w₂, hget, hskip⟩ := bind_eq_ok hskip
      obtain ⟨hm, hfilled⟩ := h.deref hc hderef
      by_cases ha : pred a = true
      · rw [if_pos ha] at hskip
        cases hskip
        exact ⟨hm, Or.inr hfilled⟩
      · rw [if_neg ha] at hskip
        obtain ⟨m', w₃, hinc, hskip⟩ := bind_eq_ok hskip
        refine ih (fun _ _ hvalue => ?_) hskip
        obtain ⟨p, w₄, -, hinc⟩ := bind_eq_ok hinc
        obtain ⟨it, w₅, -, hinc⟩ := bind_eq_ok hinc
        cases hinc
        cases hvalue

/-- A copy has lost what was inside of the original, and nothing else. -/
theorem Holding.read_copied {m : Holding c} (h : CachedAs false m) (w : c.World) :
    m.copied.read w = m.read w := by
  unfold Holding.read Holding.copied
  cases hm : m.value with
  | none => rfl
  | some p =>
    have hinside := h p.1 p.2 hm
    simp only [Option.map_some, hinside, Bool.and_false, Bool.false_eq_true, if_false]

theorem Holding.read_lost {m : Holding c} (h : CachedAs true m) (w : c.World) :
    m.copied.read w = none := by
  unfold Holding.read Holding.copied
  cases hm : m.value with
  | none => rfl
  | some p =>
    have hinside := h p.1 p.2 hm
    simp only [Option.map_some, hinside, Bool.and_self, if_true]

variable {last : c.It} {Inv : c.World → c.It → List α → Prop} {fuel : ℕ}

/-- The end of the range of `filter`. -/
def endHeld (last : c.It) : Filtering (holding c) := ⟨⟨last, none⟩, ⟨last, none⟩⟩

/-- The range of `filter`: a copy of an iterator in front of the elements that pass. -/
theorem Range.filterHeld_at (pred : α → Bool) {inside : Bool} (hc : RefersAs inside c)
    (h : Lawful c last Inv) {w : c.World} {first : c.It} {xs : List α} (hinv : Inv w first xs)
    (hfuel : xs.length < fuel) :
    ∃ (f : Filtering (holding c)) (w' : c.World),
      (⟨first, last⟩ : Range c).mapHeld.filterHeld pred fuel w =
        .ok (⟨f.copied, endHeld last⟩ : Range (filtering pred (holding c) fuel)) w' ∧
      FilterAt (c := holding c) pred fuel ⟨last, none⟩ (HeldAt Inv) w' f (xs.filter pred) ∧
      CachedAs inside f.it ∧ (xs.filter pred ≠ [] → f.it.value ≠ none) := by
  have hstart : HeldAt Inv w (⟨first, none⟩ : Holding c) xs := ⟨hinv, Or.inl rfl⟩
  obtain ⟨f, w', hskip, hat⟩ := forwardSkip_at pred h.holding hstart hfuel hfuel
  have hend : Filtering.forwardSkip pred fuel (endHeld last) w' = .ok (endHeld last) w' :=
    forwardSkip_last pred h.eq_last (Nat.zero_lt_of_lt hfuel) w'
  have hfilter : (⟨first, last⟩ : Range c).mapHeld.filter pred fuel w =
      .ok (⟨f, endHeld last⟩ : Range (filtering pred (holding c) fuel)) w' :=
    (bind_of_ok hskip).trans (bind_of_ok hend)
  obtain ⟨hcached, hstop⟩ := CachedAs.forwardSkip hc (by rintro _ _ ⟨⟩) hskip
  refine ⟨f, w', bind_of_ok hfilter, hat, hcached, fun hne => hstop.resolve_left fun heq => ?_⟩
  obtain ⟨x, rest, hcons⟩ := List.exists_cons_of_ne_nil hne
  have hlast := hat.1
  rw [hcons] at hat
  have hfiltering : Lawful (filtering pred (holding c) fuel) (endHeld last) _ :=
    h.holding.filtering
  have hnext := hfiltering.eq_cons hat
  rw [hlast] at heq
  exact absurd (hnext.symm.trans heq) Bool.false_ne_true

/-- References that lead out of the iterators are as good in a copy. -/
theorem Denotes.filterHeld {e : RangeExpression α} {xs : List α} (h : Denotes e xs)
    (hc : RefersAs false e.iterators) (pred : α → Bool) (hfuel : xs.length < fuel) :
    Denotes (e.filterHeld fuel pred) (xs.filter pred) := by
  obtain ⟨⟨first, last⟩, w, Inv, hrange, hlawful, hinv⟩ := h
  obtain ⟨f, w', hfilter, ⟨hlast, ys, ⟨hys, hcache⟩, hpass, hhead, hlen⟩, hcached, -⟩ :=
    Range.filterHeld_at pred hc hlawful hinv hfuel
  refine ⟨_, w', _, (bind_of_ok hrange).trans hfilter, hlawful.holding.filtering, ?_⟩
  refine ⟨congrArg Holding.copied hlast, ys, ⟨hys, ?_⟩, hpass, hhead, hlen⟩
  rcases hcache with hnone | ⟨x, rest, hcons, hread⟩
  · left
    show Option.map _ f.it.value = none
    rw [hnone]
    rfl
  · exact Or.inr ⟨x, rest, hcons, (Holding.read_copied hcached w').trans hread⟩

/-- A loop from a copy whose cache is filled ends at once. -/
theorem visit_lost (pred : α → Bool) {f : Filtering (holding c)} {last : c.It}
    (hcached : CachedAs true f.it) (hfilled : f.it.value ≠ none)
    (heq : c.eq f.it.it last = false) (rounds fuel : ℕ) (w : c.World) :
    visit (filtering pred (holding c) rounds) (fuel + 1) f.copied (endHeld last) w =
      .error .undefinedBehaviour w := by
  obtain ⟨p, hp⟩ := Option.ne_none_iff_exists'.1 hfilled
  have hderef : Holding.deref f.it.copied w = .ok (f.it.copied, Holding.reference) w := by
    unfold Holding.deref Holding.copied
    rw [hp]
    rfl
  have hderef' : (filtering pred (holding c) rounds).deref f.copied w =
      .ok (f.copied, Filtering.reference (c := holding c) (Holding.reference (c := c))) w := by
    show ((holding c).deref f.it.copied >>= _) w = _
    rw [bind_of_ok hderef]
    rfl
  have hget : (Filtering.reference (c := holding c) (Holding.reference (c := c))).get f.copied w =
      .error .undefinedBehaviour w := by
    have hread : Holding.read f.it.copied w = none := Holding.read_lost hcached w
    have hlost : (Filtering.reference (c := holding c) (Holding.reference (c := c))).read
        f.copied w = none := hread
    unfold Reference.get
    rw [hlost]
  have hturn : turn (filtering pred (holding c) rounds) f.copied w =
      .error .undefinedBehaviour w :=
    (bind_of_ok hderef').trans (bind_of_error hget)
  have hne : ¬ (filtering pred (holding c) rounds).eq f.copied (endHeld last) = true := by
    rw [show (filtering pred (holding c) rounds).eq f.copied (endHeld last) = false from heq]
    exact Bool.false_ne_true
  unfold visit
  rw [if_neg hne, bind_of_error hturn]

/-- Where they lead into the iterators the first element that passes is gone. -/
theorem filterHeld_inside {e : RangeExpression α} {xs : List α} (h : Denotes e xs)
    (hc : RefersAs true e.iterators) (pred : α → Bool) (hfuel : xs.length < fuel) :
    outcome ((e.filterHeld fuel pred).traverse fuel e.world) =
      if xs.filter pred = [] then .ok [] else .error .undefinedBehaviour := by
  obtain ⟨⟨first, last⟩, w, Inv, hrange, hlawful, hinv⟩ := h
  obtain ⟨f, w', hfilter, hat, hcached, hfilled⟩ :=
    Range.filterHeld_at pred hc hlawful hinv hfuel
  have hfiltering : Lawful (filtering pred (holding e.iterators) fuel) (endHeld last) _ :=
    hlawful.holding.filtering
  have hrange' : (e.filterHeld fuel pred).range e.world = .ok ⟨f.copied, endHeld last⟩ w' :=
    (bind_of_ok hrange).trans hfilter
  have htraverse : (e.filterHeld fuel pred).traverse fuel e.world =
      visit (filtering pred (holding e.iterators) fuel) fuel f.copied (endHeld last) w' :=
    bind_of_ok hrange'
  obtain ⟨rounds, hrounds⟩ : ∃ k, fuel = k + 1 := ⟨fuel - 1, by omega⟩
  rw [htraverse]
  by_cases hnone : xs.filter pred = []
  · rw [if_pos hnone]
    rw [hnone] at hat
    have hvisit : visit (filtering pred (holding e.iterators) fuel) fuel f.copied (endHeld last) w' =
        .ok [] w' := by
      have heq := hfiltering.eq_nil hat
      have hcopied : (filtering pred (holding e.iterators) fuel).eq f.copied (endHeld last) = true :=
        heq
      rw [hrounds] at hcopied ⊢
      exact visit_last (filtering pred (holding e.iterators) (rounds + 1)) w' hcopied
    rw [hvisit]
    rfl
  · obtain ⟨x, rest, hcons⟩ := List.exists_cons_of_ne_nil hnone
    rw [if_neg hnone]
    rw [hcons] at hat
    have hvisit : visit (filtering pred (holding e.iterators) fuel) fuel f.copied (endHeld last) w' =
        .error .undefinedBehaviour w' := by
      have hlost := visit_lost pred hcached (hfilled hnone) (hfiltering.eq_cons hat) fuel rounds w'
      rwa [← hrounds] at hlost
    rw [hvisit]
    rfl

end Filter

/-! ## Sources -/

theorem refersAs_parsing {σ β : Type} [InputStream σ] [ForwardInputStream σ] (build : Build)
    (s : Ty β) (movedFrom : β → β) : RefersAs true (parsing (σ := σ) build s movedFrom) := by
  rintro it w it' source w' ⟨⟩
  rfl

/-- A tuple of references refers into the iterator where one of them does. -/
theorem refersAs_zipping {n : ℕ} {α : Fin (n + 1) → Type} {c : ∀ i, IteratorType (α i)}
    (i : Fin (n + 1)) (h : RefersAs true (c i)) : RefersAs true (zipping c) := by
  intro z w z' source w' hderef
  obtain ⟨p, w₁, heach, hok⟩ := bind_eq_ok hderef
  cases hok
  exact decide_eq_true ⟨i, h _ _ _ _ _ (each_eq_ok heach i)⟩

/-- `zip(parse_all(s), parse_all(t))`, where both streams have the values 5 and 6. -/
def twoStreams : RangeExpression (Fin 2 → BitVec (8 * 1)) :=
  .zip (n := 1) (α := fun _ => BitVec (8 * 1)) fun _ => .parseAll fiveSix

/-- `filter(any, map(identity, zip(parse_all(s), parse_all(t))))` should come to the
    two tuples; the first one that it reads is gone. -/
theorem held_references_dangle :
    Denotes twoStreams (zipLists fun _ : Fin 2 => [5, 6]) ∧
      ((zipLists fun _ : Fin 2 => [(5 : BitVec (8 * 1)), 6]).filter fun _ => true).length = 2 ∧
      outcome ((twoStreams.filterHeld 3 fun _ => true).traverse 3 twoStreams.world) =
        .error .undefinedBehaviour := by
  have hdenotes : Denotes twoStreams (zipLists fun _ : Fin 2 => [5, 6]) :=
    Denotes.zip fun _ => denotes_parseAll fiveSix
  refine ⟨hdenotes, rfl, ?_⟩
  exact filterHeld_inside hdenotes (refersAs_zipping 0 (refersAs_parsing _ _ id)) (fun _ => true)
    (by decide)

end BambooShoot.Pbsu
