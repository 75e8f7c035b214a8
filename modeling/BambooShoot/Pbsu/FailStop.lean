import BambooShoot.Pbsu.Pipeline

/-!
# Ranges that may throw

A range over a file may come to a place where the file is damaged. The iterators on
top of it hand the exception on. `FailStop` is what `Lawful` leaves out: the elements
`xs` are still to come, and behind them is the end of the range or an exception. What
`complete` says may be assumed wherever the end is reached.

* `FailStop.mapping`, `FailStop.filtering`, `FailStop.zipping`: the iterators;
* `Yields`, with `Yields.map`, `Yields.filter`, `Yields.zip` and `Yields.mapIndexed`:
  the expressions.
-/

namespace BambooShoot.Pbsu

open BambooShoot.Lib BambooShoot.Pbss BambooShoot.Pbsf

/-! ## Iterators -/

/-- A call that throws one of some exceptions. -/
def Stops (stops : Stop → Prop) {σ α : Type} (result : EStateM.Result Stop σ α) : Prop :=
  ∃ stop, stops stop ∧ ∃ s, result = .error stop s

section Stops

variable {stops : Stop → Prop} {σ τ α β : Type}

theorem Stops.bind {p : Run σ α} {s : σ} (h : Stops stops (p s)) (f : α → Run σ β) :
    Stops stops ((p >>= f) s) := by
  obtain ⟨stop, hstop, s', hp⟩ := h
  exact ⟨stop, hstop, s', bind_of_error hp⟩

theorem Stops.onFst {p : Run σ α} {s : σ} (h : Stops stops (p s)) (t : τ) :
    Stops stops (onFst p (s, t)) := by
  obtain ⟨stop, hstop, s', hp⟩ := h
  exact ⟨stop, hstop, _, onFst_of_error hp⟩

end Stops

/-- From `it` on the elements `xs` come, and then the end or one of the exceptions. -/
structure FailStop {α : Type} (c : IteratorType α) (last : c.It) (stops : Stop → Prop)
    (complete : Prop) (Inv : c.World → c.It → List α → Prop) : Prop where
  eq_last : c.eq last last = true
  nil : ∀ {w it}, Inv w it [] →
    c.eq it last = true ∧ complete ∨ c.eq it last = false ∧ Stops stops (c.deref it w)
  eq_cons : ∀ {w it x xs}, Inv w it (x :: xs) → c.eq it last = false
  deref : ∀ {w it x xs}, Inv w it (x :: xs) → ∃ it' source w',
    c.deref it w = .ok (it', source) w' ∧ source.read it' w' = some x ∧ Inv w' it' (x :: xs)
  increment : ∀ {w it x xs}, Inv w it (x :: xs) →
    (∃ it' w', c.increment it w = .ok it' w' ∧ Inv w' it' xs) ∨
      xs = [] ∧ Stops stops (c.increment it w)

/-- Iterators that never throw. -/
theorem Lawful.failStop {α : Type} {c : IteratorType α} {last : c.It}
    {Inv : c.World → c.It → List α → Prop} (h : Lawful c last Inv) (stops : Stop → Prop)
    {complete : Prop} (hcomplete : complete) : FailStop c last stops complete Inv where
  eq_last := h.eq_last
  nil hinv := Or.inl ⟨h.eq_nil hinv, hcomplete⟩
  eq_cons hinv := h.eq_cons hinv
  deref hinv := h.deref hinv
  increment hinv := Or.inl (h.increment hinv)

/-- Where no element follows and the end is not there, the next element throws. -/
theorem FailStop.stops_of_nil {α : Type} {c : IteratorType α} {last : c.It} {stops : Stop → Prop}
    {complete : Prop} {Inv : c.World → c.It → List α → Prop}
    (h : FailStop c last stops complete Inv) {w : c.World} {it : c.It} (hinv : Inv w it [])
    (hne : c.eq it last = false) : Stops stops (c.deref it w) := by
  rcases h.nil hinv with ⟨hend, -⟩ | ⟨-, hstops⟩
  · rw [hne] at hend
    cases hend
  · exact hstops

theorem FailStop.mono {α : Type} {c : IteratorType α} {last : c.It} {stops : Stop → Prop}
    {complete complete' : Prop} {Inv : c.World → c.It → List α → Prop}
    (h : FailStop c last stops complete Inv) (himp : complete → complete') :
    FailStop c last stops complete' Inv :=
  { h with nil := fun hinv => (h.nil hinv).imp (And.imp_right himp) id }

section Mapping

variable {α β : Type} {c : IteratorType α} {last : c.It} {stops : Stop → Prop} {complete : Prop}
  {Inv : c.World → c.It → List α → Prop}

/-- A dereference in front of an element leaves the element in the cache. -/
theorem FailStop.mapping_deref (h : FailStop c last stops complete Inv) {f : α → β}
    {w : c.World × Unit} {m : Mapping (FunctionObject.ofFun f) c} {x : β} {xs : List β}
    (hat : MapAt f Inv w m (x :: xs)) :
    ∃ m' w', m.deref w = .ok (m', Mapping.reference) w' ∧ m'.value = some x ∧
      MapAt f Inv w' m' (x :: xs) := by
  obtain ⟨ys, hinv, hys, hvalue⟩ := hat
  cases hm : m.value with
  | some b =>
    obtain rfl : x = b := Option.some.inj (hvalue b hm)
    exact ⟨m, w, Mapping.deref_cached w hm, hm, ys, hinv, hys, hvalue⟩
  | none =>
    obtain ⟨y, ys, rfl, hx, hxs⟩ := List.map_eq_cons_iff.1 hys
    obtain ⟨it, source, v, hderef, hread, hinv'⟩ := h.deref hinv
    have hcall : (FunctionObject.ofFun f).call m.function y () = .ok ((), x) () := by
      rw [← hx]
      rfl
    exact ⟨⟨(), it, some x⟩, (v, ()),
      (Mapping.deref_empty hm hderef hread).trans (bind_of_ok (onSnd_of_ok hcall)), rfl,
      y :: ys, hinv', hys, fun b hb => hb⟩

/-- An exception from below leaves `mapping_iterator::operator*`. -/
theorem Mapping.deref_stops {f : α → β} {w : c.World × Unit}
    {m : Mapping (FunctionObject.ofFun f) c} (hvalue : m.value = none)
    (h : Stops stops (c.deref m.it w.1)) : Stops stops (m.deref w) := by
  unfold Mapping.deref
  rw [hvalue]
  exact Stops.bind (h.onFst w.2) _

theorem FailStop.mapping (h : FailStop c last stops complete Inv) (f : α → β) :
    FailStop (mapping false (FunctionObject.ofFun f) c) ⟨(), last, none⟩ stops complete
      (MapAt f Inv) where
  eq_last := h.eq_last
  nil := by
    rintro w m ⟨ys, hinv, hys, hvalue⟩
    rw [List.map_eq_nil_iff.1 hys] at hinv
    rcases h.nil hinv with hend | ⟨hne, hstops⟩
    · exact Or.inl hend
    · have hnone : m.value = none := by
        cases hm : m.value with
        | none => rfl
        | some b => cases hvalue b hm
      exact Or.inr ⟨hne, Mapping.deref_stops hnone hstops⟩
  eq_cons := by
    rintro w m x xs ⟨ys, hinv, hys, -⟩
    obtain ⟨y, ys, rfl, -⟩ := List.map_eq_cons_iff.1 hys
    exact h.eq_cons hinv
  deref hat := by
    obtain ⟨m', w', hderef, hvalue, hat'⟩ := h.mapping_deref hat
    exact ⟨m', _, w', hderef, hvalue, hat'⟩
  increment {w m x xs} hat := by
    obtain ⟨m', ⟨v, e⟩, hderef, -, ys, hinv, hys, -⟩ := h.mapping_deref hat
    obtain ⟨y, ys, rfl, -, hxs⟩ := List.map_eq_cons_iff.1 hys
    rcases h.increment hinv with ⟨it, v', hinc, hinv'⟩ | ⟨rfl, hstops⟩
    · exact Or.inl ⟨_, _, Mapping.increment_default hderef hinc, ys, hinv', hxs, nofun⟩
    · refine Or.inr ⟨hxs.symm, ?_⟩
      have hread : (m.deref >>= fun p => (pure p.1 : Run (c.World × Unit) (Mapping _ c))) w =
          .ok m' (v, e) := bind_of_ok hderef
      show Stops stops (((m.deref >>= fun p => pure p.1) >>= fun m =>
        onFst (c.increment m.it) >>= fun it => pure (⟨m.function, it, none⟩ : Mapping _ c)) w)
      rw [bind_of_ok hread]
      exact Stops.bind (hstops.onFst e) _

end Mapping

section Filtering

variable {α : Type} {c : IteratorType α} {last : c.It} {stops : Stop → Prop} {complete : Prop}
  {Inv : c.World → c.It → List α → Prop} {pred : α → Bool} {fuel : ℕ}

/-- `forward_skip` stops at the next element that the predicate holds of, or at the
    end, or an exception leaves it. -/
theorem FailStop.forwardSkip (h : FailStop c last stops complete Inv) (pred : α → Bool)
    {rounds : ℕ} {w : c.World} {it : c.It} {ys : List α} (hinv : Inv w it ys)
    (hrounds : ys.length < rounds) (hfuel : ys.length < fuel) :
    (∃ f w', Filtering.forwardSkip pred rounds ⟨it, last⟩ w = .ok f w' ∧
        FilterAt pred fuel last Inv w' f (ys.filter pred)) ∨
      ys.filter pred = [] ∧ Stops stops (Filtering.forwardSkip pred rounds ⟨it, last⟩ w) := by
  obtain ⟨rounds, rfl⟩ : ∃ k, rounds = k + 1 := ⟨rounds - 1, by omega⟩
  induction ys generalizing rounds w it with
  | nil =>
    unfold Filtering.forwardSkip
    rcases h.nil hinv with ⟨hend, -⟩ | ⟨hne, hstops⟩
    · rw [if_pos hend]
      exact Or.inl ⟨⟨it, last⟩, w, rfl, rfl, [], hinv, rfl, rfl, hfuel⟩
    · rw [if_neg (by rw [hne]; exact Bool.false_ne_true)]
      exact Or.inr ⟨rfl, hstops.bind _⟩
  | cons y ys ih =>
    rw [List.length_cons] at hrounds hfuel
    obtain ⟨rounds, rfl⟩ : ∃ k, rounds = k + 1 := ⟨rounds - 1, by omega⟩
    obtain ⟨it₁, source, w₁, hderef, hread, hinv₁⟩ := h.deref hinv
    unfold Filtering.forwardSkip
    rw [if_neg (by rw [h.eq_cons hinv]; exact Bool.false_ne_true), bind_of_ok hderef]
    dsimp only
    rw [bind_of_ok (Reference.get_of_some hread)]
    cases hy : pred y with
    | true => exact Or.inl ⟨_, _, rfl, rfl, y :: ys, hinv₁, rfl, hy, hfuel⟩
    | false =>
      rw [if_neg Bool.false_ne_true, List.filter_cons_of_neg (by rw [hy]; exact Bool.false_ne_true)]
      rcases h.increment hinv₁ with ⟨it₂, w₂, hinc, hinv₂⟩ | ⟨rfl, hstops⟩
      · rw [bind_of_ok hinc]
        exact ih hinv₂ (by omega) rounds (by omega)
      · exact Or.inr ⟨rfl, hstops.bind _⟩

theorem FailStop.filtering (h : FailStop c last stops complete Inv) :
    FailStop (filtering pred c fuel) ⟨last, last⟩ stops complete
      (FilterAt pred fuel last Inv) where
  eq_last := h.eq_last
  nil := by
    rintro w f ⟨-, ys, hinv, hys, hhead, -⟩
    cases ys with
    | nil =>
      rcases h.nil hinv with hend | ⟨hne, hstops⟩
      · exact Or.inl hend
      · exact Or.inr ⟨hne, hstops.bind _⟩
    | cons y ys => exact absurd hhead (List.filter_eq_nil_iff.1 hys y List.mem_cons_self)
  eq_cons := by
    rintro w f x xs ⟨-, ys, hinv, hys, -, -⟩
    cases ys with
    | nil => cases hys
    | cons y ys => exact h.eq_cons hinv
  deref := by
    rintro w f x xs ⟨hlast, ys, hinv, hys, hhead, hlen⟩
    cases ys with
    | nil => cases hys
    | cons y ys =>
      have hy : pred y = true := hhead
      obtain ⟨rfl, -⟩ := List.cons.inj ((List.filter_cons_of_pos hy).symm.trans hys)
      obtain ⟨it, source, w', hderef, hread, hinv'⟩ := h.deref hinv
      exact ⟨{ f with it := it }, _, w', bind_of_ok hderef, hread, hlast, y :: ys, hinv', hys, hhead,
        hlen⟩
  increment := by
    rintro w ⟨it, last'⟩ x xs ⟨hlast, ys, hinv, hys, hhead, hlen⟩
    obtain rfl : last' = last := hlast
    cases ys with
    | nil => cases hys
    | cons y ys =>
      have hy : pred y = true := hhead
      obtain ⟨-, rfl⟩ := List.cons.inj ((List.filter_cons_of_pos hy).symm.trans hys)
      rw [List.length_cons] at hlen
      have hlt : ys.length < fuel := by omega
      rcases h.increment hinv with ⟨it', w', hinc, hinv'⟩ | ⟨rfl, hstops⟩
      · have hskip : (filtering pred c fuel).increment ⟨it, last'⟩ w =
            Filtering.forwardSkip pred fuel ⟨it', last'⟩ w' := bind_of_ok hinc
        rw [hskip]
        exact h.forwardSkip pred hinv' hlt hlt
      · exact Or.inr ⟨rfl, hstops.bind _⟩

end Filtering

section Zipping

variable {n : ℕ} {α : Fin (n + 1) → Type} {c : ∀ i, IteratorType (α i)} {last : ∀ i, (c i).It}
  {stops : Stop → Prop} {complete : Fin (n + 1) → Prop} {completeAll : Prop}
  {Inv : ∀ i, (c i).World → (c i).It → List (α i) → Prop} {lengths : Fin (n + 1) → ℕ}

/-- All components have come equally far. -/
def Level (lengths : Fin (n + 1) → ℕ) (ys : ∀ i, List (α i)) : Prop :=
  ∃ k, ∀ i, (ys i).length + k = lengths i

/-- A `zip_iterator` in front of `xs`: at its end, or no component is at its own, and
    the next element of some component may be where that throws. -/
def ZippedAt (last : ∀ i, (c i).It) (Inv : ∀ i, (c i).World → (c i).It → List (α i) → Prop)
    (lengths : Fin (n + 1) → ℕ) (completeAll : Prop) (w : ∀ i, (c i).World) (z : Zipping c)
    (xs : List (∀ i, α i)) : Prop :=
  z.ends = last ∧ (z.begins = last ∧ xs = [] ∧ completeAll ∨ ∃ ys,
    (∀ i, Inv i (w i) (z.begins i) (ys i)) ∧ (∀ i, (c i).eq (z.begins i) (last i) = false) ∧
      Level lengths ys ∧ xs = zipLists ys)

theorem zipLists_eq_nil_iff (ys : ∀ i, List (α i)) : zipLists ys = [] ↔ ∃ i, ys i = [] := by
  rw [← List.length_eq_zero_iff, length_zipLists, exists_eq_nil_iff]

/-- Where no component is empty they all have a first element. -/
theorem exists_cons_of_zipLists {ys : ∀ i, List (α i)} {x : ∀ i, α i} {xs : List (∀ i, α i)}
    (h : x :: xs = zipLists ys) : ∃ ys', ys = (fun i => x i :: ys' i) ∧ xs = zipLists ys' := by
  have hcons (i : Fin (n + 1)) : ∃ y ys', ys i = y :: ys' :=
    List.exists_cons_of_ne_nil fun hi => by
      rw [zipLists_eq_nil hi] at h
      cases h
  choose y ys' hys using hcons
  obtain rfl : ys = fun i => y i :: ys' i := funext hys
  rw [zipLists_cons] at h
  obtain ⟨rfl, rfl⟩ := List.cons.inj h
  exact ⟨ys', rfl, rfl⟩

/-- `_check_end`: a component that has come to its end is the shortest. -/
theorem FailStop.checkEnd (h : ∀ i, FailStop (c i) (last i) stops (complete i) (Inv i))
    (hcomplete : ∀ i, complete i → (∀ j, lengths i ≤ lengths j) → completeAll)
    {w : ∀ i, (c i).World} {begins : ∀ i, (c i).It} {ys : ∀ i, List (α i)}
    (hinv : ∀ i, Inv i (w i) (begins i) (ys i)) (hlevel : Level lengths ys) :
    ZippedAt last Inv lengths completeAll w (Zipping.checkEnd ⟨begins, last⟩) (zipLists ys) := by
  unfold Zipping.checkEnd Zipping.tupleAnyEqual
  by_cases hany : ∃ i, (c i).eq (begins i) (last i) = true
  · rw [if_pos (decide_eq_true hany)]
    obtain ⟨i, hi⟩ := hany
    have hnil : ys i = [] := by
      cases hys : ys i with
      | nil => rfl
      | cons y rest =>
        have hinvi := hinv i
        rw [hys] at hinvi
        rw [(h i).eq_cons hinvi] at hi
        cases hi
    have hinvi := hinv i
    rw [hnil] at hinvi
    obtain ⟨k, hk⟩ := hlevel
    rcases (h i).nil hinvi with ⟨-, hdone⟩ | ⟨hne, -⟩
    · refine ⟨rfl, Or.inl ⟨rfl, zipLists_eq_nil hnil, hcomplete i hdone fun j => ?_⟩⟩
      have hi := hk i
      have hj := hk j
      rw [hnil, List.length_nil] at hi
      omega
    · rw [hne] at hi
      cases hi
  · rw [if_neg (by rw [decide_eq_false hany]; exact Bool.false_ne_true)]
    refine ⟨rfl, Or.inr ⟨ys, hinv, fun i => ?_, hlevel, rfl⟩⟩
    exact Bool.eq_false_of_not_eq_true fun hi => hany ⟨i, hi⟩

theorem zipping_eq_false {begins : ∀ i, (c i).It}
    (hne : ∀ i, (c i).eq (begins i) (last i) = false) :
    (zipping c).eq ⟨begins, last⟩ ⟨last, last⟩ = false := by
  refine decide_eq_false fun hall => ?_
  have hfirst := hall 0
  rw [hne 0] at hfirst
  cases hfirst

/-- A component without elements throws where it is read, and the others do nothing
    else. -/
theorem FailStop.zipping_stops (h : ∀ i, FailStop (c i) (last i) stops (complete i) (Inv i))
    {w : ∀ i, (c i).World} {z : Zipping c} {ys : ∀ i, List (α i)}
    (hinv : ∀ i, Inv i (w i) (z.begins i) (ys i))
    (hne : ∀ i, (c i).eq (z.begins i) (last i) = false) (hnil : ∃ i, ys i = []) :
    Stops stops ((zipping c).deref z w) := by
  have hnone {i : Fin (n + 1)} (hi : ys i = []) :
      Stops stops ((c i).deref (z.begins i) (w i)) := by
    have hinvi := hinv i
    rw [hi] at hinvi
    exact (h i).stops_of_nil hinvi (hne i)
  have hall (i : Fin (n + 1)) : (∃ r w', (c i).deref (z.begins i) (w i) = .ok r w') ∨
      Stops stops ((c i).deref (z.begins i) (w i)) := by
    cases hys : ys i with
    | nil => exact Or.inr (hnone hys)
    | cons y rest =>
      have hinvi := hinv i
      rw [hys] at hinvi
      obtain ⟨it, source, w', hderef, -⟩ := (h i).deref hinvi
      exact Or.inl ⟨_, _, hderef⟩
  obtain ⟨i, hi⟩ := hnil
  obtain ⟨stop, -, w', hfails⟩ := hnone hi
  exact Stops.bind (each_of_error hall ⟨i, stop, w', hfails⟩) _

/-- Where every component has an element, they are read one after the other. -/
theorem FailStop.zipping_deref (h : ∀ i, FailStop (c i) (last i) stops (complete i) (Inv i))
    {w : ∀ i, (c i).World} {z : Zipping c} {x : ∀ i, α i} {ys : ∀ i, List (α i)}
    (hends : z.ends = last) (hinv : ∀ i, Inv i (w i) (z.begins i) (x i :: ys i))
    (hlevel : Level lengths fun i => x i :: ys i) :
    ∃ z' source w', (zipping c).deref z w = .ok (z', source) w' ∧ source.read z' w' = some x ∧
      ZippedAt last Inv lengths completeAll w' z' (x :: zipLists ys) := by
  choose it source w' hderef hread hinv' using fun i => (h i).deref (hinv i)
  have heach : each (fun i => (c i).deref (z.begins i)) w =
      .ok (fun i => (it i, source i)) w' := each_of_ok hderef
  exact ⟨{ z with begins := it }, tupleReference source, w', bind_of_ok heach,
    allSome_of_some hread, hends,
    Or.inr ⟨_, hinv', fun i => (h i).eq_cons (hinv' i), hlevel, (zipLists_cons x ys).symm⟩⟩

/-- They all go on, or there is one that has come to the end of its elements and
    throws. -/
theorem FailStop.zipping_increment (h : ∀ i, FailStop (c i) (last i) stops (complete i) (Inv i))
    (hcomplete : ∀ i, complete i → (∀ j, lengths i ≤ lengths j) → completeAll)
    {w : ∀ i, (c i).World} {begins : ∀ i, (c i).It} {x : ∀ i, α i} {ys : ∀ i, List (α i)}
    (hinv : ∀ i, Inv i (w i) (begins i) (x i :: ys i))
    (hlevel : Level lengths fun i => x i :: ys i) :
    (∃ z' w', (zipping c).increment ⟨begins, last⟩ w = .ok z' w' ∧
        ZippedAt last Inv lengths completeAll w' z' (zipLists ys)) ∨
      zipLists ys = [] ∧ Stops stops ((zipping c).increment ⟨begins, last⟩ w) := by
  have hinc := fun i => (h i).increment (hinv i)
  by_cases hall : ∀ i, ∃ it' w', (c i).increment (begins i) (w i) = .ok it' w' ∧
      Inv i w' it' (ys i)
  · choose it w' hok hinv' using hall
    have hlevel' : Level lengths ys := by
      obtain ⟨k, hk⟩ := hlevel
      refine ⟨k + 1, fun i => ?_⟩
      have hi := hk i
      rw [List.length_cons] at hi
      omega
    exact Or.inl ⟨_, w', bind_of_ok (each_of_ok hok),
      FailStop.checkEnd h hcomplete hinv' hlevel'⟩
  · rw [not_forall] at hall
    obtain ⟨i, hi⟩ := hall
    obtain ⟨hnil, stop, -, w', hfails⟩ := (hinc i).resolve_left hi
    have heach := each_of_error (E := stops) (p := fun i => (c i).increment (begins i)) (w := w)
      (fun i => (hinc i).imp (fun ⟨it, w', hok, _⟩ => ⟨it, w', hok⟩) And.right)
      ⟨i, stop, w', hfails⟩
    exact Or.inr ⟨zipLists_eq_nil hnil, Stops.bind heach _⟩

theorem FailStop.zipping (h : ∀ i, FailStop (c i) (last i) stops (complete i) (Inv i))
    (hcomplete : ∀ i, complete i → (∀ j, lengths i ≤ lengths j) → completeAll) :
    FailStop (zipping c) ⟨last, last⟩ stops completeAll
      (ZippedAt last Inv lengths completeAll) where
  eq_last := decide_eq_true fun i => (h i).eq_last
  nil := by
    rintro w ⟨begins, ends⟩ ⟨hends, ⟨hbegins, -, hdone⟩ | ⟨ys, hinv, hne, -, hnil⟩⟩
    · obtain rfl : begins = last := hbegins
      exact Or.inl ⟨decide_eq_true fun i => (h i).eq_last, hdone⟩
    · obtain rfl : ends = last := hends
      exact Or.inr ⟨zipping_eq_false hne,
        FailStop.zipping_stops h hinv hne ((zipLists_eq_nil_iff ys).1 hnil.symm)⟩
  eq_cons := by
    rintro w ⟨begins, ends⟩ x xs ⟨hends, ⟨-, hnil, -⟩ | ⟨ys, -, hne, -, -⟩⟩
    · cases hnil
    · obtain rfl : ends = last := hends
      exact zipping_eq_false hne
  deref := by
    rintro w z x xs ⟨hends, ⟨-, hnil, -⟩ | ⟨ys, hinv, -, hlevel, hcons⟩⟩
    · cases hnil
    · obtain ⟨ys, rfl, rfl⟩ := exists_cons_of_zipLists hcons
      exact FailStop.zipping_deref h hends hinv hlevel
  increment := by
    rintro w ⟨begins, ends⟩ x xs ⟨hends, ⟨-, hnil, -⟩ | ⟨ys, hinv, -, hlevel, hcons⟩⟩
    · cases hnil
    · obtain ⟨ys, rfl, rfl⟩ := exists_cons_of_zipLists hcons
      obtain rfl : ends = last := hends
      exact FailStop.zipping_increment h hcomplete hinv hlevel

end Zipping

/-! ## Expressions -/

section Expressions

variable {α β : Type} {stops : Stop → Prop} {complete : Prop} {e : RangeExpression α}
  {xs : List α} {fuel : ℕ}

/-- Evaluated, `e` is a range in front of `xs`, or throws and `xs` is empty. -/
def Yields (e : RangeExpression α) (xs : List α) (stops : Stop → Prop) (complete : Prop) : Prop :=
  xs = [] ∧ Stops stops (e.range e.world) ∨
    ∃ (r : Range e.iterators) (w : e.iterators.World) (Inv : _ → _ → List α → Prop),
      e.range e.world = .ok r w ∧ FailStop e.iterators r.last stops complete Inv ∧ Inv w r.first xs

theorem Denotes.yields (h : Denotes e xs) (stops : Stop → Prop) (hcomplete : complete) :
    Yields e xs stops complete := by
  obtain ⟨r, w, Inv, hrange, hlawful, hinv⟩ := h
  exact Or.inr ⟨r, w, Inv, hrange, hlawful.failStop stops hcomplete, hinv⟩

theorem Yields.mono {complete' : Prop} (h : Yields e xs stops complete)
    (himp : complete → complete') : Yields e xs stops complete' :=
  h.imp_right fun ⟨r, w, Inv, hrange, hfail, hinv⟩ => ⟨r, w, Inv, hrange, hfail.mono himp, hinv⟩

theorem Yields.map (h : Yields e xs stops complete) (f : α → β) :
    Yields (e.map f) (xs.map f) stops complete := by
  rcases h with ⟨rfl, hstops⟩ | ⟨r, w, Inv, hrange, hfail, hinv⟩
  · exact Or.inl ⟨rfl, Stops.bind (hstops.onFst ()) _⟩
  · exact Or.inr ⟨_, _, _, bind_of_ok (onFst_of_ok hrange), hfail.mapping f, xs, hinv, rfl, nofun⟩

theorem Yields.filter (h : Yields e xs stops complete) (pred : α → Bool)
    (hfuel : xs.length < fuel) : Yields (e.filter fuel pred) (xs.filter pred) stops complete := by
  rcases h with ⟨rfl, hstops⟩ | ⟨r, w, Inv, hrange, hfail, hinv⟩
  · exact Or.inl ⟨rfl, hstops.bind _⟩
  · rcases hfail.forwardSkip pred hinv hfuel hfuel with ⟨f, w', hskip, hat⟩ | ⟨hnil, hstops⟩
    · have hend : Filtering.forwardSkip pred fuel ⟨r.last, r.last⟩ w' = .ok ⟨r.last, r.last⟩ w' := by
        obtain ⟨fuel, rfl⟩ : ∃ k, fuel = k + 1 := ⟨fuel - 1, by omega⟩
        unfold Filtering.forwardSkip
        rw [if_pos hfail.eq_last]
        rfl
      exact Or.inr ⟨_, _, _, (bind_of_ok hrange).trans ((bind_of_ok hskip).trans (bind_of_ok hend)),
        hfail.filtering, hat⟩
    · refine Or.inl ⟨hnil, ?_⟩
      have hrest : (e.filter fuel pred).range e.world = r.filter pred fuel w := bind_of_ok hrange
      show Stops stops ((e.filter fuel pred).range e.world)
      rw [hrest]
      exact hstops.bind _

end Expressions

section Zip

variable {n : ℕ} {α : Fin (n + 1) → Type} {e : ∀ i, RangeExpression (α i)}
  {xs : ∀ i, List (α i)} {stops : Stop → Prop} {complete : Fin (n + 1) → Prop} {completeAll : Prop}

theorem Yields.zip (h : ∀ i, Yields (e i) (xs i) stops (complete i))
    (hcomplete : ∀ i, complete i → (∀ j, (xs i).length ≤ (xs j).length) → completeAll) :
    Yields (.zip e) (zipLists xs) stops completeAll := by
  by_cases hall : ∀ i, ∃ (r : Range (e i).iterators) (w : (e i).iterators.World)
      (Inv : _ → _ → List (α i) → Prop), (e i).range (e i).world = .ok r w ∧
        FailStop (e i).iterators r.last stops (complete i) Inv ∧ Inv w r.first (xs i)
  · choose r w Inv hrange hfail hinv using hall
    have hlast : (Range.zip r).last = ⟨fun i => (r i).last, fun i => (r i).last⟩ := checkEnd_last _
    refine Or.inr ⟨_, w, ZippedAt (fun i => (r i).last) Inv (fun i => (xs i).length) completeAll,
      bind_of_ok (each_of_ok hrange), ?_,
      FailStop.checkEnd hfail hcomplete hinv ⟨0, fun i => Nat.add_zero _⟩⟩
    rw [hlast]
    exact FailStop.zipping hfail hcomplete
  · rw [not_forall] at hall
    obtain ⟨i, hi⟩ := hall
    obtain ⟨hnil, stop, -, w', hfails⟩ := (h i).resolve_right hi
    have heach := each_of_error (E := stops) (p := fun i => (e i).range) (w := fun i => (e i).world)
      (fun i => (h i).elim (fun hstops => Or.inr hstops.2)
        fun ⟨r, w, _, hrange, _⟩ => Or.inl ⟨r, w, hrange⟩) ⟨i, stop, w', hfails⟩
    exact Or.inl ⟨zipLists_eq_nil hnil, Stops.bind heach _⟩

end Zip

section Indexed

variable {α β : Type} {stops : Stop → Prop} {complete : Prop} {e : RangeExpression α}
  {xs : List α}

/-- What the ends of the components of `map_indexed` say: there are no exceptions
    in front of the last index. -/
def indexedComplete (complete : Prop) (i : Fin 2) : Prop :=
  Fin.cases (motive := fun _ => Prop) complete (fun _ => True) i

/-- `hfull` is about a range as long as that of all indices. -/
theorem Yields.mapIndexed (h : Yields e xs stops complete) (hlen : xs.length < 2 ^ 64)
    (hfull : 2 ^ 64 - 1 ≤ xs.length → complete) (f : α → BitVec 64 → β) :
    Yields (e.mapIndexed f) (xs.mapIdx fun i a => f a (BitVec.ofNat 64 i)) stops complete := by
  have hindices : (indexList 64).length = 2 ^ 64 - 1 := by
    unfold indexList
    rw [List.length_map, List.length_range']
  have hparts (i : Fin 2) : Yields (e.withIndex i) (indexedLists xs (indexList 64) i) stops
      (indexedComplete complete i) := by
    cases i using Fin.cases with
    | zero => exact h
    | succ i => exact denotes_indices.yields stops trivial
  have hzip : Yields (.zip e.withIndex) (zipLists (indexedLists xs (indexList 64))) stops
      complete := by
    refine Yields.zip hparts fun i hdone hle => ?_
    cases i using Fin.cases with
    | zero => exact hdone
    | succ i =>
      have hfirst : (indexList 64).length ≤ xs.length := hle 0
      exact hfull (by omega)
  rw [← map_spread_zipLists f xs hlen]
  exact hzip.map (spread f)

end Indexed

end BambooShoot.Pbsu
