import BambooShoot.Pbsu.Pipeline

/-!
# `reduce`

The two overloads of `reduce` (`range-util.hh`, lines 368–387) over any type of
iterators. Without an initial value the first element is bound to a reference,
`auto&& init = *first`, which is only used once `first` has moved on; then
`std::move(init)` takes the value out of whatever it denotes. Where `*first` is a
tuple of references, as `zip` returns, the variable of `std::accumulate` is one too:
what is assigned to it goes to the elements that it refers to.

Results:
* `leftFolds_iff`: `reduce(f, range)` is a left fold exactly if the reference
  survives the increment and what is moved out or assigned does not disturb the rest;
  `survives_container`, `survives_zipping`, `not_survives_integral`,
  `not_survives_mapping` and `parsing_survives_last` say which do;
* `unmodified_iff`: it leaves a container as it was exactly if moving the first
  element out does.
-/

namespace BambooShoot.Pbsu

open BambooShoot.Lib BambooShoot.Pbss BambooShoot.Pbsf

section Model

variable {α β E : Type} (c : IteratorType α)

/-- The use of something that may be gone. -/
def denoted {σ : Type} (read : σ → Option α) : Run σ α := fun w =>
  match read w with
  | some a => .ok a w
  | none => .error .undefinedBehaviour w

/-- A variable of a type `T`, at its place: what it denotes, what an assignment leaves,
    and what the caller of `reduce` finds in it when that has returned it. -/
structure Variable (σ α : Type) where
  Place : Type
  read : Place → σ → Option α
  write : α → Place → σ → Place × σ
  result : Place → σ → Option α

/-- A value. -/
@[reducible] def Variable.own (σ α : Type) : Variable σ α where
  Place := α
  read a _ := some a
  write a _ w := (a, w)
  result a _ := some a

/-- A tuple of references, made from `r`. Those into the iterator dangle in the end. -/
@[reducible] def Reference.variable {σ ι : Type} (r : Reference σ ι α)
    (assign : α → ι → σ → ι × σ) : Variable σ α where
  Place := ι
  read := r.read
  write := assign
  result it w := if r.inside then none else r.read it w

/-- `init = a`. -/
def Variable.set {σ : Type} (V : Variable σ α) (a : α) (place : V.Place) : Run σ V.Place := fun w =>
  .ok (V.write a place w).1 (V.write a place w).2

/-- `std::accumulate(first, last, init, f)`; `f` gets and returns values, and may read and
    write `E`. -/
def accumulate (V : Variable c.World β) (f : β → α → Run E β) (last : c.It) :
    ℕ → c.It → V.Place → Run (c.World × E) β
  | 0, _, _ => throw .outOfFuel
  | fuel + 1, first, place =>
    if c.eq first last then onFst (denoted (V.result place))
    else do
      let (first, element) ← onFst (c.deref first)
      let init ← onFst (denoted (V.read place))
      let a ← onFst (element.get first)
      let b ← onSnd (f init a)
      let place ← onFst (V.set b place)
      let first ← onFst (c.increment first)
      accumulate V f last fuel first place

/-- `reduce(f, init, r)` (lines 371–376). -/
def reduceFrom (f : β → α → Run E β) (fuel : ℕ) (init : β) (r : c.It × c.It) :
    Run (c.World × E) β :=
  accumulate c (.own c.World β) f r.2 fuel r.1 init

/-- A value moved out of a reference, and what is left of the iterator. -/
def Reference.take {σ ι : Type} (r : Reference σ ι α) (it : ι) : Run σ (α × ι) := fun w =>
  match r.read it w with
  | some a => .ok (a, (r.moveOut it w).1) (r.moveOut it w).2
  | none => .error .undefinedBehaviour w

/-- Which of the parameters of `std::accumulate` is made first: C++ does not say. -/
inductive ArgumentOrder where
  | iteratorFirst
  | valueFirst

/-- The iterator that `std::accumulate` gets. -/
def ArgumentOrder.pick {ι : Type} (order : ArgumentOrder) (before after : ι) : ι :=
  match order with
  | iteratorFirst => before
  | valueFirst => after

/-- The text of the exception (line 382). -/
def emptyRange : String := "reduce without initial value must be called on non-empty range"

/-- `reduce(f, r)` (lines 378–387). -/
def reduce (order : ArgumentOrder) (f : α → α → Run E α) (fuel : ℕ) (r : c.It × c.It) :
    Run (c.World × E) α :=
  if c.eq r.1 r.2 then raise (.outOfRange emptyRange)
  else do
    let (first, init) ← onFst (c.deref r.1)
    let first ← onFst (c.increment first)
    -- `init` was bound before the increment and is read after it
    if init.isTuple then
      match init.assign with
      | some assign => accumulate c (init.variable assign) f r.2 fuel first first
      -- an assignment to such a tuple does not compile
      | none => undefined
    else do
      let (value, moved) ← onFst (init.take first)
      accumulate c (.own c.World α) f r.2 fuel (order.pick first moved) value

end Model

/-! ## `accumulate` -/

section Accumulate

variable {α β E : Type} {c : IteratorType α} {f : β → α → Run E β}

/-- A result without the world of the iterators. -/
def besides {σ : Type} : EStateM.Result Stop (σ × E) β → EStateM.Result Stop E β
  | .ok b s => .ok b s.2
  | .error stop s => .error stop s.2

/-- What a loop visits, and how it goes on. -/
theorem visit_succ {fuel : ℕ} {first last : c.It} {w w' : c.World} {xs : List α}
    (h : visit c (fuel + 1) first last w = .ok xs w') :
    (c.eq first last = true ∧ xs = [] ∧ w' = w) ∨
      (c.eq first last = false ∧ ∃ x rest it₁ element w₁ it₂ w₂, xs = x :: rest ∧
        c.deref first w = .ok (it₁, element) w₁ ∧ element.get it₁ w₁ = .ok x w₁ ∧
        c.increment it₁ w₁ = .ok it₂ w₂ ∧ visit c fuel it₂ last w₂ = .ok rest w') := by
  unfold visit at h
  cases heq : c.eq first last with
  | true =>
    rw [if_pos heq] at h
    cases h
    exact Or.inl ⟨rfl, rfl, rfl⟩
  | false =>
    rw [if_neg (by rw [heq]; exact Bool.false_ne_true)] at h
    obtain ⟨⟨x, it₂⟩, w₂, hturn, h⟩ := bind_eq_ok h
    obtain ⟨rest, w₃, hvisit, h⟩ := bind_eq_ok h
    cases h
    obtain ⟨⟨it₁, element⟩, w₁, hderef, hturn⟩ := bind_eq_ok hturn
    obtain ⟨a, w₁', hget, hturn⟩ := bind_eq_ok hturn
    obtain ⟨it₂', w₂', hinc, hturn⟩ := bind_eq_ok hturn
    cases hturn
    have hsame : w₁' = w₁ := by
      unfold Reference.get at hget
      split at hget
      · cases hget
        rfl
      · cases hget
    subst hsame
    exact Or.inr ⟨rfl, _, _, _, _, _, _, _, rfl, hderef, hget, hinc, hvisit⟩

theorem length_lt_of_visit {fuel : ℕ} {first last : c.It} {w w' : c.World} {xs : List α}
    (h : visit c fuel first last w = .ok xs w') : xs.length < fuel := by
  induction fuel generalizing first w xs with
  | zero => cases h
  | succ fuel ih =>
    rcases visit_succ h with ⟨-, rfl, -⟩ | ⟨-, x, rest, _, _, _, _, _, rfl, -, -, -, hvisit⟩
    · exact Nat.succ_pos fuel
    · exact Nat.succ_lt_succ (ih hvisit)

theorem denoted_of_some {σ : Type} {read : σ → Option α} {w : σ} {a : α} (h : read w = some a) :
    denoted read w = .ok a w := by
  unfold denoted
  rw [h]

theorem denoted_of_none {σ : Type} {read : σ → Option α} {w : σ} (h : read w = none) :
    denoted read w = .error .undefinedBehaviour w := by
  unfold denoted
  rw [h]

theorem Reference.get_of_none {σ ι : Type} {r : Reference σ ι α} {it : ι} {w : σ}
    (h : r.read it w = none) : r.get it w = .error .undefinedBehaviour w := by
  unfold Reference.get
  rw [h]

variable {V : Variable c.World β} {last first : c.It} {fuel : ℕ} {place : V.Place} {w : c.World}

theorem accumulate_last (h : c.eq first last = true) (e : E) :
    accumulate c V f last (fuel + 1) first place (w, e) =
      onFst (denoted (V.result place)) (w, e) := by
  unfold accumulate
  rw [if_pos h]

theorem accumulate_next (h : c.eq first last = false) (e : E) :
    accumulate c V f last (fuel + 1) first place (w, e) =
      (onFst (c.deref first) >>= fun p => onFst (denoted (V.read place)) >>= fun init =>
        onFst (p.2.get p.1) >>= fun a => onSnd (f init a) >>= fun b =>
          onFst (V.set b place) >>= fun place => onFst (c.increment p.1) >>= fun first =>
            accumulate c V f last fuel first place) (w, e) := by
  conv_lhs => unfold accumulate
  rw [if_neg (by rw [h]; exact Bool.false_ne_true)]

/-- One turn, from the call of the function on. -/
theorem accumulate_turn (h : c.eq first last = false) {it₁ : c.It}
    {element : Reference c.World c.It α} {w₁ : c.World}
    (hderef : c.deref first w = .ok (it₁, element) w₁) {init : β} {a : α}
    (hinit : V.read place w₁ = some init) (hread : element.read it₁ w₁ = some a) (e : E) :
    accumulate c V f last (fuel + 1) first place (w, e) =
      (onSnd (f init a) >>= fun b => onFst (V.set b place) >>= fun place =>
        onFst (c.increment it₁) >>= fun first =>
          accumulate c V f last fuel first place) (w₁, e) := by
  rw [accumulate_next h, bind_of_ok (onFst_of_ok hderef),
    bind_of_ok (onFst_of_ok (denoted_of_some hinit)),
    bind_of_ok (onFst_of_ok (Reference.get_of_some hread))]

/-- A turn calls the function, or ends before and leaves what is besides alone. -/
theorem accumulate_cases (V : Variable c.World β) (last : c.It) (fuel : ℕ) (first : c.It)
    (place : V.Place) (w : c.World) (h : c.eq first last = false) :
    (∃ it₁ element w₁ init a, c.deref first w = .ok (it₁, element) w₁ ∧
      V.read place w₁ = some init ∧ element.read it₁ w₁ = some a) ∨
    ∃ stop, ∀ {E : Type} (f : β → α → Run E β) (e : E),
      accumulate c V f last (fuel + 1) first place (w, e) =
        .error stop (finalState (c.deref first w), e) := by
  cases hderef : c.deref first w with
  | error stop w₁ => exact Or.inr ⟨stop, fun f e =>
      (accumulate_next h e).trans (bind_of_error (onFst_of_error hderef))⟩
  | ok p w₁ =>
    cases hinit : V.read place w₁ with
    | none =>
      refine Or.inr ⟨.undefinedBehaviour, fun f e => ?_⟩
      rw [accumulate_next h, bind_of_ok (onFst_of_ok hderef)]
      exact bind_of_error (onFst_of_error (denoted_of_none hinit))
    | some init =>
      cases hread : p.2.read p.1 w₁ with
      | none =>
        refine Or.inr ⟨.undefinedBehaviour, fun f e => ?_⟩
        rw [accumulate_next h, bind_of_ok (onFst_of_ok hderef),
          bind_of_ok (onFst_of_ok (denoted_of_some hinit))]
        exact bind_of_error (onFst_of_error (Reference.get_of_none hread))
      | some a => exact Or.inl ⟨p.1, p.2, w₁, init, a, rfl, hinit, hread⟩

/-- What every call on an iterator and every assignment keeps true of the world, the
    loop does. -/
theorem accumulate_world {P : c.World → Prop} (V : Variable c.World β) (last : c.It)
    (hderef : ∀ it w, P w → P (finalState (c.deref it w)))
    (hinc : ∀ it w, P w → P (finalState (c.increment it w)))
    (hwrite : ∀ b place w, P w → P (V.write b place w).2) (fuel : ℕ) (first : c.It)
    (place : V.Place) {w : c.World} (h : P w) (e : E) :
    P (finalState (accumulate c V f last fuel first place (w, e))).1 := by
  induction fuel generalizing first place w e with
  | zero => exact h
  | succ fuel ih =>
    cases heq : c.eq first last with
    | true =>
      rw [accumulate_last heq]
      cases hread : V.result place w with
      | none =>
        rw [onFst_of_error (denoted_of_none hread)]
        exact h
      | some b =>
        rw [onFst_of_ok (denoted_of_some hread)]
        exact h
    | false =>
      have hw₁ := hderef first w h
      rcases accumulate_cases V last fuel first place w heq with
        ⟨it₁, element, w₁, init, a, hd, hinit, hread⟩ | ⟨stop, hstop⟩
      · rw [hd] at hw₁
        rw [accumulate_turn heq hd hinit hread]
        cases hf : f init a e with
        | error stop e' =>
          rw [bind_of_error (onSnd_of_error hf)]
          exact hw₁
        | ok b e' =>
          have hset : V.set b place w₁ = .ok (V.write b place w₁).1 (V.write b place w₁).2 := rfl
          have hw₂ := hwrite b place w₁ hw₁
          have hw₃ := hinc it₁ _ hw₂
          rw [bind_of_ok (onSnd_of_ok hf), bind_of_ok (onFst_of_ok hset)]
          cases hi : c.increment it₁ (V.write b place w₁).2 with
          | error stop w₂ =>
            rw [bind_of_error (onFst_of_error hi)]
            rwa [hi] at hw₃
          | ok it₂ w₂ =>
            rw [hi] at hw₃
            rw [bind_of_ok (onFst_of_ok hi)]
            exact ih it₂ _ hw₃ e'
      · rw [hstop]
        exact hw₁

/-! ### What is assigned and what is visited -/

/-- The loop comes to the elements of the list, and the variable denotes `b` now and
    later on what was assigned last, whatever is assigned to it. -/
def Apart (V : Variable c.World β) (last : c.It) : List α → β → c.It → V.Place → c.World → Prop
  | [], b, it, place, w => c.eq it last = true ∧ V.result place w = some b
  | x :: xs, b, it, place, w => c.eq it last = false ∧ ∃ it₁ element w₁,
    c.deref it w = .ok (it₁, element) w₁ ∧ V.read place w₁ = some b ∧
      element.read it₁ w₁ = some x ∧ ∀ b', ∃ it₂ w₂,
        c.increment it₁ (V.write b' place w₁).2 = .ok it₂ w₂ ∧
          Apart V last xs b' it₂ (V.write b' place w₁).1 w₂

/-- By induction on the list: the loop folds it. -/
theorem accumulate_of_apart {xs : List α} {b : β} (h : Apart V last xs b first place w)
    (hfuel : xs.length < fuel) (e : E) :
    besides (accumulate c V f last fuel first place (w, e)) = (xs.foldlM f b) e := by
  obtain ⟨fuel, rfl⟩ : ∃ k, fuel = k + 1 := ⟨fuel - 1, by omega⟩
  induction xs generalizing fuel first place w b e with
  | nil =>
    rw [accumulate_last h.1, onFst_of_ok (denoted_of_some h.2)]
    rfl
  | cons x xs ih =>
    obtain ⟨heq, it₁, element, w₁, hderef, hinit, hread, hnext⟩ := h
    rw [List.length_cons] at hfuel
    obtain ⟨fuel, rfl⟩ : ∃ k, fuel = k + 1 := ⟨fuel - 1, by omega⟩
    rw [accumulate_turn heq hderef hinit hread, List.foldlM_cons]
    cases hf : f b x e with
    | error stop e' =>
      rw [bind_of_error (onSnd_of_error hf), bind_of_error hf]
      rfl
    | ok b' e' =>
      have hset : V.set b' place w₁ = .ok (V.write b' place w₁).1 (V.write b' place w₁).2 := rfl
      obtain ⟨it₂, w₂, hinc, hrest⟩ := hnext b'
      rw [bind_of_ok (onSnd_of_ok hf), bind_of_ok hf, bind_of_ok (onFst_of_ok hset),
        bind_of_ok (onFst_of_ok hinc)]
      exact ih hrest e' fuel (by omega)

/-- The answers of a function to come, and the arguments that it had none for. -/
structure Script (α β : Type) where
  answers : List β
  asked : Option (β × α)

/-- A function that answers as it is told, and fails with its arguments when it has
    not been told any more. -/
def scripted (b : β) (a : α) : Run (Script α β) β := fun s =>
  match s.answers with
  | [] => .error .outOfFuel ⟨[], some (b, a)⟩
  | answer :: answers => .ok answer ⟨answers, s.asked⟩

/-- A loop that returns without having asked is at its end. -/
theorem last_of_unasked {fuel : ℕ} {b : β}
    (h : besides (accumulate c V scripted last fuel first place (w, ⟨[], none⟩)) =
      .ok b ⟨[], none⟩) : c.eq first last = true ∧ V.result place w = some b := by
  cases fuel with
  | zero => cases h
  | succ fuel =>
    cases heq : c.eq first last with
    | true =>
      rw [accumulate_last heq] at h
      cases hread : V.result place w with
      | none =>
        rw [onFst_of_error (denoted_of_none hread)] at h
        cases h
      | some b' =>
        rw [onFst_of_ok (denoted_of_some hread)] at h
        exact ⟨rfl, congrArg some (EStateM.Result.ok.inj h).1⟩
    | false =>
      rcases accumulate_cases V last fuel first place w heq with
        ⟨it₁, element, w₁, init, a, hderef, hinit, hread⟩ | ⟨stop, hstop⟩
      · rw [accumulate_turn heq hderef hinit hread,
          bind_of_error (onSnd_of_error (show scripted init a ⟨[], none⟩ = _ from rfl))] at h
        cases h
      · rw [hstop] at h
        cases h

/-- A loop that asks has an element, and a value of its variable, to ask with. -/
theorem turn_of_asked {fuel : ℕ} {b : β} {x : α}
    (h : besides (accumulate c V scripted last fuel first place (w, ⟨[], none⟩)) =
      .error .outOfFuel ⟨[], some (b, x)⟩) :
    ∃ rounds, fuel = rounds + 1 ∧ c.eq first last = false ∧ ∃ it₁ element w₁,
      c.deref first w = .ok (it₁, element) w₁ ∧ V.read place w₁ = some b ∧
        element.read it₁ w₁ = some x := by
  cases fuel with
  | zero => cases h
  | succ fuel =>
    cases heq : c.eq first last with
    | true =>
      rw [accumulate_last heq] at h
      cases hread : V.result place w with
      | none =>
        rw [onFst_of_error (denoted_of_none hread)] at h
        cases h
      | some b' =>
        rw [onFst_of_ok (denoted_of_some hread)] at h
        cases h
    | false =>
      rcases accumulate_cases V last fuel first place w heq with
        ⟨it₁, element, w₁, init, a, hderef, hinit, hread⟩ | ⟨stop, hstop⟩
      · rw [accumulate_turn heq hderef hinit hread,
          bind_of_error (onSnd_of_error (show scripted init a ⟨[], none⟩ = _ from rfl))] at h
        cases h
        exact ⟨fuel, rfl, rfl, it₁, element, w₁, hderef, hinit, hread⟩
      · rw [hstop] at h
        cases h

/-- By induction on the list: the scripts show what the loop visits and what the
    variable denotes. -/
theorem apart_of_scripted (fuel : ℕ) {xs : List α} {b : β}
    (h : ∀ s, besides (accumulate c V scripted last fuel first place (w, s)) =
      (xs.foldlM scripted b) s) : Apart V last xs b first place w := by
  induction xs generalizing fuel first place w b with
  | nil => exact last_of_unasked (h ⟨[], none⟩)
  | cons x xs ih =>
    obtain ⟨fuel, rfl, heq, it₁, element, w₁, hderef, hinit, hread⟩ :=
      turn_of_asked (h ⟨[], none⟩)
    refine ⟨heq, it₁, element, w₁, hderef, hinit, hread, fun b' => ?_⟩
    -- what is left of a script after the answer `b'`
    have hrest (s : Script α β) :
        besides ((onFst (c.increment it₁) >>= fun first =>
          accumulate c V scripted last fuel first (V.write b' place w₁).1)
            ((V.write b' place w₁).2, s)) = (xs.foldlM scripted b') s := by
      have hturn := h ⟨b' :: s.answers, s.asked⟩
      have hanswer : scripted b x ⟨b' :: s.answers, s.asked⟩ = .ok b' s := rfl
      have hset : V.set b' place w₁ = .ok (V.write b' place w₁).1 (V.write b' place w₁).2 := rfl
      rw [accumulate_turn heq hderef hinit hread, List.foldlM_cons,
        bind_of_ok (onSnd_of_ok hanswer), bind_of_ok hanswer,
        bind_of_ok (onFst_of_ok hset)] at hturn
      exact hturn
    cases hinc : c.increment it₁ (V.write b' place w₁).2 with
    | ok it₂ w₂ =>
      refine ⟨it₂, w₂, rfl, ih fuel fun s => ?_⟩
      have hs := hrest s
      rwa [bind_of_ok (onFst_of_ok hinc)] at hs
    | error stop w₂ =>
      have hs := hrest ⟨[], none⟩
      rw [bind_of_error (onFst_of_error hinc)] at hs
      cases xs with
      | nil => cases hs
      | cons x' xs => cases hs

end Accumulate

/-! ## `reduce` without an initial value -/

section Reduce

variable {α : Type} (c : IteratorType α) (order : ArgumentOrder) (fuel : ℕ)

/-- `reduce(f, range)` is the left fold of `xs` from its first element on, for
    every function, and throws where there is none. -/
structure LeftFolds (w : c.World) (first last : c.It) (xs : List α) : Prop where
  empty : xs = [] → ∀ (E : Type) (f : α → α → Run E α) (e : E),
    reduce c order f fuel (first, last) (w, e) =
      .error (.throws (.outOfRange emptyRange)) (w, e)
  nonempty : ∀ x rest, xs = x :: rest → ∀ (E : Type) (f : α → α → Run E α) (e : E),
    besides (reduce c order f fuel (first, last) (w, e)) = (rest.foldlM f x) e

variable {c}

/-- The reference `init` denotes `x` in front of the `rest`, and the rest is the same
    when `x` has been moved out; if `init` is a tuple of references, whatever is
    assigned to what it refers to. -/
def Reference.Survives (init : Reference c.World c.It α) (last : c.It) (x : α) (rest : List α)
    (it : c.It) (w : c.World) : Prop :=
  if init.isTuple then
    ∃ assign, init.assign = some assign ∧ Apart (init.variable assign) last rest x it it w
  else
    init.read it w = some x ∧
      Apart (.own c.World α) last rest x (order.pick it (init.moveOut it w).1) x
        (init.moveOut it w).2

variable (c)

/-- The reference to the first element survives the increment of the iterator. -/
def FirstSurvives (w : c.World) (first last : c.It) (x : α) (rest : List α) : Prop :=
  ∃ it₁ init w₁ it₂ w₂, c.deref first w = .ok (it₁, init) w₁ ∧ c.increment it₁ w₁ = .ok it₂ w₂ ∧
    init.Survives order last x rest it₂ w₂

variable {c order fuel} {w w' : c.World} {first last : c.It} {x : α} {rest : List α}

/-- The call up to `std::accumulate`. -/
theorem reduce_of_steps {E : Type} (f : α → α → Run E α) (e : E)
    (heq : c.eq first last = false) {it₁ it₂ : c.It} {init : Reference c.World c.It α}
    {w₁ w₂ : c.World} (hderef : c.deref first w = .ok (it₁, init) w₁)
    (hinc : c.increment it₁ w₁ = .ok it₂ w₂) :
    reduce c order f fuel (first, last) (w, e) =
      (if init.isTuple then
        match init.assign with
        | some assign => accumulate c (init.variable assign) f last fuel it₂ it₂
        | none => undefined
      else onFst (init.take it₂) >>= fun p =>
        accumulate c (.own c.World α) f last fuel (order.pick it₂ p.2) p.1) (w₂, e) := by
  unfold reduce
  rw [if_neg (by rw [heq]; exact Bool.false_ne_true), bind_of_ok (onFst_of_ok hderef)]
  dsimp only
  rw [bind_of_ok (onFst_of_ok hinc)]

theorem reduce_of_read {E : Type} (f : α → α → Run E α) (e : E) (heq : c.eq first last = false)
    {it₁ it₂ : c.It} {init : Reference c.World c.It α} {w₁ w₂ : c.World}
    (hderef : c.deref first w = .ok (it₁, init) w₁) (hinc : c.increment it₁ w₁ = .ok it₂ w₂)
    (hvalue : init.isTuple = false) {a : α} (hread : init.read it₂ w₂ = some a) :
    reduce c order f fuel (first, last) (w, e) =
      accumulate c (.own c.World α) f last fuel (order.pick it₂ (init.moveOut it₂ w₂).1) a
        ((init.moveOut it₂ w₂).2, e) := by
  have htake : init.take it₂ w₂ = .ok (a, (init.moveOut it₂ w₂).1) (init.moveOut it₂ w₂).2 := by
    unfold Reference.take
    rw [hread]
  rw [reduce_of_steps f e heq hderef hinc,
    if_neg (by rw [hvalue]; exact Bool.false_ne_true), bind_of_ok (onFst_of_ok htake)]

theorem fold_of_survives (heq : c.eq first last = false) (hfuel : rest.length < fuel)
    (h : FirstSurvives c order w first last x rest) (E : Type) (f : α → α → Run E α) (e : E) :
    besides (reduce c order f fuel (first, last) (w, e)) = (rest.foldlM f x) e := by
  obtain ⟨it₁, init, w₁, it₂, w₂, hderef, hinc, hsurvives⟩ := h
  unfold Reference.Survives at hsurvives
  cases htuple : init.isTuple with
  | false =>
    rw [if_neg (by rw [htuple]; exact Bool.false_ne_true)] at hsurvives
    rw [reduce_of_read f e heq hderef hinc htuple hsurvives.1]
    exact accumulate_of_apart hsurvives.2 hfuel e
  | true =>
    rw [if_pos htuple] at hsurvives
    obtain ⟨assign, hassign, hapart⟩ := hsurvives
    rw [reduce_of_steps f e heq hderef hinc, if_pos htuple, hassign]
    exact accumulate_of_apart hapart hfuel e

/-- The scripts show what the reference denotes. -/
theorem survives_of_fold (heq : c.eq first last = false) {it₁ it₂ : c.It}
    {init : Reference c.World c.It α} {w₁ w₂ : c.World}
    (hderef : c.deref first w = .ok (it₁, init) w₁) (hinc : c.increment it₁ w₁ = .ok it₂ w₂)
    (h : ∀ s, besides (reduce c order scripted fuel (first, last) (w, s)) =
      (rest.foldlM scripted x) s) :
    FirstSurvives c order w first last x rest := by
  refine ⟨it₁, init, w₁, it₂, w₂, hderef, hinc, ?_⟩
  unfold Reference.Survives
  cases htuple : init.isTuple with
  | true =>
    rw [if_pos rfl]
    cases hassign : init.assign with
    | some assign =>
      refine ⟨assign, rfl, apart_of_scripted fuel fun s => ?_⟩
      have hs := h s
      rwa [reduce_of_steps scripted s heq hderef hinc, if_pos htuple, hassign] at hs
    | none =>
      have hs := h ⟨[], none⟩
      rw [reduce_of_steps scripted _ heq hderef hinc, if_pos htuple, hassign] at hs
      cases rest with
      | nil => cases hs
      | cons y rest => cases hs
  | false =>
    rw [if_neg Bool.false_ne_true]
    cases hread : init.read it₂ w₂ with
    | none =>
      have htake : init.take it₂ w₂ = .error .undefinedBehaviour w₂ := by
        unfold Reference.take
        rw [hread]
      have hs := h ⟨[], none⟩
      rw [reduce_of_steps scripted _ heq hderef hinc,
        if_neg (by rw [htuple]; exact Bool.false_ne_true),
        bind_of_error (onFst_of_error htake)] at hs
      cases rest with
      | nil => cases hs
      | cons y rest => cases hs
    | some y =>
      have happart : Apart (.own c.World α) last rest x
          (order.pick it₂ (init.moveOut it₂ w₂).1) y (init.moveOut it₂ w₂).2 := by
        refine apart_of_scripted fuel fun s => ?_
        have hs := h s
        rwa [reduce_of_read scripted s heq hderef hinc htuple hread] at hs
      have hy : y = x := by
        cases rest with
        | nil => exact Option.some.inj happart.2
        | cons z rest =>
          obtain ⟨-, it₃, element, w₃, -, hinit, -⟩ := happart
          exact Option.some.inj hinit
      subst hy
      exact ⟨rfl, happart⟩

variable (c order fuel)

/-- `reduce(f, range)` folds the elements of the range for every function exactly
    if the reference to the first of them survives the increment. -/
theorem leftFolds_iff {xs : List α} (h : visit c (fuel + 1) first last w = .ok xs w') :
    LeftFolds c order fuel w first last xs ↔
      ∀ x rest, xs = x :: rest → FirstSurvives c order w first last x rest := by
  have hlength := length_lt_of_visit h
  rcases visit_succ h with ⟨heq, rfl, -⟩ |
    ⟨heq, x, rest, it₁, element, w₁, it₂, w₂, rfl, hderef, -, hinc, -⟩
  · refine iff_of_true ⟨fun _ E f e => ?_, by rintro x rest ⟨⟩⟩ (by rintro x rest ⟨⟩)
    unfold reduce
    rw [if_pos heq]
    rfl
  · constructor
    · rintro hfolds _ _ ⟨⟩
      exact survives_of_fold heq hderef hinc fun s => hfolds.nonempty x rest rfl _ scripted s
    · intro hsurvives
      refine ⟨by rintro ⟨⟩, ?_⟩
      rintro _ _ ⟨⟩
      exact fold_of_survives heq (Nat.lt_of_succ_lt_succ hlength) (hsurvives x rest rfl)

end Reduce

/-! ## Which references survive -/

section Frames

variable {α β : Type} {c : IteratorType α} {last : c.It} {Inv : c.World → c.It → List α → Prop}

/-- What every call keeps true of the world. -/
theorem Lawful.frame (h : Lawful c last Inv) {P : c.World → Prop}
    (hderef : ∀ it w, P w → P (finalState (c.deref it w)))
    (hincrement : ∀ it w, P w → P (finalState (c.increment it w))) :
    Lawful c last fun w it xs => Inv w it xs ∧ P w where
  eq_last := h.eq_last
  eq_nil hinv := h.eq_nil hinv.1
  eq_cons hinv := h.eq_cons hinv.1
  deref {w it x xs} hinv := by
    obtain ⟨it', source, w', hok, hread, hinv'⟩ := h.deref hinv.1
    have hP := hderef it w hinv.2
    rw [hok] at hP
    exact ⟨it', source, w', hok, hread, hinv', hP⟩
  increment {w it x xs} hinv := by
    obtain ⟨it', w', hok, hinv'⟩ := h.increment hinv.1
    have hP := hincrement it w hinv.2
    rw [hok] at hP
    exact ⟨it', w', hok, hinv', hP⟩

/-- By induction on the list, with an invariant `J` of what the variable denotes, its
    place and the iterator. -/
theorem Lawful.apart {V : Variable c.World β} {J : β → V.Place → c.World → c.It → List α → Prop}
    (h : ∀ b place, Lawful c last (J b place))
    (hread : ∀ {b place w it xs}, J b place w it xs → V.read place w = some b)
    (hresult : ∀ {b place w it}, J b place w it [] → V.result place w = some b)
    (hwrite : ∀ {b place w it xs} b', J b place w it xs →
      J b' (V.write b' place w).1 (V.write b' place w).2 it xs)
    {xs : List α} {b : β} {place : V.Place} {w : c.World} {it : c.It} (hinv : J b place w it xs) :
    Apart V last xs b it place w := by
  induction xs generalizing b place w it with
  | nil => exact ⟨(h b place).eq_nil hinv, hresult hinv⟩
  | cons x xs ih =>
    obtain ⟨it₁, source, w₁, hderef, hsource, hinv₁⟩ := (h b place).deref hinv
    refine ⟨(h b place).eq_cons hinv, it₁, source, w₁, hderef, hread hinv₁, hsource, fun b' => ?_⟩
    obtain ⟨it₂, w₂, hincrement, hinv₂⟩ := (h b' _).increment (hwrite b' hinv₁)
    exact ⟨it₂, w₂, hincrement, ih hinv₂⟩

/-- A value is apart from everything. -/
theorem Lawful.apart_own (h : Lawful c last Inv) {xs : List α} {w : c.World} {it : c.It}
    (hinv : Inv w it xs) (b : β) : Apart (.own c.World β) last xs b it b w := by
  have hframe (b place : β) : Lawful c last fun w it xs => Inv w it xs ∧ place = b :=
    h.frame (fun _ _ hb => hb) fun _ _ hb => hb
  exact Lawful.apart (J := fun b place w it xs => Inv w it xs ∧ place = b) hframe
    (fun hb => congrArg some hb.2) (fun hb => congrArg some hb.2) (fun _ hb => ⟨hb.1, rfl⟩)
    ⟨hinv, rfl⟩

end Frames

section Kinds

variable {α : Type} (order : ArgumentOrder) {fuel : ℕ}

/-- One into a container does. -/
theorem survives_container (movedFrom : α → α) (x : α) (rest : List α) :
    FirstSurvives (container movedFrom) order (x :: rest) (0 : ℕ) (rest.length + 1 : ℕ) x rest := by
  have hlawful := lawful_container movedFrom (rest.length + 1)
  have hat : AtElement (rest.length + 1) (movedFrom x :: rest) 1 rest :=
    ⟨rfl, Nat.succ_le_succ (Nat.zero_le _), rfl⟩
  have hapart := hlawful.apart_own hat x
  refine ⟨_, _, _, _, _, container_deref movedFrom (Nat.succ_pos _),
    container_increment movedFrom (Nat.succ_pos _), rfl, ?_⟩
  cases order <;> exact hapart

section Zip

variable {n : ℕ} {α : Fin (n + 1) → Type} (movedFrom : ∀ i, α i → α i)

/-- The iterators of a container, behind its first element. -/
theorem lawful_behindFirst {α : Type} (movedFrom : α → α) (n : ℕ) :
    Lawful (container movedFrom) (n : ℕ) fun elements i xs =>
      AtElement n elements i xs ∧ 1 ≤ i where
  eq_last := (lawful_container movedFrom n).eq_last
  eq_nil h := (lawful_container movedFrom n).eq_nil h.1
  eq_cons h := (lawful_container movedFrom n).eq_cons h.1
  deref {elements i _ _} h :=
    ⟨i, _, elements, container_deref movedFrom (h.1.lt.trans_eq h.1.length.symm),
      h.1.getElem?, h⟩
  increment {elements i _ _} h :=
    ⟨_, elements, container_increment movedFrom (h.1.lt.trans_eq h.1.length.symm),
      h.1.next, Nat.succ_pos i⟩

/-- The tuple of references to the first elements of containers. -/
def firstReferences : Reference (∀ i, List (α i)) (Zipping fun i => container (movedFrom i))
    (∀ i, α i) :=
  tupleReference (c := fun i => container (movedFrom i)) fun i => elementReference (movedFrom i) 0

/-- What an assignment to it leaves. -/
def assignFirsts (a : ∀ i, α i) (z : Zipping fun i => container (movedFrom i))
    (w : ∀ i, List (α i)) : Zipping (fun i => container (movedFrom i)) × (∀ i, List (α i)) :=
  (z, fun i => (w i).set 0 (a i))

theorem firstReferences_assign :
    (firstReferences movedFrom).assign = some (assignFirsts movedFrom) := by
  have hall : (allSome fun i => (elementReference (movedFrom i) 0).assign) =
      some fun i a it elements => (it, List.set elements 0 a) := allSome_of_some fun _ => rfl
  exact congrArg (Option.map _) hall

/-- In front of `xs` and behind the first elements of the containers, which are `b`. -/
def BehindFirsts (last : Fin (n + 1) → ℕ) (b : ∀ i, α i) (w : ∀ i, List (α i))
    (z : Zipping fun i => container (movedFrom i)) (xs : List (∀ i, α i)) : Prop :=
  ZipAt (c := fun i => container (movedFrom i)) last
    (fun i elements k ys => AtElement (last i) elements k ys ∧ 1 ≤ k) w z xs ∧
    ∀ i, ∃ rest, w i = b i :: rest

variable {movedFrom}

theorem lawful_behindFirsts (last : Fin (n + 1) → ℕ) (b : ∀ i, α i) :
    Lawful (zipping fun i => container (movedFrom i)) ⟨last, last⟩
      (BehindFirsts movedFrom last b) := by
  have hzip := Lawful.zipping fun i => lawful_behindFirst (movedFrom i) (last i)
  refine hzip.frame (fun z w h => ?_) (fun z w h => ?_)
  · have hsame : finalState (Zipping.deref z w) = w :=
      (finalState_bind_pure _ _ w).trans
        (finalState_each (fun i => container_deref_world (movedFrom i) (z.begins i)) w)
    exact hsame.symm ▸ h
  · have hsame : finalState (Zipping.increment z w) = w :=
      (finalState_bind_pure _ _ w).trans
        (finalState_each (fun i => container_increment_world (movedFrom i) (z.begins i)) w)
    exact hsame.symm ▸ h

/-- What is assigned to the first elements changes none of those behind them. -/
theorem BehindFirsts.assign {last : Fin (n + 1) → ℕ} {b : ∀ i, α i} {w : ∀ i, List (α i)}
    {z : Zipping fun i => container (movedFrom i)} {xs : List (∀ i, α i)}
    (h : BehindFirsts movedFrom last b w z xs) (b' : ∀ i, α i) :
    BehindFirsts movedFrom last b' (fun i => (w i).set 0 (b' i)) z xs := by
  obtain ⟨⟨hends, hat⟩, hfirst⟩ := h
  refine ⟨⟨hends, hat.imp_right ?_⟩, fun i => ?_⟩
  · rintro ⟨y, ys, hinv, hxs⟩
    refine ⟨y, ys, fun i => ⟨⟨?_, (hinv i).1.le, ?_⟩, (hinv i).2⟩, hxs⟩
    · exact List.length_set.trans (hinv i).1.length
    · exact (List.drop_set_of_lt (hinv i).2).trans (hinv i).1.drop
  · obtain ⟨rest, hrest⟩ := hfirst i
    refine ⟨rest, ?_⟩
    show (w i).set 0 (b' i) = _
    rw [hrest]
    rfl

theorem BehindFirsts.read {last : Fin (n + 1) → ℕ} {b : ∀ i, α i} {w : ∀ i, List (α i)}
    {z : Zipping fun i => container (movedFrom i)} {xs : List (∀ i, α i)}
    (h : BehindFirsts movedFrom last b w z xs) (place : Zipping fun i => container (movedFrom i)) :
    (firstReferences movedFrom).read place w = some b := by
  refine allSome_of_some fun i => ?_
  obtain ⟨rest, hrest⟩ := h.2 i
  show (w i)[0]? = _
  rw [hrest]
  rfl

variable (movedFrom)

/-- A tuple of references into different containers does; the result is in their first
    elements. -/
theorem survives_zipping (y : ∀ i, α i) (ys : ∀ i, List (α i)) :
    FirstSurvives (zipping fun i => container (movedFrom i)) order (fun i => y i :: ys i)
      ⟨fun _ => (0 : ℕ), fun i => ((ys i).length + 1 : ℕ)⟩
      ⟨fun i => ((ys i).length + 1 : ℕ), fun i => ((ys i).length + 1 : ℕ)⟩ y (zipLists ys) := by
  have hlawful (i : Fin (n + 1)) := lawful_behindFirst (movedFrom i) ((ys i).length + 1)
  have hderef : each (fun i => (container (movedFrom i)).deref (0 : ℕ)) (fun i => y i :: ys i) =
      .ok (fun i => ((0 : ℕ), elementReference (movedFrom i) 0)) fun i => y i :: ys i :=
    each_of_ok fun i => container_deref (movedFrom i) (Nat.succ_pos _)
  have hinc : each (fun i => (container (movedFrom i)).increment (0 : ℕ)) (fun i => y i :: ys i) =
      .ok (fun _ => (1 : ℕ)) fun i => y i :: ys i :=
    each_of_ok fun i => container_increment (movedFrom i) (Nat.succ_pos _)
  refine ⟨_, firstReferences movedFrom, _, _, _, bind_of_ok hderef, bind_of_ok hinc, ?_⟩
  refine ⟨assignFirsts movedFrom, firstReferences_assign movedFrom, ?_⟩
  have hinside : (firstReferences movedFrom).inside = false := by
    refine decide_eq_false ?_
    rintro ⟨i, hi⟩
    cases hi
  have hstart : BehindFirsts movedFrom (fun i => (ys i).length + 1) y (fun i => y i :: ys i)
      (Zipping.checkEnd ⟨fun _ => (1 : ℕ), fun i => ((ys i).length + 1 : ℕ)⟩) (zipLists ys) :=
    ⟨checkEnd_at hlawful fun i => ⟨⟨rfl, Nat.succ_le_succ (Nat.zero_le _), rfl⟩, le_refl 1⟩,
      fun i => ⟨ys i, rfl⟩⟩
  refine Lawful.apart (J := fun b _ => BehindFirsts movedFrom (fun i => (ys i).length + 1) b)
    (fun b _ => lawful_behindFirsts _ b) (fun h => h.read _) (fun h => ?_)
    (fun b' h => h.assign b') hstart
  exact (if_neg (by rw [hinside]; exact Bool.false_ne_true)).trans (h.read _)

/-- A tuple of references to elements of one container. An assignment to it assigns to
    one after the other. -/
def overlappingReference {α : Type} (n : ℕ) (i : Fin (n + 1) → ℕ) :
    Reference (List α) (Zipping fun _ : Fin (n + 1) => container (id : α → α))
      (Fin (n + 1) → α) where
  read _ elements := allSome fun k => elements[i k]?
  moveOut z elements := (z, elements)
  assign := some fun a z elements =>
    (z, (List.finRange (n + 1)).foldl (fun elements k => elements.set (i k) (a k)) elements)
  inside := false
  isTuple := true

/-- `zip` of ranges that are parts of one container. -/
@[reducible] def overlapping (α : Type) (n : ℕ) : IteratorType (Fin (n + 1) → α) where
  World := List α
  It := Zipping fun _ : Fin (n + 1) => container (id : α → α)
  eq a b := decide (∀ i, (a.begins i : ℕ) = b.begins i)
  deref z := fun elements =>
    if ∀ i, (z.begins i : ℕ) < elements.length then
      .ok (z, overlappingReference n z.begins) elements
    else .error .undefinedBehaviour elements
  increment z := fun elements =>
    if ∀ i, (z.begins i : ℕ) < elements.length then
      .ok (Zipping.checkEnd { z with begins := fun i => Nat.succ (z.begins i) }) elements
    else .error .undefinedBehaviour elements

/-- The sums in `zip(v, v.begin() + 2)`, where `v` is 1, 2, 3, 4, 5, are not 6 and 12: what
    is assigned goes to the first and the third element. -/
example : (outcome (reduce (overlapping ℕ 1) order
    (fun a b => (pure fun i => a i + b i : Run Unit (Fin 2 → ℕ))) 4
    (⟨fun i => 2 * (i : ℕ), fun _ => (5 : ℕ)⟩, ⟨fun _ => (5 : ℕ), fun _ => (5 : ℕ)⟩)
    ([1, 2, 3, 4, 5], ()))).map List.ofFn =
      .ok [10, 12] := by
  cases order <;> rfl

end Zip

/-- One into an `integral_iterator` moves on with it. -/
theorem not_survives_integral (bits : ℕ) (v last : BitVec (bits + 1))
    (rest : List (BitVec (bits + 1))) :
    ¬ FirstSurvives (integral (bits + 1)) order () v last v rest := by
  rintro ⟨it₁, init, w₁, it₂, w₂, hderef, hinc, hsurvives⟩
  cases hderef
  cases hinc
  have hone : v + 1 = v := Option.some.inj hsurvives.1
  exact absurd hone (by simp)

/-- One into the cache of a `mapping_iterator` is gone: the increment empties it. -/
theorem not_survives_mapping {β : Type} (skipUnused : Bool) (fn : FunctionObject α β)
    (c : IteratorType α) (w : c.World × fn.World) (first last : Mapping fn c) (x : β)
    (rest : List β) :
    ¬ FirstSurvives (mapping skipUnused fn c) order w first last x rest := by
  rintro ⟨it₁, init, w₁, it₂, w₂, hderef, hinc, hsurvives⟩
  have hinit : init = Mapping.reference := Mapping.deref_reference hderef
  have hempty : it₂.value = none := Mapping.increment_value skipUnused hinc
  subst hinit
  have hread : it₂.value = some x := hsurvives.1
  rw [hempty] at hread
  cases hread

/-- A call on the stream leaves the rest of the iterator alone. -/
theorem onStream_eq_ok {σ β γ : Type} {p : Run σ γ} {it it' : ParseIterator σ β} {a : γ}
    (h : ParseIterator.onStream p it = .ok a it') : ∃ stream, it' = { it with stream := stream } := by
  cases hp : p it.stream with
  | ok b stream =>
    rw [onStream_of_ok hp] at h
    cases h
    exact ⟨stream, rfl⟩
  | error stop stream =>
    rw [onStream_of_error hp] at h
    cases h

section Parsing

variable {σ β : Type} [InputStream σ] [ForwardInputStream σ] {build : Build} {s : Ty β}

/-- At the end of the stream the iterator keeps its value. -/
theorem ParsePosition.value_of_end {it it' : ParsePosition β} {stream stream' : σ}
    (h : ParsePosition.increment build s it stream = .ok it' stream')
    (hend : it'.streamPtr = false) : it'.value = it.value := by
  unfold ParsePosition.increment at h
  cases hinc : ParseIterator.increment build s ⟨stream, it.streamPtr, it.value⟩ with
  | error stop p =>
    rw [hinc] at h
    cases h
  | ok u p =>
    rw [hinc] at h
    cases h
    unfold ParseIterator.increment at hinc
    rw [get_bind] at hinc
    have hisEnd : (⟨stream, it.streamPtr, it.value⟩ : ParseIterator σ β).isEnd = !it.streamPtr := rfl
    rw [hisEnd] at hinc
    cases hptr : it.streamPtr with
    | false =>
      rw [hptr, if_pos (show (!false) = true from rfl)] at hinc
      cases hinc
    | true =>
      rw [hptr, if_neg (show ¬ (!true) = true by decide)] at hinc
      obtain ⟨eof, q, hpeek, hinc⟩ := bind_eq_ok hinc
      obtain ⟨stream₁, rfl⟩ := onStream_eq_ok hpeek
      cases eof with
      | true =>
        cases hinc
        rfl
      | false =>
        -- a value was parsed: the iterator still points to the stream
        rw [if_neg Bool.false_ne_true] at hinc
        obtain ⟨value, q, hparse, hinc⟩ := bind_eq_ok hinc
        obtain ⟨stream₂, rfl⟩ := onStream_eq_ok hparse
        cases hinc
        exact absurd (show true = false from hend) (by decide)

/-- One into a `parse_iterator` survives behind the last value. -/
theorem parsing_survives_last (movedFrom : β → β) {stream stream' : σ} {first : ParsePosition β}
    {x init : β}
    (h : visit (parsing (σ := σ) build s movedFrom) (fuel + 1) first
      (⟨false, init⟩ : ParsePosition β) stream = .ok [x] stream') :
    FirstSurvives (parsing (σ := σ) build s movedFrom) order stream first
      (⟨false, init⟩ : ParsePosition β) x [] := by
  rcases visit_succ h with ⟨-, h, -⟩ |
    ⟨-, x', rest, it₁, element, w₁, it₂, w₂, hxs, hderef, hget, hinc, hvisit⟩
  · cases h
  · cases hxs
    cases hderef
    have hvalue : first.value = x := by
      cases hget
      rfl
    obtain ⟨fuel, rfl⟩ : ∃ k, fuel = k + 1 := by
      cases fuel with
      | zero => cases hvisit
      | succ k => exact ⟨k, rfl⟩
    have hend : it₂.streamPtr = false := by
      rcases visit_succ hvisit with ⟨heq, -, -⟩ | ⟨-, _, _, _, _, _, _, _, hnil, -⟩
      · exact beq_iff_eq.1 heq
      · cases hnil
    refine ⟨_, _, _, _, _, rfl, hinc, ?_, ?_, rfl⟩
    · show some it₂.value = some x
      rw [ParsePosition.value_of_end hinc hend, hvalue]
    · cases order with
      | iteratorFirst => exact beq_iff_eq.2 hend
      | valueFirst => exact beq_iff_eq.2 hend

/-- Elsewhere the next value has to be the same. -/
theorem eq_of_parsing_survives {movedFrom : β → β} {stream : σ} {first last : ParsePosition β}
    {x y : β} {rest : List β}
    (h : FirstSurvives (parsing (σ := σ) build s movedFrom) .iteratorFirst stream first last x
      (y :: rest)) : y = x := by
  obtain ⟨it₁, init, w₁, it₂, w₂, hderef, hinc, hsurvives⟩ := h
  cases hderef
  obtain ⟨hread, -, it₃, element, w₃, hderef₂, -, hnext, -⟩ := hsurvives
  cases hderef₂
  exact (Option.some.inj hnext).symm.trans (Option.some.inj hread)

end Parsing

end Kinds

/-- Three elements of a vector. -/
theorem leftFolds_vector_iff :
    LeftFolds (container (id : ℕ → ℕ)) .valueFirst 3 [1, 2, 3] (0 : ℕ) (3 : ℕ) [1, 2, 3] ↔
      ∀ x rest, [1, 2, 3] = x :: rest →
        FirstSurvives (container (id : ℕ → ℕ)) .valueFirst [1, 2, 3] (0 : ℕ) (3 : ℕ) x rest :=
  leftFolds_iff (container id) .valueFirst 3
    (show visit (container (id : ℕ → ℕ)) 4 (0 : ℕ) (3 : ℕ) [1, 2, 3] =
      .ok [1, 2, 3] [1, 2, 3] from rfl)

theorem sum_integral (order : ArgumentOrder) :
    besides (reduce (integral 64) order (fun a b => (pure (a + b) : Run Unit (BitVec 64))) 2
      ((5 : BitVec 64), (7 : BitVec 64)) ((), ())) = .ok 12 () := by
  cases order with
  | iteratorFirst => rfl
  | valueFirst => rfl

/-- The integers 5 and 6 add up to 12: the sum starts from the second. -/
theorem integral_not_leftFolds :
    ¬ LeftFolds (integral 64) .iteratorFirst 2 () (5 : BitVec 64) (7 : BitVec 64)
        [(5 : BitVec 64), (6 : BitVec 64)] ∧
      ¬ LeftFolds (integral 64) .valueFirst 2 () (5 : BitVec 64) (7 : BitVec 64)
        [(5 : BitVec 64), (6 : BitVec 64)] := by
  have hwrong (order : ArgumentOrder) : ¬ LeftFolds (integral 64) order 2 () (5 : BitVec 64)
      (7 : BitVec 64) [(5 : BitVec 64), (6 : BitVec 64)] := by
    intro h
    have hsum := h.nonempty 5 [6] rfl Unit (fun a b => pure (a + b)) ()
    have heleven := (sum_integral order).symm.trans hsum
    exact absurd (EStateM.Result.ok.inj heleven).1 (by decide)
  exact ⟨hwrong _, hwrong _⟩

/-! ## What it does to its argument -/

section Container

variable {α : Type} (movedFrom : α → α)

/-- Both overloads leave the elements of a container as they were, whatever the
    function does elsewhere and however the call ends. -/
structure Unmodified (elements : List α) : Prop where
  reduce : ∀ (order : ArgumentOrder) (fuel : ℕ) (E : Type) (f : α → α → Run E α) (e : E),
    (finalState (reduce (container movedFrom) order f fuel ((0 : ℕ), (elements.length : ℕ))
      (elements, e))).1 = elements
  reduceFrom : ∀ (fuel : ℕ) (E β : Type) (f : β → α → Run E β) (init : β) (e : E),
    (finalState (reduceFrom (container movedFrom) f fuel init ((0 : ℕ), (elements.length : ℕ))
      (elements, e))).1 = elements

/-- `std::accumulate` only reads the elements. -/
theorem accumulate_container {β E : Type} (f : β → α → Run E β) (last fuel first : ℕ) (init : β)
    (elements : List α) (e : E) :
    (finalState (accumulate (container movedFrom) (.own (List α) β) f last fuel first init
      (elements, e))).1 = elements := by
  refine accumulate_world (c := container movedFrom) (P := fun w => w = elements)
    (.own (List α) β) last (fun i w h => ?_) (fun i w h => ?_) (fun _ _ _ h => h) fuel first init
    rfl e
  · rw [container_deref_world movedFrom i w]
    exact h
  · rw [container_increment_world movedFrom i w]
    exact h

/-- `reduce(f, container)` moves the first element out. -/
theorem reduce_container {E : Type} (order : ArgumentOrder) (f : α → α → Run E α) (fuel : ℕ)
    (x : α) (rest : List α) (e : E) :
    (finalState (reduce (container movedFrom) order f fuel ((0 : ℕ), (rest.length + 1 : ℕ))
      (x :: rest, e))).1 = movedFrom x :: rest := by
  have heq : (container movedFrom).eq (0 : ℕ) (rest.length + 1 : ℕ) = false := rfl
  have hlt : 0 < (x :: rest).length := Nat.succ_pos _
  rw [reduce_of_read f e heq (container_deref movedFrom hlt) (container_increment movedFrom hlt) rfl
    rfl]
  exact accumulate_container movedFrom f _ fuel _ x _ e

/-- `reduce` leaves a container as it was exactly if it is empty or a move leaves
    the first element as it was. -/
theorem unmodified_iff (elements : List α) :
    Unmodified movedFrom elements ↔ ∀ x ∈ elements.head?, movedFrom x = x := by
  constructor
  · intro h x hx
    cases elements with
    | nil => cases hx
    | cons y rest =>
      cases hx
      have hsame := h.reduce .iteratorFirst 0 Unit (fun a _ => pure a) ()
      exact (List.cons.inj ((reduce_container movedFrom _ _ _ x rest _).symm.trans hsame)).1
  · intro h
    refine ⟨fun order fuel E f e => ?_, fun fuel E β f init e => ?_⟩
    · cases elements with
      | nil => rfl
      | cons x rest =>
        have hfinal := reduce_container movedFrom order f fuel x rest e
        rw [h x rfl] at hfinal
        exact hfinal
    · exact accumulate_container movedFrom f _ fuel _ init elements e

end Container

/-- Three lists: the first of them is empty afterwards. -/
theorem lists_modified : ¬ Unmodified (fun _ : List ℕ => []) [[1, 2], [3], [4, 5]] := by
  intro h
  have hsame := h.reduce .iteratorFirst 4 Unit (fun a b => pure (a ++ b)) ()
  have hempty := reduce_container (fun _ : List ℕ => []) .iteratorFirst
    (fun a b : List ℕ => (pure (a ++ b) : Run Unit (List ℕ))) 4 [1, 2] [[3], [4, 5]] ()
  have heq : ([[], [3], [4, 5]] : List (List ℕ)) = [[1, 2], [3], [4, 5]] := hempty.symm.trans hsame
  exact absurd heq (by decide)

end BambooShoot.Pbsu
