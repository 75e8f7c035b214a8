import BambooShoot.Lib.Effect

/-!
# Programs on parts of a state

* `onFst`, `onSnd`: a program on one half of a pair of states;
* `each`: one program for every component of a tuple of states, in order;
* `allSome`: a value for every component of a tuple;
* `putAll`: the components of a tuple at places of their own.

`each_of_ok` puts the results of the components together, `each_of_error` their errors.
-/

namespace BambooShoot.Lib

variable {ε σ τ α : Type}

/-! ## Pairs -/

/-- `p` on the first state. -/
def onFst (p : EStateM ε σ α) : EStateM ε (σ × τ) α := zoom Prod.fst (fun s t => (s, t.2)) p

/-- `p` on the second state. -/
def onSnd (p : EStateM ε τ α) : EStateM ε (σ × τ) α := zoom Prod.snd (fun s t => (t.1, s)) p

theorem onFst_of_ok {p : EStateM ε σ α} {s s' : σ} {t : τ} {a : α} (h : p s = .ok a s') :
    onFst p (s, t) = .ok a (s', t) := zoom_of_ok h

theorem onFst_of_error {p : EStateM ε σ α} {s s' : σ} {t : τ} {e : ε} (h : p s = .error e s') :
    onFst p (s, t) = .error e (s', t) := zoom_of_error h

theorem onSnd_of_ok {p : EStateM ε τ α} {s : σ} {t t' : τ} {a : α} (h : p t = .ok a t') :
    onSnd p (s, t) = .ok a (s, t') := zoom_of_ok h

theorem onSnd_of_error {p : EStateM ε τ α} {s : σ} {t t' : τ} {e : ε} (h : p t = .error e t') :
    onSnd p (s, t) = .error e (s, t') := zoom_of_error h

/-! ## Tuples -/

/-- One program for every component, from the first to the last; the first
    error ends it. -/
def each : {n : ℕ} → {W β : Fin n → Type} → (∀ i, EStateM ε (W i) (β i)) →
    EStateM ε (∀ i, W i) (∀ i, β i)
  | 0, _, _, _ => pure fun i => i.elim0
  | _ + 1, _, _, p => fun w =>
    match p 0 (w 0) with
    | .error e w₀ => .error e (Fin.cons w₀ fun i => w i.succ)
    | .ok b w₀ =>
      match each (fun i => p i.succ) fun i => w i.succ with
      | .error e ws => .error e (Fin.cons w₀ ws)
      | .ok bs ws => .ok (Fin.cons b bs) (Fin.cons w₀ ws)

theorem each_of_ok {n : ℕ} {W β : Fin n → Type} {p : ∀ i, EStateM ε (W i) (β i)} {w w' : ∀ i, W i}
    {b : ∀ i, β i} (h : ∀ i, p i (w i) = .ok (b i) (w' i)) : each p w = .ok b w' := by
  induction n with
  | zero =>
    have hb : b = fun i => i.elim0 := funext fun i => i.elim0
    have hw : w' = w := funext fun i => i.elim0
    rw [hb, hw]
    rfl
  | succ n ih =>
    have hrest := ih fun i => h i.succ
    unfold each
    simp only [h 0, hrest]
    congr
    · funext i
      exact Fin.cases rfl (fun _ => rfl) i
    · funext i
      exact Fin.cases rfl (fun _ => rfl) i

theorem each_eq_ok {n : ℕ} {W β : Fin n → Type} {p : ∀ i, EStateM ε (W i) (β i)} {w w' : ∀ i, W i}
    {b : ∀ i, β i} (h : each p w = .ok b w') (i : Fin n) : p i (w i) = .ok (b i) (w' i) := by
  induction n with
  | zero => exact i.elim0
  | succ n ih =>
    unfold each at h
    cases hp : p 0 (w 0) with
    | error e w₀ =>
      simp only [hp] at h
      cases h
    | ok b₀ w₀ =>
      simp only [hp] at h
      cases heach : each (fun i => p i.succ) fun i => w i.succ with
      | error e ws =>
        simp only [heach] at h
        cases h
      | ok bs ws =>
        simp only [heach] at h
        cases h
        exact Fin.cases hp (fun i => ih heach i) i

/-- Programs that leave their components as they are. -/
theorem finalState_each {n : ℕ} {W β : Fin n → Type} {p : ∀ i, EStateM ε (W i) (β i)}
    (h : ∀ i w, finalState (p i w) = w) (w : ∀ i, W i) : finalState (each p w) = w := by
  induction n with
  | zero => rfl
  | succ n ih =>
    have hfirst := h 0 (w 0)
    have hrest := ih (fun i => h i.succ) fun i => w i.succ
    unfold each
    cases hp : p 0 (w 0) with
    | error e w₀ =>
      rw [hp] at hfirst
      obtain rfl : w₀ = w 0 := hfirst
      exact Fin.cons_self_tail w
    | ok b w₀ =>
      rw [hp] at hfirst
      obtain rfl : w₀ = w 0 := hfirst
      cases heach : each (fun i => p i.succ) fun i => w i.succ with
      | error e ws =>
        rw [heach] at hrest
        have hws : ws = Fin.tail w := hrest
        simp only [hws]
        exact Fin.cons_self_tail w
      | ok bs ws =>
        rw [heach] at hrest
        have hws : ws = Fin.tail w := hrest
        simp only [hws]
        exact Fin.cons_self_tail w

/-- Where no component has another error than those of `E`, and one has, the whole
    has an error of `E`. -/
theorem each_of_error {E : ε → Prop} {n : ℕ} {W β : Fin n → Type}
    {p : ∀ i, EStateM ε (W i) (β i)} {w : ∀ i, W i}
    (h : ∀ i, (∃ b w', p i (w i) = .ok b w') ∨ ∃ e, E e ∧ ∃ w', p i (w i) = .error e w')
    (hfails : ∃ i e w', p i (w i) = .error e w') : ∃ e, E e ∧ ∃ w', each p w = .error e w' := by
  induction n with
  | zero =>
    obtain ⟨i, -⟩ := hfails
    exact i.elim0
  | succ n ih =>
    unfold each
    rcases h 0 with ⟨b, w₀, hfirst⟩ | ⟨e, he, w₀, hfirst⟩
    · -- the error is in one of the others
      have hrest : ∃ (i : Fin n) (e : ε) (w' : W i.succ), p i.succ (w i.succ) = .error e w' := by
        obtain ⟨i, e, w', hi⟩ := hfails
        cases i using Fin.cases with
        | zero =>
          rw [hfirst] at hi
          cases hi
        | succ i => exact ⟨i, e, w', hi⟩
      obtain ⟨e, he, ws, heach⟩ := ih (fun i => h i.succ) hrest
      simp only [hfirst, heach]
      exact ⟨e, he, _, rfl⟩
    · simp only [hfirst]
      exact ⟨e, he, _, rfl⟩

/-- The tuple of the values, if there is one in every component. -/
def allSome {n : ℕ} {β : Fin n → Type} (o : ∀ i, Option (β i)) : Option (∀ i, β i) :=
  if h : ∀ i, (o i).isSome then some fun i => (o i).get (h i) else none

theorem allSome_of_some {n : ℕ} {β : Fin n → Type} {o : ∀ i, Option (β i)} {b : ∀ i, β i}
    (h : ∀ i, o i = some (b i)) : allSome o = some b := by
  have hsome (i : Fin n) : (o i).isSome := by
    rw [h i]
    rfl
  have hget : (fun i => (o i).get (hsome i)) = b := by
    funext i
    exact Option.get_of_eq_some _ (h i)
  unfold allSome
  rw [dif_pos hsome, hget]

theorem allSome_eq_some {n : ℕ} {β : Fin n → Type} {o : ∀ i, Option (β i)} {b : ∀ i, β i}
    (h : allSome o = some b) (i : Fin n) : o i = some (b i) := by
  unfold allSome at h
  split_ifs at h with hsome
  cases h
  exact (Option.some_get (hsome i)).symm

/-! ## Places -/

section Places

variable {n : ℕ} {φ β : Type} [DecidableEq φ] {places : Fin n → φ}

/-- `b i` at the place `places i`, and what was there elsewhere. -/
def putAll (places : Fin n → φ) (b : Fin n → β) (f : φ → β) (x : φ) : β :=
  match (List.finRange n).find? fun i => places i = x with
  | some i => b i
  | none => f x

theorem putAll_places (hplaces : Function.Injective places) (b : Fin n → β) (f : φ → β)
    (i : Fin n) : putAll places b f (places i) = b i := by
  unfold putAll
  cases hfind : (List.finRange n).find? fun j => places j = places i with
  | some j =>
    have hj : places j = places i := by simpa using List.find?_some hfind
    obtain rfl : j = i := hplaces hj
    rfl
  | none => exact absurd (decide_eq_true rfl) (List.find?_eq_none.1 hfind i (List.mem_finRange i))

theorem putAll_of_ne {x : φ} (hx : ∀ i, places i ≠ x) (b : Fin n → β) (f : φ → β) :
    putAll places b f x = f x := by
  unfold putAll
  rw [List.find?_eq_none.2 fun i _ => by simpa using hx i]

end Places

end BambooShoot.Lib
