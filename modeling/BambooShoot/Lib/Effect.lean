import BambooShoot.Lib.Radix

/-!
# Programs over a byte stream

Programs are `EStateM ε σ`: a stream state that survives an error. Some kinds
of facts about them compose along `bind`:

* `Consumes p bs a`: on a source whose unread bytes start with `bs`, `p`
  returns `a` and leaves the source just behind `bs`; `Starves E p bs`: on a
  source that ends earlier it fails;
* `Emits p bs`: on a good sink, `p` does what appending `bs` does, also when
  the sink fails half-way;
* `Settles p`: once the fuel exceeds the number of unread bytes, it no longer
  changes what `p` does, `p` does not run out of it and does not move back;
  `Settles.iterate` is the rule for loops.
-/

namespace BambooShoot.Lib

variable {ε σ ω α β : Type}

/-! ## Running a bind -/

theorem bind_of_ok {x : EStateM ε σ α} {f : α → EStateM ε σ β} {s s' : σ} {a : α}
    (h : x s = .ok a s') : (x >>= f) s = f a s' := by
  simp [bind, EStateM.bind, h]

theorem bind_of_error {x : EStateM ε σ α} {f : α → EStateM ε σ β} {s s' : σ} {e : ε}
    (h : x s = .error e s') : (x >>= f) s = .error e s' := by
  simp [bind, EStateM.bind, h]

theorem bind_eq_ok {x : EStateM ε σ α} {f : α → EStateM ε σ β} {s t : σ} {b : β}
    (h : (x >>= f) s = .ok b t) : ∃ a s', x s = .ok a s' ∧ f a s' = .ok b t := by
  cases hx : x s with
  | ok a s' => exact ⟨a, s', rfl, by rwa [bind_of_ok hx] at h⟩
  | error e s' => rw [bind_of_error hx] at h; cases h

theorem modify_run (f : σ → σ) (s : σ) : (modify f : EStateM ε σ Unit) s = .ok () (f s) := rfl

theorem throw_run (e : ε) (s : σ) : (throw e : EStateM ε σ α) s = .error e s := rfl

theorem get_bind (f : σ → EStateM ε σ α) (s : σ) : (get >>= f) s = f s s := rfl

/-- Two binds that agree on the first step and behind it. -/
theorem bind_congr_at {x y : EStateM ε σ α} {f g : α → EStateM ε σ β} {s : σ} (h : x s = y s)
    (hf : ∀ a s', y s = .ok a s' → f a s' = g a s') : (x >>= f) s = (y >>= g) s := by
  cases hy : y s with
  | ok a s' => rw [bind_of_ok (h.trans hy), bind_of_ok hy, hf a s' hy]
  | error e s' => rw [bind_of_error (h.trans hy), bind_of_error hy]

/-- `p` on a part of the state. -/
def zoom {τ : Type} (get : τ → σ) (set : σ → τ → τ) (p : EStateM ε σ α) : EStateM ε τ α := fun t =>
  match p (get t) with
  | .ok a s => .ok a (set s t)
  | .error e s => .error e (set s t)

theorem zoom_of_ok {τ : Type} {get : τ → σ} {set : σ → τ → τ} {p : EStateM ε σ α} {t : τ} {s : σ}
    {a : α} (h : p (get t) = .ok a s) : zoom get set p t = .ok a (set s t) := by
  unfold zoom
  rw [h]

theorem zoom_of_error {τ : Type} {get : τ → σ} {set : σ → τ → τ} {p : EStateM ε σ α} {t : τ}
    {s : σ} {e : ε} (h : p (get t) = .error e s) : zoom get set p t = .error e (set s t) := by
  unfold zoom
  rw [h]

/-- The result of a program whose final state is not looked at. -/
def outcome : EStateM.Result ε σ α → Except ε α
  | .ok a _ => .ok a
  | .error e _ => .error e

/-- The state a program leaves behind, also when it fails. -/
def finalState : EStateM.Result ε σ α → σ
  | .ok _ s => s
  | .error _ s => s

theorem finalState_bind_pure (p : EStateM ε σ α) (f : α → β) (s : σ) :
    finalState ((p >>= fun a => pure (f a)) s) = finalState (p s) := by
  cases hp : p s with
  | ok a s' => rw [bind_of_ok hp]; rfl
  | error e s' => rw [bind_of_error hp]; rfl

theorem outcome_bind_pure (p : EStateM ε σ α) (f : α → β) (s : σ) :
    outcome ((p >>= fun a => pure (f a)) s) = (outcome (p s)).map f := by
  cases hp : p s with
  | ok a s' => rw [bind_of_ok hp]; rfl
  | error e s' => rw [bind_of_error hp]; rfl

/-! ## Programs over two streams -/

/-- Two results with the same value or the same error; after a value, the states
    are related by `S`. -/
inductive SameResult {τ : Type} (S : σ → τ → Prop) :
    EStateM.Result ε σ α → EStateM.Result ε τ α → Prop
  | ok {a : α} {s : σ} {t : τ} (h : S s t) : SameResult S (.ok a s) (.ok a t)
  | error {e : ε} {s : σ} {t : τ} : SameResult S (.error e s) (.error e t)

theorem SameResult.imp {τ : Type} {S T : σ → τ → Prop} {r : EStateM.Result ε σ α}
    {r' : EStateM.Result ε τ α} (h : SameResult S r r') (himp : ∀ s t, S s t → T s t) :
    SameResult T r r' := by
  cases h with
  | ok hs => exact .ok (himp _ _ hs)
  | error => exact .error

theorem SameResult.bind {τ : Type} {S T : σ → τ → Prop} {p : EStateM ε σ α} {q : EStateM ε τ α}
    {f : α → EStateM ε σ β} {g : α → EStateM ε τ β} {s : σ} {t : τ}
    (h : SameResult S (p s) (q t)) (hf : ∀ a s t, S s t → SameResult T (f a s) (g a t)) :
    SameResult T ((p >>= f) s) ((q >>= g) t) := by
  generalize hp : p s = r at h
  generalize hq : q t = r' at h
  cases h with
  | ok hs =>
    rw [bind_of_ok hp, bind_of_ok hq]
    exact hf _ _ _ hs
  | error =>
    rw [bind_of_error hp, bind_of_error hq]
    exact .error

/-! ## Sources -/

/-- A stream that is read: `Ready s bs` says that `s` is in working order and
    that `bs` are its unread bytes, `advance n s` is `s` behind `n` more bytes. -/
class Source (σ : Type) where
  Ready : σ → List Byte → Prop
  advance : ℕ → σ → σ
  advance_zero : ∀ s, advance 0 s = s
  advance_add : ∀ m n s, advance (m + n) s = advance n (advance m s)
  ready_advance : ∀ {s bs rest}, Ready s (bs ++ rest) → Ready (advance bs.length s) rest

open Source

theorem ready_tail [Source σ] {s : σ} {b : Byte} {bs : List Byte} (h : Ready s (b :: bs)) :
    Ready (advance 1 s) bs := by
  have hsplit : Ready s ([b] ++ bs) := h
  exact ready_advance hsplit

/-- `p` reads exactly `bs` and returns `a`, whatever follows. -/
def Consumes [Source σ] (p : EStateM ε σ α) (bs : List Byte) (a : α) : Prop :=
  ∀ s rest, Ready s (bs ++ rest) → p s = .ok a (advance bs.length s)

section Consumes

variable [Source σ]

theorem Consumes.pure (a : α) : Consumes (Pure.pure a : EStateM ε σ α) [] a := by
  intro s rest _
  simp [Pure.pure, EStateM.pure, advance_zero]

theorem Consumes.bind {p : EStateM ε σ α} {f : α → EStateM ε σ β} {bs cs : List Byte} {a : α}
    {b : β} (hp : Consumes p bs a) (hf : Consumes (f a) cs b) : Consumes (p >>= f) (bs ++ cs) b := by
  intro s rest h
  rw [List.append_assoc] at h
  rw [bind_of_ok (hp s _ h), hf _ rest (ready_advance h), List.length_append, advance_add]

/-- The last step of a program reads nothing more. -/
theorem Consumes.last {p : EStateM ε σ α} {f : α → EStateM ε σ β} {bs : List Byte} {a : α}
    {b : β} (hp : Consumes p bs a) (hf : Consumes (f a) [] b) : Consumes (p >>= f) bs b := by
  have := hp.bind hf
  rwa [List.append_nil] at this

theorem Consumes.bind_pure {p : EStateM ε σ α} {f : α → EStateM ε σ β} {bs : List Byte} {a : α}
    {b : β} (hp : Consumes p bs a) (hf : f a = Pure.pure b) : Consumes (p >>= f) bs b :=
  hp.last (hf ▸ Consumes.pure b)

/-- The first step of a program reads nothing. -/
theorem Consumes.skip {p : EStateM ε σ α} {f : α → EStateM ε σ β} {bs : List Byte} {a : α}
    {b : β} (hp : Consumes p [] a) (hf : Consumes (f a) bs b) : Consumes (p >>= f) bs b :=
  hp.bind hf

theorem Consumes.run {p : EStateM ε σ α} {bs rest : List Byte} {a : α} (hp : Consumes p bs a)
    {s : σ} (h : Ready s (bs ++ rest)) : p s = .ok a (advance bs.length s) :=
  hp s rest h

/-- On a source that ends inside of `bs`, `p` fails; `E` says with which error. -/
def Starves (E : σ → ε → Prop) (p : EStateM ε σ α) (bs : List Byte) : Prop :=
  ∀ s part, Ready s part → part <+: bs → part ≠ bs → ∃ e s', p s = .error e s' ∧ E s e

theorem Starves.nil {E : σ → ε → Prop} (p : EStateM ε σ α) : Starves E p [] := by
  intro s part _ hpre hne
  exact absurd (List.prefix_nil.mp hpre) hne

/-- Two steps, of which the first one reads `bs` if it is all there. -/
theorem Starves.bind {E : σ → ε → Prop} {p : EStateM ε σ α} {f : α → EStateM ε σ β}
    {bs cs : List Byte} {a : α} (hE : ∀ n s e, E (advance n s) e → E s e)
    (hconsumes : Consumes p bs a) (hp : Starves E p bs) (hf : Starves E (f a) cs) :
    Starves E (p >>= f) (bs ++ cs) := by
  intro s part hready hpre hne
  by_cases hbs : bs <+: part
  · -- the source ends behind the first step
    obtain ⟨rest, rfl⟩ := hbs
    obtain ⟨e, s', he, hEe⟩ := hf (advance bs.length s) rest (ready_advance hready)
      ((List.prefix_append_right_inj bs).mp hpre) (fun h => hne (by rw [h]))
    refine ⟨e, s', ?_, hE _ _ _ hEe⟩
    rw [bind_of_ok (hconsumes s rest hready), he]
  · have hpart : part <+: bs :=
      (List.prefix_or_prefix_of_prefix hpre (List.prefix_append bs cs)).resolve_right hbs
    obtain ⟨e, s', he, hEe⟩ := hp s part hready hpart (fun h => hbs (by rw [h]))
    exact ⟨e, s', bind_of_error he, hEe⟩

end Consumes

/-! ## Sinks -/

/-- A stream that is written: `emit bs` appends `bs` to a `Good` sink, or fails
    after a part of it. -/
class Sink (ε : outParam Type) (ω : Type) where
  Good : ω → Prop
  emit : List Byte → EStateM ε ω Unit
  emit_nil : ∀ {s}, Good s → emit [] s = .ok () s
  emit_append : ∀ {s bs cs}, Good s → emit (bs ++ cs) s = (emit bs >>= fun _ => emit cs) s
  emit_good : ∀ {s s' bs}, Good s → emit bs s = .ok () s' → Good s'

open Sink

/-- `p` writes exactly `bs`. -/
def Emits [Sink ε ω] (p : EStateM ε ω Unit) (bs : List Byte) : Prop :=
  ∀ s, Good s → p s = emit bs s

section Emits

variable [Sink ε ω]

theorem Emits.pure : Emits (Pure.pure () : EStateM ε ω Unit) [] := by
  intro s h
  rw [emit_nil h]
  rfl

theorem Emits.seq {p : EStateM ε ω Unit} {q : Unit → EStateM ε ω Unit} {bs cs : List Byte}
    (hp : Emits p bs) (hq : Emits (q ()) cs) : Emits (p >>= q) (bs ++ cs) := by
  intro s h
  rw [emit_append h]
  have hps := hp s h
  cases he : emit bs s with
  | ok u s' => rw [bind_of_ok (hps.trans he), bind_of_ok he, hq s' (emit_good h he)]
  | error e s' => rw [bind_of_error (hps.trans he), bind_of_error he]

/-- Writing a list element by element. -/
theorem Emits.forM {p : α → EStateM ε ω Unit} {bytes : α → List Byte}
    (h : ∀ a, Emits (p a) (bytes a)) (as : List α) : Emits (as.forM p) (as.flatMap bytes) := by
  induction as with
  | nil => exact Emits.pure
  | cons a as ih =>
    rw [List.flatMap_cons]
    exact (h a).seq ih

end Emits

/-! ## Programs with fuel -/

/-- `left s` bytes of the stream are unread; `exhausted` is the error of a
    program that runs out of fuel. -/
class Measured (ε : outParam Type) (σ : Type) where
  left : σ → ℕ
  exhausted : ε

open Measured

/-- The outcome `r` of a program started in `s` neither ran out of fuel nor
    moved the stream back. -/
def Forward [Measured ε σ] (s : σ) : EStateM.Result ε σ α → Prop
  | .ok _ s' => left s' ≤ left s
  | .error e _ => e ≠ exhausted σ

/-- Any fuel above the number of unread bytes is as good as any other. -/
def Settles [Measured ε σ] (p : ℕ → EStateM ε σ α) : Prop :=
  ∀ s fuel, left s < fuel → Forward s (p fuel s) ∧ ∀ fuel', left s < fuel' → p fuel' s = p fuel s

section Settles

variable [Measured ε σ]

theorem Settles.left_le {p : ℕ → EStateM ε σ α} (h : Settles p) {s s' : σ} {fuel : ℕ} {a : α}
    (hfuel : left s < fuel) (hp : p fuel s = .ok a s') : left s' ≤ left s := by
  have hfwd := (h s fuel hfuel).1
  rw [hp] at hfwd
  exact hfwd

theorem Settles.of_forward {p : EStateM ε σ α} (h : ∀ s, Forward s (p s)) :
    Settles fun _ => p :=
  fun s _ _ => ⟨h s, fun _ _ => rfl⟩

theorem Settles.pure (a : α) : Settles fun _ => (Pure.pure a : EStateM ε σ α) :=
  Settles.of_forward fun _ => le_refl _

theorem Settles.bind {p : ℕ → EStateM ε σ α} {f : ℕ → α → EStateM ε σ β} (hp : Settles p)
    (hf : ∀ a, Settles fun fuel => f fuel a) : Settles fun fuel => p fuel >>= f fuel := by
  intro s fuel hs
  beta_reduce
  obtain ⟨hfwd, hirr⟩ := hp s fuel hs
  cases hps : p fuel s with
  | ok a s' =>
    rw [hps] at hfwd
    have hle : left s' ≤ left s := hfwd
    obtain ⟨hfwd', hirr'⟩ := hf a s' fuel (by omega)
    beta_reduce at hfwd' hirr'
    refine ⟨?_, fun fuel' hs' => ?_⟩
    · rw [bind_of_ok hps]
      cases hfs : f fuel a s' with
      | ok b s'' =>
        rw [hfs] at hfwd'
        exact le_trans hfwd' hle
      | error e s'' =>
        rw [hfs] at hfwd'
        exact hfwd'
    · rw [bind_of_ok hps, bind_of_ok ((hirr fuel' hs').trans hps)]
      exact hirr' fuel' (by omega)
  | error e s' =>
    rw [hps] at hfwd
    refine ⟨?_, fun fuel' hs' => ?_⟩
    · rw [bind_of_error hps]
      exact hfwd
    · rw [bind_of_error hps, bind_of_error ((hirr fuel' hs').trans hps)]

/-- A loop whose rounds settle, and move on whenever they ask for another one,
    settles: `L k fuel` has `k` rounds left, each with `fuel` of its own. -/
theorem Settles.iterate {ρ : Type} {body : ℕ → ρ → EStateM ε σ (α ⊕ ρ)}
    {L : ℕ → ℕ → ρ → EStateM ε σ α}
    (unfold : ∀ k fuel r, L (k + 1) fuel r = body fuel r >>= Sum.elim Pure.pure (L k fuel))
    (settles : ∀ r, Settles fun fuel => body fuel r)
    (progress : ∀ {r r' s s' fuel}, left s < fuel → body fuel r s = .ok (.inr r') s' →
      left s' < left s)
    (r : ρ) (s : σ) {k fuel k' fuel' : ℕ} (hk : left s < k) (hfuel : left s < fuel)
    (hk' : left s < k') (hfuel' : left s < fuel') :
    Forward s (L k fuel r s) ∧ L k' fuel' r s = L k fuel r s := by
  induction hn : left s using Nat.strongRecOn generalizing r s k k' with
  | ind n ih =>
    obtain ⟨k, rfl⟩ : ∃ j, k = j + 1 := ⟨k - 1, by omega⟩
    obtain ⟨k', rfl⟩ : ∃ j, k' = j + 1 := ⟨k' - 1, by omega⟩
    obtain ⟨hfwd, hirr⟩ := settles r s fuel hfuel
    have hirr' := hirr fuel' hfuel'
    beta_reduce at hfwd hirr'
    rw [unfold, unfold]
    cases hbody : body fuel r s with
    | error e s' =>
      rw [hbody] at hfwd
      rw [bind_of_error hbody, bind_of_error (hirr'.trans hbody)]
      exact ⟨hfwd, rfl⟩
    | ok x s' =>
      rw [hbody] at hfwd
      have hle : left s' ≤ left s := hfwd
      rw [bind_of_ok hbody, bind_of_ok (hirr'.trans hbody)]
      cases x with
      | inl a => exact ⟨hfwd, rfl⟩
      | inr r' =>
        have hlt := progress hfuel hbody
        obtain ⟨hfwd', heq⟩ := @ih (left s') (by omega) r' s' k k' (by omega) (by omega)
          (by omega) (by omega) rfl
        refine ⟨?_, heq⟩
        rw [Sum.elim_inr]
        cases hL : L k fuel r' s' with
        | ok b t =>
          rw [hL] at hfwd'
          exact le_trans (show left t ≤ left s' from hfwd') hle
        | error e t =>
          rw [hL] at hfwd'
          exact hfwd'

/-- The same with one fuel for the rounds and the loop. -/
theorem Settles.loop {ρ : Type} {body : ℕ → ρ → EStateM ε σ (α ⊕ ρ)}
    {L : ℕ → ℕ → ρ → EStateM ε σ α}
    (unfold : ∀ k fuel r, L (k + 1) fuel r = body fuel r >>= Sum.elim Pure.pure (L k fuel))
    (settles : ∀ r, Settles fun fuel => body fuel r)
    (progress : ∀ {r r' s s' fuel}, left s < fuel → body fuel r s = .ok (.inr r') s' →
      left s' < left s)
    (r : ρ) : Settles fun fuel => L fuel fuel r :=
  fun s _ hs =>
    ⟨(Settles.iterate unfold settles progress r s hs hs hs hs).1, fun _ hs' =>
      (Settles.iterate unfold settles progress r s hs hs hs' hs').2⟩

end Settles

end BambooShoot.Lib
