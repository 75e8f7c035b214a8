import Mathlib.Data.Int.Init
import Mathlib.Logic.Function.Basic
import Mathlib.Tactic.SplitIfs

/-!
# Random-access iterators

The interface of a random-access iterator, and the programs that may be written
against it. `none` stands for undefined behaviour.

* `Client`: programs that use iterators of one range, and do with the answers what
  they want;
* `vector`: the interface over a list, by positions;
* `Simulates`: one implementation behaves as another, where that is defined;
  `Simulates.run` is what it says about clients.
-/

namespace BambooShoot.Lib

/-- The operations. `advance` is `+=`, `retreat` is `-=`, and `distance a b` is `a - b`. -/
structure RandomAccess (α : Type) where
  It : Type
  eq : It → It → Bool
  lt : It → It → Bool
  deref : It → Option α
  increment : It → Option It
  decrement : It → Option It
  advance : It → ℤ → Option It
  retreat : It → ℤ → Option It
  distance : It → It → ℤ
  subscript : It → ℤ → Option α

/-- A program with iterators in variables that returns a `β`. -/
inductive Client (α β : Type)
  | done (b : β)
  | copy (i j : ℕ) (rest : Client α β)
  | increment (i : ℕ) (rest : Client α β)
  | decrement (i : ℕ) (rest : Client α β)
  | advance (i : ℕ) (n : ℤ) (rest : Client α β)
  | retreat (i : ℕ) (n : ℤ) (rest : Client α β)
  | deref (i : ℕ) (rest : α → Client α β)
  | subscript (i : ℕ) (n : ℤ) (rest : α → Client α β)
  | eq (i j : ℕ) (rest : Bool → Client α β)
  | lt (i j : ℕ) (rest : Bool → Client α β)
  | distance (i j : ℕ) (rest : ℤ → Client α β)

section Run

variable {α β : Type} (c : RandomAccess α)

/-- What a program returns, if all that it does is defined. -/
def Client.run : Client α β → (ℕ → c.It) → Option β
  | .done b, _ => some b
  | .copy i j rest, vars => rest.run (Function.update vars i (vars j))
  | .increment i rest, vars => do
    let it ← c.increment (vars i)
    rest.run (Function.update vars i it)
  | .decrement i rest, vars => do
    let it ← c.decrement (vars i)
    rest.run (Function.update vars i it)
  | .advance i n rest, vars => do
    let it ← c.advance (vars i) n
    rest.run (Function.update vars i it)
  | .retreat i n rest, vars => do
    let it ← c.retreat (vars i) n
    rest.run (Function.update vars i it)
  | .deref i rest, vars => do
    let a ← c.deref (vars i)
    (rest a).run vars
  | .subscript i n rest, vars => do
    let a ← c.subscript (vars i) n
    (rest a).run vars
  | .eq i j rest, vars => (rest (c.eq (vars i) (vars j))).run vars
  | .lt i j rest, vars => (rest (c.lt (vars i) (vars j))).run vars
  | .distance i j rest, vars => (rest (c.distance (vars i) (vars j))).run vars

/-- `first` is in one variable, and `last` in all others. -/
def startVars {It : Type} (first last : It) : ℕ → It
  | 0 => first
  | _ + 1 => last

end Run

/-! ## Lists -/

section Vector

variable {α : Type} (xs : List α)

/-- From `k` to another position of the list, its end included. -/
def moveTo (k : ℤ) : Option ℤ := if 0 ≤ k ∧ k ≤ xs.length then some k else none

/-- The element at `k`. -/
def elementAt (k : ℤ) : Option α := if 0 ≤ k then xs[k.toNat]? else none

/-- Iterators of an array. -/
@[reducible] def vector : RandomAccess α where
  It := ℤ
  eq k j := k == j
  lt k j := k < j
  deref k := elementAt xs k
  increment k := moveTo xs (k + 1)
  decrement k := moveTo xs (k - 1)
  advance k n := moveTo xs (k + n)
  retreat k n := moveTo xs (k - n)
  distance k j := k - j
  subscript k n := elementAt xs (k + n)

variable {xs}

theorem moveTo_natCast {k : ℕ} (h : k ≤ xs.length) : moveTo xs k = some (k : ℤ) :=
  if_pos ⟨by omega, by omega⟩

/-- Positions are the numbers up to the length. -/
theorem moveTo_eq_some {k z : ℤ} (h : moveTo xs k = some z) :
    ∃ m : ℕ, m ≤ xs.length ∧ k = m ∧ z = m := by
  unfold moveTo at h
  split_ifs at h with hk
  cases h
  exact ⟨k.toNat, by omega, by omega, by omega⟩

theorem elementAt_natCast (k : ℕ) : elementAt xs k = xs[k]? := by
  unfold elementAt
  rw [if_pos (by omega), Int.toNat_natCast]

theorem elementAt_eq_some {k : ℤ} {a : α} (h : elementAt xs k = some a) :
    ∃ m : ℕ, k = m ∧ xs[m]? = some a := by
  unfold elementAt at h
  split_ifs at h with hk
  exact ⟨k.toNat, by omega, h⟩

end Vector

/-! ## Simulation -/

section Simulation

variable {α β : Type} {c d : RandomAccess α} {R : c.It → d.It → Prop}

/-- If the one goes to another place, the other goes to a related place. -/
def Follows {σ τ : Type} (R : σ → τ → Prop) (o : Option σ) (o' : Option τ) : Prop :=
  ∀ b', o' = some b' → ∃ b, o = some b ∧ R b b'

/-- `c` does what `d` does, as long as that is defined. -/
structure Simulates (c d : RandomAccess α) (R : c.It → d.It → Prop) : Prop where
  eq : ∀ {a b a' b'}, R a a' → R b b' → c.eq a b = d.eq a' b'
  lt : ∀ {a b a' b'}, R a a' → R b b' → c.lt a b = d.lt a' b'
  deref : ∀ {a a' x}, R a a' → d.deref a' = some x → c.deref a = some x
  increment : ∀ {a a'}, R a a' → Follows R (c.increment a) (d.increment a')
  decrement : ∀ {a a'}, R a a' → Follows R (c.decrement a) (d.decrement a')
  advance : ∀ {a a'} n, R a a' → Follows R (c.advance a n) (d.advance a' n)
  retreat : ∀ {a a'} n, R a a' → Follows R (c.retreat a n) (d.retreat a' n)
  distance : ∀ {a b a' b'}, R a a' → R b b' → c.distance a b = d.distance a' b'
  subscript : ∀ {a a' x} n, R a a' → d.subscript a' n = some x → c.subscript a n = some x

theorem update_related {vars : ℕ → c.It} {vars' : ℕ → d.It} (h : ∀ i, R (vars i) (vars' i))
    {a : c.It} {a' : d.It} (ha : R a a') (i j : ℕ) :
    R (Function.update vars i a j) (Function.update vars' i a' j) := by
  by_cases hj : j = i
  · subst hj
    rw [Function.update_self, Function.update_self]
    exact ha
  · rw [Function.update_of_ne hj, Function.update_of_ne hj]
    exact h j

/-- A move, and what the client does behind it. -/
theorem Follows.bind {o : Option c.It} {o' : Option d.It} (h : Follows R o o') {b : β}
    {p : c.It → Option β} {p' : d.It → Option β}
    (hp : ∀ {a a'}, R a a' → p' a' = some b → p a = some b) (hrun : o'.bind p' = some b) :
    o.bind p = some b := by
  obtain ⟨a', ho', hp'⟩ := Option.bind_eq_some_iff.1 hrun
  obtain ⟨a, rfl, ha⟩ := h a' ho'
  exact hp ha hp'

/-- By induction on the client. -/
theorem Simulates.run (h : Simulates c d R) (client : Client α β) {vars : ℕ → c.It}
    {vars' : ℕ → d.It} (hvars : ∀ i, R (vars i) (vars' i)) {b : β}
    (hrun : client.run d vars' = some b) : client.run c vars = some b := by
  induction client generalizing vars vars' with
  | done => exact hrun
  | copy i j rest ih => exact ih (update_related hvars (hvars j) i) hrun
  | increment i rest ih =>
    exact (h.increment (hvars i)).bind (fun ha => ih (update_related hvars ha i)) hrun
  | decrement i rest ih =>
    exact (h.decrement (hvars i)).bind (fun ha => ih (update_related hvars ha i)) hrun
  | advance i n rest ih =>
    exact (h.advance n (hvars i)).bind (fun ha => ih (update_related hvars ha i)) hrun
  | retreat i n rest ih =>
    exact (h.retreat n (hvars i)).bind (fun ha => ih (update_related hvars ha i)) hrun
  | deref i rest ih =>
    obtain ⟨x, hx, hrest⟩ := Option.bind_eq_some_iff.1 hrun
    exact (congrArg (Option.bind · _) (h.deref (hvars i) hx)).trans (ih x hvars hrest)
  | subscript i n rest ih =>
    obtain ⟨x, hx, hrest⟩ := Option.bind_eq_some_iff.1 hrun
    exact (congrArg (Option.bind · _) (h.subscript n (hvars i) hx)).trans (ih x hvars hrest)
  | eq i j rest ih =>
    unfold Client.run at hrun ⊢
    rw [h.eq (hvars i) (hvars j)]
    exact ih _ hvars hrun
  | lt i j rest ih =>
    unfold Client.run at hrun ⊢
    rw [h.lt (hvars i) (hvars j)]
    exact ih _ hvars hrun
  | distance i j rest ih =>
    unfold Client.run at hrun ⊢
    rw [h.distance (hvars i) (hvars j)]
    exact ih _ hvars hrun

end Simulation

end BambooShoot.Lib
