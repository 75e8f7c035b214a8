import BambooShoot.Pbsu.Iterator

/-!
# The calls of a mapped function

The default `mapping_iterator` (`iter-util.hh`, lines 238–315) is to call its
function once for every element, in order (`utils.md`, "map"): the result stays in
the iterator until it is incremented. A post-increment copies the iterator before
the increment evaluates the function.

Result: `calls_once_iff`, the traversals on which each element is passed to the
function once.
-/

namespace BambooShoot.Pbsu

open BambooShoot.Lib BambooShoot.Pbss

/-! ## Sources -/

/-- The iterators of a source `xs`: `Front` is the one that moves on, at a
    position, `Kept` a copy it left there. Copies stay as they are, and can still
    be dereferenced. -/
structure Steady {α : Type} (c : IteratorType α) (xs : List α)
    (Front Kept : c.World → ℕ → c.It → Prop) : Prop where
  keep : ∀ {w i it}, Front w i it → Kept w i it
  deref_front : ∀ {w i it x}, Front w i it → xs[i]? = some x → ∃ it' source w',
    c.deref it w = .ok (it', source) w' ∧ source.read it' w' = some x ∧ Front w' i it' ∧
      ∀ j jt, Kept w j jt → Kept w' j jt
  deref_kept : ∀ {w i it x}, Kept w i it → xs[i]? = some x → ∃ it' source w',
    c.deref it w = .ok (it', source) w' ∧ source.read it' w' = some x ∧ Kept w' i it' ∧
      (∀ j jt, Front w j jt → Front w' j jt) ∧ ∀ j jt, Kept w j jt → Kept w' j jt
  increment : ∀ {w i it}, Front w i it → i < xs.length → ∃ it' w',
    c.increment it w = .ok it' w' ∧ Front w' (i + 1) it' ∧ ∀ j jt, Kept w j jt → Kept w' j jt

/-- The iterators of a container that is not changed. -/
theorem steady_container {α : Type} (movedFrom : α → α) (xs : List α) :
    Steady (container movedFrom) xs (fun elements i it => elements = xs ∧ it = i)
      fun elements i it => elements = xs ∧ it = i where
  keep h := h
  deref_front {w i it x} h hx := by
    obtain ⟨rfl, rfl⟩ := h
    obtain ⟨hlt, -⟩ := List.getElem?_eq_some_iff.1 hx
    exact ⟨_, _, _, container_deref movedFrom hlt, hx, ⟨rfl, rfl⟩, fun _ _ hk => hk⟩
  deref_kept {w i it x} h hx := by
    obtain ⟨rfl, rfl⟩ := h
    obtain ⟨hlt, -⟩ := List.getElem?_eq_some_iff.1 hx
    exact ⟨_, _, _, container_deref movedFrom hlt, hx, ⟨rfl, rfl⟩, fun _ _ hf => hf,
      fun _ _ hk => hk⟩
  increment {w i it} h hlt := by
    obtain ⟨rfl, rfl⟩ := h
    exact ⟨_, _, container_increment movedFrom hlt, ⟨rfl, rfl⟩, fun _ _ hk => hk⟩

/-! ## Traversals -/

section Model

variable {α β : Type} {fn : FunctionObject α β} {c : IteratorType α}

/-- `operator->` (lines 289–292). -/
def Mapping.arrow (m : Mapping fn c) :
    Run (c.World × fn.World) (Mapping fn c × Reference (c.World × fn.World) (Mapping fn c) β) :=
  m.deref

/-- `operator++(int)` (lines 294–299): the copy, and the iterator. -/
def Mapping.postIncrement (m : Mapping fn c) :
    Run (c.World × fn.World) (Mapping fn c × Mapping fn c) := do
  let copy := m
  let m ← m.increment false
  pure (copy, m)

/-- What a traversal does with its iterator, and with the copies that its
    post-increments returned. -/
inductive Use where
  | deref
  | arrow
  | preIncrement
  | postIncrement
  | derefCopy (k : ℕ)
  | arrowCopy (k : ℕ)

/-- The iterator, and the copies. -/
structure Traversal (fn : FunctionObject α β) (c : IteratorType α) where
  it : Mapping fn c
  copies : List (Mapping fn c)

/-- A call on copy `k`. -/
def Traversal.onCopy (t : Traversal fn c) (k : ℕ)
    (read : Mapping fn c → Run (c.World × fn.World)
      (Mapping fn c × Reference (c.World × fn.World) (Mapping fn c) β)) :
    Run (c.World × fn.World) (Traversal fn c) :=
  match t.copies[k]? with
  | none => undefined
  | some m => do
    let (m, _) ← read m
    pure { t with copies := t.copies.set k m }

/-- One use. -/
def Traversal.use (t : Traversal fn c) : Use → Run (c.World × fn.World) (Traversal fn c)
  | .deref => do
    let (it, _) ← t.it.deref
    pure { t with it := it }
  | .arrow => do
    let (it, _) ← t.it.arrow
    pure { t with it := it }
  | .preIncrement => do
    let it ← t.it.increment false
    pure { t with it := it }
  | .postIncrement => do
    let (copy, it) ← t.it.postIncrement
    pure ⟨it, t.copies ++ [copy]⟩
  | .derefCopy k => t.onCopy k Mapping.deref
  | .arrowCopy k => t.onCopy k Mapping.arrow

/-- A traversal. -/
def Traversal.run : List Use → Traversal fn c → Run (c.World × fn.World) (Traversal fn c)
  | [], t => pure t
  | u :: uses, t => do
    let t ← t.use u
    Traversal.run uses t

/-- A function that notes its arguments. -/
@[reducible] def FunctionObject.noting (fn : FunctionObject α β) : FunctionObject α β where
  State := fn.State
  World := fn.World × List α
  call state a := fun (w, calls) =>
    match fn.call state a w with
    | .ok p w => .ok p (w, calls ++ [a])
    | .error stop w => .error stop (w, calls ++ [a])

end Model

/-! ## Accounts -/

/-- The uses of a traversal as its author counts them: how many elements have
    been passed, whether the current one and those of the copies had been read
    at the time, and how often a copy was read of which neither was true. -/
structure Account where
  passed : ℕ
  read : Bool
  copies : List (ℕ × Bool)
  late : ℕ

/-- The elements passed or dereferenced. -/
def Account.reached (a : Account) : ℕ := a.passed + if a.read then 1 else 0

/-- Reading copy `k`. -/
def Account.readCopy (a : Account) (k : ℕ) : Option Account :=
  match a.copies[k]? with
  | none => none
  | some (_, true) => some a
  | some (i, false) => some { a with copies := a.copies.set k (i, true), late := a.late + 1 }

/-- One use in front of `n` elements; `none` where the iterator is at the end, or
    there is no such copy. -/
def Account.use (n : ℕ) (a : Account) : Use → Option Account
  | .deref | .arrow => if a.passed < n then some { a with read := true } else none
  | .preIncrement =>
    if a.passed < n then some { a with passed := a.passed + 1, read := false } else none
  | .postIncrement =>
    if a.passed < n then
      some { a with passed := a.passed + 1, read := false,
                    copies := a.copies ++ [(a.passed, a.read)] }
    else none
  | .derefCopy k | .arrowCopy k => a.readCopy k

/-- A traversal of `n` elements. -/
def Account.run (n : ℕ) : List Use → Account → Option Account
  | [], a => some a
  | u :: uses, a => (a.use n u).bind (Account.run n uses)

/-- A traversal that begins. -/
def Account.start : Account := ⟨0, false, [], 0⟩

/-! ## Calls -/

section Calls

variable {α β : Type} {fn : FunctionObject α β} {c : IteratorType α}

/-- The function returns, whatever its argument. -/
def FunctionObject.Returns (fn : FunctionObject α β) : Prop :=
  ∀ state a w, ∃ p w', fn.call state a w = .ok p w'

/-- Reading an iterator whose cache is empty is a call. -/
theorem deref_noting (hfn : fn.Returns) {m : Mapping fn.noting c} (hm : m.value = none)
    {v v' : c.World} (e : fn.World) (calls : List α) {it : c.It}
    {source : Reference c.World c.It α} {x : α} (hderef : c.deref m.it v = .ok (it, source) v')
    (hread : source.read it v' = some x) :
    ∃ m' r e', m.deref (v, (e, calls)) = .ok (m', r) (v', (e', calls ++ [x])) ∧ m'.it = it ∧
      m'.value.isSome = true := by
  obtain ⟨p, e', hp⟩ := hfn m.function x e
  have hcall : fn.noting.call m.function x (e, calls) = .ok p (e', calls ++ [x]) := by
    show (match fn.call m.function x e with
      | .ok p w => EStateM.Result.ok p (w, calls ++ [x])
      | .error stop w => .error stop (w, calls ++ [x])) = .ok p (e', calls ++ [x])
    rw [hp]
  refine ⟨⟨p.1, it, some p.2⟩, Mapping.reference, e', ?_, rfl, rfl⟩
  rw [Mapping.deref_empty hm hderef hread, bind_of_ok (onSnd_of_ok hcall)]
  rfl

variable {xs : List α} {Front Kept : c.World → ℕ → c.It → Prop}

/-- A copy is where the account says, and its cache is full if it was read. -/
def CopyAgrees (xs : List α) (Kept : c.World → ℕ → c.It → Prop) (w : c.World)
    (m : Mapping fn c) (p : ℕ × Bool) : Prop :=
  Kept w p.1 m.it ∧ m.value.isSome = p.2 ∧ p.1 < xs.length

/-- The traversal is where the account says; `calls` has one entry for every
    element that was reached, in order, and one for every late one. -/
structure Tallies (xs : List α) (Front Kept : c.World → ℕ → c.It → Prop) (a : Account)
    (t : Traversal fn c) (w : c.World) (calls : List α) : Prop where
  front : Front w a.passed t.it.it
  read : t.it.value.isSome = a.read
  reached_le : a.reached ≤ xs.length
  length_copies : t.copies.length = a.copies.length
  copies : ∀ (k : ℕ) (m : Mapping fn c) (p : ℕ × Bool), t.copies[k]? = some m → a.copies[k]? = some p →
    CopyAgrees xs Kept w m p
  count : calls.length = a.reached + a.late
  order : a.late = 0 → calls = xs.take a.reached

variable {a : Account} {t : Traversal fn.noting c} {w : c.World} {e : fn.World} {calls : List α}

/-- The next element, when it has not been read yet, comes behind those that were. -/
theorem take_reached_succ {i : ℕ} {x : α} (hx : xs[i]? = some x) :
    xs.take i ++ [x] = xs.take (i + 1) := by
  rw [List.take_add_one, hx]
  rfl

theorem CopyAgrees.mono {w' : c.World} {m : Mapping fn.noting c} {p : ℕ × Bool}
    (h : CopyAgrees xs Kept w m p) (hkept : ∀ j jt, Kept w j jt → Kept w' j jt) :
    CopyAgrees xs Kept w' m p := by
  obtain ⟨hcopy, hsome, hlt⟩ := h
  exact ⟨hkept _ _ hcopy, hsome, hlt⟩

/-! Two lists whose entries are related, position by position. -/

section Agree

variable {β γ : Type*} {R : β → γ → Prop} {l : List β} {l' : List γ} {b : β} {d : γ}

theorem agree_set {k : ℕ}
    (h : ∀ (j : ℕ) x y, l[j]? = some x → l'[j]? = some y → R x y) (hbd : R b d)
    (j : ℕ) (x : β) (y : γ) (hx : (l.set k b)[j]? = some x)
    (hy : (l'.set k d)[j]? = some y) : R x y := by
  by_cases hjk : k = j
  · subst hjk
    obtain ⟨hlt, -⟩ := List.getElem?_eq_some_iff.1 hx
    obtain ⟨hlt', -⟩ := List.getElem?_eq_some_iff.1 hy
    rw [List.length_set] at hlt hlt'
    rw [List.getElem?_set_self hlt] at hx
    rw [List.getElem?_set_self hlt'] at hy
    cases hx
    cases hy
    exact hbd
  · rw [List.getElem?_set_ne hjk] at hx hy
    exact h j x y hx hy

theorem agree_concat (hlen : l.length = l'.length)
    (h : ∀ (j : ℕ) x y, l[j]? = some x → l'[j]? = some y → R x y) (hbd : R b d)
    (j : ℕ) (x : β) (y : γ) (hx : (l ++ [b])[j]? = some x) (hy : (l' ++ [d])[j]? = some y) :
    R x y := by
  rcases Nat.lt_trichotomy j l.length with hlt | rfl | hgt
  · rw [List.getElem?_append_left hlt] at hx
    rw [List.getElem?_append_left (hlen ▸ hlt)] at hy
    exact h j x y hx hy
  · rw [List.getElem?_concat_length] at hx
    rw [hlen, List.getElem?_concat_length] at hy
    cases hx
    cases hy
    exact hbd
  · rw [List.getElem?_eq_none (by rw [List.length_append]; exact hgt)] at hx
    cases hx

end Agree

/-- Reading the iterator. -/
theorem Tallies.read_front (hc : Steady c xs Front Kept) (hfn : fn.Returns)
    (h : Tallies xs Front Kept a t w calls) (hlt : a.passed < xs.length) (e : fn.World) :
    ∃ m r w' e' calls', t.it.deref (w, (e, calls)) = .ok (m, r) (w', (e', calls')) ∧
      Tallies xs Front Kept { a with read := true } { t with it := m } w' calls' ∧
      ∀ j jt, Kept w j jt → Kept w' j jt := by
  have hcount := h.count
  have horder := h.order
  cases hread : a.read with
  | true =>
    obtain ⟨b, hb⟩ := Option.isSome_iff_exists.1 (h.read.trans hread)
    have hsame : { a with read := true } = a := by
      rw [← hread]
    refine ⟨t.it, _, w, e, calls, Mapping.deref_cached _ hb, ?_, fun _ _ hk => hk⟩
    rw [hsame]
    exact h
  | false =>
    have hnone : t.it.value = none := by
      have hempty := h.read.trans hread
      exact Option.not_isSome_iff_eq_none.1 (by rw [hempty]; exact Bool.false_ne_true)
    have hreached : a.reached = a.passed := by
      unfold Account.reached
      rw [hread]
      rfl
    have hx : xs[a.passed]? = some xs[a.passed] := List.getElem?_eq_getElem hlt
    obtain ⟨it, source, w', hderef, hvalue, hfront, hkept⟩ := hc.deref_front h.front hx
    obtain ⟨m, r, e', hm, hit, hsome⟩ := deref_noting hfn hnone e calls hderef hvalue
    rw [hreached] at hcount horder
    refine ⟨m, r, w', e', calls ++ [xs[a.passed]], hm, ?_, hkept⟩
    constructor
    · rw [hit]
      exact hfront
    · exact hsome
    · exact hlt
    · exact h.length_copies
    · intro k m p hk hp
      exact (h.copies k m p hk hp).mono hkept
    · rw [List.length_append, hcount]
      show a.passed + a.late + 1 = a.passed + 1 + a.late
      omega
    · intro hlate
      rw [horder hlate]
      exact take_reached_succ hx

/-- Incrementing the iterator: an element is read before it is passed. -/
theorem Tallies.pass_front (hc : Steady c xs Front Kept) (hfn : fn.Returns)
    (h : Tallies xs Front Kept a t w calls) (hlt : a.passed < xs.length) (e : fn.World) :
    ∃ m w' e' calls', t.it.increment false (w, (e, calls)) = .ok m (w', (e', calls')) ∧
      Tallies xs Front Kept { a with passed := a.passed + 1, read := false } { t with it := m } w'
        calls' ∧
      ∀ j jt, Kept w j jt → Kept w' j jt := by
  obtain ⟨m, r, w₁, e₁, calls₁, hderef, htallies, hkept₁⟩ := h.read_front hc hfn hlt e
  obtain ⟨it, w₂, hinc, hfront, hkept₂⟩ := hc.increment htallies.front hlt
  refine ⟨⟨m.function, it, none⟩, w₂, e₁, calls₁, Mapping.increment_default hderef hinc, ?_,
    fun j jt hk => hkept₂ j jt (hkept₁ j jt hk)⟩
  exact
    { front := hfront
      read := rfl
      reached_le := htallies.reached_le
      length_copies := htallies.length_copies
      copies := fun k m p hk hp => (htallies.copies k m p hk hp).mono hkept₂
      count := htallies.count
      order := htallies.order }

/-- Reading a copy. -/
theorem Tallies.read_copy (hc : Steady c xs Front Kept) (hfn : fn.Returns)
    (h : Tallies xs Front Kept a t w calls) {k i : ℕ} {read : Bool}
    (hk : a.copies[k]? = some (i, read)) (e : fn.World) :
    ∃ m m' r w' e' calls', t.copies[k]? = some m ∧
      m.deref (w, (e, calls)) = .ok (m', r) (w', (e', calls')) ∧
      Tallies xs Front Kept
        (if read then a else { a with copies := a.copies.set k (i, true), late := a.late + 1 })
        { t with copies := t.copies.set k m' } w' calls' := by
  obtain ⟨hka, -⟩ := List.getElem?_eq_some_iff.1 hk
  have hkt : k < t.copies.length := by
    rw [h.length_copies]
    exact hka
  have hm : t.copies[k]? = some t.copies[k] := List.getElem?_eq_getElem hkt
  obtain ⟨hkept, hsome, hlt⟩ := h.copies k _ _ hm hk
  cases read with
  | true =>
    obtain ⟨b, hb⟩ := Option.isSome_iff_exists.1 hsome
    refine ⟨_, _, _, w, e, calls, hm, Mapping.deref_cached _ hb, ?_⟩
    rw [List.set_getElem_self]
    exact h
  | false =>
    have hnone : t.copies[k].value = none :=
      Option.not_isSome_iff_eq_none.1 (by rw [hsome]; exact Bool.false_ne_true)
    have hx : xs[i]? = some xs[i] := List.getElem?_eq_getElem hlt
    obtain ⟨it, source, w', hderef, hvalue, hkept', hfront', hall⟩ := hc.deref_kept hkept hx
    obtain ⟨m', r, e', hm', hit, hfull⟩ :=
      deref_noting hfn hnone e calls hderef hvalue
    refine ⟨_, m', r, w', e', calls ++ [xs[i]], hm, hm', ?_⟩
    exact
      { front := hfront' _ _ h.front
        read := h.read
        reached_le := h.reached_le
        length_copies := by
          show (t.copies.set k m').length = (a.copies.set k (i, true)).length
          rw [List.length_set, List.length_set, h.length_copies]
        copies := by
          have hread : CopyAgrees xs Kept w' m' (i, true) := ⟨by rw [hit]; exact hkept', hfull, hlt⟩
          exact agree_set (fun j n p hj hp => (h.copies j n p hj hp).mono hall) hread
        count := by
          have hcount := h.count
          rw [List.length_append, hcount]
          show a.reached + a.late + 1 = a.reached + (a.late + 1)
          omega
        order := fun hlate => absurd hlate (Nat.succ_ne_zero _) }

theorem Tallies.use_copy (hc : Steady c xs Front Kept) (hfn : fn.Returns)
    (h : Tallies xs Front Kept a t w calls) {k : ℕ} {a' : Account}
    (hu : a.readCopy k = some a') (e : fn.World) :
    ∃ t' w' e' calls', t.use (.derefCopy k) (w, (e, calls)) = .ok t' (w', (e', calls')) ∧
      Tallies xs Front Kept a' t' w' calls' := by
  cases hk : a.copies[k]? with
  | none =>
    unfold Account.readCopy at hu
    rw [hk] at hu
    cases hu
  | some p =>
    obtain ⟨m, m', r, w', e', calls', hm, hderef, htallies⟩ := h.read_copy hc hfn hk e
    have ha' :
        (if p.2 then a else { a with copies := a.copies.set k (p.1, true), late := a.late + 1 }) =
          a' := by
      obtain ⟨i, read⟩ := p
      unfold Account.readCopy at hu
      rw [hk] at hu
      cases read with
      | true => exact Option.some.inj hu
      | false => exact Option.some.inj hu
    rw [ha'] at htallies
    refine ⟨_, w', e', calls', ?_, htallies⟩
    show t.onCopy k Mapping.deref _ = _
    unfold Traversal.onCopy
    rw [hm]
    exact bind_of_ok hderef

/-- One use of a traversal keeps the account. -/
theorem Tallies.use (hc : Steady c xs Front Kept) (hfn : fn.Returns)
    (h : Tallies xs Front Kept a t w calls) {u : Use} {a' : Account}
    (hu : a.use xs.length u = some a') (e : fn.World) :
    ∃ t' w' e' calls', t.use u (w, (e, calls)) = .ok t' (w', (e', calls')) ∧
      Tallies xs Front Kept a' t' w' calls' := by
  cases u with
  | deref =>
    unfold Account.use at hu
    split_ifs at hu with hlt
    cases hu
    obtain ⟨m, r, w', e', calls', hderef, htallies, -⟩ := h.read_front hc hfn hlt e
    exact ⟨_, _, _, _, bind_of_ok hderef, htallies⟩
  | arrow =>
    unfold Account.use at hu
    split_ifs at hu with hlt
    cases hu
    obtain ⟨m, r, w', e', calls', hderef, htallies, -⟩ := h.read_front hc hfn hlt e
    exact ⟨_, _, _, _, bind_of_ok (show t.it.arrow _ = _ from hderef), htallies⟩
  | preIncrement =>
    unfold Account.use at hu
    split_ifs at hu with hlt
    cases hu
    obtain ⟨m, w', e', calls', hinc, htallies, -⟩ := h.pass_front hc hfn hlt e
    exact ⟨_, _, _, _, bind_of_ok hinc, htallies⟩
  | postIncrement =>
    unfold Account.use at hu
    split_ifs at hu with hlt
    cases hu
    obtain ⟨m, w', e', calls', hinc, htallies, hkept⟩ := h.pass_front hc hfn hlt e
    have hpost : t.it.postIncrement (w, (e, calls)) = .ok (t.it, m) (w', (e', calls')) :=
      bind_of_ok hinc
    refine ⟨_, _, _, _, bind_of_ok hpost, ?_⟩
    exact
      { front := htallies.front
        read := htallies.read
        reached_le := htallies.reached_le
        length_copies := by
          show (t.copies ++ [t.it]).length = (a.copies ++ [(a.passed, a.read)]).length
          rw [List.length_append, List.length_append, h.length_copies]
          rfl
        copies := by
          have hcopy : CopyAgrees xs Kept w' t.it (a.passed, a.read) :=
            ⟨hkept _ _ (hc.keep h.front), h.read, hlt⟩
          exact agree_concat h.length_copies htallies.copies hcopy
        count := htallies.count
        order := htallies.order }
  | derefCopy k => exact h.use_copy hc hfn hu e
  | arrowCopy k => exact h.use_copy hc hfn hu e

/-- A whole traversal keeps the account. -/
theorem Tallies.run (hc : Steady c xs Front Kept) (hfn : fn.Returns) {uses : List Use}
    (h : Tallies xs Front Kept a t w calls) {a' : Account}
    (hrun : Account.run xs.length uses a = some a') (e : fn.World) :
    ∃ t' w' e' calls', Traversal.run uses t (w, (e, calls)) = .ok t' (w', (e', calls')) ∧
      Tallies xs Front Kept a' t' w' calls' := by
  induction uses generalizing a t w e calls with
  | nil =>
    cases hrun
    exact ⟨t, w, e, calls, rfl, h⟩
  | cons u uses ih =>
    obtain ⟨a₁, hu, hrest⟩ := Option.bind_eq_some_iff.1 hrun
    obtain ⟨t₁, w₁, e₁, calls₁, hstep, h₁⟩ := h.use hc hfn hu e
    obtain ⟨t', w', e', calls', hrun', h'⟩ := ih h₁ hrest e₁
    exact ⟨t', w', e', calls', (bind_of_ok hstep).trans hrun', h'⟩

/-- A traversal of `xs` returns, and passes every element it reaches to the
    function, once and in order, exactly if it reads no copy that was made before
    its element had been read. -/
theorem calls_once_iff (hc : Steady c xs Front Kept) (hfn : fn.Returns) {it : c.It}
    (hit : Front w 0 it) (state : fn.State) (e : fn.World) {uses : List Use}
    (ha : Account.run xs.length uses Account.start = some a) :
    ∃ t w' e' calls,
      Traversal.run uses (⟨⟨state, it, none⟩, []⟩ : Traversal fn.noting c) (w, (e, [])) =
        .ok t (w', (e', calls)) ∧
      (calls = xs.take a.reached ↔ a.late = 0) := by
  have hstart : Tallies xs Front Kept Account.start
      (⟨⟨state, it, none⟩, []⟩ : Traversal fn.noting c) w [] :=
    { front := hit
      read := rfl
      reached_le := Nat.zero_le _
      length_copies := rfl
      copies := fun k m p hk _ => by cases hk
      count := rfl
      order := fun _ => rfl }
  obtain ⟨t, w', e', calls, hrun, h⟩ := hstart.run hc hfn ha e
  refine ⟨t, w', e', calls, hrun, fun hcalls => ?_, h.order⟩
  have hcount := h.count
  rw [hcalls, List.length_take, Nat.min_eq_left h.reached_le] at hcount
  omega

end Calls

/-! ## Two traversals -/

theorem returns_ofFun {α β : Type} (f : α → β) : (FunctionObject.ofFun f).Returns :=
  fun _ a w => ⟨((), f a), w, rfl⟩

/-- `*it, it++, *copy, ++it` over three elements. -/
theorem calls_read_before :
    ∃ t w' e' calls,
      Traversal.run [.deref, .postIncrement, .derefCopy 0, .preIncrement]
          (⟨⟨(), (0 : ℕ), none⟩, []⟩ :
            Traversal (FunctionObject.ofFun Nat.succ).noting (container id))
          ([1, 2, 3], ((), [])) =
        .ok t (w', (e', calls)) ∧
      (calls = [1, 2, 3].take 2 ↔ 0 = 0) :=
  calls_once_iff (a := ⟨2, false, [(0, true)], 0⟩) (steady_container id [1, 2, 3])
    (returns_ofFun Nat.succ) ⟨rfl, rfl⟩ () () rfl

/-- `*it++` over two elements: the function is called twice for the first. -/
theorem calls_read_behind :
    ∃ t,
      Traversal.run [.postIncrement, .derefCopy 0]
          (⟨⟨(), (0 : ℕ), none⟩, []⟩ :
            Traversal (FunctionObject.ofFun Nat.succ).noting (container id))
          ([1, 2], ((), [])) =
        .ok t ([1, 2], ((), [1, 1])) ∧
      [1, 1] ≠ [1, 2].take 1 :=
  ⟨⟨⟨(), (1 : ℕ), none⟩, [⟨(), (0 : ℕ), some 2⟩]⟩, rfl, by decide⟩

end BambooShoot.Pbsu
