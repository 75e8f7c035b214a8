import BambooShoot.Pbsu.MultiplexWriter
import Mathlib.Data.List.ReduceOption

/-!
# Writers

Model of the output iterators of `iter-util.hh` (lines 45–236): trees of
`transformed_writer`, `multiplex_writer`, `spread_writer` and `filtering_writer`
over pointers and insert iterators. An iterator is a value that can be copied,
apart from the memory it writes to. The post-increment of some returns the
iterator, that of others a copy from before; a filter increments on assignment,
and so only the copy.

Results: `obeys_iff`, the sequences that reach every sink as they should with
`*w++ = v` as well as with `*w = v; ++w`; `obeys_spreadWriter`.
-/

namespace BambooShoot.Pbsu.Writers

/-! ## Model -/

/-- The function of a `transformed_writer`: the value category of its result, for an
    argument of either, and what it leaves of an rvalue. An lvalue stays as it is. -/
structure Mapping (α β : Type) where
  fn : α → β
  result : ValueCategory → ValueCategory
  leaves : α → α

/-- What an insert iterator calls: `push_back`, or `insert` of a container that keeps
    its iterators valid; or `push_front`. -/
inductive Insertion where
  | insert
  | pushFront

mutual

/-- A writer of values of a type. A sink comes with what it leaves of an rvalue; a
    `vectorInserter` inserts into a container that does not keep its iterators. -/
inductive Writer : Type → Type 1 where
  | pointer {α : Type} (leaves : α → α) : Writer α
  | inserter {α : Type} (leaves : α → α) (insertion : Insertion) : Writer α
  | vectorInserter {α : Type} (leaves : α → α) : Writer α
  | transformed {α β : Type} (f : Mapping α β) (iter : Writer β) : Writer α
  | multiplex {α : Type} (iters : Outputs α) : Writer α
  | filtering {α : Type} (pred : α → Bool) (iter : Writer α) : Writer α

/-- The outputs of a `multiplex_writer`. -/
inductive Outputs : Type → Type 1 where
  | nil {α : Type} : Outputs α
  | cons {α : Type} (iter : Writer α) (iters : Outputs α) : Outputs α

end

/-- `pick<i>(constref_forward())` for every `i`, each with its own output. -/
def pickOutputs {γ : Type} : {n : ℕ} → {α : Fin n → Type} → (∀ i, γ → α i) →
    (∀ i, Writer (α i)) → Outputs γ
  | 0, _, _, _ => .nil
  | _ + 1, _, pick, ws =>
    .cons (.transformed ⟨pick 0, fun _ => .lvalue, id⟩ (ws 0))
      (pickOutputs (fun i => pick i.succ) fun i => ws i.succ)

/-- `spread_writer` (lines 179–204). -/
def spreadWriter {n : ℕ} {α : Fin n → Type} (ws : ∀ i, Writer (α i)) : Writer (∀ i, α i) :=
  .multiplex (pickOutputs (fun i t => t i) ws)

mutual

/-- The members of an iterator: a position in an array; for a `vectorInserter`, the
    size of the container for which its position is valid. -/
def Writer.Iter : {α : Type} → Writer α → Type
  | _, .pointer _ => ℕ
  | _, .inserter _ _ => Unit
  | _, .vectorInserter _ => ℕ
  | _, .transformed _ w => w.Iter
  | _, .multiplex ws => ws.Iters
  | _, .filtering _ w => w.Iter

def Outputs.Iters : {α : Type} → Outputs α → Type
  | _, .nil => Unit
  | _, .cons w ws => w.Iter × ws.Iters

end

mutual

/-- The sinks: an array, whose elements may not be written yet; or what a container
    holds before and after the place of the insertions. -/
def Writer.Memory : {α : Type} → Writer α → Type
  | α, .pointer _ => List (Option α)
  | α, .inserter _ _ => List α × List α
  | α, .vectorInserter _ => List α × List α
  | _, .transformed _ w => w.Memory
  | _, .multiplex ws => ws.Memories
  | _, .filtering _ w => w.Memory

def Outputs.Memories : {α : Type} → Outputs α → Type
  | _, .nil => Unit
  | _, .cons w ws => w.Memory × ws.Memories

end

mutual

/-- `++w`. -/
def Writer.increment : {α : Type} → (w : Writer α) → w.Iter → w.Iter
  | _, .pointer _ => fun p : ℕ => p + 1
  | _, .inserter _ _ => id
  | _, .vectorInserter _ => id
  | _, .transformed _ w => w.increment
  | _, .multiplex ws => ws.incrementAll
  | _, .filtering _ _ => id

/-- `increment_iter_tuple` (lines 119–124). -/
def Outputs.incrementAll : {α : Type} → (ws : Outputs α) → ws.Iters → ws.Iters
  | _, .nil => id
  | _, .cons w ws => fun it => (w.increment it.1, ws.incrementAll it.2)

end

/-- What is left of an argument, after a function that leaves `leaves` of an rvalue. -/
def left {α : Type} (leaves : α → α) : ValueCategory → α → α
  | .lvalue, v => v
  | .rvalue, v => leaves v

/-- One insertion. -/
def Insertion.place {α : Type} (v : α) : Insertion → List α × List α → List α × List α
  | .insert, mem => (mem.1 ++ [v], mem.2)
  | .pushFront, mem => (mem.1, v :: mem.2)

mutual

/-- `*w = std::forward<T>(v)`: the iterator and the memory afterwards, and what is left
    of `v`. Undefined beyond the end of an array, and with an invalid position. -/
def Writer.assign : {α : Type} → (w : Writer α) → ValueCategory → α → w.Iter → w.Memory →
    Option (w.Iter × w.Memory × α)
  | α, .pointer leaves => fun c v (p : ℕ) (mem : List (Option α)) =>
    if p < mem.length then some (p, mem.set p (some v), left leaves c v) else none
  | α, .inserter leaves insertion => fun c v (it : Unit) (mem : List α × List α) =>
    some (it, insertion.place v mem, left leaves c v)
  | α, .vectorInserter leaves => fun c v (size : ℕ) (mem : List α × List α) =>
    if size = mem.1.length + mem.2.length then
      some (size + 1, (mem.1 ++ [v], mem.2), left leaves c v)
    else none
  | _, .transformed f w => fun c v it mem =>
    (w.assign (f.result c) (f.fn v) it mem).map fun r => (r.1, r.2.1, left f.leaves c v)
  | _, .multiplex ws => ws.writeToIterTuple
  | _, .filtering pred w => fun c v it mem =>
    if pred v then (w.assign c v it mem).map fun r => (w.increment r.1, r.2.1, r.2.2)
    else some (it, mem, v)

/-- `write_to_iter_tuple` (lines 126–131). -/
def Outputs.writeToIterTuple : {α : Type} → (ws : Outputs α) → ValueCategory → α → ws.Iters →
    ws.Memories → Option (ws.Iters × ws.Memories × α)
  | _, .nil => fun _ v it mem => some (it, mem, v)
  | _, .cons w ws => fun c v it mem =>
    (w.assign c v it.1 mem.1).bind fun r =>
      (ws.writeToIterTuple c r.2.2 it.2 mem.2).map fun rs =>
        ((r.1, rs.1), (r.2.1, rs.2.1), rs.2.2)

end

/-- Whether `w++` returns a copy of `w` from before the increment. Otherwise it returns
    `w` itself, and there is nothing to increment. -/
def Writer.postIncrementCopies {α : Type} : Writer α → Bool
  | .pointer _ | .transformed _ _ | .multiplex _ => true
  | .inserter _ _ | .vectorInserter _ | .filtering _ _ => false

section Statements

variable {α : Type} (w : Writer α)

/-- `*w = v; ++w`. -/
def Writer.writeThenIncrement (s : w.Iter × w.Memory) (v : α) : Option (w.Iter × w.Memory) :=
  (w.assign .lvalue v s.1 s.2).map fun r => (w.increment r.1, r.2.1)

/-- `*w++ = v`. -/
def Writer.writePostIncrement (s : w.Iter × w.Memory) (v : α) : Option (w.Iter × w.Memory) :=
  if w.postIncrementCopies then (w.assign .lvalue v s.1 s.2).map fun r => (w.increment s.1, r.2.1)
  else (w.assign .lvalue v s.1 s.2).map fun r => (r.1, r.2.1)

end Statements

/-! ## Specification -/

mutual

/-- The arrays are large enough for `vs`, and the positions valid. -/
def Writer.Room : {α : Type} → (w : Writer α) → List α → w.Iter → w.Memory → Prop
  | α, .pointer _ => fun vs (p : ℕ) (mem : List (Option α)) => p + vs.length ≤ mem.length
  | _, .inserter _ _ => fun _ _ _ => True
  | α, .vectorInserter _ => fun _ (size : ℕ) (mem : List α × List α) =>
    size = mem.1.length + mem.2.length
  | _, .transformed f w => fun vs => w.Room (vs.map f.fn)
  | _, .multiplex ws => ws.RoomAll
  | _, .filtering pred w => fun vs => w.Room (vs.filter pred)

def Outputs.RoomAll : {α : Type} → (ws : Outputs α) → List α → ws.Iters → ws.Memories → Prop
  | _, .nil => fun _ _ _ => True
  | _, .cons w ws => fun vs it mem => w.Room vs it.1 mem.1 ∧ ws.RoomAll vs it.2 mem.2

end

mutual

/-- The sinks with `vs` in them, mapped and filtered on the way to each. -/
def Writer.holding : {α : Type} → (w : Writer α) → List α → w.Iter → w.Memory → w.Memory
  | α, .pointer _ => fun vs (p : ℕ) (mem : List (Option α)) =>
    mem.take p ++ vs.map some ++ mem.drop (p + vs.length)
  | α, .inserter _ .insert => fun vs _ (mem : List α × List α) => (mem.1 ++ vs, mem.2)
  | α, .inserter _ .pushFront => fun vs _ (mem : List α × List α) => (mem.1, vs.reverse ++ mem.2)
  | α, .vectorInserter _ => fun vs _ (mem : List α × List α) => (mem.1 ++ vs, mem.2)
  | _, .transformed f w => fun vs => w.holding (vs.map f.fn)
  | _, .multiplex ws => ws.holdingAll
  | _, .filtering pred w => fun vs => w.holding (vs.filter pred)

def Outputs.holdingAll : {α : Type} → (ws : Outputs α) → List α → ws.Iters → ws.Memories →
    ws.Memories
  | _, .nil => fun _ _ mem => mem
  | _, .cons w ws => fun vs it mem => (w.holding vs it.1 mem.1, ws.holdingAll vs it.2 mem.2)

end

/-- With both forms of writing, `vs` reach every sink that has room for them. -/
def Writer.Obeys {α : Type} (w : Writer α) (vs : List α) : Prop :=
  ∀ it mem, w.Room vs it mem →
    (∃ it', vs.foldlM w.writePostIncrement (it, mem) = some (it', w.holding vs it mem)) ∧
    ∃ it', vs.foldlM w.writeThenIncrement (it, mem) = some (it', w.holding vs it mem)

/-! ### The condition -/

mutual

/-- What a writer leaves of its argument. -/
def Writer.left : {α : Type} → Writer α → ValueCategory → α → α
  | _, .pointer leaves => Writers.left leaves
  | _, .inserter leaves _ => Writers.left leaves
  | _, .vectorInserter leaves => Writers.left leaves
  | _, .transformed f _ => Writers.left f.leaves
  | _, .multiplex ws => ws.leftAll
  | _, .filtering pred w => fun c v => if pred v then w.left c v else v

def Outputs.leftAll : {α : Type} → Outputs α → ValueCategory → α → α
  | _, .nil => fun _ v => v
  | _, .cons w ws => fun c v => ws.leftAll c (w.left c v)

end

/-- An argument with its value category. -/
abbrev Argument (α : Type) := ValueCategory × α

/-- An argument to the function of a `transformed_writer` becomes one to its output. -/
def Mapping.apply {α β : Type} (f : Mapping α β) (a : Argument α) : Argument β :=
  (f.result a.1, f.fn a.2)

mutual

/-- Every sink is handed `vs`, mapped and filtered, where the writer is handed `args`:
    what the outputs of a `multiplex_writer` leave of an rvalue is as good as all of it
    to the outputs behind. -/
def Writer.Intact : {α : Type} → Writer α → List (Argument α) → List α → Prop
  | _, .pointer _ => fun args vs => args.map Prod.snd = vs
  | _, .inserter _ _ => fun args vs => args.map Prod.snd = vs
  | _, .vectorInserter _ => fun args vs => args.map Prod.snd = vs
  | _, .transformed f w => fun args vs => w.Intact (args.map f.apply) (vs.map f.fn)
  | _, .multiplex ws => ws.IntactAll
  | _, .filtering pred w => fun args vs =>
    w.Intact (args.filter fun a => pred a.2) (vs.filter pred)

def Outputs.IntactAll : {α : Type} → Outputs α → List (Argument α) → List α → Prop
  | _, .nil => fun _ _ => True
  | _, .cons w ws => fun args vs =>
    w.Intact args vs ∧ ws.IntactAll (args.map fun a => (a.1, w.left a.1 a.2)) vs

end

/-- What becomes of an iterator that is written to: it is incremented; it is, but a
    copy from before is written to; only that copy is incremented. -/
inductive Mode where
  | inPlace
  | copied
  | stale

/-- A filter increments what it writes to, and nothing else. -/
def Mode.filtered : Mode → Mode
  | .inPlace => .inPlace
  | .copied | .stale => .stale

mutual

/-- At most one value reaches a pointer that is left behind by the copy written to, or
    a position that this copy invalidates. -/
def Writer.Lossless : {α : Type} → Writer α → Mode → List α → Prop
  | _, .pointer _ => fun mode vs => mode = .stale → vs.length ≤ 1
  | _, .inserter _ _ => fun _ _ => True
  | _, .vectorInserter _ => fun mode vs => mode ≠ .inPlace → vs.length ≤ 1
  | _, .transformed f w => fun mode vs => w.Lossless mode (vs.map f.fn)
  | _, .multiplex ws => ws.LosslessAll
  | _, .filtering pred w => fun mode vs => w.Lossless mode.filtered (vs.filter pred)

def Outputs.LosslessAll : {α : Type} → Outputs α → Mode → List α → Prop
  | _, .nil => fun _ _ => True
  | _, .cons w ws => fun mode vs => w.Lossless mode vs ∧ ws.LosslessAll mode vs

end

/-! ## Steps -/

section Steps

variable {α β : Type}

/-- One argument, with the iterator that remains. -/
def Writer.step (w : Writer α) (mode : Mode) (s : w.Iter × w.Memory) (a : Argument α) :
    Option (w.Iter × w.Memory) :=
  (w.assign a.1 a.2 s.1 s.2).map fun r =>
    (match mode with
      | .inPlace => w.increment r.1
      | .copied => w.increment s.1
      | .stale => s.1,
    r.2.1)

def Outputs.step (ws : Outputs α) (mode : Mode) (s : ws.Iters × ws.Memories) (a : Argument α) :
    Option (ws.Iters × ws.Memories) :=
  (ws.writeToIterTuple a.1 a.2 s.1 s.2).map fun r =>
    (match mode with
      | .inPlace => ws.incrementAll r.1
      | .copied => ws.incrementAll s.1
      | .stale => s.1,
    r.2.1)

mutual

theorem left_assign : ∀ {α : Type} (w : Writer α) {c : ValueCategory} {v : α} {it : w.Iter}
    {mem : w.Memory} {r}, w.assign c v it mem = some r → r.2.2 = w.left c v
  | _, .pointer leaves, c, v, it, mem, r, h => by
    obtain ⟨-, h⟩ := Option.ite_none_right_eq_some.1 h
    cases h
    rfl
  | _, .inserter leaves insertion, c, v, it, mem, r, h => by
    cases h
    rfl
  | _, .vectorInserter leaves, c, v, it, mem, r, h => by
    obtain ⟨-, h⟩ := Option.ite_none_right_eq_some.1 h
    cases h
    rfl
  | _, .transformed f w, c, v, it, mem, r, h => by
    obtain ⟨s, -, rfl⟩ := Option.map_eq_some_iff.1 h
    rfl
  | _, .multiplex ws, c, v, it, mem, r, h => leftAll_writeToIterTuple ws h
  | _, .filtering pred w, c, v, it, mem, r, h => by
    simp only [Writer.assign] at h
    simp only [Writer.left]
    cases hpred : pred v <;> rw [hpred] at h
    · cases h
      rfl
    · obtain ⟨s, hs, rfl⟩ := Option.map_eq_some_iff.1 h
      exact left_assign (r := s) w hs

theorem leftAll_writeToIterTuple : ∀ {α : Type} (ws : Outputs α) {c : ValueCategory} {v : α}
    {it : ws.Iters} {mem : ws.Memories} {r}, ws.writeToIterTuple c v it mem = some r →
      r.2.2 = ws.leftAll c v
  | _, .nil, c, v, it, mem, r, h => by
    cases h
    rfl
  | _, .cons w ws, c, v, it, mem, r, h => by
    obtain ⟨s, hs, h⟩ := Option.bind_eq_some_iff.1 h
    obtain ⟨ss, hss, rfl⟩ := Option.map_eq_some_iff.1 h
    show ss.2.2 = ws.leftAll c (w.left c v)
    rw [leftAll_writeToIterTuple ws hss, left_assign w hs]

end

theorem step_transformed (f : Mapping α β) (w : Writer β) (mode : Mode)
    (s : w.Iter × w.Memory) (a : Argument α) :
    (Writer.transformed f w).step mode s a = w.step mode s (f.apply a) := by
  refine (Option.map_map _ _ _).trans ?_
  cases mode <;> rfl

theorem step_filtering (pred : α → Bool) (w : Writer α) (mode : Mode)
    (s : w.Iter × w.Memory) (a : Argument α) :
    (Writer.filtering pred w).step mode s a =
      if pred a.2 then w.step mode.filtered s a else some s := by
  unfold Writer.step
  simp only [Writer.assign]
  cases pred a.2
  · cases mode <;> rfl
  · refine (Option.map_map _ _ _).trans ?_
    cases mode <;> rfl

/-- Each output takes its own step; the next one is handed what is left. -/
theorem step_cons (w : Writer α) (ws : Outputs α) (mode : Mode) (s : w.Iter × w.Memory)
    (ss : ws.Iters × ws.Memories) (a : Argument α) :
    (Outputs.cons w ws).step mode ((s.1, ss.1), (s.2, ss.2)) a =
      (w.step mode s a).bind fun r =>
        (ws.step mode ss (a.1, w.left a.1 a.2)).map fun rs => ((r.1, rs.1), (r.2, rs.2)) := by
  simp only [Outputs.step, Writer.step, Outputs.writeToIterTuple]
  cases hassign : w.assign a.1 a.2 s.1 s.2 with
  | none => rfl
  | some r =>
    simp only [Option.bind_some, Option.map_some, left_assign w hassign, Option.map_map]
    cases mode <;> rfl

/-- The arguments of a whole sequence are taken by each output for itself. -/
theorem run_cons {w : Writer α} {ws : Outputs α} {mode : Mode} {args : List (Argument α)}
    {s t : w.Iter × w.Memory} {r q : ws.Iters × ws.Memories} :
    args.foldlM ((Outputs.cons w ws).step mode) ((s.1, r.1), (s.2, r.2)) =
        some ((t.1, q.1), (t.2, q.2)) ↔
      args.foldlM (w.step mode) s = some t ∧
        (args.map fun a => (a.1, w.left a.1 a.2)).foldlM (ws.step mode) r = some q := by
  induction args generalizing s r with
  | nil =>
    constructor
    · intro h
      obtain ⟨it, mem⟩ := s
      obtain ⟨its, mems⟩ := r
      cases h
      exact ⟨rfl, rfl⟩
    · rintro ⟨hs, hr⟩
      cases hs
      cases hr
      rfl
  | cons a args ih =>
    simp only [List.map_cons, List.foldlM_cons, bind, step_cons]
    cases w.step mode s a with
    | none => exact ⟨nofun, fun h => nomatch h.1⟩
    | some s₁ =>
      cases ws.step mode r (a.1, w.left a.1 a.2) with
      | none => exact ⟨nofun, fun h => nomatch h.2⟩
      | some r₁ => exact ih

theorem run_transformed (f : Mapping α β) (w : Writer β) (mode : Mode)
    (s : w.Iter × w.Memory) (args : List (Argument α)) :
    args.foldlM ((Writer.transformed f w).step mode) s =
      (args.map f.apply).foldlM (w.step mode) s := by
  rw [List.foldlM_map]
  congr
  funext s a
  exact step_transformed f w mode s a

theorem run_filtering (pred : α → Bool) (w : Writer α) (mode : Mode)
    (s : w.Iter × w.Memory) (args : List (Argument α)) :
    args.foldlM ((Writer.filtering pred w).step mode) s =
      (args.filter fun a => pred a.2).foldlM (w.step mode.filtered) s := by
  rw [List.foldlM_filter]
  congr
  funext s a
  exact step_filtering pred w mode s a

/-! ### Sinks -/

theorem holding_set (leaves : α → α) {p : ℕ} {mem : List (Option α)} (hp : p < mem.length) (v : α)
    (vs : List α) :
    (Writer.pointer leaves).holding vs (p + 1) (mem.set p (some v)) =
      (Writer.pointer leaves).holding (v :: vs) p mem := by
  show (mem.set p (some v)).take (p + 1) ++ vs.map some ++
      (mem.set p (some v)).drop (p + 1 + vs.length) =
    mem.take p ++ (v :: vs).map some ++ mem.drop (p + (v :: vs).length)
  have htake : (mem.set p (some v)).take (p + 1) = mem.take p ++ [some v] := by
    rw [List.set_eq_take_append_cons_drop, if_pos hp, List.take_append]
    simp [List.take_take, Nat.min_eq_left (Nat.le_of_lt hp)]
  have hdrop : (mem.set p (some v)).drop (p + 1 + vs.length) =
      mem.drop (p + (v :: vs).length) := by
    rw [List.drop_set_of_lt (by omega), List.length_cons]
    congr 1
    omega
  rw [htake, hdrop, List.map_cons, List.append_assoc (mem.take p)]
  rfl

/-- A pointer that is incremented goes through the array. -/
theorem run_pointer {leaves : α → α} {mode : Mode} (hmode : mode ≠ .stale)
    (args : List (Argument α)) (p : ℕ) (mem : List (Option α))
    (hroom : p + args.length ≤ mem.length) :
    args.foldlM ((Writer.pointer leaves).step mode) (p, mem) =
      some (p + args.length, (Writer.pointer leaves).holding (args.map Prod.snd) p mem) := by
  induction args generalizing p mem with
  | nil =>
    refine congrArg (fun mem' => some (p, mem')) ?_
    show mem = mem.take p ++ [] ++ mem.drop p
    simp
  | cons a args ih =>
    have hp : p < mem.length := by
      rw [List.length_cons] at hroom
      omega
    have hstep : (Writer.pointer leaves).step mode (p, mem) a =
        some (p + 1, mem.set p (some a.2)) := by
      unfold Writer.step
      simp only [Writer.assign, if_pos hp]
      cases mode with
      | inPlace => rfl
      | copied => rfl
      | stale => exact absurd rfl hmode
    rw [List.foldlM_cons, hstep]
    have hrest := ih (p + 1) (mem.set p (some a.2)) (by
      rw [List.length_cons] at hroom
      rw [List.length_set]
      omega)
    refine hrest.trans ?_
    rw [List.length_cons, Nat.add_right_comm, Nat.add_assoc]
    exact congrArg (fun mem' => some (p + (args.length + 1), mem'))
      (holding_set leaves hp a.2 (args.map Prod.snd))

/-- A pointer that is left behind writes to one place. -/
theorem run_pointer_stale {leaves : α → α} {args : List (Argument α)} {p p' : ℕ}
    {mem mem' : List (Option α)}
    (h : args.foldlM ((Writer.pointer leaves).step .stale) (p, mem) = some (p', mem')) :
    mem'.drop (p + 1) = mem.drop (p + 1) := by
  induction args generalizing mem with
  | nil =>
    cases h
    rfl
  | cons a args ih =>
    obtain ⟨s, hs, hrest⟩ := Option.bind_eq_some_iff.1 h
    obtain ⟨r, hr, rfl⟩ := Option.map_eq_some_iff.1 hs
    obtain ⟨-, hr⟩ := Option.ite_none_right_eq_some.1 hr
    cases hr
    rw [ih hrest, List.drop_set_of_lt (Nat.lt_succ_self p)]

theorem holding_place (leaves : α → α) (insertion : Insertion) (v : α) (vs : List α)
    (mem : List α × List α) :
    (Writer.inserter leaves insertion).holding vs () (insertion.place v mem) =
      (Writer.inserter leaves insertion).holding (v :: vs) () mem := by
  cases insertion with
  | insert => exact congrArg (·, mem.2) (List.append_cons mem.1 v vs).symm
  | pushFront =>
    have hfront : vs.reverse ++ v :: mem.2 = (v :: vs).reverse ++ mem.2 := by simp
    exact congrArg (mem.1, ·) hfront

/-- An insert iterator is not its position. -/
theorem run_inserter (leaves : α → α) (insertion : Insertion) (mode : Mode)
    (args : List (Argument α)) (mem : List α × List α) :
    args.foldlM ((Writer.inserter leaves insertion).step mode) ((), mem) =
      some ((), (Writer.inserter leaves insertion).holding (args.map Prod.snd) () mem) := by
  induction args generalizing mem with
  | nil => cases insertion <;> simp [Writer.holding] <;> rfl
  | cons a args ih =>
    have hstep : (Writer.inserter leaves insertion).step mode ((), mem) a =
        some ((), insertion.place a.2 mem) := by
      cases mode <;> rfl
    rw [List.foldlM_cons, hstep]
    exact (ih (insertion.place a.2 mem)).trans
      (congrArg (fun mem' => some ((), mem')) (holding_place leaves insertion a.2 _ mem))

/-- A position that is kept up to date stays valid. -/
theorem run_vectorInserter (leaves : α → α) (args : List (Argument α)) (mem : List α × List α) :
    args.foldlM ((Writer.vectorInserter leaves).step .inPlace)
        (mem.1.length + mem.2.length, mem) =
      some (mem.1.length + mem.2.length + args.length, (mem.1 ++ args.map Prod.snd, mem.2)) := by
  induction args generalizing mem with
  | nil => simp; rfl
  | cons a args ih =>
    have hstep : (Writer.vectorInserter leaves).step .inPlace (mem.1.length + mem.2.length, mem) a =
        some (mem.1.length + mem.2.length + 1, (mem.1 ++ [a.2], mem.2)) := by
      unfold Writer.step
      simp only [Writer.assign, if_true]
      rfl
    have hsize : (mem.1 ++ [a.2]).length + mem.2.length = mem.1.length + mem.2.length + 1 := by
      rw [List.length_append, List.length_singleton, Nat.add_right_comm]
    have hrest := ih (mem.1 ++ [a.2], mem.2)
    simp only [hsize] at hrest
    rw [List.foldlM_cons, hstep]
    refine hrest.trans ?_
    rw [List.append_assoc, List.length_cons, Nat.add_assoc _ 1, Nat.add_comm 1]
    rfl

/-- A position that a copy has invalidated is of no more use. -/
theorem run_vectorInserter_stale {leaves : α → α} {mode : Mode} (hmode : mode ≠ .inPlace)
    {args : List (Argument α)} {mem : List α × List α} {s}
    (h : args.foldlM ((Writer.vectorInserter leaves).step mode)
      (mem.1.length + mem.2.length, mem) = some s) : args.length ≤ 1 := by
  match args with
  | [] => exact Nat.zero_le 1
  | [a] => exact Nat.le_refl 1
  | a :: b :: args =>
    exfalso
    obtain ⟨s', hs', hrest⟩ := Option.bind_eq_some_iff.1 h
    obtain ⟨r, hr, rfl⟩ := Option.map_eq_some_iff.1 hs'
    obtain ⟨-, hr⟩ := Option.ite_none_right_eq_some.1 hr
    cases hr
    obtain ⟨t, ht, -⟩ := Option.bind_eq_some_iff.1 hrest
    obtain ⟨r, hr, -⟩ := Option.map_eq_some_iff.1 ht
    obtain ⟨hvalid, -⟩ := Option.ite_none_right_eq_some.1 hr
    have hsize : mem.1.length + mem.2.length = (mem.1 ++ [a.2]).length + mem.2.length := by
      cases mode with
      | inPlace => exact absurd rfl hmode
      | copied => exact hvalid
      | stale => exact hvalid
    rw [List.length_append, List.length_singleton] at hsize
    omega

theorem holding_nil (leaves : α → α) (p : ℕ) (mem : List (Option α)) :
    (Writer.pointer leaves).holding [] p mem = mem := by
  show mem.take p ++ [] ++ mem.drop p = mem
  rw [List.append_nil, List.take_append_drop]

/-- One value reaches the place of a pointer, whatever becomes of the pointer. -/
theorem run_pointer_single (leaves : α → α) (mode : Mode) (a : Argument α) {p : ℕ}
    {mem : List (Option α)} (hp : p < mem.length) :
    ∃ p', [a].foldlM ((Writer.pointer leaves).step mode) (p, mem) =
      some (p', (Writer.pointer leaves).holding [a.2] p mem) := by
  have hset : mem.set p (some a.2) = (Writer.pointer leaves).holding [a.2] p mem :=
    (holding_nil leaves (p + 1) _).symm.trans (holding_set leaves hp a.2 [])
  rw [← hset, List.foldlM_cons]
  unfold Writer.step
  simp only [Writer.assign, if_pos hp]
  exact ⟨_, rfl⟩

theorem run_vectorInserter_single (leaves : α → α) (mode : Mode) (a : Argument α)
    (mem : List α × List α) :
    ∃ size, [a].foldlM ((Writer.vectorInserter leaves).step mode)
      (mem.1.length + mem.2.length, mem) = some (size, (mem.1 ++ [a.2], mem.2)) := by
  rw [List.foldlM_cons]
  unfold Writer.step
  simp only [Writer.assign, if_true]
  exact ⟨_, rfl⟩

theorem run_nil (mode : Mode) (args : List (Argument α)) :
    args.foldlM ((Outputs.nil : Outputs α).step mode) ((), ()) = some ((), ()) := by
  induction args with
  | nil => rfl
  | cons a args ih =>
    have hstep : (Outputs.nil : Outputs α).step mode ((), ()) a = some ((), ()) := by
      cases mode <;> rfl
    rw [List.foldlM_cons, hstep]
    exact ih

end Steps

/-! ## Sequences -/

mutual

/-- By induction on the writer: whatever each sink is handed, it keeps. -/
theorem run_of_lossless : ∀ {α : Type} (w : Writer α) {mode : Mode} {args : List (Argument α)}
    {vs : List α} {i : w.Iter} {m : w.Memory}, w.Intact args vs → w.Lossless mode vs →
      w.Room vs i m →
      ∃ i', args.foldlM (w.step mode) (i, m) = some (i', w.holding vs i m)
  | _, .pointer leaves, mode, args, vs, p, mem, hintact, hlossless, hroom => by
    obtain rfl : args.map Prod.snd = vs := hintact
    have hlength : (args.map Prod.snd).length = args.length := List.length_map _
    by_cases hmode : mode = .stale
    · subst hmode
      have hone : args.length ≤ 1 := hlength ▸ hlossless rfl
      match args with
      | [] => exact ⟨p, congrArg (fun mem' => some (p, mem')) (holding_nil leaves p mem).symm⟩
      | [a] => exact run_pointer_single leaves .stale a hroom
      | a :: b :: args => exact absurd hone (by simp)
    · exact ⟨_, run_pointer hmode args p mem (hlength ▸ hroom)⟩
  | _, .inserter leaves insertion, mode, args, vs, it, mem, hintact, _, _ => by
    obtain rfl : args.map Prod.snd = vs := hintact
    exact ⟨_, run_inserter leaves insertion mode args mem⟩
  | _, .vectorInserter leaves, mode, args, vs, size, mem, hintact, hlossless, hroom => by
    obtain rfl : args.map Prod.snd = vs := hintact
    obtain rfl : size = mem.1.length + mem.2.length := hroom
    by_cases hmode : mode = .inPlace
    · subst hmode
      exact ⟨_, run_vectorInserter leaves args mem⟩
    · have hone : args.length ≤ 1 := (by simpa using hlossless hmode)
      match args with
      | [] =>
        exact ⟨_, congrArg (fun before => some (_, (before, mem.2))) (List.append_nil mem.1).symm⟩
      | [a] => exact run_vectorInserter_single leaves mode a mem
      | a :: b :: args => exact absurd hone (by simp)
  | _, .transformed f w, mode, args, vs, it, mem, hintact, hlossless, hroom => by
    obtain ⟨it', hrun⟩ := run_of_lossless w (i := it) (m := mem) hintact hlossless hroom
    exact ⟨it', (run_transformed f w mode (it, mem) args).trans hrun⟩
  | _, .multiplex ws, mode, args, vs, it, mem, hintact, hlossless, hroom => by
    obtain ⟨it', hrun⟩ := runAll_of_lossless ws (i := it) (m := mem) hintact hlossless hroom
    exact ⟨it', hrun⟩
  | _, .filtering pred w, mode, args, vs, it, mem, hintact, hlossless, hroom => by
    obtain ⟨it', hrun⟩ := run_of_lossless w (i := it) (m := mem) hintact hlossless hroom
    exact ⟨it', (run_filtering pred w mode (it, mem) args).trans hrun⟩

theorem runAll_of_lossless : ∀ {α : Type} (ws : Outputs α) {mode : Mode}
    {args : List (Argument α)} {vs : List α} {i : ws.Iters} {m : ws.Memories},
      ws.IntactAll args vs → ws.LosslessAll mode vs → ws.RoomAll vs i m →
      ∃ i', args.foldlM (ws.step mode) (i, m) = some (i', ws.holdingAll vs i m)
  | _, .nil, mode, args, _, it, mem, _, _, _ => ⟨it, run_nil mode args⟩
  | _, .cons w ws, mode, args, vs, it, mem, hintact, hlossless, hroom => by
    obtain ⟨it₁, hfirst⟩ := run_of_lossless w hintact.1 hlossless.1 hroom.1
    obtain ⟨it₂, hrest⟩ := runAll_of_lossless ws hintact.2 hlossless.2 hroom.2
    exact ⟨(it₁, it₂), run_cons.2 ⟨hfirst, hrest⟩⟩

end

mutual

theorem exists_room : ∀ {α : Type} (w : Writer α) (vs : List α), ∃ it mem, w.Room vs it mem
  | α, .pointer _, vs => by
    have hroom : 0 + vs.length ≤ (List.replicate vs.length (none : Option α)).length := by simp
    exact ⟨(0 : ℕ), (List.replicate vs.length none : List (Option α)), hroom⟩
  | α, .inserter _ _, _ => ⟨(), (([], []) : List α × List α), trivial⟩
  | α, .vectorInserter _, _ => ⟨(0 : ℕ), (([], []) : List α × List α), rfl⟩
  | _, .transformed f w, vs => exists_room w (vs.map f.fn)
  | _, .multiplex ws, vs => exists_roomAll ws vs
  | _, .filtering pred w, vs => exists_room w (vs.filter pred)

theorem exists_roomAll : ∀ {α : Type} (ws : Outputs α) (vs : List α),
    ∃ it mem, ws.RoomAll vs it mem
  | _, .nil, _ => ⟨(), (), trivial⟩
  | _, .cons w ws, vs => by
    obtain ⟨it, mem, hfirst⟩ := exists_room w vs
    obtain ⟨its, mems, hrest⟩ := exists_roomAll ws vs
    exact ⟨(it, its), (mem, mems), hfirst, hrest⟩

end

section Converse

variable {α : Type}

/-- In this mode, `args` leave `vs` in every sink that has room for them. -/
def Writer.Reaches (w : Writer α) (mode : Mode) (args : List (Argument α)) (vs : List α) : Prop :=
  ∀ it mem, w.Room vs it mem →
    ∃ it', args.foldlM (w.step mode) (it, mem) = some (it', w.holding vs it mem)

def Outputs.Reaches (ws : Outputs α) (mode : Mode) (args : List (Argument α)) (vs : List α) :
    Prop :=
  ∀ it mem, ws.RoomAll vs it mem →
    ∃ it', args.foldlM (ws.step mode) (it, mem) = some (it', ws.holdingAll vs it mem)

theorem reaches_cons {w : Writer α} {ws : Outputs α} {mode : Mode} {args : List (Argument α)}
    {vs : List α} (h : (Outputs.cons w ws).Reaches mode args vs) :
    w.Reaches mode args vs ∧
      ws.Reaches mode (args.map fun a => (a.1, w.left a.1 a.2)) vs := by
  constructor
  · intro it mem hroom
    obtain ⟨its, mems, hrest⟩ := exists_roomAll ws vs
    obtain ⟨it', hrun⟩ := h (it, its) (mem, mems) ⟨hroom, hrest⟩
    exact ⟨it'.1, (run_cons (s := (it, mem)) (t := (it'.1, w.holding vs it mem))
      (r := (its, mems)) (q := (it'.2, ws.holdingAll vs its mems)).1 hrun).1⟩
  · intro its mems hroom
    obtain ⟨it, mem, hfirst⟩ := exists_room w vs
    obtain ⟨it', hrun⟩ := h (it, its) (mem, mems) ⟨hfirst, hroom⟩
    exact ⟨it'.2, (run_cons (s := (it, mem)) (t := (it'.1, w.holding vs it mem))
      (r := (its, mems)) (q := (it'.2, ws.holdingAll vs its mems)).1 hrun).2⟩

theorem reaches_transformed {β : Type} {f : Mapping α β} {w : Writer β} {mode : Mode}
    {args : List (Argument α)} {vs : List α} (h : (Writer.transformed f w).Reaches mode args vs) :
    w.Reaches mode (args.map f.apply) (vs.map f.fn) := by
  intro it mem hroom
  obtain ⟨it', hrun⟩ := h it mem hroom
  exact ⟨it', (run_transformed f w mode (it, mem) args).symm.trans hrun⟩

theorem reaches_filtering {pred : α → Bool} {w : Writer α} {mode : Mode}
    {args : List (Argument α)} {vs : List α} (h : (Writer.filtering pred w).Reaches mode args vs) :
    w.Reaches mode.filtered (args.filter fun a => pred a.2) (vs.filter pred) := by
  intro it mem hroom
  obtain ⟨it', hrun⟩ := h it mem hroom
  exact ⟨it', (run_filtering pred w mode (it, mem) args).symm.trans hrun⟩

/-- What is written to a blank array is all that is in it. -/
theorem reduceOption_holding (leaves : α → α) (vs : List α) (n : ℕ) :
    List.reduceOption ((Writer.pointer leaves).holding vs (0 : ℕ)
      (List.replicate n none : List (Option α))) = vs := by
  show List.reduceOption ((List.replicate n none).take 0 ++ vs.map some ++
    (List.replicate n none).drop (0 + vs.length)) = vs
  rw [List.take_zero, List.nil_append, List.drop_replicate, List.reduceOption_append,
    List.reduceOption_replicate_none, List.append_nil]
  simp [List.reduceOption]

mutual

/-- By induction on the writer: in place, what is in the sinks is what they are
    handed. -/
theorem intact_of_reaches : ∀ {α : Type} (w : Writer α) {args : List (Argument α)} {vs : List α},
    w.Reaches .inPlace args vs → w.Intact args vs
  | α, .pointer leaves, args, vs, h => by
    have hroom (us : List α) (n : ℕ) : 0 + us.length ≤
        (List.replicate (us.length + n) (none : Option α)).length := by simp
    obtain ⟨p, hrun⟩ := h (0 : ℕ) (List.replicate (vs.length + args.length) none : List (Option α))
      (hroom vs args.length)
    have hhanded := @run_pointer _ leaves .inPlace nofun args 0
      (List.replicate (vs.length + args.length) none) (by simp)
    have hmemory := congrArg Prod.snd (Option.some.inj (hhanded.symm.trans hrun))
    have hblank := congrArg List.reduceOption hmemory
    exact (reduceOption_holding leaves _ _).symm.trans
      (hblank.trans (reduceOption_holding leaves _ _))
  | _, .inserter leaves insertion, args, vs, h => by
    obtain ⟨it, hrun⟩ := h () ([], []) trivial
    have hmemory := congrArg Prod.snd (Option.some.inj
      ((run_inserter leaves insertion .inPlace args ([], [])).symm.trans hrun))
    cases insertion with
    | insert => exact congrArg Prod.fst hmemory
    | pushFront =>
      have hreverse : (args.map Prod.snd).reverse ++ [] = vs.reverse ++ [] :=
        congrArg Prod.snd hmemory
      exact List.reverse_injective (List.append_cancel_right hreverse)
  | _, .vectorInserter leaves, args, vs, h => by
    obtain ⟨size, hrun⟩ := h (0 : ℕ) ([], []) rfl
    have hmemory := congrArg Prod.snd (Option.some.inj
      ((run_vectorInserter leaves args ([], [])).symm.trans hrun))
    exact congrArg Prod.fst hmemory
  | _, .transformed f w, _, _, h => intact_of_reaches w (reaches_transformed h)
  | _, .multiplex ws, _, _, h => intactAll_of_reaches ws h
  | _, .filtering pred w, _, _, h => intact_of_reaches w (reaches_filtering h)

theorem intactAll_of_reaches : ∀ {α : Type} (ws : Outputs α) {args : List (Argument α)}
    {vs : List α}, ws.Reaches .inPlace args vs → ws.IntactAll args vs
  | _, .nil, _, _, _ => trivial
  | _, .cons w ws, _, _, h =>
    ⟨intact_of_reaches w (reaches_cons h).1, intactAll_of_reaches ws (reaches_cons h).2⟩

end

mutual

/-- By induction on the writer: what is left behind is in the way of a second value. -/
theorem lossless_of_reaches : ∀ {α : Type} (w : Writer α) {mode : Mode} {args : List (Argument α)}
    {vs : List α}, w.Intact args vs → w.Reaches mode args vs → w.Lossless mode vs
  | α, .pointer leaves, mode, args, vs, _, h => by
    rintro rfl
    have hroom (us : List α) : 0 + us.length ≤
        (List.replicate us.length (none : Option α)).length := by simp
    obtain ⟨p, hrun⟩ := h (0 : ℕ) (List.replicate vs.length none : List (Option α)) (hroom vs)
    have hrest : ((Writer.pointer leaves).holding vs (0 : ℕ)
        (List.replicate vs.length none : List (Option α)) : List (Option α)).drop 1 =
          (List.replicate vs.length none).drop 1 := run_pointer_stale hrun
    match vs with
    | [] => exact Nat.zero_le 1
    | [v] => exact Nat.le_refl 1
    | v :: v' :: vs => cases congrArg List.head? hrest
  | _, .inserter _ _, _, _, _, _, _ => trivial
  | _, .vectorInserter leaves, mode, args, vs, hintact, h => by
    intro hmode
    obtain rfl : args.map Prod.snd = vs := hintact
    obtain ⟨size, hrun⟩ := h (0 : ℕ) ([], []) rfl
    rw [List.length_map]
    exact @run_vectorInserter_stale _ leaves _ hmode args ([], []) _ hrun
  | _, .transformed f w, _, _, _, hintact, h =>
    lossless_of_reaches w hintact (reaches_transformed h)
  | _, .multiplex ws, _, _, _, hintact, h => losslessAll_of_reaches ws hintact h
  | _, .filtering pred w, _, _, _, hintact, h =>
    lossless_of_reaches w hintact (reaches_filtering h)

theorem losslessAll_of_reaches : ∀ {α : Type} (ws : Outputs α) {mode : Mode}
    {args : List (Argument α)} {vs : List α}, ws.IntactAll args vs → ws.Reaches mode args vs →
      ws.LosslessAll mode vs
  | _, .nil, _, _, _, _, _ => trivial
  | _, .cons w ws, _, _, _, hintact, h =>
    ⟨lossless_of_reaches w hintact.1 (reaches_cons h).1,
      losslessAll_of_reaches ws hintact.2 (reaches_cons h).2⟩

end

end Converse

mutual

theorem lossless_inPlace : ∀ {α : Type} (w : Writer α) (vs : List α), w.Lossless .inPlace vs
  | _, .pointer _, _ => nofun
  | _, .inserter _ _, _ => trivial
  | _, .vectorInserter _, _ => fun h => absurd rfl h
  | _, .transformed f w, vs => lossless_inPlace w (vs.map f.fn)
  | _, .multiplex ws, vs => losslessAll_inPlace ws vs
  | _, .filtering pred w, vs => lossless_inPlace w (vs.filter pred)

theorem losslessAll_inPlace : ∀ {α : Type} (ws : Outputs α) (vs : List α),
    ws.LosslessAll .inPlace vs
  | _, .nil, _ => trivial
  | _, .cons w ws, vs => ⟨lossless_inPlace w vs, losslessAll_inPlace ws vs⟩

end

section Forms

variable {α : Type} (w : Writer α)

theorem writeThenIncrement_eq (vs : List α) (s : w.Iter × w.Memory) :
    vs.foldlM w.writeThenIncrement s =
      (vs.map fun v => (ValueCategory.lvalue, v)).foldlM (w.step .inPlace) s := by
  rw [List.foldlM_map]
  rfl

/-- The post-increment leaves a copy to write to, or has no effect. -/
theorem writePostIncrement_eq (vs : List α) (s : w.Iter × w.Memory) :
    vs.foldlM w.writePostIncrement s =
      (vs.map fun v => (ValueCategory.lvalue, v)).foldlM
        (w.step (if w.postIncrementCopies then .copied else .inPlace)) s := by
  rw [List.foldlM_map]
  cases w <;> rfl

/-- The sequences that a writer keeps, with both forms of writing: those of which
    every sink is handed its part and, if the writer is copied by its
    post-increment, no pointer that is left behind and no position that is
    invalidated is needed a second time. -/
theorem obeys_iff {α : Type} (w : Writer α) (vs : List α) :
    w.Obeys vs ↔
      w.Intact (vs.map fun v => (ValueCategory.lvalue, v)) vs ∧
        (w.postIncrementCopies = true → w.Lossless .copied vs) := by
  have hobeys : w.Obeys vs ↔
      w.Reaches (if w.postIncrementCopies then .copied else .inPlace)
          (vs.map fun v => (ValueCategory.lvalue, v)) vs ∧
        w.Reaches .inPlace (vs.map fun v => (ValueCategory.lvalue, v)) vs := by
    simp only [Writer.Obeys, writePostIncrement_eq, writeThenIncrement_eq]
    exact ⟨fun h => ⟨fun it mem hroom => (h it mem hroom).1,
      fun it mem hroom => (h it mem hroom).2⟩,
      fun h it mem hroom => ⟨h.1 it mem hroom, h.2 it mem hroom⟩⟩
  rw [hobeys]
  constructor
  · rintro ⟨hpost, hthen⟩
    have hintact := intact_of_reaches w hthen
    refine ⟨hintact, fun hcopies => lossless_of_reaches w hintact ?_⟩
    rw [if_pos hcopies] at hpost
    exact hpost
  · rintro ⟨hintact, hlossless⟩
    refine ⟨fun it mem => run_of_lossless w hintact ?_,
      fun it mem => run_of_lossless w hintact (lossless_inPlace w vs)⟩
    cases hcopies : w.postIncrementCopies with
    | true => exact hlossless hcopies
    | false => exact lossless_inPlace w vs

end Forms

/-! ### `spread_writer` -/

section Spread

variable {γ : Type}

theorem intactAll_pickOutputs {n : ℕ} {α : Fin n → Type} (pick : ∀ i, γ → α i)
    (ws : ∀ i, Writer (α i)) (args : List (Argument γ)) (vs : List γ) :
    (pickOutputs pick ws).IntactAll args vs ↔
      ∀ i, (ws i).Intact (args.map fun a => (.lvalue, pick i a.2)) (vs.map (pick i)) := by
  induction n with
  | zero => exact iff_of_true trivial fun i => i.elim0
  | succ n ih =>
    have hleft : args.map (fun a => (a.1, left (id : γ → γ) a.1 a.2)) = args := by
      refine (List.map_congr_left fun a _ => ?_).trans (List.map_id args)
      obtain ⟨c, v⟩ := a
      cases c <;> rfl
    rw [Fin.forall_fin_succ, ← ih (fun i => pick i.succ)]
    show _ ∧ (pickOutputs _ _).IntactAll
      (args.map fun a => (a.1, left (id : γ → γ) a.1 a.2)) vs ↔ _
    rw [hleft]
    rfl

theorem losslessAll_pickOutputs {n : ℕ} {α : Fin n → Type} (pick : ∀ i, γ → α i)
    (ws : ∀ i, Writer (α i)) (mode : Mode) (vs : List γ) :
    (pickOutputs pick ws).LosslessAll mode vs ↔ ∀ i, (ws i).Lossless mode (vs.map (pick i)) := by
  induction n with
  | zero => exact iff_of_true trivial fun i => i.elim0
  | succ n ih =>
    rw [Fin.forall_fin_succ, ← ih (fun i => pick i.succ)]
    rfl

/-- A `spread_writer` hands lvalues to all of its outputs: no output takes anything from
    another. -/
theorem obeys_spreadWriter {n : ℕ} {α : Fin n → Type} (ws : ∀ i, Writer (α i))
    (vs : List (∀ i, α i)) :
    (spreadWriter ws).Obeys vs ↔
      ∀ i, (ws i).Intact (vs.map fun v => (.lvalue, v i)) (vs.map fun v => v i) ∧
        (ws i).Lossless .copied (vs.map fun v => v i) := by
  have hspread : (spreadWriter ws).Obeys vs ↔
      (pickOutputs (fun i (t : ∀ i, α i) => t i) ws).IntactAll
          (vs.map fun v => (ValueCategory.lvalue, v)) vs ∧
        (pickOutputs (fun i (t : ∀ i, α i) => t i) ws).LosslessAll .copied vs :=
    (obeys_iff _ vs).trans (and_congr_right fun _ => ⟨fun h => h rfl, fun h _ => h⟩)
  rw [hspread, intactAll_pickOutputs, losslessAll_pickOutputs, ← forall_and]
  simp only [List.map_map]
  rfl

end Spread

/-- `multiplex_writer(filtering_writer(pred, a), b)` for two arrays and `pred` true. -/
def filteredPair : Writer ℕ :=
  .multiplex (.cons (.filtering (fun _ => true) (.pointer id)) (.cons (.pointer id) .nil))

def filteredPair.iters (i j : ℕ) : filteredPair.Iter := ((i, j, ()) : ℕ × ℕ × Unit)

def filteredPair.arrays (a b : List (Option ℕ)) : filteredPair.Memory :=
  ((a, b, ()) : List (Option ℕ) × List (Option ℕ) × Unit)

/-- Of two values written with `*w++ = v`, the second overwrites the first in the array
    below the filter. -/
theorem filteredPair_overwrites :
    [1, 2].foldlM filteredPair.writePostIncrement
        (filteredPair.iters 0 0, filteredPair.arrays [none, none] [none, none]) =
      some (filteredPair.iters 0 2, filteredPair.arrays [some 2, none] [some 1, some 2]) ∧
    [1, 2].foldlM filteredPair.writeThenIncrement
        (filteredPair.iters 0 0, filteredPair.arrays [none, none] [none, none]) =
      some (filteredPair.iters 2 2, filteredPair.arrays [some 1, some 2] [some 1, some 2]) ∧
    ¬ filteredPair.Obeys [1, 2] := by
  refine ⟨rfl, rfl, fun h => ?_⟩
  obtain ⟨it, hpost⟩ := (h (filteredPair.iters 0 0)
    (filteredPair.arrays [none, none] [none, none]) ⟨Nat.le_refl 2, Nat.le_refl 2, trivial⟩).1
  cases congrArg (Option.map fun s => s.2) hpost

end BambooShoot.Pbsu.Writers
