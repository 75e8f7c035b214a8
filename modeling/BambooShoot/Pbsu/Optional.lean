import BambooShoot.Lib.Parts
import BambooShoot.Pbsu.MultiplexWriter
import Mathlib.Logic.Function.Basic

/-!
# `optional`

Model of `optional_holder` and `optional` (`optional.hh`, lines 72–325): a union
of an empty struct and a `T`, beside the flag `has_value`. `ValueClass` is what a
`T` does, with effects elsewhere and exceptions; the union knows whether a `T` is
alive in it. To construct over a live `T`, to read or destroy one that is not
there and to give up the storage of a live one are faults.

`specStep` is the optional type of mathematics: a value or none, without storage
or flag. `history_repr`: every history does what is specified and never comes to a
fault, as long as no swap has to move a value from the left into an empty optional
on the right, and no `emplace` gets the value that it ends. There `swap` constructs
the `T` from the optional itself (line 321).
-/

namespace BambooShoot.Pbsu.Optional

open BambooShoot.Lib

/-! ## Values -/

/-- A class `T`. Its functions read and write `E` and may throw an `ε`, half-way
    too; those with two operands have their own way with a single object.
    `fromOptional` is the constructor that takes an `optional<T>&&`, if any. -/
structure ValueClass (T E ε : Type) where
  triviallyDestructible : Bool
  destroy : T → E → E
  copyConstruct : T → EStateM ε E T
  moveConstruct : EStateM ε (T × E) T
  copyAssign : T → EStateM ε (T × E) Unit
  moveAssign : EStateM ε ((T × T) × E) Unit
  swap : EStateM ε ((T × T) × E) Unit
  selfAssign : ValueCategory → EStateM ε (T × E) Unit
  selfSwap : EStateM ε (T × E) Unit
  fromOptional : Option (EStateM ε (Option T × E) T)
  destroy_of_trivial : triviallyDestructible = true → ∀ x e, destroy x e = e

section Values

variable {T E ε σ τ α : Type}

/-- A result with its state seen through `f`. -/
def mapState (f : σ → τ) : EStateM.Result ε σ α → EStateM.Result ε τ α
  | .ok a s => .ok a (f s)
  | .error e s => .error e (f s)

/-- `T(v)` or `T(std::move(v))`, with what is left of `v`. -/
def ValueClass.construct (V : ValueClass T E ε) : ValueCategory → EStateM ε (T × E) T
  | .lvalue => fun s => onSnd (V.copyConstruct s.1) s
  | .rvalue => V.moveConstruct

/-- `x = v` or `x = std::move(v)`. -/
def ValueClass.assign (V : ValueClass T E ε) : ValueCategory → EStateM ε ((T × T) × E) Unit
  | .lvalue => fun s =>
    zoom (fun s => (s.1.1, s.2)) (fun t s => ((t.1, s.1.2), t.2)) (V.copyAssign s.1.2) s
  | .rvalue => V.moveAssign

/-- `p` with a second operand that nobody looks at any more. -/
def withOperand (v : τ) (p : EStateM ε ((σ × τ) × E) α) : EStateM ε (σ × E) α :=
  fun s => mapState (fun t => (t.1.1, t.2)) (p ((s.1, v), s.2))

/-- `T(v)` with a `v` that nobody looks at any more. -/
def ValueClass.constructOutside (V : ValueClass T E ε) (category : ValueCategory) (v : T) :
    EStateM ε E T :=
  fun e => mapState Prod.snd (V.construct category (v, e))

end Values

/-! ## Model -/

/-- The members of an `optional_holder<T>`; `value` is the `T` alive in the union. -/
structure Holder (T : Type) where
  value : Option T
  hasValue : Bool

/-- The optionals that exist, by name, and what `T` reads and writes. -/
structure Memory (T E : Type) where
  objects : ℕ → Option (Holder T)
  env : E

/-- An exception of `T`; a violation of the lifetime of a `T`; a call that does not
    compile; a call for an object that does not exist, or exists already. -/
inductive Fault (ε : Type) where
  | exception (e : ε)
  | lifetime
  | illFormed
  | noObject

/-- A `T` that is assigned: outside of all optionals, or the value of one. -/
inductive Operand (T : Type) where
  | outside (v : T)
  | inside (b : ℕ)

/-- The arguments of a constructor of `T`, and what it does with them. They may be, or
    refer into, the values of the optionals `within`. -/
structure Arguments (T E ε : Type) where
  within : List ℕ
  init : EStateM ε (({b // b ∈ within} → T) × E) T

section Model

variable {T E ε α : Type}

abbrev Program (T E ε α : Type) := EStateM (Fault ε) (Memory T E) α

/-- The memory with other members of the object `a`. -/
def Memory.put (m : Memory T E) (a : ℕ) (h : Holder T) : Memory T E :=
  { m with objects := Function.update m.objects a (some h) }

/-- What a function of `T` leaves behind and throws, in a program. -/
def thrown {σ : Type} (f : σ → Memory T E) :
    EStateM.Result ε σ α → EStateM.Result (Fault ε) (Memory T E) α
  | .ok a s => .ok a (f s)
  | .error e s => .error (.exception e) (f s)

/-- What is in the optional `a`, if it exists. -/
def Memory.contents (m : Memory T E) (a : ℕ) : Option (Option T) :=
  (m.objects a).map Holder.value

theorem isSome_of_forall {contents : ℕ → Option (Option T)} {names : List ℕ}
    (h : ∀ b ∈ names, (contents b).join.isSome) (b : {b // b ∈ names}) :
    (contents b).join.isSome := h b b.2

/-- The values of the optionals `names`, if each of them has one. -/
def valuesOf (contents : ℕ → Option (Option T)) (names : List ℕ) :
    Option ({b // b ∈ names} → T) :=
  if h : ∀ b ∈ names, (contents b).join.isSome then
    some fun b => (contents b).join.get (isSome_of_forall h b)
  else none

/-- The memory with other values in the optionals `names`. -/
def Memory.putValues (m : Memory T E) {names : List ℕ} (v : {b // b ∈ names} → T) :
    Memory T E where
  objects c :=
    if h : c ∈ names then (m.objects c).map fun o => { o with value := some (v ⟨c, h⟩) }
    else m.objects c
  env := m.env

/-- An object by its name. -/
def holder (a : ℕ) : Program T E ε (Holder T) := fun m =>
  match m.objects a with
  | some h => .ok h m
  | none => .error .noObject m

def hasValue (a : ℕ) : Program T E ε Bool := do
  let h ← holder a
  pure h.hasValue

def setHasValue (a : ℕ) (flag : Bool) : Program T E ε Unit := do
  let h ← holder a
  modify fun m => m.put a { h with hasValue := flag }

/-- `p` elsewhere than in the optionals. -/
def onEnv (p : EStateM ε E α) : Program T E ε α := fun m =>
  thrown (fun e => { m with env := e }) (p m.env)

/-- `p` on the value of `a`, which has to be there. -/
def onValue (a : ℕ) (p : EStateM ε (T × E) α) : Program T E ε α := fun m =>
  match m.objects a with
  | none => .error .noObject m
  | some ⟨none, _⟩ => .error .lifetime m
  | some ⟨some x, flag⟩ =>
    thrown (fun s => { m.put a ⟨some s.1, flag⟩ with env := s.2 }) (p (x, m.env))

/-- `p` on the values of two objects. -/
def onValues (a b : ℕ) (p : EStateM ε ((T × T) × E) α) : Program T E ε α := fun m =>
  match m.objects a, m.objects b with
  | some ⟨some x, flag⟩, some ⟨some y, flag'⟩ =>
    thrown (fun s =>
      { (m.put a ⟨some s.1.1, flag⟩).put b ⟨some s.1.2, flag'⟩ with env := s.2 })
      (p ((x, y), m.env))
  | some _, some _ => .error .lifetime m
  | _, _ => .error .noObject m

/-- `T(arg...)`. -/
def constructArguments (args : Arguments T E ε) : Program T E ε T := fun m =>
  match valuesOf m.contents args.within with
  | none => .error .lifetime m
  | some v => thrown (fun s => { m.putValues s.1 with env := s.2 }) (args.init (v, m.env))

/-- `::new (std::addressof(value)) T(...)`, once the constructor has returned `v`. -/
def beginValue (a : ℕ) (v : T) : Program T E ε Unit := do
  let h ← holder a
  match h.value with
  | some _ => throw .lifetime
  | none => modify fun m => m.put a { h with value := some v }

/-- `value.~T()`. -/
def endValue (V : ValueClass T E ε) (a : ℕ) : Program T E ε Unit := do
  let h ← holder a
  match h.value with
  | none => throw .lifetime
  | some x =>
    modify fun m => { m.put a { h with value := none } with env := V.destroy x m.env }

/-- `construct(arg...)` (lines 87–93). -/
def construct (a : ℕ) (init : Program T E ε T) : Program T E ε Unit := do
  let v ← init
  beginValue a v
  setHasValue a true

variable (V : ValueClass T E ε)

/-- `destruct()` (lines 95–99). -/
def destruct (a : ℕ) : Program T E ε Unit := do
  endValue V a
  setHasValue a false

/-- The storage of `a` is taken into use. -/
def create (a : ℕ) (h : Holder T) : Program T E ε Unit := fun m =>
  match m.objects a with
  | none => .ok () (m.put a h)
  | some _ => .error .noObject m

/-- The storage of `a` is given up. A `T` in it may be forgotten only if its
    destructor is trivial. -/
def release (a : ℕ) : Program T E ε Unit := do
  let h ← holder a
  if h.value.isSome && !V.triviallyDestructible then throw .lifetime
  else modify fun m => { m with objects := Function.update m.objects a none }

/-- The body of a constructor: after an exception there is no object. -/
def constructorBody (a : ℕ) (body : Program T E ε Unit) : Program T E ε Unit := fun m =>
  match body m with
  | .error (.exception e) m' => (release V a >>= fun _ => throw (.exception e)) m'
  | r => r

/-- `optional()` and `optional(nullopt)` (lines 109–111). -/
def constructEmpty (a : ℕ) : Program T E ε Unit := create a ⟨none, false⟩

/-- `optional_holder(in_place, arg...)` (lines 127–131). -/
def constructInPlace (a : ℕ) (args : Arguments T E ε) : Program T E ε Unit := do
  let v ← constructArguments args
  create a ⟨some v, true⟩

/-- `T(u)`. -/
def constructWith (category : ValueCategory) : Operand T → Program T E ε T
  | .outside v => onEnv (V.constructOutside category v)
  | .inside b => onValue b (V.construct category)

/-- `optional(v)` and `optional(std::move(v))` (lines 250–256). -/
def constructValue (category : ValueCategory) (a : ℕ) (u : Operand T) : Program T E ε Unit := do
  let v ← constructWith V category u
  create a ⟨some v, true⟩

/-- `optional_holder(other)` and `optional_holder(std::move(other))` (lines 113–125). -/
def constructFrom (category : ValueCategory) (a b : ℕ) : Program T E ε Unit := do
  let flag ← hasValue b
  create a ⟨none, flag⟩
  if flag then constructorBody V a (construct a (onValue b (V.construct category)))
  else pure ()

/-- `~optional_holder()` (lines 103–107); the other specialization has none. -/
def destroyObject (a : ℕ) : Program T E ε Unit := do
  if !V.triviallyDestructible then
    if ← hasValue a then endValue V a
    else pure ()
  else pure ()
  release V a

/-- `operator=(nullopt)` (lines 258–263). -/
def assignNullopt (a : ℕ) : Program T E ε Unit := do
  if ← hasValue a then destruct V a
  else pure ()

/-- `*(*this) = u`, where there is a value. -/
def assignInto (category : ValueCategory) (a : ℕ) : Operand T → Program T E ε Unit
  | .outside v => onValue a (withOperand v (V.assign category))
  | .inside b =>
    if a = b then onValue a (V.selfAssign category) else onValues a b (V.assign category)

/-- `operator=(other)` and `operator=(std::move(other))` (lines 265–289). -/
def assignOptional (category : ValueCategory) (a b : ℕ) : Program T E ε Unit := do
  let here ← hasValue a
  let there ← hasValue b
  if here && there then assignInto V category a (.inside b)
  else if there then construct a (constructWith V category (.inside b))
  else assignNullopt V a

/-- `operator=(u)` (lines 291–300). -/
def assignValue (category : ValueCategory) (a : ℕ) (u : Operand T) : Program T E ε Unit := do
  if ← hasValue a then assignInto V category a u
  else construct a (constructWith V category u)

/-- `emplace(arg...)` (lines 302–308). The arguments are used when the value of `a` is
    gone. -/
def emplace (a : ℕ) (args : Arguments T E ε) : Program T E ε Unit := do
  assignNullopt V a
  construct a (constructArguments args)

/-- `T(std::move(*this))`, where `*this` is the optional `a`. -/
def constructFromOptional (convert : EStateM ε (Option T × E) T) (a : ℕ) : Program T E ε T :=
  fun m =>
    match m.objects a with
    | none => .error .noObject m
    | some h =>
      thrown (fun s => { m.put a ⟨s.1, s.1.isSome⟩ with env := s.2 }) (convert (h.value, m.env))

/-- `swap(other)` (lines 310–325). -/
def swapWith (a b : ℕ) : Program T E ε Unit :=
  match V.fromOptional with
  | none => throw .illFormed
  | some convert => do
    let here ← hasValue a
    let there ← hasValue b
    if here && there then
      if a = b then onValue a V.selfSwap else onValues a b V.swap
    else if here then
      construct b (constructFromOptional convert a)
      destruct V a
    else if there then
      construct a (constructWith V .rvalue (.inside b))
      destruct V b
    else pure ()

/-- What a program does with its optionals. -/
inductive Operation (T E ε : Type) where
  | constructEmpty (a : ℕ)
  | constructInPlace (a : ℕ) (args : Arguments T E ε)
  | constructValue (category : ValueCategory) (a : ℕ) (u : Operand T)
  | constructFrom (category : ValueCategory) (a b : ℕ)
  | assignNullopt (a : ℕ)
  | assignOptional (category : ValueCategory) (a b : ℕ)
  | assignValue (category : ValueCategory) (a : ℕ) (u : Operand T)
  | emplace (a : ℕ) (args : Arguments T E ε)
  | swap (a b : ℕ)
  | destroy (a : ℕ)

def step : Operation T E ε → Program T E ε Unit
  | .constructEmpty a => constructEmpty a
  | .constructInPlace a args => constructInPlace a args
  | .constructValue category a u => constructValue V category a u
  | .constructFrom category a b => constructFrom V category a b
  | .assignNullopt a => assignNullopt V a
  | .assignOptional category a b => assignOptional V category a b
  | .assignValue category a u => assignValue V category a u
  | .emplace a args => emplace V a args
  | .swap a b => swapWith V a b
  | .destroy a => destroyObject V a

/-- A history of operations, in which every exception is caught: what each has
    thrown, and the memory in the end. A fault of another kind ends it. -/
def history : List (Operation T E ε) → Memory T E → Except (Fault ε) (List (Option ε) × Memory T E)
  | [], m => .ok ([], m)
  | op :: ops, m =>
    match step V op m with
    | .ok _ m' => (history ops m').map fun r => (none :: r.1, r.2)
    | .error (.exception e) m' => (history ops m').map fun r => (some e :: r.1, r.2)
    | .error fault _ => .error fault

end Model

/-! ## Specification -/

/-- The optionals that exist, each with a value or none. -/
structure Spec (T E : Type) where
  contents : ℕ → Option (Option T)
  env : E

section Specification

variable {T E ε : Type}

def Spec.put (s : Spec T E) (a : ℕ) (o : Option T) : Spec T E :=
  { s with contents := Function.update s.contents a (some o) }

/-- The optionals with other values in those of `names`. -/
def Spec.putValues (s : Spec T E) {names : List ℕ} (v : {b // b ∈ names} → T) : Spec T E where
  contents c := if h : c ∈ names then some (some (v ⟨c, h⟩)) else s.contents c
  env := s.env

/-- `p` on the contents of `a`. -/
def onContent (a : ℕ) (p : EStateM ε (Option T × E) Unit) : EStateM ε (Spec T E) Unit := fun s =>
  match s.contents a with
  | none => .ok () s
  | some o => mapState (fun t => { s.put a t.1 with env := t.2 }) (p (o, s.env))

/-- `p` on the contents of two objects. -/
def onContents (a b : ℕ) (p : EStateM ε ((Option T × Option T) × E) Unit) :
    EStateM ε (Spec T E) Unit := fun s =>
  match s.contents a, s.contents b with
  | some o, some o' =>
    mapState (fun t => { (s.put a t.1.1).put b t.1.2 with env := t.2 }) (p ((o, o'), s.env))
  | _, _ => .ok () s

variable (V : ValueClass T E ε)

/-- The end of what there is. -/
def drop (o : Option T) (e : E) : E := o.elim e fun x => V.destroy x e

/-- `o = o'`. -/
def assignTable (category : ValueCategory) : EStateM ε ((Option T × Option T) × E) Unit
  | ((some x, some y), e) =>
    mapState (fun s => ((some s.1.1, some s.1.2), s.2)) (V.assign category ((x, y), e))
  | ((none, some y), e) =>
    match V.construct category (y, e) with
    | .ok v s => .ok () ((some v, some s.1), s.2)
    | .error err s => .error err ((none, some s.1), s.2)
  | ((o, none), e) => .ok () ((none, none), drop V o e)

/-- `o = o`. -/
def selfAssignTable (category : ValueCategory) : EStateM ε (Option T × E) Unit
  | (some x, e) => mapState (fun s => (some s.1, s.2)) (V.selfAssign category (x, e))
  | (none, e) => .ok () (none, e)

/-- A value moves into an empty optional and leaves its own empty. -/
def moveOver (x : T) (e : E) : EStateM.Result ε ((Option T × Option T) × E) Unit :=
  match V.moveConstruct (x, e) with
  | .ok v s => .ok () ((none, some v), V.destroy s.1 s.2)
  | .error err s => .error err ((some s.1, none), s.2)

/-- The contents of two optionals are exchanged. -/
def swapTable : EStateM ε ((Option T × Option T) × E) Unit
  | ((some x, some y), e) =>
    mapState (fun s => ((some s.1.1, some s.1.2), s.2)) (V.swap ((x, y), e))
  | ((some x, none), e) => moveOver V x e
  | ((none, some y), e) => mapState (fun s => (s.1.swap, s.2)) (moveOver V y e)
  | ((none, none), e) => .ok () ((none, none), e)

def selfSwapTable : EStateM ε (Option T × E) Unit
  | (some x, e) => mapState (fun s => (some s.1, s.2)) (V.selfSwap (x, e))
  | (none, e) => .ok () (none, e)

/-- A new optional with a value, or none if its constructor throws. -/
def buildWith (a : ℕ) (init : EStateM ε E T) : EStateM ε (Spec T E) Unit := fun s =>
  match init s.env with
  | .ok v e => .ok () { s.put a (some v) with env := e }
  | .error err e => .error err { s with env := e }

/-- A new value in `a`, made of arguments; if its constructor throws, `a` is as it was. -/
def buildArguments (a : ℕ) (args : Arguments T E ε) : EStateM ε (Spec T E) Unit := fun s =>
  match valuesOf s.contents args.within with
  | none => .ok () s
  | some v =>
    match args.init (v, s.env) with
    | .ok x t => .ok () { (s.putValues t.1).put a (some x) with env := t.2 }
    | .error err t => .error err { s.putValues t.1 with env := t.2 }

/-- Whatever there was in `a` ends, then there is a new value. -/
def emplaceSpec (a : ℕ) (args : Arguments T E ε) : EStateM ε (Spec T E) Unit := fun s =>
  buildArguments a args { s.put a none with env := drop V (s.contents a).join s.env }

/-- A new optional with the contents of another. -/
def buildFrom (category : ValueCategory) (a b : ℕ) : EStateM ε (Spec T E) Unit := fun s =>
  match s.contents b with
  | some (some y) =>
    match V.construct category (y, s.env) with
    | .ok v t => .ok () { (s.put b (some t.1)).put a (some v) with env := t.2 }
    | .error err t => .error err { s.put b (some t.1) with env := t.2 }
  | _ => .ok () (s.put a none)

def specStep : Operation T E ε → EStateM ε (Spec T E) Unit
  | .constructEmpty a => fun s => .ok () (s.put a none)
  | .constructInPlace a args => buildArguments a args
  | .constructValue category a (.outside v) => buildWith a (V.constructOutside category v)
  | .constructValue category a (.inside b) => buildFrom V category a b
  | .constructFrom category a b => buildFrom V category a b
  | .assignNullopt a => onContent a fun s => .ok () (none, drop V s.1 s.2)
  | .assignOptional category a b | .assignValue category a (.inside b) =>
    if a = b then onContent a (selfAssignTable V category)
    else onContents a b (assignTable V category)
  | .assignValue category a (.outside v) =>
    onContent a (withOperand (some v) (assignTable V category))
  | .emplace a args => emplaceSpec V a args
  | .swap a b =>
    if a = b then onContent a (selfSwapTable V) else onContents a b (swapTable V)
  | .destroy a => fun s =>
    .ok () ⟨Function.update s.contents a none, drop V (s.contents a).join s.env⟩

/-- The history as it should be. -/
def specHistory : List (Operation T E ε) → Spec T E → List (Option ε) × Spec T E
  | [], s => ([], s)
  | op :: ops, s =>
    match specStep V op s with
    | .ok _ s' => (specHistory ops s').map (none :: ·) id
    | .error e s' => (specHistory ops s').map (some e :: ·) id

/-- The caller's part: what is constructed does not exist yet, everything else does,
    the value of an optional is named only where there is one, and the arguments of an
    `emplace` are not within the value that it ends. -/
def Usable (s : Spec T E) : Operation T E ε → Prop
  | .constructEmpty a | .constructValue _ a (.outside _) => s.contents a = none
  | .constructInPlace a args =>
    s.contents a = none ∧ ∀ b ∈ args.within, ∃ y, s.contents b = some (some y)
  | .constructValue _ a (.inside b) => s.contents a = none ∧ ∃ y, s.contents b = some (some y)
  | .constructFrom _ a b => s.contents a = none ∧ s.contents b ≠ none
  | .assignNullopt a | .destroy a | .assignValue _ a (.outside _) => s.contents a ≠ none
  | .emplace a args => s.contents a ≠ none ∧ a ∉ args.within ∧
    ∀ b ∈ args.within, ∃ y, s.contents b = some (some y)
  | .assignValue _ a (.inside b) => s.contents a ≠ none ∧ ∃ y, s.contents b = some (some y)
  | .assignOptional _ a b | .swap a b => s.contents a ≠ none ∧ s.contents b ≠ none

/-- A swap compiles and, where only the left side has a value, what is constructed
    from the optional is what a move of its value gives. -/
def Careful (s : Spec T E) : Operation T E ε → Prop
  | .swap a b => ∃ convert, V.fromOptional = some convert ∧
    ∀ x, s.contents a = some (some x) → s.contents b = some none →
      convert (some x, s.env) =
        mapState (fun t => (some t.1, t.2)) (V.moveConstruct (x, s.env))
  | _ => True

/-- A history in which the caller does its part, and every swap is careful. -/
def CarefulHistory : List (Operation T E ε) → Spec T E → Prop
  | [], _ => True
  | op :: ops, s =>
    Usable s op ∧ Careful V s op ∧ CarefulHistory ops (finalState (specStep V op s))

end Specification

/-! ## Steps -/

section Steps

variable {T E ε α : Type} {V : ValueClass T E ε}

/-- The optionals as they are in memory: a flag, and a `T` exactly where it is set. -/
def Spec.repr (s : Spec T E) : Memory T E :=
  ⟨fun a => (s.contents a).map fun o => ⟨o, o.isSome⟩, s.env⟩

theorem objects_repr {s : Spec T E} {a : ℕ} {o : Option T} (h : s.contents a = some o) :
    s.repr.objects a = some ⟨o, o.isSome⟩ := by
  show (s.contents a).map _ = _
  rw [h]
  rfl

theorem objects_repr_none {s : Spec T E} {a : ℕ} (h : s.contents a = none) :
    s.repr.objects a = none := by
  show (s.contents a).map _ = _
  rw [h]
  rfl

theorem repr_put (s : Spec T E) (a : ℕ) (o : Option T) :
    (s.put a o).repr = s.repr.put a ⟨o, o.isSome⟩ := by
  have hobjects : (s.put a o).repr.objects = (s.repr.put a ⟨o, o.isSome⟩).objects := by
    funext b
    exact Function.apply_update (fun _ => Option.map fun o => (⟨o, o.isSome⟩ : Holder T))
      s.contents a (some o) b
  exact congrArg (Memory.mk · s.env) hobjects

theorem put_objects_self (m : Memory T E) (a : ℕ) (h : Holder T) :
    (m.put a h).objects a = some h := Function.update_self ..

theorem put_objects_ne (m : Memory T E) {a b : ℕ} (h : Holder T) (hab : b ≠ a) :
    (m.put a h).objects b = m.objects b := Function.update_of_ne hab ..

theorem put_put (m : Memory T E) (a : ℕ) (h h' : Holder T) :
    (m.put a h).put a h' = m.put a h' :=
  congrArg (Memory.mk · m.env) (Function.update_idem ..)

theorem put_self (m : Memory T E) {a : ℕ} {h : Holder T} (hm : m.objects a = some h) :
    m.put a h = m := by
  unfold Memory.put
  rw [← hm, Function.update_eq_self]

theorem put_comm (m : Memory T E) {a b : ℕ} (hab : a ≠ b) (h h' : Holder T) :
    (m.put a h).put b h' = (m.put b h').put a h :=
  congrArg (Memory.mk · m.env) (Function.update_comm hab.symm ..).symm

theorem thrown_mapState {σ τ : Type} (f : τ → Memory T E) (g : σ → τ)
    (r : EStateM.Result ε σ α) : thrown f (mapState g r) = thrown (fun s => f (g s)) r := by
  cases r <;> rfl

theorem hasValue_eq {m : Memory T E} {a : ℕ} {h : Holder T} (hm : m.objects a = some h) :
    (hasValue a : Program T E ε Bool) m = .ok h.hasValue m := by
  simp [hasValue, holder, hm, bind, EStateM.bind, pure, EStateM.pure]

theorem hasValue_repr {s : Spec T E} {a : ℕ} {o : Option T} (h : s.contents a = some o) :
    (hasValue a : Program T E ε Bool) s.repr = .ok o.isSome s.repr :=
  hasValue_eq (objects_repr h)

theorem onValue_eq {m : Memory T E} {a : ℕ} {x : T} {flag : Bool}
    (hm : m.objects a = some ⟨some x, flag⟩) (p : EStateM ε (T × E) α) :
    onValue a p m =
      thrown (fun s => { m.put a ⟨some s.1, flag⟩ with env := s.2 }) (p (x, m.env)) := by
  simp [onValue, hm]

theorem create_eq {m : Memory T E} {a : ℕ} (hm : m.objects a = none) (h : Holder T) :
    (create a h : Program T E ε Unit) m = .ok () (m.put a h) := by
  simp [create, hm]

/-- A `T` that has been constructed begins its life where there is none. -/
theorem construct_of_ok {m m' : Memory T E} {a : ℕ} {init : Program T E ε T} {v : T} {flag : Bool}
    (hinit : init m = .ok v m') (hm : m'.objects a = some ⟨none, flag⟩) :
    construct a init m = .ok () (m'.put a ⟨some v, true⟩) := by
  have hbegin : (beginValue a v : Program T E ε Unit) m' = .ok () (m'.put a ⟨some v, flag⟩) := by
    simp [beginValue, holder, hm, bind, EStateM.bind, modify_run]
  have hset : (setHasValue a true : Program T E ε Unit) (m'.put a ⟨some v, flag⟩) =
      .ok () (m'.put a ⟨some v, true⟩) := by
    simp [setHasValue, holder, put_objects_self, put_put, bind, EStateM.bind, modify_run]
  simp [construct, bind, EStateM.bind, hinit, hbegin, hset]

/-- A constructor of `T` that throws leaves flag and storage alone. -/
theorem construct_of_error {m m' : Memory T E} {init : Program T E ε T} {fault : Fault ε} (a : ℕ)
    (hinit : init m = .error fault m') : construct a init m = .error fault m' := by
  simp [construct, bind, EStateM.bind, hinit]

theorem endValue_eq {m : Memory T E} {a : ℕ} {x : T} {flag : Bool}
    (hm : m.objects a = some ⟨some x, flag⟩) :
    (endValue V a : Program T E ε Unit) m =
      .ok () { m.put a ⟨none, flag⟩ with env := V.destroy x m.env } := by
  simp [endValue, holder, hm, bind, EStateM.bind, modify_run]

theorem destruct_eq {m : Memory T E} {a : ℕ} {x : T} {flag : Bool}
    (hm : m.objects a = some ⟨some x, flag⟩) :
    (destruct V a : Program T E ε Unit) m =
      .ok () { m.put a ⟨none, false⟩ with env := V.destroy x m.env } := by
  simp [destruct, bind, EStateM.bind, endValue_eq hm, setHasValue, holder, Memory.put, modify_run]

theorem release_eq {m : Memory T E} {a : ℕ} {h : Holder T} (hm : m.objects a = some h)
    (hvalue : h.value.isSome = true → V.triviallyDestructible = true) :
    (release V a : Program T E ε Unit) m =
      .ok () { m with objects := Function.update m.objects a none } := by
  have hfree : (h.value.isSome && !V.triviallyDestructible) = false := by
    cases hv : h.value.isSome
    · rfl
    · simp [hvalue hv]
  simp [release, holder, hm, hfree, bind, EStateM.bind, modify_run]

/-- An exception in the body of a constructor leaves nothing at its place. -/
theorem constructorBody_of_exception {m m' : Memory T E} {a : ℕ} {body : Program T E ε Unit}
    {err : ε} {flag : Bool} (hbody : body m = .error (.exception err) m')
    (hm : m'.objects a = some ⟨none, flag⟩) :
    constructorBody V a body m =
      .error (.exception err) { m' with objects := Function.update m'.objects a none } := by
  simp [constructorBody, hbody, bind, EStateM.bind, release_eq hm, throw_run]

theorem constructorBody_of_ok {m m' : Memory T E} {a : ℕ} {body : Program T E ε Unit}
    (hbody : body m = .ok () m') : constructorBody V a body m = .ok () m' := by
  simp [constructorBody, hbody]

theorem repr_put_env (s : Spec T E) (a : ℕ) (o : Option T) (e : E) :
    ({ s.put a o with env := e } : Spec T E).repr =
      { s.repr.put a ⟨o, o.isSome⟩ with env := e } :=
  congrArg (fun m : Memory T E => { m with env := e }) (repr_put s a o)

theorem onEnv_repr (s : Spec T E) (p : EStateM ε E α) :
    onEnv p s.repr = thrown (fun e => ({ s with env := e } : Spec T E).repr) (p s.env) := rfl

theorem onValue_repr {s : Spec T E} {b : ℕ} {y : T} (h : s.contents b = some (some y))
    (p : EStateM ε (T × E) α) :
    onValue b p s.repr =
      thrown (fun t => ({ s.put b (some t.1) with env := t.2 } : Spec T E).repr)
        (p (y, s.env)) := by
  rw [onValue_eq (objects_repr h)]
  simp only [repr_put_env]
  rfl

theorem onValues_repr {s : Spec T E} {a b : ℕ} {x y : T} (ha : s.contents a = some (some x))
    (hb : s.contents b = some (some y)) (p : EStateM ε ((T × T) × E) α) :
    onValues a b p s.repr =
      thrown (fun t =>
        ({ (s.put a (some t.1.1)).put b (some t.1.2) with env := t.2 } : Spec T E).repr)
        (p ((x, y), s.env)) := by
  simp only [onValues, objects_repr ha, objects_repr hb, repr_put_env, repr_put]
  rfl

theorem construct_repr {m : Memory T E} {s : Spec T E} {a : ℕ} {init : Program T E ε T} {v : T}
    (hinit : init m = .ok v s.repr) (h : s.contents a = some none) :
    construct a init m = .ok () (s.put a (some v)).repr := by
  rw [construct_of_ok hinit (objects_repr h), repr_put]
  rfl

theorem put_contents_self (s : Spec T E) (a : ℕ) (o : Option T) :
    (s.put a o).contents a = some o := Function.update_self ..

theorem put_contents_ne (s : Spec T E) {a b : ℕ} (o : Option T) (hab : b ≠ a) :
    (s.put a o).contents b = s.contents b := Function.update_of_ne hab ..

theorem Spec.put_self {s : Spec T E} {a : ℕ} {o : Option T} (h : s.contents a = some o) :
    s.put a o = s := by
  unfold Spec.put
  rw [← h, Function.update_eq_self]

theorem Spec.put_comm (s : Spec T E) {a b : ℕ} (hab : a ≠ b) (o o' : Option T) :
    (s.put a o).put b o' = (s.put b o').put a o :=
  congrArg (Spec.mk · s.env) (Function.update_comm hab.symm ..).symm

theorem Spec.put_put (s : Spec T E) (a : ℕ) (o o' : Option T) : (s.put a o).put a o' = s.put a o' :=
  congrArg (Spec.mk · s.env) (Function.update_idem ..)

theorem repr_contents (s : Spec T E) (a : ℕ) : s.repr.contents a = s.contents a := by
  show ((s.contents a).map _).map _ = _
  cases s.contents a <;> rfl

theorem exists_valuesOf {contents : ℕ → Option (Option T)} {names : List ℕ}
    (h : ∀ b ∈ names, ∃ y, contents b = some (some y)) : ∃ v, valuesOf contents names = some v := by
  refine ⟨_, dif_pos fun b hb => ?_⟩
  obtain ⟨y, hy⟩ := h b hb
  simp [hy]

theorem exists_of_valuesOf {contents : ℕ → Option (Option T)} {names : List ℕ}
    {v : {b // b ∈ names} → T} (h : valuesOf contents names = some v) {b : ℕ} (hb : b ∈ names) :
    ∃ y, contents b = some (some y) := by
  unfold valuesOf at h
  split at h
  case isTrue hall =>
    obtain ⟨y, hy⟩ := Option.isSome_iff_exists.1 (hall b hb)
    exact ⟨y, Option.join_eq_some_iff.1 hy⟩
  case isFalse => cases h

theorem putValues_contents (s : Spec T E) {names : List ℕ} (v : {b // b ∈ names} → T) {c : ℕ}
    (hc : c ∉ names) : (s.putValues v).contents c = s.contents c := dif_neg hc

/-- Other values in optionals that have one leave the flags as they are. -/
theorem repr_putValues {s : Spec T E} {names : List ℕ}
    (h : ∀ b ∈ names, ∃ y, s.contents b = some (some y)) (v : {b // b ∈ names} → T) :
    (s.putValues v).repr = s.repr.putValues v := by
  refine congrArg (Memory.mk · s.env) (funext fun c => ?_)
  by_cases hc : c ∈ names
  · obtain ⟨y, hy⟩ := h c hc
    simp [Spec.putValues, Spec.repr, hc, hy]
  · simp [Spec.putValues, Spec.repr, hc]

theorem constructArguments_repr {s : Spec T E} {args : Arguments T E ε}
    {v : {b // b ∈ args.within} → T} (hv : valuesOf s.contents args.within = some v) :
    constructArguments args s.repr =
      thrown (fun t => ({ s.putValues t.1 with env := t.2 } : Spec T E).repr)
        (args.init (v, s.env)) := by
  have hrepr (w : {b // b ∈ args.within} → T) (e : E) :
      ({ s.putValues w with env := e } : Spec T E).repr =
        { s.repr.putValues w with env := e } :=
    congrArg (fun m : Memory T E => { m with env := e })
      (repr_putValues (fun b hb => exists_of_valuesOf hv hb) w)
  simp only [constructArguments, funext (repr_contents s), hv, hrepr]
  rfl

/-! ### One operation -/

theorem create_repr {s : Spec T E} {a : ℕ} (ha : s.contents a = none) (o : Option T) :
    (create a ⟨o, o.isSome⟩ : Program T E ε Unit) s.repr = .ok () (s.put a o).repr := by
  rw [create_eq (objects_repr_none ha), repr_put]

theorem constructOutside_repr {s : Spec T E} {a : ℕ} (ha : s.contents a = none)
    (category : ValueCategory) (v : T) :
    constructValue V category a (.outside v) s.repr =
      thrown Spec.repr (buildWith a (V.constructOutside category v) s) := by
  simp only [constructValue, constructWith, bind, EStateM.bind, onEnv_repr, buildWith]
  cases V.constructOutside category v s.env with
  | error err e => rfl
  | ok x e =>
    exact create_repr (s := { s with env := e }) ha (some x)

theorem constructInPlace_repr {s : Spec T E} {a : ℕ} {args : Arguments T E ε}
    (ha : s.contents a = none) (hwithin : ∀ b ∈ args.within, ∃ y, s.contents b = some (some y)) :
    constructInPlace a args s.repr = thrown Spec.repr (buildArguments a args s) := by
  obtain ⟨v, hv⟩ := exists_valuesOf hwithin
  have hout : a ∉ args.within := by
    intro hmem
    obtain ⟨y, hy⟩ := hwithin a hmem
    simp [ha] at hy
  simp only [constructInPlace, bind, EStateM.bind, constructArguments_repr hv, buildArguments, hv]
  cases args.init (v, s.env) with
  | error err t => rfl
  | ok x t =>
    have hfree : ({ s.putValues t.1 with env := t.2 } : Spec T E).contents a = none :=
      (putValues_contents s t.1 hout).trans ha
    exact create_repr hfree (some x)

theorem constructValue_repr {s : Spec T E} {a b : ℕ} {y : T} (ha : s.contents a = none)
    (hb : s.contents b = some (some y)) (category : ValueCategory) :
    constructValue V category a (.inside b) s.repr =
      thrown Spec.repr (buildFrom V category a b s) := by
  have hab : a ≠ b := by
    rintro rfl
    simp [ha] at hb
  simp only [constructValue, constructWith, bind, EStateM.bind, onValue_repr hb, buildFrom, hb]
  cases V.construct category (y, s.env) with
  | error err t => rfl
  | ok v t =>
    have hfree : ({ s.put b (some t.1) with env := t.2 } : Spec T E).contents a = none :=
      (put_contents_ne s _ hab).trans ha
    exact create_repr hfree (some v)

theorem assignNullopt_repr {s : Spec T E} {a : ℕ} {o : Option T} (ha : s.contents a = some o) :
    assignNullopt V a s.repr =
      (.ok () ({ s.put a none with env := drop V o s.env } : Spec T E).repr :
        EStateM.Result (Fault ε) _ _) := by
  simp only [assignNullopt, bind, EStateM.bind, hasValue_repr ha]
  cases o with
  | none =>
    show (EStateM.Result.ok () s.repr : EStateM.Result (Fault ε) _ _) =
      .ok () (s.put a none).repr
    rw [Spec.put_self ha]
  | some x =>
    rw [repr_put_env]
    exact destruct_eq (objects_repr ha)

/-- `T(arg...)`, placed into the empty `a`. -/
theorem construct_arguments_repr {s : Spec T E} {a : ℕ} {args : Arguments T E ε}
    (ha : s.contents a = some none) (hout : a ∉ args.within)
    (hwithin : ∀ b ∈ args.within, ∃ y, s.contents b = some (some y)) :
    construct a (constructArguments args) s.repr = thrown Spec.repr (buildArguments a args s) := by
  obtain ⟨v, hv⟩ := exists_valuesOf hwithin
  have hinit := constructArguments_repr hv
  simp only [buildArguments, hv]
  cases hcase : args.init (v, s.env) with
  | error err t =>
    rw [hcase] at hinit
    exact construct_of_error a hinit
  | ok x t =>
    rw [hcase] at hinit
    have hempty : ({ s.putValues t.1 with env := t.2 } : Spec T E).contents a = some none :=
      (putValues_contents s t.1 hout).trans ha
    exact construct_repr hinit hempty

theorem emplace_repr {s : Spec T E} {a : ℕ} {args : Arguments T E ε} {o : Option T}
    (ha : s.contents a = some o) (hout : a ∉ args.within)
    (hwithin : ∀ b ∈ args.within, ∃ y, s.contents b = some (some y)) :
    emplace V a args s.repr = thrown Spec.repr (emplaceSpec V a args s) := by
  simp only [emplace, bind, EStateM.bind, assignNullopt_repr ha, emplaceSpec, ha]
  refine construct_arguments_repr (put_contents_self s a none) hout fun b hb => ?_
  have hba : b ≠ a := fun h => hout (h ▸ hb)
  obtain ⟨y, hy⟩ := hwithin b hb
  exact ⟨y, (put_contents_ne s none hba).trans hy⟩

/-- An `emplace` with arguments within the value that it ends comes to a fault. -/
theorem emplace_own {s : Spec T E} {a : ℕ} {args : Arguments T E ε}
    (ha : s.contents a ≠ none) (hmem : a ∈ args.within) :
    ∃ m, emplace V a args s.repr = .error .lifetime m := by
  obtain ⟨o, ha⟩ := Option.ne_none_iff_exists'.1 ha
  have hgone (m : Memory T E) (hm : m.contents a = some none) :
      constructArguments args m = (.error .lifetime m : EStateM.Result (Fault ε) _ _) := by
    have hnone : valuesOf m.contents args.within = none :=
      dif_neg fun hall => by simpa [hm] using hall a hmem
    simp only [constructArguments, hnone]
  simp only [emplace, bind, EStateM.bind, assignNullopt_repr ha]
  refine ⟨_, construct_of_error a (hgone _ ?_)⟩
  exact (repr_contents _ a).trans (put_contents_self s a none)

/-- After the unwinding of a constructor, nothing of its object is left. -/
theorem update_put_put {m : Memory T E} {a b : ℕ} (hm : m.objects a = none) (hab : a ≠ b)
    (h h' : Holder T) :
    Function.update ((m.put a h).put b h').objects a none = (m.put b h').objects := by
  rw [put_comm m hab]
  show Function.update (Function.update (m.put b h').objects a (some h)) a none = _
  rw [Function.update_idem, ← (put_objects_ne m h' hab).trans hm, Function.update_eq_self]

/-- `T(u)` for the value `u` of `b`, placed into the empty `a`. -/
theorem construct_inside_repr {s : Spec T E} {a b : ℕ} {y : T} (ha : s.contents a = some none)
    (hb : s.contents b = some (some y)) (category : ValueCategory) :
    construct a (constructWith V category (.inside b)) s.repr =
      thrown Spec.repr (onContents a b (assignTable V category) s) := by
  have hab : a ≠ b := by
    rintro rfl
    simp [ha] at hb
  have hinit := onValue_repr hb (V.construct category)
  simp only [onContents, ha, hb, assignTable]
  cases hc : V.construct category (y, s.env) with
  | error err t =>
    rw [hc] at hinit
    refine (construct_of_error a hinit).trans ?_
    exact congrArg
      (fun r : Spec T E => EStateM.Result.error _ ({ r.put b (some t.1) with env := t.2 }).repr)
      (Spec.put_self ha).symm
  | ok v t =>
    rw [hc] at hinit
    have hempty : ({ s.put b (some t.1) with env := t.2 } : Spec T E).contents a = some none :=
      (put_contents_ne s _ hab).trans ha
    refine (construct_repr hinit hempty).trans ?_
    exact congrArg (fun r : Spec T E => EStateM.Result.ok () { r with env := t.2 }.repr)
      (Spec.put_comm s hab (some v) (some t.1)).symm

theorem assignInto_inside_repr {s : Spec T E} {a b : ℕ} {x y : T}
    (ha : s.contents a = some (some x)) (hb : s.contents b = some (some y))
    (category : ValueCategory) :
    assignInto V category a (.inside b) s.repr =
      thrown Spec.repr (specStep V (.assignValue category a (.inside b)) s) := by
  by_cases hab : a = b
  · subst hab
    simp only [assignInto, specStep, if_true, onContent, ha, selfAssignTable, thrown_mapState,
      onValue_repr ha]
  · simp only [assignInto, specStep, if_neg hab, onContents, ha, hb, assignTable, thrown_mapState,
      onValues_repr ha hb]

theorem assignValue_inside_repr {s : Spec T E} {a b : ℕ} {o : Option T} {y : T}
    (ha : s.contents a = some o) (hb : s.contents b = some (some y)) (category : ValueCategory) :
    assignValue V category a (.inside b) s.repr =
      thrown Spec.repr (specStep V (.assignValue category a (.inside b)) s) := by
  simp only [assignValue, bind, EStateM.bind, hasValue_repr ha]
  cases o with
  | some x => exact assignInto_inside_repr ha hb category
  | none =>
    have hab : a ≠ b := by
      rintro rfl
      simp [ha] at hb
    simp only [specStep, if_neg hab]
    exact construct_inside_repr ha hb category

theorem assignOptional_repr {s : Spec T E} {a b : ℕ} {o o' : Option T} (ha : s.contents a = some o)
    (hb : s.contents b = some o') (category : ValueCategory) :
    assignOptional V category a b s.repr =
      thrown Spec.repr (specStep V (.assignOptional category a b) s) := by
  simp only [assignOptional, bind, EStateM.bind, hasValue_repr ha, hasValue_repr hb]
  cases o' with
  | some y =>
    have hassign := assignValue_inside_repr (V := V) ha hb category
    simp only [assignValue, bind, EStateM.bind, hasValue_repr ha] at hassign
    cases o <;> exact hassign
  | none =>
    have hnullopt := assignNullopt_repr (V := V) (ε := ε) ha
    simp only [Option.isSome_none, Bool.and_false, Bool.false_eq_true, if_false, specStep]
    refine hnullopt.trans ?_
    by_cases hab : a = b
    · subst hab
      obtain rfl : o = none := Option.some.inj (ha.symm.trans hb)
      simp only [if_true, onContent, ha, selfAssignTable]
      rfl
    · have hkept : (s.put a none).contents b = some none :=
        (put_contents_ne s _ (Ne.symm hab)).trans hb
      simp only [if_neg hab, onContents, ha, hb, assignTable]
      exact congrArg
        (fun r : Spec T E => EStateM.Result.ok () ({ r with env := drop V o s.env }).repr)
        (Spec.put_self hkept).symm

theorem assignValue_outside_repr {s : Spec T E} {a : ℕ} {o : Option T} (ha : s.contents a = some o)
    (category : ValueCategory) (v : T) :
    assignValue V category a (.outside v) s.repr =
      thrown Spec.repr (specStep V (.assignValue category a (.outside v)) s) := by
  simp only [assignValue, bind, EStateM.bind, hasValue_repr ha, specStep, onContent, ha,
    withOperand]
  cases o with
  | some x =>
    simp only [Option.isSome_some, if_true, assignInto, assignTable, thrown_mapState,
      onValue_repr ha, withOperand]
  | none =>
    have hinit : constructWith V category (.outside v) s.repr =
        thrown (fun e => ({ s with env := e } : Spec T E).repr)
          (V.constructOutside category v s.env) := rfl
    simp only [Option.isSome_none, Bool.false_eq_true, if_false, assignTable]
    cases hc : V.construct category (v, s.env) with
    | error err t =>
      have hthrown : V.constructOutside category v s.env = .error err t.2 := by
        simp [ValueClass.constructOutside, hc, mapState]
      rw [hthrown] at hinit
      refine (construct_of_error a hinit).trans ?_
      exact congrArg (fun r : Spec T E => EStateM.Result.error _ ({ r with env := t.2 }).repr)
        (Spec.put_self ha).symm
    | ok w t =>
      have hok : V.constructOutside category v s.env = .ok w t.2 := by
        simp [ValueClass.constructOutside, hc, mapState]
      rw [hok] at hinit
      exact construct_repr hinit ha

theorem constructFrom_repr {s : Spec T E} {a b : ℕ} {o : Option T} (ha : s.contents a = none)
    (hb : s.contents b = some o) (category : ValueCategory) :
    constructFrom V category a b s.repr = thrown Spec.repr (buildFrom V category a b s) := by
  simp only [constructFrom, bind, EStateM.bind, hasValue_repr hb,
    create_eq (objects_repr_none ha), buildFrom, hb]
  cases o with
  | none => exact congrArg (EStateM.Result.ok ()) (repr_put s a none).symm
  | some y =>
    have hab : b ≠ a := by
      rintro rfl
      simp [ha] at hb
    -- the flag is set already, the storage still empty
    have hmember : (s.repr.put a ⟨none, true⟩).objects b = some ⟨some y, true⟩ :=
      (put_objects_ne _ _ hab).trans (objects_repr hb)
    have hflag (h : Holder T) : ((s.repr.put a ⟨none, true⟩).put b h).objects a =
        some ⟨none, true⟩ := (put_objects_ne _ _ hab.symm).trans (put_objects_self ..)
    have hinit := onValue_eq hmember (V.construct category)
    simp only [Option.isSome_some, if_true]
    cases hc : V.construct category (y, s.env) with
    | error err t =>
      rw [show (s.repr.put a ⟨none, true⟩).env = s.env from rfl, hc] at hinit
      refine (constructorBody_of_exception (construct_of_error a hinit) (hflag _)).trans ?_
      refine congrArg (fun objects => EStateM.Result.error _ (Memory.mk objects t.2)) ?_
      refine (update_put_put (objects_repr_none ha) hab.symm _ _).trans ?_
      exact congrArg Memory.objects (repr_put s b (some t.1)).symm
    | ok v t =>
      rw [show (s.repr.put a ⟨none, true⟩).env = s.env from rfl, hc] at hinit
      refine (constructorBody_of_ok (construct_of_ok hinit (hflag _))).trans ?_
      have hmemory : ((s.repr.put a ⟨none, true⟩).put b ⟨some t.1, true⟩).put a ⟨some v, true⟩ =
          ((s.put b (some t.1)).put a (some v)).repr := by
        rw [put_comm _ hab.symm, put_put, repr_put, repr_put]
        rfl
      exact congrArg (fun m : Memory T E => EStateM.Result.ok () { m with env := t.2 }) hmemory

/-- A value moves into an empty optional, and its own is emptied. -/
theorem moveOver_repr {s : Spec T E} {a b : ℕ} {x : T} {init : Program T E ε T}
    (ha : s.contents a = some (some x)) (hb : s.contents b = some none)
    (hinit : init s.repr = onValue a V.moveConstruct s.repr) :
    (construct b init >>= fun _ => destruct V a) s.repr =
      thrown Spec.repr (mapState
        (fun t => ({ (s.put a t.1.1).put b t.1.2 with env := t.2 } : Spec T E))
        (moveOver V x s.env)) := by
  have hab : a ≠ b := by
    rintro rfl
    simp [ha] at hb
  rw [onValue_repr ha] at hinit
  simp only [bind, EStateM.bind, moveOver]
  cases hmove : V.moveConstruct (x, s.env) with
  | error err t =>
    rw [hmove] at hinit
    rw [construct_of_error b hinit]
    exact congrArg (fun r : Spec T E => EStateM.Result.error _ ({ r with env := t.2 }).repr)
      (Spec.put_self ((put_contents_ne s _ hab.symm).trans hb)).symm
  | ok v t =>
    rw [hmove] at hinit
    have hempty : ({ s.put a (some t.1) with env := t.2 } : Spec T E).contents b = some none :=
      (put_contents_ne s _ hab.symm).trans hb
    rw [construct_repr hinit hempty]
    have hleft : (({ s.put a (some t.1) with env := t.2 } : Spec T E).put b (some v)).contents a =
        some (some t.1) := (put_contents_ne _ _ hab).trans (put_contents_self ..)
    refine (destruct_eq (objects_repr hleft)).trans ?_
    have hcontents : (((s.put a (some t.1)).put b (some v)).put a none) =
        (s.put a none).put b (some v) := by
      rw [Spec.put_comm _ hab.symm, Spec.put_put]
    refine (congrArg (EStateM.Result.ok ()) (repr_put_env _ a none _).symm).trans ?_
    exact congrArg
      (fun r : Spec T E => EStateM.Result.ok () ({ r with env := V.destroy t.1 t.2 }).repr)
      hcontents

theorem swapWith_repr {s : Spec T E} {a b : ℕ} (husable : Usable s (.swap a b : Operation T E ε))
    (hcareful : Careful V s (.swap a b)) :
    swapWith V a b s.repr = thrown Spec.repr (specStep V (.swap a b) s) := by
  obtain ⟨convert, hconvert, hmove⟩ := hcareful
  obtain ⟨o, ha⟩ := Option.ne_none_iff_exists'.1 husable.1
  obtain ⟨o', hb⟩ := Option.ne_none_iff_exists'.1 husable.2
  simp only [swapWith, hconvert, bind, EStateM.bind, hasValue_repr ha, hasValue_repr hb]
  by_cases hab : a = b
  · subst hab
    obtain rfl : o = o' := Option.some.inj (ha.symm.trans hb)
    simp only [specStep, if_true, onContent, ha, thrown_mapState]
    cases o with
    | some x => simp only [Option.isSome_some, Bool.and_true, if_true, selfSwapTable,
        thrown_mapState, onValue_repr ha]
    | none =>
      exact congrArg (fun r : Spec T E => EStateM.Result.ok () r.repr) (Spec.put_self ha).symm
  · simp only [specStep, if_neg hab, onContents, ha, hb]
    cases o with
    | some x =>
      cases o' with
      | some y => simp only [Option.isSome_some, Bool.and_true, if_true, swapTable,
          thrown_mapState, onValues_repr ha hb]
      | none =>
        refine moveOver_repr ha hb ?_
        rw [onValue_repr ha]
        simp only [constructFromOptional, objects_repr ha]
        rw [show convert (some x, s.repr.env) = _ from hmove x ha hb, thrown_mapState]
        simp only [repr_put_env]
    | none =>
      cases o' with
      | some y =>
        refine (moveOver_repr hb ha rfl).trans ?_
        simp only [swapTable, thrown_mapState]
        simp only [Spec.put_comm s hab]
        rfl
      | none =>
        simp only [Option.isSome_none, Bool.and_self, Bool.false_eq_true, if_false, swapTable]
        refine congrArg (fun r : Spec T E => EStateM.Result.ok () r.repr) ?_
        show s = (s.put a none).put b none
        rw [Spec.put_self ha, Spec.put_self hb]

theorem destroyObject_repr {s : Spec T E} {a : ℕ} {o : Option T} (ha : s.contents a = some o) :
    destroyObject V a s.repr =
      thrown Spec.repr (specStep V (.destroy a : Operation T E ε) s) := by
  have hgone (e : E) : (⟨Function.update s.contents a none, e⟩ : Spec T E).repr =
      ⟨Function.update s.repr.objects a none, e⟩ := by
    refine congrArg (Memory.mk · e) (funext fun b => ?_)
    exact Function.apply_update (fun _ => Option.map fun o => (⟨o, o.isSome⟩ : Holder T))
      s.contents a none b
  simp only [specStep, thrown, hgone, ha, destroyObject]
  cases htrivial : V.triviallyDestructible with
  | true =>
    have henv : drop V (some o).join s.env = s.env := by
      cases o with
      | none => rfl
      | some x => exact V.destroy_of_trivial htrivial x s.env
    rw [henv]
    exact release_eq (objects_repr ha) fun _ => htrivial
  | false =>
    simp only [Bool.not_false, if_true, bind, EStateM.bind, hasValue_repr ha]
    cases o with
    | none => exact release_eq (objects_repr ha) nofun
    | some x =>
      simp only [Option.isSome_some, if_true]
      rw [EStateM.bind, endValue_eq (objects_repr ha)]
      have hdead : ({ s.repr.put a ⟨none, true⟩ with env := V.destroy x s.env } :
          Memory T E).objects a = some ⟨none, true⟩ := put_objects_self ..
      refine (release_eq (V := V) hdead nofun).trans ?_
      exact congrArg (fun objects => EStateM.Result.ok () (Memory.mk objects (V.destroy x s.env)))
        (Function.update_idem ..)

theorem step_repr {s : Spec T E} {op : Operation T E ε} (husable : Usable s op)
    (hcareful : Careful V s op) : step V op s.repr = thrown Spec.repr (specStep V op s) := by
  have hthere {c : ℕ} (h : s.contents c ≠ none) : ∃ o, s.contents c = some o :=
    Option.ne_none_iff_exists'.1 h
  cases op with
  | constructEmpty a => exact create_repr husable none
  | constructInPlace a args => exact constructInPlace_repr husable.1 husable.2
  | constructValue category a u =>
    cases u with
    | outside v => exact constructOutside_repr husable category v
    | inside b =>
      obtain ⟨ha, y, hb⟩ := husable
      exact constructValue_repr ha hb category
  | constructFrom category a b =>
    obtain ⟨o, hb⟩ := hthere husable.2
    exact constructFrom_repr husable.1 hb category
  | assignNullopt a =>
    obtain ⟨o, ha⟩ := hthere husable
    simp only [step, specStep, onContent, ha]
    exact assignNullopt_repr ha
  | assignOptional category a b =>
    obtain ⟨o, ha⟩ := hthere husable.1
    obtain ⟨o', hb⟩ := hthere husable.2
    exact assignOptional_repr ha hb category
  | assignValue category a u =>
    cases u with
    | outside v =>
      obtain ⟨o, ha⟩ := hthere husable
      exact assignValue_outside_repr ha category v
    | inside b =>
      obtain ⟨o, ha⟩ := hthere husable.1
      obtain ⟨y, hb⟩ := husable.2
      exact assignValue_inside_repr ha hb category
  | emplace a args =>
    obtain ⟨o, ha⟩ := hthere husable.1
    exact emplace_repr ha husable.2.1 husable.2.2
  | swap a b => exact swapWith_repr husable hcareful
  | destroy a =>
    obtain ⟨o, ha⟩ := hthere husable
    exact destroyObject_repr ha

end Steps

/-! ## Histories -/

section Histories

variable {T E ε : Type} {V : ValueClass T E ε}

/-- By induction on the history: the memory represents what is specified. -/
theorem history_repr : ∀ {ops : List (Operation T E ε)} {s : Spec T E}, CarefulHistory V ops s →
    history V ops s.repr = .ok ((specHistory V ops s).1, (specHistory V ops s).2.repr)
  | [], _, _ => rfl
  | op :: ops, s, ⟨husable, hcareful, hrest⟩ => by
    have hstep := step_repr husable hcareful
    simp only [history, hstep, specHistory]
    cases hspec : specStep V op s with
    | ok u s' =>
      rw [hspec] at hrest
      exact congrArg (Except.map fun r => (none :: r.1, r.2)) (history_repr hrest)
    | error err s' =>
      rw [hspec] at hrest
      exact congrArg (Except.map fun r => (some err :: r.1, r.2)) (history_repr hrest)

theorem CarefulHistory.of_append : ∀ {done rest : List (Operation T E ε)} {s : Spec T E},
    CarefulHistory V (done ++ rest) s →
      CarefulHistory V done s ∧ CarefulHistory V rest (specHistory V done s).2
  | [], _, _, h => ⟨trivial, h⟩
  | op :: done, rest, s, ⟨husable, hcareful, hrest⟩ => by
    obtain ⟨hdone, hafter⟩ := CarefulHistory.of_append hrest
    refine ⟨⟨husable, hcareful, hdone⟩, ?_⟩
    simp only [specHistory]
    cases hspec : specStep V op s <;> rw [hspec] at hafter <;> exact hafter

/-- No optional exists. -/
def Memory.empty (e : E) : Memory T E := ⟨fun _ => none, e⟩

def Spec.empty (e : E) : Spec T E := ⟨fun _ => none, e⟩

/-- A move and a swap of a `T` do what these words say. -/
structure Regular (V : ValueClass T E ε) : Prop where
  moveConstruct : ∀ x e, ∃ y e', V.moveConstruct (x, e) = .ok x (y, e')
  swap : ∀ x y e, ∃ e', V.swap ((x, y), e) = .ok () ((y, x), e')
  selfSwap : ∀ x e, ∃ e', V.selfSwap (x, e) = .ok () (x, e')

theorem swap_exchanges (hV : Regular V) {s : Spec T E} {a b : ℕ} {o o' : Option T}
    (ha : s.contents a = some o) (hb : s.contents b = some o') :
    ∃ s', specStep V (.swap a b) s = .ok () s' ∧
      s'.contents a = some o' ∧ s'.contents b = some o := by
  by_cases hab : a = b
  · subst hab
    obtain rfl : o = o' := Option.some.inj (ha.symm.trans hb)
    simp only [specStep, if_true, onContent, ha]
    cases o with
    | none => exact ⟨_, rfl, put_contents_self .., put_contents_self ..⟩
    | some x =>
      obtain ⟨e, hself⟩ := hV.selfSwap x s.env
      simp only [selfSwapTable, hself, mapState]
      exact ⟨_, rfl, put_contents_self .., put_contents_self ..⟩
  · have hput (o₁ o₂ : Option T) (e : E) :
        ({ (s.put a o₁).put b o₂ with env := e } : Spec T E).contents a = some o₁ ∧
          ({ (s.put a o₁).put b o₂ with env := e } : Spec T E).contents b = some o₂ :=
      ⟨(put_contents_ne _ _ hab).trans (put_contents_self ..), put_contents_self ..⟩
    simp only [specStep, if_neg hab, onContents, ha, hb]
    cases o with
    | none =>
      cases o' with
      | none => exact ⟨_, rfl, hput ..⟩
      | some y =>
        obtain ⟨z, e, hmove⟩ := hV.moveConstruct y s.env
        simp only [swapTable, moveOver, hmove, mapState]
        exact ⟨_, rfl, hput ..⟩
    | some x =>
      cases o' with
      | none =>
        obtain ⟨z, e, hmove⟩ := hV.moveConstruct x s.env
        simp only [swapTable, moveOver, hmove, mapState]
        exact ⟨_, rfl, hput ..⟩
      | some y =>
        obtain ⟨e, hswap⟩ := hV.swap x y s.env
        simp only [swapTable, hswap, mapState]
        exact ⟨_, rfl, hput ..⟩

/-- From no optionals, through every history of the caller's that does its part and
    where each swap compiles and, if only its left side has a value, makes of that
    optional what it would make of the value: no `T` is constructed over another, read
    or destroyed where there is none, or forgotten; the flag is set exactly where
    there is a `T`; contents and exceptions are as specified; and a swap exchanges the
    contents. -/
theorem histories_follow_spec (V : ValueClass T E ε) (e : E) (ops : List (Operation T E ε))
    (h : CarefulHistory V ops (Spec.empty e)) (done : List (Operation T E ε))
    (hdone : done <+: ops) :
    ∃ m, history V done (Memory.empty e) = .ok ((specHistory V done (Spec.empty e)).1, m) ∧
      (∀ a h, m.objects a = some h → (h.hasValue = true ↔ ∃ x, h.value = some x)) ∧
      (∀ a, m.contents a = (specHistory V done (Spec.empty e)).2.contents a) ∧
      m.env = (specHistory V done (Spec.empty e)).2.env ∧
      (Regular V → ∀ a b, done ++ [.swap a b] <+: ops → ∃ m', step V (.swap a b) m = .ok () m' ∧
        m'.contents a = m.contents b ∧ m'.contents b = m.contents a) := by
  obtain ⟨rest, rfl⟩ := hdone
  refine ⟨(specHistory V done (Spec.empty e)).2.repr, history_repr h.of_append.1, ?_,
    repr_contents _, rfl, ?_⟩
  · intro a hd hobject
    obtain ⟨o, -, rfl⟩ := Option.map_eq_some_iff.1 hobject
    exact Option.isSome_iff_exists
  · rintro hV a b ⟨after, happend⟩
    rw [List.append_assoc] at happend
    obtain ⟨husable, hcareful, -⟩ : CarefulHistory V (.swap a b :: after) _ :=
      List.append_cancel_left happend ▸ h.of_append.2
    obtain ⟨o, ha⟩ := Option.ne_none_iff_exists'.1 husable.1
    obtain ⟨o', hb⟩ := Option.ne_none_iff_exists'.1 husable.2
    obtain ⟨s', hstep, ha', hb'⟩ := swap_exchanges hV ha hb
    refine ⟨s'.repr, ?_, ?_, ?_⟩
    · rw [step_repr husable hcareful, hstep]
      rfl
    · rw [repr_contents, repr_contents, ha', hb]
    · rw [repr_contents, repr_contents, hb', ha]

/-- The value of `b` as the only argument: `*b` or `std::move(*b)`. -/
def ValueClass.argument (V : ValueClass T E ε) (category : ValueCategory) (b : ℕ) :
    Arguments T E ε where
  within := [b]
  init s :=
    mapState (fun t => (fun _ => t.1, t.2))
      (V.construct category (s.1 ⟨b, List.mem_singleton_self b⟩, s.2))

/-- Numbers that copy as long as `E` is not used up, and then throw; `convert` makes
    one from an optional. -/
def countedClass (convert : Option (EStateM Unit (Option ℕ × ℕ) ℕ)) : ValueClass ℕ ℕ Unit where
  triviallyDestructible := false
  destroy _ e := e
  copyConstruct x := fun e => if e = 0 then .error () e else .ok x (e - 1)
  moveConstruct := fun s => .ok s.1 (0, s.2)
  copyAssign x := fun s => if s.2 = 0 then .error () s else .ok () (x, s.2 - 1)
  moveAssign := fun s => .ok () ((s.1.2, 0), s.2)
  swap := fun s => .ok () (s.1.swap, s.2)
  selfAssign _ := pure ()
  selfSwap := pure ()
  fromOptional := convert
  destroy_of_trivial := nofun

/-- The conversion that takes the value. -/
def takeValue : EStateM Unit (Option ℕ × ℕ) ℕ
  | (some x, e) => .ok x (some 0, e)
  | (none, e) => .error () (none, e)

/-- One copy succeeds, the next throws, a swap moves to the right, and an `emplace` moves
    from the value of another optional. -/
theorem histories_follow_spec_counted :
    ∃ m, history (countedClass (some takeValue))
        [.constructInPlace 0 ⟨[], pure 7⟩, .constructEmpty 1, .assignOptional .lvalue 1 0,
          .constructFrom .lvalue 2 0, .assignNullopt 1, .swap 0 1,
          .emplace 0 ((countedClass (some takeValue)).argument .rvalue 1), .destroy 1]
        (Memory.empty 1) = .ok ([none, none, none, some (), none, none, none, none], m) ∧
      m.contents 0 = some (some 7) ∧ m.contents 1 = none ∧ m.contents 2 = none := by
  obtain ⟨m, hhistory, -, hcontents, -⟩ := histories_follow_spec (countedClass (some takeValue)) 1
    [.constructInPlace 0 ⟨[], pure 7⟩, .constructEmpty 1, .assignOptional .lvalue 1 0,
      .constructFrom .lvalue 2 0, .assignNullopt 1, .swap 0 1,
      .emplace 0 ((countedClass (some takeValue)).argument .rvalue 1), .destroy 1]
    ⟨⟨rfl, nofun⟩, trivial, rfl, trivial, ⟨by decide, by decide⟩, trivial, ⟨rfl, by decide⟩,
      trivial, Option.some_ne_none _, trivial, ⟨by decide, by decide⟩,
      ⟨takeValue, rfl, fun _ _ _ => rfl⟩,
      ⟨by decide, by decide, fun b hb => ⟨7, by rw [List.mem_singleton.1 hb]; rfl⟩⟩, trivial,
      Option.some_ne_none _, trivial, trivial⟩ _ (List.prefix_refl _)
  exact ⟨m, hhistory, hcontents 0, hcontents 1, hcontents 2⟩

/-- The class `bool`. It is constructible from an `optional<bool>`, by the explicit
    conversion of that to `bool`, which tells whether there is a value. -/
def boolClass : ValueClass Bool Unit Empty where
  triviallyDestructible := true
  destroy _ e := e
  copyConstruct x := pure x
  moveConstruct := fun s => .ok s.1 s
  copyAssign x := fun s => .ok () (x, s.2)
  moveAssign := fun s => .ok () ((s.1.2, s.1.2), s.2)
  swap := fun s => .ok () (s.1.swap, s.2)
  selfAssign _ := pure ()
  selfSwap := pure ()
  fromOptional := some fun s => .ok s.1.isSome s
  destroy_of_trivial _ _ _ := rfl

/-- A `false` that is swapped to the right becomes `true`; and for a `T` that cannot be
    constructed from an optional, no swap compiles. -/
theorem swap_converts_flag :
    ((history boolClass [.constructInPlace 0 ⟨[], pure false⟩, .constructEmpty 1, .swap 0 1]
        (Memory.empty ())).map fun r => (r.1, r.2.contents 0, r.2.contents 1)) =
      .ok ([none, none, none], some none, some (some true)) ∧
    (specHistory boolClass [.constructInPlace 0 ⟨[], pure false⟩, .constructEmpty 1, .swap 0 1]
        (Spec.empty ())).2.contents 1 = some (some false) ∧
    Regular boolClass ∧
    ((history (countedClass none) [.constructEmpty 0, .constructEmpty 1, .swap 0 1]
        (Memory.empty 1)).map fun r => r.1) = .error .illFormed := by
  exact ⟨rfl, rfl, ⟨fun x e => ⟨x, e, rfl⟩, fun x y e => ⟨e, rfl⟩, fun x e => ⟨e, rfl⟩⟩, rfl⟩

end Histories

end BambooShoot.Pbsu.Optional
