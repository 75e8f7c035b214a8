import BambooShoot.Lib.RandomAccess
import BambooShoot.Pbsu.Pipeline

/-!
# Random-access pipelines

Ranges that can be used like an array: containers, `integral_iterator`s, and what
`map_ephemeral` and `zip` make of such ranges (`iter-util.hh`, lines 334–500 and
595–726, and `range-util.hh`, lines 85–301).

Result: `behavesAsArray_iff`. Every program that is written for an array runs on a
pipeline, with the same answers, exactly if the pipeline is empty, or its sources all
have one length, and the first source can compare and subtract its positions, and the
subscript does not leave references into iterators that are gone.
-/

namespace BambooShoot.Pbsu

open BambooShoot.Lib

/-! ## Iterators -/

/-- `integral_iterator` over an unsigned type (`iter-util.hh`, lines 595–726). -/
@[reducible] def integralIterator (w : ℕ) : RandomAccess (BitVec w) where
  It := BitVec w
  eq value other := value == other
  lt value other := value.ult other
  deref value := some value
  increment value := some (value + 1)
  decrement value := some (value - 1)
  advance value n := some (value + BitVec.ofInt w n)
  retreat value n := some (value - BitVec.ofInt w n)
  distance value other := (value - other).toInt
  subscript value n := some (value + BitVec.ofInt w n)

/-- `ephemeral_mapping_iterator` (`iter-util.hh`, lines 334–500), of a function that
    depends on its argument only and returns a value of its own. -/
@[reducible] def ephemeralMappingIterator {α β : Type} (fn : α → β) (c : RandomAccess α) :
    RandomAccess β where
  It := c.It
  eq := c.eq
  lt := c.lt
  deref it := (c.deref it).map fn
  increment := c.increment
  decrement := c.decrement
  advance := c.advance
  retreat := c.retreat
  distance := c.distance
  subscript it n := do
    let copy ← c.advance it n
    (c.deref copy).map fn

section Zip

variable {n : ℕ} {α : Fin (n + 1) → Type} (c : ∀ i, RandomAccess (α i))

/-- The members of a `zip_iterator` over random-access iterators. -/
structure ZipPosition where
  begins : ∀ i, (c i).It
  ends : ∀ i, (c i).It

variable {c}

/-- `_check_end` (`range-util.hh`, lines 108–113). -/
def ZipPosition.checkEnd (z : ZipPosition c) : ZipPosition c :=
  if decide (∃ i, (c i).eq (z.begins i) (z.ends i) = true) then { z with begins := z.ends } else z

/-- `operator<` of tuples: `less` and `greater` compare the components. -/
def tupleLess : {n : ℕ} → (Fin n → Bool) → (Fin n → Bool) → Bool
  | 0, _, _ => false
  | _ + 1, less, greater =>
    less ⟨0, Nat.succ_pos _⟩ || !greater ⟨0, Nat.succ_pos _⟩ &&
      tupleLess (fun i => less i.succ) fun i => greater i.succ

variable (c)

/-- `zip_iterator` (`range-util.hh`, lines 85–301). The references of `*` may point into the
    iterators of a component, which `operator[]` has in a copy of its own. -/
@[reducible] def zipIterator (stashes : Bool) : RandomAccess (∀ i, α i) where
  It := ZipPosition c
  eq a b := decide (∀ i, (c i).eq (a.begins i) (b.begins i) = true)
  lt a b := tupleLess (fun i => (c i).lt (a.begins i) (b.begins i)) fun i =>
    (c i).lt (b.begins i) (a.begins i)
  deref z := allSome fun i => (c i).deref (z.begins i)
  increment z := do
    let begins ← allSome fun i => (c i).increment (z.begins i)
    pure (ZipPosition.checkEnd ⟨begins, z.ends⟩)
  decrement z := do
    let begins ← allSome fun i => (c i).decrement (z.begins i)
    pure ⟨begins, z.ends⟩
  advance z k := do
    let begins ← allSome fun i => (c i).advance (z.begins i) k
    pure (ZipPosition.checkEnd ⟨begins, z.ends⟩)
  retreat z k := do
    let begins ← allSome fun i => (c i).retreat (z.begins i) k
    pure ⟨begins, z.ends⟩
  distance b a :=
    (c ⟨0, Nat.succ_pos _⟩).distance (b.begins ⟨0, Nat.succ_pos _⟩) (a.begins ⟨0, Nat.succ_pos _⟩)
  subscript z k :=
    if stashes then none
    else do
      let begins ← allSome fun i => (c i).advance (z.begins i) k
      allSome fun i => (c i).deref ((ZipPosition.checkEnd ⟨begins, z.ends⟩).begins i)

/-- Over arrays the positions are those of a `ZipIterator`. -/
def ZipPosition.positions {ranges : ∀ i, List (α i)} (z : ZipPosition fun i => vector (ranges i)) :
    ZipIterator n := ⟨z.begins, z.ends⟩

theorem positions_checkEnd {ranges : ∀ i, List (α i)} (begins ends : Fin (n + 1) → ℤ) :
    (ZipPosition.checkEnd (c := fun i => vector (ranges i)) ⟨begins, ends⟩).positions =
      ZipIterator.checkEnd ⟨begins, ends⟩ := by
  have hany : decide (∃ i, (begins i == ends i) = true) =
      ZipIterator.tupleAnyEqual begins ends := by
    simp only [beq_iff_eq, ZipIterator.tupleAnyEqual]
  unfold ZipPosition.checkEnd ZipIterator.checkEnd
  dsimp only
  rw [hany]
  split_ifs <;> rfl

/-- Moves that are defined go where the sum says. -/
theorem allSome_moveTo {ranges : ∀ i, List (α i)} {k begins : Fin (n + 1) → ℤ}
    (h : allSome (fun i => moveTo (ranges i) (k i)) = some begins) : begins = k := by
  funext i
  obtain ⟨m, -, hk, hbegins⟩ := moveTo_eq_some (allSome_eq_some h i)
  rw [hk, hbegins]

/-- The moves of `zip_iterator` over arrays, as far as they are defined. -/
theorem zipIterator_vector {ranges : ∀ i, List (α i)} {stashes : Bool} (k : ℤ)
    {z z' : ZipPosition fun i => vector (ranges i)} :
    ((zipIterator (fun i => vector (ranges i)) stashes).advance z k = some z' →
        z'.positions = z.positions.addAssign k) ∧
      ((zipIterator (fun i => vector (ranges i)) stashes).retreat z k = some z' →
        z'.positions = z.positions.subAssign k) := by
  constructor
  · intro h
    obtain ⟨begins, hbegins, hz'⟩ := Option.bind_eq_some_iff.1 h
    cases hz'
    obtain rfl := allSome_moveTo hbegins
    exact positions_checkEnd _ _
  · intro h
    obtain ⟨begins, hbegins, hz'⟩ := Option.bind_eq_some_iff.1 h
    cases hz'
    obtain rfl := allSome_moveTo hbegins
    rfl

end Zip

/-! ## Ranges -/

/-- The expressions for a random-access range. The function of a `mapEphemeral` returns a
    value, and no reference to its argument. -/
inductive RandomRange : Type → Type 1
  | container {α : Type} (elements : List α) : RandomRange α
  | integers {w : ℕ} (first last : BitVec w) : RandomRange (BitVec w)
  | mapEphemeral {α β : Type} (f : α → β) (p : RandomRange α) : RandomRange β
  | zip {n : ℕ} {α : Fin (n + 1) → Type} (p : ∀ i, RandomRange (α i)) : RandomRange (∀ i, α i)

namespace RandomRange

/-- The list an expression stands for. -/
def denote : {α : Type} → RandomRange α → List α
  | _, .container elements => elements
  | _, .integers first last =>
    (List.range (last - first).toNat).map fun k => first + BitVec.ofNat _ k
  | _, .mapEphemeral f p => p.denote.map f
  | _, .zip p => zipLists fun i => (p i).denote

/-- The references of `*` point into the iterator. -/
def stashes : {α : Type} → RandomRange α → Bool
  | _, .container _ => false
  | _, .integers _ _ => true
  | _, .mapEphemeral _ _ => false
  | _, .zip p => decide (∃ i, (p i).stashes = true)

/-- The type of its iterators. -/
def iterators : {α : Type} → RandomRange α → RandomAccess α
  | _, .container elements => vector elements
  | _, .integers (w := w) _ _ => integralIterator w
  | _, .mapEphemeral f p => ephemeralMappingIterator f p.iterators
  | _, .zip p => zipIterator (fun i => (p i).iterators) (decide (∃ i, (p i).stashes = true))

/-- `end()`. -/
def last : {α : Type} → (p : RandomRange α) → p.iterators.It
  | _, .container elements => (elements.length : ℤ)
  | _, .integers _ last => last
  | _, .mapEphemeral _ p => p.last
  | _, .zip p => (⟨fun i => (p i).last, fun i => (p i).last⟩ : ZipPosition _)

/-- `begin()`. -/
def first : {α : Type} → (p : RandomRange α) → p.iterators.It
  | _, .container _ => (0 : ℤ)
  | _, .integers first _ => first
  | _, .mapEphemeral _ p => p.first
  | _, .zip p => ZipPosition.checkEnd ⟨fun i => (p i).first, fun i => (p i).last⟩

/-- All sources are at position `k`. -/
def At : {α : Type} → (p : RandomRange α) → p.iterators.It → ℕ → Prop
  | _, .container _ => fun (it : ℤ) k => it = k
  | _, .integers (w := w) first _ => fun (it : BitVec w) k => it = first + BitVec.ofNat w k
  | _, .mapEphemeral _ p => p.At
  | _, .zip p => fun (z : ZipPosition _) k =>
    (z.ends = fun i => (p i).last) ∧ ∀ i, (p i).At (z.begins i) k

/-- All sources have `n` elements. -/
def Aligned : {α : Type} → RandomRange α → ℕ → Prop
  | _, .container elements => fun n => elements.length = n
  | _, .integers first last => fun n => (last - first).toNat = n
  | _, .mapEphemeral _ p => p.Aligned
  | _, .zip p => fun n => ∀ i, (p i).Aligned n

/-- The first source compares and subtracts its positions as numbers. -/
def Ordered : {α : Type} → RandomRange α → Prop
  | _, .container _ => True
  | _, .integers (w := w) first last =>
    first.toNat ≤ last.toNat ∧ 2 * (last - first).toNat < 2 ^ w
  | _, .mapEphemeral _ p => p.Ordered
  | _, .zip p => (p ⟨0, Nat.succ_pos _⟩).Ordered

/-- A subscript gives no reference into a copy of the iterator. -/
def Subscripts : {α : Type} → RandomRange α → Prop
  | _, .container _ => True
  | _, .integers _ _ => True
  | _, .mapEphemeral _ _ => True
  | _, .zip p => ∀ i, (p i).stashes = false

/-- The condition for being used like an array. -/
def Regular {α : Type} (p : RandomRange α) : Prop :=
  p.denote = [] ∨ p.Aligned p.denote.length ∧ p.Ordered ∧ p.Subscripts

/-! ## Lengths -/

section Lengths

variable {α : Type}

theorem length_denote_integers {w : ℕ} (first last : BitVec w) :
    (integers first last).denote.length = (last - first).toNat := by
  unfold denote
  rw [List.length_map, List.length_range]

theorem length_denote_zip {n : ℕ} {α : Fin (n + 1) → Type} (p : ∀ i, RandomRange (α i)) :
    (zip p).denote.length = shortest fun i => (p i).denote := length_zipLists _

theorem length_denote_zip_le {n : ℕ} {α : Fin (n + 1) → Type} (p : ∀ i, RandomRange (α i))
    (i : Fin (n + 1)) : (zip p).denote.length ≤ (p i).denote.length := by
  rw [length_denote_zip]
  show shortest (fun i => (p i).denote) ≤ _
  exact shortest_le i

theorem length_denote_map {β : Type} (f : α → β) (p : RandomRange α) :
    (mapEphemeral f p).denote.length = p.denote.length := List.length_map f

/-- Sources of one length are no longer than the range. -/
theorem Aligned.length_denote {p : RandomRange α} {n : ℕ} (h : p.Aligned n) :
    p.denote.length = n := by
  induction p with
  | container elements => exact h
  | integers first last => exact (length_denote_integers first last).trans h
  | mapEphemeral f p ih => exact (length_denote_map f p).trans (ih h)
  | zip p ih =>
    obtain ⟨i, hi⟩ := exists_shortest fun i => (p i).denote
    rw [length_denote_zip, ← hi]
    exact ih i (h i)

end Lengths

/-! ## Positions -/

section Positions

variable {α : Type}

theorem add_ofNat_inj {w : ℕ} {first : BitVec w} {j k : ℕ} (hj : j < 2 ^ w) (hk : k < 2 ^ w) :
    first + BitVec.ofNat w j = first + BitVec.ofNat w k ↔ j = k := by
  rw [BitVec.add_right_inj, BitVec.toNat_inj.symm, BitVec.toNat_ofNat, BitVec.toNat_ofNat,
    Nat.mod_eq_of_lt hj, Nat.mod_eq_of_lt hk]

theorem eq_at (p : RandomRange α) {a b : p.iterators.It} {j k : ℕ} (ha : p.At a j) (hb : p.At b k)
    (hj : j ≤ p.denote.length) (hk : k ≤ p.denote.length) :
    p.iterators.eq a b = decide (j = k) := by
  induction p with
  | container elements =>
    cases ha
    cases hb
    show ((j : ℤ) == (k : ℤ)) = _
    rw [Bool.beq_eq_decide_eq]
    exact decide_eq_decide.2 Int.natCast_inj
  | @integers w first last =>
    cases ha
    cases hb
    rw [length_denote_integers] at hj hk
    have hlt : (last - first).toNat < 2 ^ w := (last - first).isLt
    show (first + BitVec.ofNat w j == first + BitVec.ofNat w k) = _
    rw [Bool.beq_eq_decide_eq]
    exact decide_eq_decide.2 (add_ofNat_inj (hj.trans_lt hlt) (hk.trans_lt hlt))
  | mapEphemeral f p ih =>
    rw [length_denote_map] at hj hk
    exact ih ha hb hj hk
  | zip p ih =>
    have hparts (i) : (p i).iterators.eq (a.begins i) (b.begins i) = decide (j = k) :=
      ih i (ha.2 i) (hb.2 i) (hj.trans (length_denote_zip_le p i))
        (hk.trans (length_denote_zip_le p i))
    show decide (∀ i, (p i).iterators.eq (a.begins i) (b.begins i) = true) = _
    simp only [hparts, decide_eq_true_eq, forall_const]

/-- No position in front of the end is the end. -/
theorem eq_last (p : RandomRange α) {it : p.iterators.It} {k : ℕ} (h : p.At it k)
    (hk : k < p.denote.length) : p.iterators.eq it p.last = false := by
  induction p with
  | container elements =>
    cases h
    show ((k : ℤ) == (elements.length : ℤ)) = false
    have hlt : k < elements.length := hk
    exact beq_false_of_ne (by omega)
  | @integers w first last =>
    cases h
    rw [length_denote_integers] at hk
    have hlt : (last - first).toNat < 2 ^ w := (last - first).isLt
    show (first + BitVec.ofNat w k == last) = false
    refine beq_false_of_ne fun heq => ?_
    rw [← heq, BitVec.add_comm, BitVec.add_sub_cancel, BitVec.toNat_ofNat,
      Nat.mod_eq_of_lt (by omega)] at hk
    omega
  | mapEphemeral f p ih =>
    rw [length_denote_map] at hk
    exact ih h hk
  | zip p ih =>
    show decide (∀ i, (p i).iterators.eq (it.begins i) (p i).last = true) = false
    refine decide_eq_false fun hall => ?_
    have hfirst := hall 0
    rw [ih 0 (h.2 0) (hk.trans_le (length_denote_zip_le p 0))] at hfirst
    cases hfirst

/-- The end, where all sources have one length. -/
theorem Aligned.at_last {p : RandomRange α} {n : ℕ} (h : p.Aligned n) : p.At p.last n := by
  induction p with
  | container elements => exact congrArg Nat.cast h
  | @integers w first last =>
    cases h
    show last = first + BitVec.ofNat w (last - first).toNat
    rw [BitVec.ofNat_toNat, BitVec.setWidth_eq, BitVec.add_comm, BitVec.sub_add_cancel]
  | mapEphemeral f p ih => exact ih h
  | zip p ih => exact ⟨rfl, fun i => ih i (h i)⟩

/-- `_check_end` in front of the end does nothing, and at the end of sources of one length
    neither. -/
theorem at_checkEnd {n : ℕ} {α : Fin (n + 1) → Type} (p : ∀ i, RandomRange (α i))
    {begins : ∀ i, (p i).iterators.It} {k : ℕ} (h : ∀ i, (p i).At (begins i) k)
    (hk : k < (zip p).denote.length ∨ (zip p).Aligned k) :
    (zip p).At (ZipPosition.checkEnd ⟨begins, fun i => (p i).last⟩) k := by
  unfold ZipPosition.checkEnd
  split_ifs with hany
  · rcases hk with hk | hk
    · obtain ⟨i, hi⟩ := of_decide_eq_true hany
      rw [eq_last (p i) (h i) (hk.trans_le (length_denote_zip_le p i))] at hi
      cases hi
    · exact ⟨rfl, fun i => (hk i).at_last⟩
  · exact ⟨rfl, h⟩

theorem at_first (p : RandomRange α) (h : 0 < p.denote.length) : p.At p.first 0 := by
  induction p with
  | container elements => exact Int.natCast_zero.symm
  | @integers w first last =>
    show first = first + BitVec.ofNat w 0
    exact (BitVec.add_zero first).symm
  | mapEphemeral f p ih =>
    rw [length_denote_map] at h
    exact ih h
  | zip p ih =>
    exact at_checkEnd p (fun i => ih i (h.trans_le (length_denote_zip_le p i))) (Or.inl h)

end Positions

/-! ## Moves -/

section Moves

variable {α : Type}

theorem le_length {p : RandomRange α} {k : ℕ} (h : k < p.denote.length ∨ p.Aligned k) :
    k ≤ p.denote.length := h.elim Nat.le_of_lt fun ha => ha.length_denote.ge

theorem advance_at (p : RandomRange α) {it : p.iterators.It} {j k : ℕ} {n : ℤ} (h : p.At it j)
    (hn : (j : ℤ) + n = k) (hk : k < p.denote.length ∨ p.Aligned k) :
    ∃ it', p.iterators.advance it n = some it' ∧ p.At it' k := by
  induction p with
  | container elements =>
    cases h
    refine ⟨(k : ℤ), ?_, rfl⟩
    show moveTo elements ((j : ℤ) + n) = _
    rw [hn]
    exact moveTo_natCast (le_length hk)
  | @integers w first last =>
    cases h
    refine ⟨_, rfl, ?_⟩
    show first + BitVec.ofNat w j + BitVec.ofInt w n = first + BitVec.ofNat w k
    rw [← BitVec.ofInt_natCast w k, ← hn, BitVec.ofInt_add, BitVec.ofInt_natCast, BitVec.add_assoc]
  | mapEphemeral f p ih =>
    rw [length_denote_map] at hk
    exact ih h hk
  | zip p ih =>
    choose begins hadvance hat using fun i => ih i (h.2 i)
      (hk.imp (fun hlt => hlt.trans_le (length_denote_zip_le p i)) fun ha => ha i)
    refine ⟨ZipPosition.checkEnd ⟨begins, fun i => (p i).last⟩, ?_, at_checkEnd p hat hk⟩
    have hends : it.ends = fun i => (p i).last := h.1
    show ((allSome fun i => (p i).iterators.advance (it.begins i) n).bind fun begins =>
      some (ZipPosition.checkEnd ⟨begins, it.ends⟩)) = _
    rw [allSome_of_some hadvance, hends]
    rfl

theorem retreat_at (p : RandomRange α) {it : p.iterators.It} {j k : ℕ} {n : ℤ} (h : p.At it j)
    (hn : (j : ℤ) - n = k) (hk : k ≤ p.denote.length) :
    ∃ it', p.iterators.retreat it n = some it' ∧ p.At it' k := by
  induction p with
  | container elements =>
    cases h
    refine ⟨(k : ℤ), ?_, rfl⟩
    show moveTo elements ((j : ℤ) - n) = _
    rw [hn]
    exact moveTo_natCast hk
  | @integers w first last =>
    cases h
    refine ⟨_, rfl, ?_⟩
    show first + BitVec.ofNat w j - BitVec.ofInt w n = first + BitVec.ofNat w k
    have hj : (j : ℤ) = k + n := by omega
    rw [← BitVec.ofInt_natCast w j, hj, BitVec.ofInt_add, BitVec.ofInt_natCast, ← BitVec.add_assoc,
      BitVec.add_sub_cancel]
  | mapEphemeral f p ih =>
    rw [length_denote_map] at hk
    exact ih h hk
  | zip p ih =>
    choose begins hretreat hat using fun i => ih i (h.2 i) (hk.trans (length_denote_zip_le p i))
    refine ⟨⟨begins, it.ends⟩, ?_, h.1, hat⟩
    show ((allSome fun i => (p i).iterators.retreat (it.begins i) n).bind fun begins =>
      some (⟨begins, it.ends⟩ : ZipPosition _)) = _
    rw [allSome_of_some hretreat]
    rfl

theorem increment_eq (p : RandomRange α) (it : p.iterators.It) :
    p.iterators.increment it = p.iterators.advance it 1 := by
  induction p with
  | container elements => rfl
  | integers first last => rfl
  | mapEphemeral f p ih => exact ih it
  | zip p ih =>
    exact congrArg (fun o => (allSome o).bind fun begins =>
      some (ZipPosition.checkEnd ⟨begins, it.ends⟩)) (funext fun i => ih i (it.begins i))

theorem decrement_eq (p : RandomRange α) (it : p.iterators.It) :
    p.iterators.decrement it = p.iterators.retreat it 1 := by
  induction p with
  | container elements => rfl
  | integers first last => rfl
  | mapEphemeral f p ih => exact ih it
  | zip p ih =>
    exact congrArg (fun o => (allSome o).bind fun begins =>
      some (⟨begins, it.ends⟩ : ZipPosition _)) (funext fun i => ih i (it.begins i))

theorem deref_at (p : RandomRange α) {it : p.iterators.It} {k : ℕ} (h : p.At it k)
    (hk : k < p.denote.length) : p.iterators.deref it = some p.denote[k] := by
  induction p with
  | container elements =>
    cases h
    exact (elementAt_natCast k).trans (List.getElem?_eq_getElem hk)
  | @integers w first last =>
    cases h
    show some (first + BitVec.ofNat w k) = _
    simp only [denote, List.getElem_map, List.getElem_range]
  | mapEphemeral f p ih =>
    have hlt : k < p.denote.length := by rwa [length_denote_map] at hk
    show (p.iterators.deref it).map f = _
    rw [ih h hlt]
    simp only [denote, List.getElem_map, Option.map_some]
  | zip p ih =>
    have hlt : k < shortest fun i => (p i).denote := by rwa [length_denote_zip] at hk
    refine (allSome_of_some fun i => ih i (h.2 i) (hk.trans_le (length_denote_zip_le p i))).trans ?_
    exact congrArg some (getElem_zipLists _ hk hlt).symm

end Moves

/-! ## Comparisons -/

section Order

variable {α : Type}

/-- Tuples of equal components. -/
theorem tupleLess_false {n : ℕ} {less greater : Fin n → Bool} (h : ∀ i, less i = false) :
    tupleLess less greater = false := by
  induction n with
  | zero => rfl
  | succ n ih =>
    unfold tupleLess
    rw [h ⟨0, Nat.succ_pos n⟩, ih fun i => h i.succ, Bool.and_false, Bool.or_false]

/-- The first components decide unless they are equal. -/
theorem tupleLess_of_ne {n j k : ℕ} (hjk : j ≠ k) {less greater : Fin (n + 1) → Bool}
    (hless : less ⟨0, Nat.succ_pos n⟩ = decide (j < k))
    (hgreater : greater ⟨0, Nat.succ_pos n⟩ = decide (k < j)) :
    tupleLess less greater = decide (j < k) := by
  unfold tupleLess
  rw [hless, hgreater]
  rcases Nat.lt_or_gt_of_ne hjk with hlt | hgt
  · rw [decide_eq_true hlt, Bool.true_or]
  · rw [decide_eq_true hgt, Bool.not_true, Bool.false_and, Bool.or_false]

theorem tupleLess_first {n : ℕ} {less greater : Fin (n + 1) → Bool}
    (h : tupleLess less greater = true)
    (hne : less ⟨0, Nat.succ_pos n⟩ = true ∨ greater ⟨0, Nat.succ_pos n⟩ = true) :
    less ⟨0, Nat.succ_pos n⟩ = true := by
  rcases hne with hless | hgreater
  · exact hless
  · unfold tupleLess at h
    rw [hgreater, Bool.not_true, Bool.false_and, Bool.or_false] at h
    exact h

theorem lt_irrefl (p : RandomRange α) (it : p.iterators.It) : p.iterators.lt it it = false := by
  induction p with
  | container elements =>
    have hpos (k : ℤ) : decide (k < k) = false := decide_eq_false (Int.lt_irrefl k)
    exact hpos it
  | integers first last => exact decide_eq_false (Nat.lt_irrefl _)
  | mapEphemeral f p ih => exact ih it
  | zip p ih => exact tupleLess_false fun i => ih i (it.begins i)

/-- There is one iterator at each position. -/
theorem At.unique {p : RandomRange α} {a b : p.iterators.It} {k : ℕ} (ha : p.At a k)
    (hb : p.At b k) : a = b := by
  induction p with
  | container elements => exact ha.trans hb.symm
  | integers first last => exact ha.trans hb.symm
  | mapEphemeral f p ih => exact ih ha hb
  | zip p ih =>
    obtain ⟨begins, ends⟩ := a
    obtain ⟨begins', ends'⟩ := b
    obtain rfl : begins = begins' := funext fun i => ih i (ha.2 i) (hb.2 i)
    obtain rfl : ends = ends' := ha.1.trans hb.1.symm
    rfl

theorem lt_at {p : RandomRange α} (hp : p.Ordered) {a b : p.iterators.It} {j k : ℕ}
    (ha : p.At a j) (hb : p.At b k) (hj : j ≤ p.denote.length) (hk : k ≤ p.denote.length) :
    p.iterators.lt a b = decide (j < k) := by
  by_cases hjk : j = k
  · subst hjk
    rw [ha.unique hb, lt_irrefl, decide_eq_false (Nat.lt_irrefl j)]
  induction p generalizing j k with
  | container elements =>
    cases ha
    cases hb
    exact decide_eq_decide.2 Int.ofNat_lt
  | @integers w first last =>
    cases ha
    cases hb
    rw [length_denote_integers, BitVec.toNat_sub_of_le hp.1] at hj hk
    have hlast : last.toNat < 2 ^ w := last.isLt
    have hvalue {m : ℕ} (hm : m ≤ last.toNat - first.toNat) :
        (first + BitVec.ofNat w m).toNat = first.toNat + m := by
      have hle := hp.1
      rw [BitVec.toNat_add, BitVec.toNat_ofNat, Nat.mod_eq_of_lt (a := m) (by omega),
        Nat.mod_eq_of_lt (by omega)]
    show decide ((first + BitVec.ofNat w j).toNat < (first + BitVec.ofNat w k).toNat) = _
    rw [hvalue hj, hvalue hk]
    exact decide_eq_decide.2 (Nat.add_lt_add_iff_left)
  | mapEphemeral f p ih =>
    rw [length_denote_map] at hj hk
    exact ih hp ha hb hj hk hjk
  | zip p ih =>
    have hlen := length_denote_zip_le p 0
    have hless := ih 0 hp (ha.2 0) (hb.2 0) (hj.trans hlen) (hk.trans hlen) hjk
    have hgreater := ih 0 hp (hb.2 0) (ha.2 0) (hk.trans hlen) (hj.trans hlen) (Ne.symm hjk)
    show tupleLess (fun i => (p i).iterators.lt (a.begins i) (b.begins i))
      (fun i => (p i).iterators.lt (b.begins i) (a.begins i)) = _
    exact tupleLess_of_ne hjk hless hgreater

theorem distance_at {p : RandomRange α} (hp : p.Ordered) {a b : p.iterators.It} {j k : ℕ}
    (ha : p.At a j) (hb : p.At b k) (hj : j ≤ p.denote.length) (hk : k ≤ p.denote.length) :
    p.iterators.distance a b = (j : ℤ) - k := by
  induction p with
  | container elements =>
    cases ha
    cases hb
    rfl
  | @integers w first last =>
    cases ha
    cases hb
    rw [length_denote_integers] at hj hk
    have hsmall := hp.2
    show (first + BitVec.ofNat w j - (first + BitVec.ofNat w k)).toInt = _
    have hsum : BitVec.ofNat w j = BitVec.ofNat w k + BitVec.ofInt w ((j : ℤ) - k) := by
      rw [← BitVec.ofInt_natCast w k, ← BitVec.ofInt_add, ← BitVec.ofInt_natCast w j]
      congr 1
      omega
    rw [hsum, ← BitVec.add_assoc, BitVec.add_comm _ (BitVec.ofInt w _), BitVec.add_sub_cancel,
      BitVec.toInt_ofInt]
    exact Int.bmod_eq_of_le_mul_two (by omega) (by omega)
  | mapEphemeral f p ih =>
    rw [length_denote_map] at hj hk
    exact ih hp ha hb hj hk
  | zip p ih =>
    have hlen := length_denote_zip_le p 0
    exact ih 0 hp (ha.2 0) (hb.2 0) (hj.trans hlen) (hk.trans hlen)

/-- A subscript reads what is there. -/
theorem subscript_at {p : RandomRange α} (hp : p.Subscripts) {it : p.iterators.It} {j k : ℕ} {n : ℤ}
    (h : p.At it j) (hn : (j : ℤ) + n = k) (hk : k < p.denote.length) :
    p.iterators.subscript it n = some p.denote[k] := by
  obtain ⟨copy, hadvance, hat⟩ := p.advance_at h hn (Or.inl hk)
  have hread := p.deref_at hat hk
  cases p with
  | container elements =>
    cases h
    show elementAt elements ((j : ℤ) + n) = _
    rw [hn]
    exact (elementAt_natCast k).trans (List.getElem?_eq_getElem hk)
  | integers first last =>
    cases hadvance
    exact hread
  | mapEphemeral f p => exact (congrArg (Option.bind · _) hadvance).trans hread
  | zip p =>
    have hdangling : ¬ ∃ i, (p i).stashes = true := by
      rintro ⟨i, hi⟩
      rw [hp i] at hi
      cases hi
    obtain ⟨begins, hbegins, hcopy⟩ := Option.bind_eq_some_iff.1 hadvance
    cases hcopy
    show (if decide (∃ i, (p i).stashes = true) = true then none else _) = _
    rw [decide_eq_false hdangling, if_neg Bool.false_ne_true]
    exact (congrArg (Option.bind · _) hbegins).trans hread

end Order

/-! ## Regular ranges -/

section Regular

variable {α : Type}

/-- An iterator of a pipeline and one of the array are at the same position. -/
def Beside (p : RandomRange α) (it : p.iterators.It) (z : ℤ) : Prop :=
  ∃ k : ℕ, k ≤ p.denote.length ∧ z = k ∧ p.At it k

theorem simulates_of_aligned {p : RandomRange α} (hp : p.Aligned p.denote.length)
    (hordered : p.Ordered) (hsub : p.Subscripts) :
    Simulates p.iterators (vector p.denote) p.Beside := by
  have hinside {k : ℕ} (hk : k ≤ p.denote.length) : k < p.denote.length ∨ p.Aligned k :=
    (Nat.lt_or_eq_of_le hk).imp id fun (heq : k = p.denote.length) => heq ▸ hp
  have hadvance {a : p.iterators.It} {a' : ℤ} (n : ℤ) (h : p.Beside a a') :
      Follows p.Beside (p.iterators.advance a n) (moveTo p.denote (a' + n)) := by
    intro b' hb'
    obtain ⟨j, -, rfl, hat⟩ := h
    obtain ⟨k, hk, hjk, rfl⟩ := moveTo_eq_some hb'
    obtain ⟨b, hb, hat'⟩ := p.advance_at hat hjk (hinside hk)
    exact ⟨b, hb, k, hk, rfl, hat'⟩
  have hretreat {a : p.iterators.It} {a' : ℤ} (n : ℤ) (h : p.Beside a a') :
      Follows p.Beside (p.iterators.retreat a n) (moveTo p.denote (a' - n)) := by
    intro b' hb'
    obtain ⟨j, -, rfl, hat⟩ := h
    obtain ⟨k, hk, hjk, rfl⟩ := moveTo_eq_some hb'
    obtain ⟨b, hb, hat'⟩ := p.retreat_at hat hjk hk
    exact ⟨b, hb, k, hk, rfl, hat'⟩
  exact
    { eq := by
        rintro a b _ _ ⟨j, hj, rfl, ha⟩ ⟨k, hk, rfl, hb⟩
        rw [p.eq_at ha hb hj hk]
        exact (decide_eq_decide.2 Int.natCast_inj.symm).trans (Bool.beq_eq_decide_eq _ _).symm
      lt := by
        rintro a b _ _ ⟨j, hj, rfl, ha⟩ ⟨k, hk, rfl, hb⟩
        rw [lt_at hordered ha hb hj hk]
        exact decide_eq_decide.2 Int.ofNat_lt.symm
      deref := by
        rintro a _ x ⟨k, -, rfl, ha⟩ hx
        obtain ⟨hlt, rfl⟩ := List.getElem?_eq_some_iff.1 ((elementAt_natCast k).symm.trans hx)
        exact p.deref_at ha hlt
      increment := fun h => by
        rw [increment_eq]
        exact hadvance 1 h
      decrement := fun h => by
        rw [decrement_eq]
        exact hretreat 1 h
      advance := fun n h => hadvance n h
      retreat := fun n h => hretreat n h
      distance := by
        rintro a b _ _ ⟨j, hj, rfl, ha⟩ ⟨k, hk, rfl, hb⟩
        exact distance_at hordered ha hb hj hk
      subscript := by
        rintro a _ x n ⟨j, -, rfl, ha⟩ hx
        obtain ⟨k, hk, hget⟩ := elementAt_eq_some hx
        obtain ⟨hlt, rfl⟩ := List.getElem?_eq_some_iff.1 hget
        exact subscript_at hsub ha hk hlt }

/-! ### Empty ranges -/

theorem eq_self (p : RandomRange α) (it : p.iterators.It) : p.iterators.eq it it = true := by
  induction p with
  | container elements =>
    have hpos (k : ℤ) : (k == k) = true := beq_self_eq_true k
    exact hpos it
  | @integers w first last =>
    have hvalue (v : BitVec w) : (v == v) = true := beq_self_eq_true v
    exact hvalue it
  | mapEphemeral f p ih => exact ih it
  | zip p ih => exact decide_eq_true fun i => ih i (it.begins i)

theorem distance_self (p : RandomRange α) (it : p.iterators.It) :
    p.iterators.distance it it = 0 := by
  induction p with
  | container elements =>
    have hpos (k : ℤ) : k - k = 0 := Int.sub_self k
    exact hpos it
  | @integers w first last =>
    have hvalue (v : BitVec w) : (v - v).toInt = 0 := by rw [BitVec.sub_self, BitVec.toInt_zero]
    exact hvalue it
  | mapEphemeral f p ih => exact ih it
  | zip p ih => exact ih 0 (it.begins 0)

theorem checkEnd_self {n : ℕ} {α : Fin (n + 1) → Type} {c : ∀ i, RandomAccess (α i)}
    (ends : ∀ i, (c i).It) : ZipPosition.checkEnd ⟨ends, ends⟩ = ⟨ends, ends⟩ := by
  unfold ZipPosition.checkEnd
  split_ifs <;> rfl

theorem advance_last (p : RandomRange α) : p.iterators.advance p.last 0 = some p.last := by
  induction p with
  | container elements =>
    show moveTo elements ((elements.length : ℤ) + 0) = _
    rw [Int.add_zero]
    exact moveTo_natCast (le_refl _)
  | @integers w first last =>
    show some (last + BitVec.ofNat w 0) = some last
    exact congrArg some (BitVec.add_zero last)
  | mapEphemeral f p ih => exact ih
  | zip p ih =>
    show ((allSome fun i => (p i).iterators.advance (p i).last 0).bind fun begins =>
      some (ZipPosition.checkEnd ⟨begins, fun i => (p i).last⟩)) = _
    rw [allSome_of_some ih]
    exact congrArg some (checkEnd_self _)

theorem retreat_last (p : RandomRange α) : p.iterators.retreat p.last 0 = some p.last := by
  induction p with
  | container elements =>
    show moveTo elements ((elements.length : ℤ) - 0) = _
    rw [Int.sub_zero]
    exact moveTo_natCast (le_refl _)
  | @integers w first last =>
    show some (last - BitVec.ofNat w 0) = some last
    exact congrArg some (BitVec.sub_zero last)
  | mapEphemeral f p ih => exact ih
  | zip p ih =>
    show ((allSome fun i => (p i).iterators.retreat (p i).last 0).bind fun begins =>
      some (⟨begins, fun i => (p i).last⟩ : ZipPosition _)) = _
    rw [allSome_of_some ih]
    rfl

/-- The begin of an empty range is its end. -/
theorem first_eq_last (p : RandomRange α) (h : p.denote = []) : p.first = p.last := by
  induction p with
  | container elements =>
    cases h
    rfl
  | @integers w first last =>
    have hlen := length_denote_integers first last
    rw [h] at hlen
    have hzero : last - first = 0#w :=
      BitVec.eq_of_toNat_eq (hlen.symm.trans BitVec.toNat_zero.symm)
    show first = last
    rw [← BitVec.sub_add_cancel last first, hzero, BitVec.zero_add]
  | mapEphemeral f p ih => exact ih (List.map_eq_nil_iff.1 h)
  | zip p ih =>
    have hempty : shortest (fun i => (p i).denote) = 0 := by
      rw [← length_denote_zip, h]
      rfl
    obtain ⟨i, hi⟩ := (exists_eq_nil_iff _).2 hempty
    have hany : ∃ i, (p i).iterators.eq (p i).first (p i).last = true :=
      ⟨i, by rw [ih i hi]; exact eq_self _ _⟩
    show ZipPosition.checkEnd ⟨fun i => (p i).first, fun i => (p i).last⟩ = _
    unfold ZipPosition.checkEnd
    rw [if_pos (decide_eq_true hany)]
    rfl

theorem simulates_of_nil {p : RandomRange α} (h : p.denote = []) :
    Simulates p.iterators (vector p.denote) fun it z => it = p.last ∧ z = 0 := by
  have hmove {o : Option p.iterators.It} {k : ℤ} (hk : k = 0 → o = some p.last) :
      Follows (fun it (z : ℤ) => it = p.last ∧ z = 0) o (moveTo p.denote k) := by
    intro b' hb'
    obtain ⟨m, hm, hkm, rfl⟩ := moveTo_eq_some hb'
    rw [h, List.length_nil] at hm
    exact ⟨p.last, hk (by omega), rfl, by omega⟩
  have hnone {k : ℤ} {x : α} : elementAt p.denote k ≠ some x := by
    intro hx
    obtain ⟨m, -, hm⟩ := elementAt_eq_some hx
    rw [h] at hm
    cases hm
  exact
    { eq := by
        rintro a b _ _ ⟨rfl, rfl⟩ ⟨rfl, rfl⟩
        exact eq_self _ _
      lt := by
        rintro a b _ _ ⟨rfl, rfl⟩ ⟨rfl, rfl⟩
        exact lt_irrefl _ _
      deref := by
        rintro a _ x ⟨rfl, rfl⟩ hx
        exact (hnone (k := 0) hx).elim
      increment := by
        rintro a _ ⟨rfl, rfl⟩
        exact hmove (k := 0 + 1) fun hk => absurd hk (by decide)
      decrement := by
        rintro a _ ⟨rfl, rfl⟩
        exact hmove (k := 0 - 1) fun hk => absurd hk (by decide)
      advance := by
        rintro a _ n ⟨rfl, rfl⟩
        refine hmove (k := 0 + n) fun hk => ?_
        obtain rfl : n = 0 := by omega
        exact p.advance_last
      retreat := by
        rintro a _ n ⟨rfl, rfl⟩
        refine hmove (k := 0 - n) fun hk => ?_
        obtain rfl : n = 0 := by omega
        exact p.retreat_last
      distance := by
        rintro a b _ _ ⟨rfl, rfl⟩ ⟨rfl, rfl⟩
        exact distance_self _ _
      subscript := by
        rintro a _ x n ⟨rfl, rfl⟩ hx
        exact (hnone (k := 0 + n) hx).elim }

end Regular

/-! ## Other ranges -/

section Irregular

variable {α : Type}

/-- If the last position of the first elements is one before the end, all sources end
    there. -/
theorem aligned_of_eq (p : RandomRange α) {it it' : p.iterators.It} {k : ℕ} (h : p.At it k)
    (hk : k < p.denote.length) (hdecrement : p.iterators.decrement p.last = some it')
    (heq : p.iterators.eq it it' = true) : p.Aligned (k + 1) := by
  induction p with
  | container elements =>
    cases h
    obtain ⟨m, -, hm, rfl⟩ := moveTo_eq_some hdecrement
    have hlast : (elements.length : ℤ) - 1 = m := hm
    have hkm : (k : ℤ) = m := beq_iff_eq.1 heq
    show elements.length = k + 1
    omega
  | @integers w first last =>
    cases h
    cases hdecrement
    rw [length_denote_integers] at hk
    have hlt : (last - first).toNat < 2 ^ w := (last - first).isLt
    have hprev : first + BitVec.ofNat w k = last - 1 := beq_iff_eq.1 heq
    have hlast : last = BitVec.ofNat w (k + 1) + first := by
      rw [← BitVec.sub_add_cancel last 1, ← hprev, BitVec.ofNat_add, BitVec.add_assoc,
        BitVec.add_comm]
      rfl
    show (last - first).toNat = k + 1
    rw [hlast, BitVec.add_sub_cancel, BitVec.toNat_ofNat, Nat.mod_eq_of_lt (by omega)]
  | mapEphemeral f p ih =>
    rw [length_denote_map] at hk
    exact ih h hk hdecrement heq
  | zip p ih =>
    obtain ⟨begins, hbegins, hit'⟩ := Option.bind_eq_some_iff.1 hdecrement
    cases hit'
    have hall : ∀ i, (p i).iterators.eq (it.begins i) (begins i) = true := of_decide_eq_true heq
    exact fun i => ih i (h.2 i) (hk.trans_le (length_denote_zip_le p i))
      (allSome_eq_some hbegins i) (hall i)

/-- The begin of a range that is not empty is before its end, or behind it. -/
theorem lt_or_gt_last (p : RandomRange α) {it : p.iterators.It} {n : ℕ} (h : p.At it 0)
    (hp : p.Aligned n) (hn : 0 < n) :
    p.iterators.lt it p.last = true ∨ p.iterators.lt p.last it = true := by
  induction p with
  | container elements =>
    cases h
    have hlen : elements.length = n := hp
    have hpos : (0 : ℤ) < (elements.length : ℤ) := by omega
    have hless : decide ((0 : ℤ) < (elements.length : ℤ)) = true := decide_eq_true hpos
    exact Or.inl hless
  | @integers w first last =>
    have hne : (first + BitVec.ofNat w 0).toNat ≠ last.toNat := by
      intro heq
      have hzero : (last - first).toNat = n := hp
      rw [← BitVec.eq_of_toNat_eq heq, BitVec.add_comm, BitVec.add_sub_cancel] at hzero
      exact hn.ne (hzero.symm.trans (BitVec.toNat_ofNat 0 w ▸ Nat.zero_mod _)).symm
    cases h
    exact (Nat.lt_or_gt_of_ne hne).imp decide_eq_true decide_eq_true
  | mapEphemeral f p ih => exact ih h hp
  | zip p ih =>
    have htuple {less greater rest : Bool} (hless : less = true) :
        (less || !greater && rest) = true := by
      rw [hless]
      rfl
    exact (ih 0 (h.2 0) (hp 0)).imp htuple htuple

/-- Ranges that compare and subtract the begin and the end as those of an array. -/
theorem ordered_of (p : RandomRange α) {it : p.iterators.It} {n : ℕ} (h : p.At it 0)
    (hp : p.Aligned n) (hn : 0 < n) (hlt : p.iterators.lt it p.last = true)
    (hdistance : p.iterators.distance p.last it = n) : p.Ordered := by
  induction p with
  | container elements => trivial
  | @integers w first last =>
    have hvalue (v : BitVec w) (hv : v = first) (hless : v.ult last = true)
        (hsub : (last - v).toInt = n) :
        first.toNat ≤ last.toNat ∧ 2 * (last - first).toNat < 2 ^ w := by
      subst hv
      have hlen : (last - v).toNat = n := hp
      refine ⟨(of_decide_eq_true hless).le, ?_⟩
      rw [BitVec.toInt_eq_toNat_cond] at hsub
      split_ifs at hsub with hsmall
      · exact hsmall
      · omega
    exact hvalue it (h.trans (BitVec.add_zero first)) hlt hdistance
  | mapEphemeral f p ih => exact ih h hp hlt hdistance
  | zip p ih =>
    have htuple : tupleLess (fun i => (p i).iterators.lt (it.begins i) (p i).last)
        (fun i => (p i).iterators.lt (p i).last (it.begins i)) = true := hlt
    have hfirst := tupleLess_first htuple (lt_or_gt_last (p 0) (h.2 0) (hp 0) hn)
    exact ih 0 (h.2 0) (hp 0) hfirst hdistance

end Irregular

/-! ## Programs -/

section Programs

variable {α : Type}

/-- Whatever a program for an array returns, it returns for the range as well. It starts
    from the begin and the end. -/
def BehavesAsArray (p : RandomRange α) : Prop :=
  ∀ (β : Type) (client : Client α β) (b : β),
    client.run (vector p.denote) (startVars 0 (p.denote.length : ℤ)) = some b →
      client.run p.iterators (startVars p.first p.last) = some b

theorem behavesAsArray_of_regular {p : RandomRange α} (h : p.Regular) : p.BehavesAsArray := by
  intro β client b hrun
  by_cases hnil : p.denote = []
  · refine (simulates_of_nil hnil).run client (fun i => ?_) hrun
    have hlen : (p.denote.length : ℤ) = 0 := by rw [hnil]; rfl
    cases i with
    | zero => exact ⟨first_eq_last p hnil, rfl⟩
    | succ i => exact ⟨rfl, hlen⟩
  · obtain ⟨haligned, hordered, hsub⟩ := h.resolve_left hnil
    refine (simulates_of_aligned haligned hordered hsub).run client (fun i => ?_) hrun
    cases i with
    | zero => exact ⟨0, Nat.zero_le _, rfl, p.at_first (List.length_pos_of_ne_nil hnil)⟩
    | succ i => exact ⟨_, le_refl _, rfl, haligned.at_last⟩

/-- The last position from both sides. -/
def meetAtLast (len : ℕ) : Client α Bool :=
  .decrement 1 (.advance 0 ((len : ℤ) - 1) (.eq 0 1 .done))

theorem run_meetAtLast {xs : List α} (h : 0 < xs.length) :
    (meetAtLast xs.length).run (vector xs) (startVars 0 (xs.length : ℤ)) = some true := by
  have hdecrement : moveTo xs ((xs.length : ℤ) - 1) = some ((xs.length : ℤ) - 1) :=
    if_pos ⟨by omega, by omega⟩
  have hadvance : moveTo xs (0 + ((xs.length : ℤ) - 1)) = some (0 + ((xs.length : ℤ) - 1)) :=
    if_pos ⟨by omega, by omega⟩
  have heq : ((0 + ((xs.length : ℤ) - 1)) == (xs.length : ℤ) - 1) = true :=
    beq_iff_eq.2 (Int.zero_add _)
  refine (congrArg (Option.bind · _) hdecrement).trans ?_
  exact (congrArg (Option.bind · _) hadvance).trans (congrArg some heq)

theorem aligned_of_behavesAsArray {p : RandomRange α} (h : p.BehavesAsArray)
    (hpos : 0 < p.denote.length) : p.Aligned p.denote.length := by
  have hrun := h Bool (meetAtLast p.denote.length) true (run_meetAtLast hpos)
  obtain ⟨it', hdecrement, hrest⟩ := Option.bind_eq_some_iff.1 hrun
  obtain ⟨it, hadvance, heq⟩ := Option.bind_eq_some_iff.1 hrest
  have hlen : ((0 : ℕ) : ℤ) + ((p.denote.length : ℤ) - 1) = (p.denote.length - 1 : ℕ) := by omega
  have hlt : p.denote.length - 1 < p.denote.length := by omega
  obtain ⟨reached, hreached, hat⟩ := p.advance_at (p.at_first hpos) hlen (Or.inl hlt)
  obtain rfl : reached = it := Option.some.inj (hreached.symm.trans hadvance)
  have haligned := p.aligned_of_eq hat hlt hdecrement (Option.some.inj heq)
  rwa [Nat.sub_add_cancel hpos] at haligned

theorem ordered_of_behavesAsArray {p : RandomRange α} (h : p.BehavesAsArray)
    (hpos : 0 < p.denote.length) (haligned : p.Aligned p.denote.length) : p.Ordered := by
  have hless := h Bool (.lt 0 1 .done) true (congrArg some (decide_eq_true (by
    show (0 : ℤ) < (p.denote.length : ℤ)
    omega)))
  have hdistance := h ℤ (.distance 1 0 .done) p.denote.length (congrArg some (Int.sub_zero _))
  exact ordered_of p (p.at_first hpos) haligned hpos (Option.some.inj hless)
    (Option.some.inj hdistance)

theorem subscripts_of_behavesAsArray {p : RandomRange α} (h : p.BehavesAsArray)
    (hpos : 0 < p.denote.length) : p.Subscripts := by
  have hread : elementAt p.denote (0 + 0) = some p.denote[0] :=
    (elementAt_natCast 0).trans (List.getElem?_eq_getElem hpos)
  obtain ⟨a, hsubscript, -⟩ := Option.bind_eq_some_iff.1
    (h α (.subscript 0 0 .done) p.denote[0] (congrArg (Option.bind · _) hread))
  cases p with
  | container elements => trivial
  | integers first last => trivial
  | mapEphemeral f p => trivial
  | zip p =>
    intro i
    refine Bool.eq_false_of_not_eq_true fun hi => ?_
    have hdangling : (zip p).iterators.subscript (zip p).first 0 = none :=
      if_pos (decide_eq_true ⟨i, hi⟩)
    cases hdangling.symm.trans hsubscript

/-- Exactly the regular ranges can be used like arrays. -/
theorem behavesAsArray_iff (p : RandomRange α) : p.BehavesAsArray ↔ p.Regular := by
  refine ⟨fun h => ?_, behavesAsArray_of_regular⟩
  rcases Nat.eq_zero_or_pos p.denote.length with hnil | hpos
  · exact Or.inl (List.length_eq_zero_iff.1 hnil)
  · have haligned := aligned_of_behavesAsArray h hpos
    exact Or.inr ⟨haligned, ordered_of_behavesAsArray h hpos haligned,
      subscripts_of_behavesAsArray h hpos⟩

end Programs

end RandomRange

end BambooShoot.Pbsu
