import BambooShoot.Lib.Ordered
import Mathlib.Data.List.Forall2

/-!
# Cursors of an ordered container

The iterators of a container whose elements stay where they are: one is at an
element, known by its key, or behind the last of them. The keys are a list in
ascending order of a strict weak order.

* `next`, `previous`, `lowerBound`, `upperBound`: where a cursor comes to;
* `Place`: a cursor together with the direction it is used in;
* `next_eq_some`, `next_eq_none`: where `++` comes to;
* `Place.At`: an iterator that is at an element stays at one;
* `forall₂_assignAll`: maps of the same keys whose values are related.
-/

namespace BambooShoot.Lib

variable {κ : Type}

/-- The first key after `k`, `none` behind the last. -/
def next (lt : κ → κ → Bool) (keys : List κ) (k : κ) : Option κ := keys.find? fun k' => lt k k'

/-- The last key before an element or before the end, if there is one. -/
def previous (lt : κ → κ → Bool) (keys : List κ) : Option κ → Option κ
  | none => keys.getLast?
  | some k => (keys.filter fun k' => lt k' k).getLast?

/-- The first key that is not before `k`. -/
def lowerBound (lt : κ → κ → Bool) (keys : List κ) (k : κ) : Option κ :=
  keys.find? fun k' => !lt k' k

/-- The first key after `k`. -/
def upperBound (lt : κ → κ → Bool) (keys : List κ) (k : κ) : Option κ :=
  keys.find? fun k' => lt k k'

/-- The key that is equivalent to `k`. -/
def findKey (lt : κ → κ → Bool) (keys : List κ) (k : κ) : Option κ :=
  keys.find? fun k' => Incomp lt k' k

/-- A bidirectional iterator of a map, or its `std::reverse_iterator`; that one
    is kept as the iterator it is based on. -/
inductive Place (κ : Type) where
  | forward (node : Option κ)
  | backward (base : Option κ)

namespace Place

variable (lt : κ → κ → Bool) (keys : List κ)

/-- `begin()` and `rbegin()`. -/
def begin (reverse : Bool) : Place κ := if reverse then .backward none else .forward keys.head?

/-- `end()` and `rend()`. -/
def behind (reverse : Bool) : Place κ := if reverse then .backward keys.head? else .forward none

/-- The key of the element an iterator is at. -/
def key : Place κ → Option κ
  | .forward node => node
  | .backward base => previous lt keys base

/-- `++`; there is none behind the last element. -/
def increment : Place κ → Option (Place κ)
  | .forward none => none
  | .forward (some k) => some (.forward (next lt keys k))
  | .backward base => (previous lt keys base).map fun k => .backward (some k)

/-- `--`; there is none at the first element. -/
def decrement : Place κ → Option (Place κ)
  | .forward node => (previous lt keys node).map fun k => .forward (some k)
  | .backward none => none
  | .backward (some k) => some (.backward (next lt keys k))

/-- The element it is at is among the keys. -/
def At : Place κ → Prop
  | .forward (some k) => k ∈ keys
  | _ => True

end Place

section Places

variable {lt : κ → κ → Bool} {keys : List κ}

theorem previous_mem {node : Option κ} {k : κ} (h : previous lt keys node = some k) : k ∈ keys := by
  cases node with
  | none => exact List.mem_of_getLast? h
  | some k' => exact List.mem_of_mem_filter (List.mem_of_getLast? h)

theorem Place.at_forward_find {p : κ → Bool} : (Place.forward (keys.find? p)).At keys := by
  cases h : keys.find? p with
  | none => trivial
  | some k => exact List.mem_of_find?_eq_some h

theorem Place.at_begin (reverse : Bool) : (Place.begin keys reverse).At keys := by
  cases reverse with
  | true => trivial
  | false =>
    cases keys with
    | nil => trivial
    | cons k keys => exact List.mem_cons_self

theorem Place.at_behind (reverse : Bool) : (Place.behind keys reverse).At keys := by
  cases reverse with
  | true => trivial
  | false => trivial

theorem Place.At.key_mem {place : Place κ} (h : place.At keys) {k : κ}
    (hk : place.key lt keys = some k) : k ∈ keys := by
  cases place with
  | forward node =>
    cases hk
    exact h
  | backward base => exact previous_mem hk

theorem Place.at_increment {place place' : Place κ} (h : place.increment lt keys = some place') :
    place'.At keys := by
  cases place with
  | forward node =>
    cases node with
    | none => cases h
    | some k =>
      cases h
      exact Place.at_forward_find
  | backward base =>
    obtain ⟨k, -, rfl⟩ := Option.map_eq_some_iff.mp h
    trivial

theorem Place.at_decrement {place place' : Place κ} (h : place.decrement lt keys = some place') :
    place'.At keys := by
  cases place with
  | forward node =>
    obtain ⟨k, hk, rfl⟩ := Option.map_eq_some_iff.mp h
    exact previous_mem hk
  | backward base =>
    cases base with
    | none => cases h
    | some k =>
      cases h
      trivial

/-- `++` comes to the least of the keys that are after. -/
theorem next_eq_some (hlt : StrictWeak lt) (hkeys : Ascending lt keys) {k k' : κ}
    (h : next lt keys k = some k') :
    k' ∈ keys ∧ lt k k' = true ∧ ∀ j ∈ keys, lt k j = true → lt j k' = false := by
  obtain ⟨hk', before, behind, rfl, hbefore⟩ := List.find?_eq_some_iff_append.mp h
  refine ⟨by simp, hk', fun j hj hkj => ?_⟩
  rcases List.mem_append.mp hj with hj | hj
  · have hno := hbefore j hj
    rw [hkj] at hno
    cases hno
  · rcases List.mem_cons.mp hj with rfl | hj
    · exact hlt.irrefl j
    · have hrest := (List.pairwise_append.mp hkeys).2.1
      exact hlt.asymm ((List.pairwise_cons.mp hrest).1 j hj)

theorem next_eq_none {k : κ} (h : next lt keys k = none) {j : κ} (hj : j ∈ keys) :
    lt k j = false :=
  eq_false_of_ne_true (List.find?_eq_none.mp h j hj)

/-- Equivalent keys of one map are the same. -/
theorem eq_of_incomp (hkeys : Ascending lt keys) {j k : κ} (hj : j ∈ keys) (hk : k ∈ keys)
    (h : Incomp lt j k) : j = k := by
  induction keys with
  | nil => cases hj
  | cons a keys ih =>
    obtain ⟨ha, hrest⟩ := List.pairwise_cons.mp hkeys
    rcases List.mem_cons.mp hj with rfl | hj
    · rcases List.mem_cons.mp hk with hka | hk
      · exact hka.symm
      · exact absurd (ha k hk) (ne_true_of_eq_false h.1)
    · rcases List.mem_cons.mp hk with hka | hk
      · rw [hka] at h
        exact absurd (ha j hj) (ne_true_of_eq_false h.2)
      · exact ih hrest hj hk

/-- Two ascending lists of the same elements are one. -/
theorem eq_of_subset_of_ascending (hlt : StrictWeak lt) {l : List κ} (hkeys : Ascending lt keys)
    (hl : Ascending lt l) (h : keys ⊆ l) (h' : l ⊆ keys) : keys = l := by
  have hanti : Std.Antisymm fun a b => lt a b = true :=
    ⟨fun a b hab hba => absurd (hlt.asymm hab) (ne_false_of_eq_true hba)⟩
  have hirrefl : Std.Irrefl fun a b => lt a b = true :=
    ⟨fun a => ne_true_of_eq_false (hlt.irrefl a)⟩
  exact List.Subset.antisymm_of_pairwise hkeys hl h h'

/-- Elements stay where they are. -/
theorem Place.At.mono {place : Place κ} {keys' : List κ} (hkeys : keys ⊆ keys')
    (h : place.At keys) : place.At keys' := by
  cases place with
  | forward node =>
    cases node with
    | none => trivial
    | some k => exact hkeys h
  | backward base => trivial

end Places

/-! ## Maps of the same keys -/

section Related

variable {υ ν : Type} {lt : κ → κ → Bool} {R : υ → ν → Prop}

/-- Two entries with one key and related values. -/
def EntryRel (R : υ → ν → Prop) (p : κ × υ) (q : κ × ν) : Prop := p.1 = q.1 ∧ R p.2 q.2

theorem forall₂_assign {k : κ} {v : υ} {w : ν} (hvw : R v w) {l : List (κ × υ)}
    {m : List (κ × ν)} (h : List.Forall₂ (EntryRel R) l m) :
    List.Forall₂ (EntryRel R) (assign lt k v l) (assign lt k w m) := by
  induction h with
  | nil => exact .cons ⟨rfl, hvw⟩ .nil
  | @cons p q l m hpq h ih =>
    rw [assign, assign, hpq.1]
    split_ifs with h1 h2
    · exact .cons ⟨rfl, hvw⟩ (.cons hpq h)
    · exact .cons hpq ih
    · exact .cons ⟨rfl, hvw⟩ h

/-- Assignments of related values to the same keys. -/
theorem forall₂_assignAll {l : List (κ × υ)} {m : List (κ × ν)}
    (h : List.Forall₂ (EntryRel R) l m) :
    List.Forall₂ (EntryRel R) (assignAll lt l) (assignAll lt m) := by
  have hfold : ∀ {l' : List (κ × υ)} {m' : List (κ × ν)}, List.Forall₂ (EntryRel R) l' m' →
      List.Forall₂ (EntryRel R) (l.foldl (fun m p => assign lt p.1 p.2 m) l')
        (m.foldl (fun m p => assign lt p.1 p.2 m) m') := by
    induction h with
    | nil => exact fun h' => h'
    | @cons p q l m hpq _ ih =>
      intro l' m' h'
      rw [List.foldl_cons, List.foldl_cons, hpq.1]
      exact ih (forall₂_assign hpq.2 h')
  exact hfold .nil

/-- An assignment leaves the keys that there are. -/
theorem keys_subset_assign (k : κ) (v : υ) (l : List (κ × υ)) :
    l.map Prod.fst ⊆ (assign lt k v l).map Prod.fst := by
  induction l with
  | nil => exact List.nil_subset _
  | cons p ps ih =>
    rw [assign]
    split_ifs
    · exact List.subset_cons_self _ _
    · exact List.cons_subset_cons _ ih
    · exact List.Subset.refl _

theorem keys_eq {l : List (κ × υ)} {m : List (κ × ν)} (h : List.Forall₂ (EntryRel R) l m) :
    l.map Prod.fst = m.map Prod.fst := by
  induction h with
  | nil => rfl
  | cons hpq _ ih => rw [List.map_cons, List.map_cons, hpq.1, ih]

/-- What is found of a key in both. -/
theorem find_related (k : κ) {l : List (κ × υ)} {m : List (κ × ν)}
    (h : List.Forall₂ (EntryRel R) l m) :
    (l.find? (fun p => Incomp lt p.1 k) = none ∧ m.find? (fun p => Incomp lt p.1 k) = none) ∨
      ∃ p q, l.find? (fun p => Incomp lt p.1 k) = some p ∧
        m.find? (fun p => Incomp lt p.1 k) = some q ∧ EntryRel R p q := by
  induction h with
  | nil => exact Or.inl ⟨rfl, rfl⟩
  | @cons p q l m hpq _ ih =>
    rw [List.find?_cons, List.find?_cons, hpq.1]
    cases decide (Incomp lt q.1 k) with
    | true => exact Or.inr ⟨p, q, rfl, rfl, hpq⟩
    | false => exact ih

variable {α β : Type} {S : α → β → Prop} {l : List α} {m : List β}

theorem forall₂_getElem? (h : List.Forall₂ S l m) {n : ℕ} {a : α} (ha : l[n]? = some a) :
    ∃ b, m[n]? = some b ∧ S a b := by
  induction h generalizing n with
  | nil => cases ha
  | @cons a' b' l m hab _ ih =>
    cases n with
    | zero =>
      cases ha
      exact ⟨b', rfl, hab⟩
    | succ n => exact ih ha

/-- Two elements at one place are replaced. -/
theorem forall₂_modify {f : α → α} {g : β → β} {n : ℕ} (h : List.Forall₂ S l m)
    (hfg : ∀ a b, l[n]? = some a → m[n]? = some b → S a b → S (f a) (g b)) :
    List.Forall₂ S (l.modify n f) (m.modify n g) := by
  induction h generalizing n with
  | nil =>
    rw [List.modify_nil, List.modify_nil]
    exact .nil
  | @cons a b l m hab hlm ih =>
    cases n with
    | zero => exact .cons (hfg a b rfl rfl hab) hlm
    | succ n => exact .cons hab (ih hfg)

end Related

end BambooShoot.Lib
