import Mathlib.Data.Set.Card
import Mathlib.Data.List.Sort

/-!
# Ordered lists under a strict weak order

The contents of an ordered container, kept as the list of its elements in
ascending order of a comparator `lt` that is only a strict weak order: two
elements may be equivalent (neither before the other) without being equal.

* `insertNew`: insertion that keeps an equivalent element already present;
* `assign`: insertion into a list of key-value pairs that overwrites the value
  of an equivalent key;
* `foldl_insertNew`: inserting the elements of an ascending list one after the
  other rebuilds it;
* `find_assignAll`: the map that assignments make gives the last value of a key;
* `ncard_classes`: an ascending list that represents the same classes as `ks`
  has one element for each class of `ks`.
-/

namespace BambooShoot.Lib

variable {α κ υ : Type}

/-- `lt` is a strict weak order. -/
structure StrictWeak (lt : α → α → Bool) : Prop where
  asymm : ∀ {a b}, lt a b = true → lt b a = false
  negTrans : ∀ {a b c}, lt a b = false → lt b c = false → lt a c = false

/-- Neither element is before the other. -/
def Incomp (lt : α → α → Bool) (a b : α) : Prop := lt a b = false ∧ lt b a = false

instance (lt : α → α → Bool) (a b : α) : Decidable (Incomp lt a b) :=
  inferInstanceAs (Decidable (_ ∧ _))

/-- The elements are strictly increasing. -/
def Ascending (lt : α → α → Bool) (l : List α) : Prop := l.Pairwise fun a b => lt a b = true

section StrictWeak

variable {lt : α → α → Bool} (h : StrictWeak lt)

include h

theorem StrictWeak.irrefl (a : α) : lt a a = false := by
  cases hlt : lt a a with
  | false => rfl
  | true => rw [← h.asymm hlt, hlt]

theorem StrictWeak.trans {a b c : α} (hab : lt a b = true) (hbc : lt b c = true) :
    lt a c = true := by
  by_contra hac
  have h1 := h.negTrans (eq_false_of_ne_true hac) (h.asymm hbc)
  rw [hab] at h1
  cases h1

theorem StrictWeak.lt_of_not_of_lt {a b c : α} (hba : lt b a = false) (hbc : lt b c = true) :
    lt a c = true := by
  by_contra hac
  have h1 := h.negTrans hba (eq_false_of_ne_true hac)
  rw [hbc] at h1
  cases h1

theorem StrictWeak.incomp_refl (a : α) : Incomp lt a a := ⟨h.irrefl a, h.irrefl a⟩

omit h in
theorem Incomp.symm {a b : α} (hab : Incomp lt a b) : Incomp lt b a := ⟨hab.2, hab.1⟩

theorem StrictWeak.incomp_trans {a b c : α} (hab : Incomp lt a b) (hbc : Incomp lt b c) :
    Incomp lt a c :=
  ⟨h.negTrans hab.1 hbc.1, h.negTrans hbc.2 hab.2⟩

/-- Elements that are the same to `lt`. -/
def StrictWeak.setoid : Setoid α where
  r := Incomp lt
  iseqv := ⟨h.incomp_refl, Incomp.symm, h.incomp_trans⟩

end StrictWeak

/-! ## Sets -/

/-- Insert `x` unless an equivalent element is present. -/
def insertNew (lt : α → α → Bool) (x : α) : List α → List α
  | [] => [x]
  | y :: ys =>
    if lt x y then x :: y :: ys
    else if lt y x then y :: insertNew lt x ys
    else y :: ys

theorem length_insertNew_le (lt : α → α → Bool) (x : α) (l : List α) :
    (insertNew lt x l).length ≤ l.length + 1 := by
  induction l with
  | nil => simp [insertNew]
  | cons y ys ih =>
    rw [insertNew]
    split_ifs <;> (simp; try omega)

theorem length_foldl_insertNew_le (lt : α → α → Bool) (xs l : List α) :
    (xs.foldl (fun l x => insertNew lt x l) l).length ≤ l.length + xs.length := by
  induction xs generalizing l with
  | nil => simp
  | cons x xs ih =>
    have h1 := ih (insertNew lt x l)
    have h2 := length_insertNew_le lt x l
    rw [List.foldl_cons, List.length_cons]
    omega

theorem mem_insertNew {lt : α → α → Bool} {x a : α} {l : List α} (h : a ∈ insertNew lt x l) :
    a = x ∨ a ∈ l := by
  induction l with
  | nil => simpa [insertNew] using h
  | cons y ys ih =>
    rw [insertNew] at h
    split_ifs at h
    · simpa using h
    · rcases List.mem_cons.mp h with rfl | h
      · exact Or.inr List.mem_cons_self
      · exact (ih h).imp_right (List.mem_cons_of_mem _)
    · exact Or.inr h

theorem insertNew_ascending {lt : α → α → Bool} (hlt : StrictWeak lt) (x : α) {l : List α}
    (h : Ascending lt l) : Ascending lt (insertNew lt x l) := by
  induction l with
  | nil => exact List.pairwise_singleton _ _
  | cons y ys ih =>
    obtain ⟨hy, hys⟩ := List.pairwise_cons.mp h
    rw [insertNew]
    split_ifs with h1 h2
    · refine List.pairwise_cons.mpr ⟨fun a ha => ?_, h⟩
      rcases List.mem_cons.mp ha with rfl | ha
      · exact h1
      · exact hlt.trans h1 (hy a ha)
    · refine List.pairwise_cons.mpr ⟨fun a ha => ?_, ih hys⟩
      rcases mem_insertNew ha with rfl | ha
      · exact h2
      · exact hy a ha
    · exact h

theorem foldl_insertNew_ascending {lt : α → α → Bool} (hlt : StrictWeak lt) (xs : List α)
    {l : List α} (h : Ascending lt l) :
    Ascending lt (xs.foldl (fun l x => insertNew lt x l) l) := by
  induction xs generalizing l with
  | nil => exact h
  | cons x xs ih => exact ih (insertNew_ascending hlt x h)

/-- A new maximum goes to the end. -/
theorem insertNew_of_forall_lt {lt : α → α → Bool} (hlt : StrictWeak lt) {x : α} {l : List α}
    (h : ∀ a ∈ l, lt a x = true) : insertNew lt x l = l ++ [x] := by
  induction l with
  | nil => rfl
  | cons y ys ih =>
    have hy := h y List.mem_cons_self
    rw [insertNew, hlt.asymm hy, hy, ih fun a ha => h a (List.mem_cons_of_mem _ ha)]
    simp

theorem foldl_insertNew {lt : α → α → Bool} (hlt : StrictWeak lt) (xs : List α) {l : List α}
    (h : Ascending lt (l ++ xs)) : xs.foldl (fun l x => insertNew lt x l) l = l ++ xs := by
  induction xs generalizing l with
  | nil => simp
  | cons x xs ih =>
    have hx : insertNew lt x l = l ++ [x] :=
      insertNew_of_forall_lt hlt fun a ha =>
        (List.pairwise_append.mp h).2.2 a ha x List.mem_cons_self
    rw [List.foldl_cons, hx, ih (by simpa using h)]
    simp

/-! ## Maps -/

/-- The comparator of a map: by key. -/
def byKey (lt : κ → κ → Bool) (p q : κ × υ) : Bool := lt p.1 q.1

theorem StrictWeak.byKey {lt : κ → κ → Bool} (h : StrictWeak lt) :
    StrictWeak (byKey lt : κ × υ → κ × υ → Bool) :=
  ⟨fun hab => h.asymm hab, fun hab hbc => h.negTrans hab hbc⟩

/-- Set the value of `k`; an equivalent key already present stays. -/
def assign (lt : κ → κ → Bool) (k : κ) (v : υ) : List (κ × υ) → List (κ × υ)
  | [] => [(k, v)]
  | p :: ps =>
    if lt k p.1 then (k, v) :: p :: ps
    else if lt p.1 k then p :: assign lt k v ps
    else (p.1, v) :: ps

theorem mem_assign {lt : κ → κ → Bool} (hlt : StrictWeak lt) {k : κ} {v : υ} {q : κ × υ}
    {l : List (κ × υ)} (hl : Ascending (byKey lt) l) (h : q ∈ assign lt k v l) :
    (q.2 = v ∧ Incomp lt q.1 k) ∨ (q ∈ l ∧ ¬ Incomp lt q.1 k) := by
  induction l with
  | nil =>
    rw [assign, List.mem_singleton] at h
    subst h
    exact Or.inl ⟨rfl, hlt.incomp_refl k⟩
  | cons p ps ih =>
    obtain ⟨hp, hps⟩ := List.pairwise_cons.mp hl
    -- everything behind an entry that is not before `k` is after `k`
    have after : ∀ r ∈ p :: ps, lt k p.1 = true → ¬ Incomp lt r.1 k := by
      intro r hr hkp hi
      rcases List.mem_cons.mp hr with rfl | hr
      · rw [hi.2] at hkp; cases hkp
      · have := hlt.trans hkp (hp r hr)
        rw [hi.2] at this; cases this
    rw [assign] at h
    split_ifs at h with h1 h2
    · rcases List.mem_cons.mp h with rfl | h
      · exact Or.inl ⟨rfl, hlt.incomp_refl k⟩
      · exact Or.inr ⟨h, after q h h1⟩
    · rcases List.mem_cons.mp h with rfl | h
      · refine Or.inr ⟨List.mem_cons_self, fun hi => ?_⟩
        rw [hi.1] at h2; cases h2
      · exact (ih hps h).imp_right fun hq => ⟨List.mem_cons_of_mem _ hq.1, hq.2⟩
    · have hi : Incomp lt p.1 k := ⟨eq_false_of_ne_true h2, eq_false_of_ne_true h1⟩
      rcases List.mem_cons.mp h with rfl | h
      · exact Or.inl ⟨rfl, hi⟩
      · refine Or.inr ⟨List.mem_cons_of_mem _ h, fun hq => ?_⟩
        have := hlt.lt_of_not_of_lt hi.1 (hp q h)
        rw [hq.2] at this; cases this

/-- The keys after an assignment: an old key or `k`. -/
theorem key_mem_assign {lt : κ → κ → Bool} {k : κ} {v : υ} {q : κ × υ} {l : List (κ × υ)}
    (h : q ∈ assign lt k v l) : q.1 = k ∨ ∃ p ∈ l, p.1 = q.1 := by
  induction l with
  | nil => rw [assign, List.mem_singleton] at h; exact Or.inl (by rw [h])
  | cons p ps ih =>
    rw [assign] at h
    split_ifs at h
    · rcases List.mem_cons.mp h with rfl | h
      · exact Or.inl rfl
      · exact Or.inr ⟨q, h, rfl⟩
    · rcases List.mem_cons.mp h with rfl | h
      · exact Or.inr ⟨q, List.mem_cons_self, rfl⟩
      · exact (ih h).imp_right fun ⟨r, hr, he⟩ => ⟨r, List.mem_cons_of_mem _ hr, he⟩
    · rcases List.mem_cons.mp h with rfl | h
      · exact Or.inr ⟨p, List.mem_cons_self, rfl⟩
      · exact Or.inr ⟨q, List.mem_cons_of_mem _ h, rfl⟩

theorem length_assign_le (lt : κ → κ → Bool) (k : κ) (v : υ) (l : List (κ × υ)) :
    (assign lt k v l).length ≤ l.length + 1 := by
  induction l with
  | nil => simp [assign]
  | cons p ps ih =>
    rw [assign]
    split_ifs <;> (simp; try omega)

theorem assign_ascending {lt : κ → κ → Bool} (hlt : StrictWeak lt) (k : κ) (v : υ)
    {l : List (κ × υ)} (h : Ascending (byKey lt) l) : Ascending (byKey lt) (assign lt k v l) := by
  induction l with
  | nil => exact List.pairwise_singleton _ _
  | cons p ps ih =>
    obtain ⟨hp, hps⟩ := List.pairwise_cons.mp h
    rw [assign]
    split_ifs with h1 h2
    · refine List.pairwise_cons.mpr ⟨fun q hq => ?_, h⟩
      rcases List.mem_cons.mp hq with rfl | hq
      · exact h1
      · exact hlt.trans h1 (hp q hq)
    · refine List.pairwise_cons.mpr ⟨fun q hq => ?_, ih hps⟩
      rcases key_mem_assign hq with hk | ⟨r, hr, he⟩
      · exact show lt p.1 q.1 = true from hk ▸ h2
      · exact show lt p.1 q.1 = true from he ▸ hp r hr
    · exact List.pairwise_cons.mpr ⟨hp, hps⟩

/-! ## Counting -/

/-- The number of classes among `ks`: how many distinct keys there are. -/
noncomputable def distinctCount {lt : κ → κ → Bool} (hlt : StrictWeak lt) (ks : List κ) : ℕ :=
  Set.ncard {c : Quotient hlt.setoid | ∃ k ∈ ks, Quotient.mk hlt.setoid k = c}

/-- An ascending list that meets the same classes as `ks` has one element for
    each of them. -/
theorem ncard_classes {lt : κ → κ → Bool} (hlt : StrictWeak lt) {l ks : List κ}
    (hl : Ascending lt l) (hsub : ∀ a ∈ l, ∃ k ∈ ks, Incomp lt a k)
    (hsup : ∀ k ∈ ks, ∃ a ∈ l, Incomp lt a k) : l.length = distinctCount hlt ks := by
  classical
  have hnodup : (l.map (Quotient.mk hlt.setoid)).Nodup := by
    refine List.pairwise_map.mpr (hl.imp fun {a b} hab he => ?_)
    have hi : Incomp lt a b := Quotient.exact he
    rw [hi.1] at hab
    cases hab
  have hset : {c : Quotient hlt.setoid | ∃ k ∈ ks, Quotient.mk hlt.setoid k = c} =
      ((l.map (Quotient.mk hlt.setoid)).toFinset : Set (Quotient hlt.setoid)) := by
    ext c
    simp only [Set.mem_ofPred_eq, List.coe_toFinset, List.mem_map]
    constructor
    · rintro ⟨k, hk, rfl⟩
      obtain ⟨a, ha, hak⟩ := hsup k hk
      exact ⟨a, ha, Quotient.sound hak⟩
    · rintro ⟨a, ha, rfl⟩
      obtain ⟨k, hk, hak⟩ := hsub a ha
      exact ⟨k, hk, Quotient.sound hak.symm⟩
  rw [distinctCount, hset, Set.ncard_coe_finset, List.toFinset_card_of_nodup hnodup,
    List.length_map]

/-! ## Last values -/

/-- The map that assignments make, one after the other. -/
def assignAll (lt : κ → κ → Bool) (l : List (κ × υ)) : List (κ × υ) :=
  l.foldl (fun m p => assign lt p.1 p.2 m) []

/-- The value that was assigned to `k` last. -/
def lastValue (lt : κ → κ → Bool) (k : κ) (l : List (κ × υ)) : Option υ :=
  (l.reverse.find? fun p => Incomp lt p.1 k).map Prod.snd

section LastValue

variable {lt : κ → κ → Bool}

theorem assignAll_concat (l : List (κ × υ)) (p : κ × υ) :
    assignAll lt (l ++ [p]) = assign lt p.1 p.2 (assignAll lt l) := by
  unfold assignAll
  rw [List.foldl_append]
  rfl

theorem lastValue_concat (k : κ) (l : List (κ × υ)) (p : κ × υ) :
    lastValue lt k (l ++ [p]) = if Incomp lt p.1 k then some p.2 else lastValue lt k l := by
  unfold lastValue
  rw [List.reverse_append, List.reverse_singleton, List.singleton_append, List.find?_cons]
  split_ifs with h
  · rw [decide_eq_true h]
    rfl
  · rw [decide_eq_false h]

/-- Only the keys decide which assignment is the last. -/
theorem lastValue_map {ν : Type} (f : υ → ν) (k : κ) (l : List (κ × υ)) :
    lastValue lt k (l.map fun p => (p.1, f p.2)) = (lastValue lt k l).map f := by
  unfold lastValue
  rw [← List.map_reverse, List.find?_map, Option.map_map, Option.map_map]
  rfl

theorem exists_mem_of_lastValue {k : κ} {v : υ} {l : List (κ × υ)} (h : lastValue lt k l = some v) :
    ∃ k', (k', v) ∈ l ∧ Incomp lt k' k := by
  unfold lastValue at h
  obtain ⟨p, hp, rfl⟩ := Option.map_eq_some_iff.mp h
  exact ⟨p.1, List.mem_reverse.mp (List.mem_of_find?_eq_some hp), by simpa using List.find?_some hp⟩

variable (hlt : StrictWeak lt)

include hlt

/-- What is found of `k` after an assignment to `k'`. -/
theorem find_assign (k k' : κ) (v : υ) (l : List (κ × υ)) :
    ((assign lt k' v l).find? fun q => Incomp lt q.1 k).map Prod.snd =
      if Incomp lt k' k then some v else (l.find? fun q => Incomp lt q.1 k).map Prod.snd := by
  induction l with
  | nil =>
    rw [assign, List.find?_cons]
    split_ifs with h
    · rw [decide_eq_true h]
      rfl
    · rw [decide_eq_false h]
  | cons p ps ih =>
    rw [assign]
    by_cases h1 : lt k' p.1 = true
    · rw [if_pos h1, List.find?_cons]
      split_ifs with h
      · rw [decide_eq_true h]
        rfl
      · rw [decide_eq_false h]
    · rw [if_neg h1]
      by_cases h2 : lt p.1 k' = true
      · rw [if_pos h2, List.find?_cons, List.find?_cons]
        split_ifs with h
        · -- `p` is before `k'`, so it is not a key of `k`
          have hp : ¬ Incomp lt p.1 k := fun hp => by
            have hpk' := hlt.incomp_trans hp h.symm
            rw [hpk'.1] at h2
            cases h2
          rw [decide_eq_false hp, ih, if_pos h]
        · rw [if_neg h] at ih
          cases decide (Incomp lt p.1 k) with
          | true => rfl
          | false => exact ih
      · have hp : Incomp lt p.1 k' := ⟨eq_false_of_ne_true h2, eq_false_of_ne_true h1⟩
        rw [if_neg h2, List.find?_cons, List.find?_cons]
        split_ifs with h
        · rw [decide_eq_true (hlt.incomp_trans hp h)]
          rfl
        · have hpk : ¬ Incomp lt p.1 k := fun hpk => h (hlt.incomp_trans hp.symm hpk)
          rw [decide_eq_false hpk]

/-- The last value is found. -/
theorem find_assignAll (k : κ) (l : List (κ × υ)) :
    ((assignAll lt l).find? fun q => Incomp lt q.1 k).map Prod.snd = lastValue lt k l := by
  induction l using List.reverseRecOn with
  | nil => rfl
  | append_singleton l p ih => rw [assignAll_concat, find_assign hlt, ih, lastValue_concat]

theorem assignAll_ascending (l : List (κ × υ)) : Ascending (byKey lt) (assignAll lt l) := by
  induction l using List.reverseRecOn with
  | nil => exact List.Pairwise.nil
  | append_singleton l p ih =>
    rw [assignAll_concat]
    exact assign_ascending hlt p.1 p.2 ih

/-- An entry has the last value of its key. -/
theorem lastValue_of_mem {q : κ × υ} {l : List (κ × υ)} (h : q ∈ assignAll lt l) :
    lastValue lt q.1 l = some q.2 := by
  induction l using List.reverseRecOn with
  | nil => cases h
  | append_singleton l p ih =>
    rw [assignAll_concat] at h
    rw [lastValue_concat]
    rcases mem_assign hlt (assignAll_ascending hlt l) h with ⟨hv, hk⟩ | ⟨hmem, hk⟩
    · rw [if_pos hk.symm, hv]
    · rw [if_neg fun hi => hk hi.symm, ih hmem]

omit hlt in
/-- The map has no other keys than were assigned to. -/
theorem key_mem_assignAll {q : κ × υ} {l : List (κ × υ)} (h : q ∈ assignAll lt l) :
    q.1 ∈ l.map Prod.fst := by
  induction l using List.reverseRecOn generalizing q with
  | nil => cases h
  | append_singleton l p ih =>
    rw [assignAll_concat] at h
    rw [List.map_append, List.map_singleton, List.mem_append, List.mem_singleton]
    rcases key_mem_assign h with hp | ⟨q', hq', hkey⟩
    · exact Or.inr hp
    · exact Or.inl (hkey ▸ ih hq')

/-- Every key that was assigned to has an entry. -/
theorem exists_mem_assignAll {k : κ} {l : List (κ × υ)} (h : k ∈ l.map Prod.fst) :
    ∃ q ∈ assignAll lt l, Incomp lt q.1 k := by
  obtain ⟨p, hp, rfl⟩ := List.mem_map.mp h
  have hfound := find_assignAll hlt p.1 l
  have hlast : (lastValue lt p.1 l).isSome = true := by
    unfold lastValue
    rw [Option.isSome_map, List.find?_isSome]
    exact ⟨p, List.mem_reverse.mpr hp, decide_eq_true (hlt.incomp_refl p.1)⟩
  rw [← hfound, Option.isSome_map, List.find?_isSome] at hlast
  obtain ⟨q, hq, hincomp⟩ := hlast
  exact ⟨q, hq, by simpa using hincomp⟩

/-- The keys are distinct. -/
theorem length_assignAll (l : List (κ × υ)) :
    (assignAll lt l).length = distinctCount hlt (l.map Prod.fst) := by
  have hascending : Ascending lt ((assignAll lt l).map Prod.fst) :=
    List.pairwise_map.mpr (assignAll_ascending hlt l)
  rw [← List.length_map (f := Prod.fst), ncard_classes hlt hascending]
  · intro k hk
    obtain ⟨q, hq, rfl⟩ := List.mem_map.mp hk
    exact ⟨q.1, key_mem_assignAll hq, hlt.incomp_refl q.1⟩
  · intro k hk
    obtain ⟨q, hq, hincomp⟩ := exists_mem_assignAll hlt hk
    exact ⟨q.1, List.mem_map_of_mem hq, hincomp⟩

end LastValue

end BambooShoot.Lib
