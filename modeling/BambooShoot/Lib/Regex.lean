import Mathlib.Data.List.Basic
import Mathlib.Logic.Function.Basic

/-!
# Regular expressions with backtracking

Patterns as scripting languages have them: text is matched from the left, greedily
and with backtracking, and groups capture what they match. `run` lists all matches
at one place, in the order in which they are tried; `search` finds the first place
with a match; `replace` and `replaceAll` substitute.

Results: `mem_run`, what is matched without regard to the order; `search_append`,
`search_eq_none` and `search_sound` for the first place; `head?_runMany` and
`head?_run_seq_many` for greedy repetitions; `search_append_eq_none` and
`replaceAll_append`, searching and substitution around a character that no match
contains; `replaceAll_eq_self_iff`.
-/

namespace BambooShoot.Lib

/-- What each group has matched. -/
abbrev Captures := ℕ → Option (List Char)

def Captures.empty : Captures := fun _ => none

/-- A pattern. Only single characters are repeated. -/
inductive Regex where
  | text (s : List Char)
  | set (p : Char → Bool)
  | many (p : Char → Bool) (least : ℕ)
  | seq (r s : Regex)
  | alt (r s : Regex)
  | optional (r : Regex)
  | group (i : ℕ) (r : Regex)

namespace Regex

/-! ## Matching -/

/-- What may be left after `least` or more characters of `p`, the longest match first. -/
def runMany (p : Char → Bool) : ℕ → List Char → List (List Char)
  | least, [] => if least = 0 then [[]] else []
  | least, c :: cs =>
    (if p c then runMany p (least - 1) cs else []) ++ if least = 0 then [c :: cs] else []

/-- The matches at the beginning of a text, as they are tried: the captures, and what is
    left of the text. -/
def run : Regex → Captures → List Char → List (Captures × List Char)
  | .text s, e, t => if s.isPrefixOf t then [(e, t.drop s.length)] else []
  | .set _, _, [] => []
  | .set p, e, c :: cs => if p c then [(e, cs)] else []
  | .many p least, e, t => (runMany p least t).map fun rest => (e, rest)
  | .seq r s, e, t => (r.run e t).flatMap fun m => s.run m.1 m.2
  | .alt r s, e, t => r.run e t ++ s.run e t
  | .optional r, e, t => r.run e t ++ [(e, t)]
  | .group i r, e, t =>
    (r.run e t).map fun m => (Function.update m.1 i (some (t.take (t.length - m.2.length))), m.2)

/-- The first place with a match: what stands before it, the captures, and what stands
    behind. -/
def search (r : Regex) : List Char → Option (List Char × Captures × List Char)
  | [] => (r.run Captures.empty []).head?.map fun m => ([], m)
  | c :: cs =>
    match (r.run Captures.empty (c :: cs)).head? with
    | some m => some ([], m)
    | none => (search r cs).map fun found => (c :: found.1, found.2)

/-- The text with its first match replaced. -/
def replace (r : Regex) (replacement : Captures → List Char) (t : List Char) : List Char :=
  match r.search t with
  | some (before, e, rest) => before ++ replacement e ++ rest
  | none => t

/-- The text behind the first `skip` characters, with all matches replaced. -/
def replaceFrom (r : Regex) (replacement : Captures → List Char) : ℕ → List Char → List Char
  | _, [] => []
  | skip + 1, _ :: cs => replaceFrom r replacement skip cs
  | 0, c :: cs =>
    match (r.run Captures.empty (c :: cs)).head? with
    | some (e, rest) => replacement e ++ replaceFrom r replacement (cs.length - rest.length) cs
    | none => c :: replaceFrom r replacement 0 cs

/-- The text with all matches replaced, for a pattern that does not match the empty text. -/
def replaceAll (r : Regex) (replacement : Captures → List Char) (t : List Char) : List Char :=
  r.replaceFrom replacement 0 t

/-! ## Matches -/

/-- The pattern matches the text `x` and changes the captures accordingly. -/
def Matches : Regex → Captures → List Char → Captures → Prop
  | .text s, e, x, e' => x = s ∧ e' = e
  | .set p, e, x, e' => (∃ c, p c = true ∧ x = [c]) ∧ e' = e
  | .many p least, e, x, e' => (∀ c ∈ x, p c = true) ∧ least ≤ x.length ∧ e' = e
  | .seq r s, e, x, e' => ∃ y z e₁, x = y ++ z ∧ r.Matches e y e₁ ∧ s.Matches e₁ z e'
  | .alt r s, e, x, e' => r.Matches e x e' ∨ s.Matches e x e'
  | .optional r, e, x, e' => r.Matches e x e' ∨ x = [] ∧ e' = e
  | .group i r, e, x, e' => ∃ e₁, r.Matches e x e₁ ∧ e' = Function.update e₁ i (some x)

theorem mem_runMany {p : Char → Bool} {least : ℕ} {t rest : List Char} :
    rest ∈ runMany p least t ↔
      ∃ x, t = x ++ rest ∧ (∀ c ∈ x, p c = true) ∧ least ≤ x.length := by
  induction t generalizing least with
  | nil =>
    simp only [runMany]
    constructor
    · intro h
      split at h
      · next hleast =>
        rw [List.mem_singleton.1 h]
        exact ⟨[], rfl, nofun, Nat.le_of_eq hleast⟩
      · cases h
    · rintro ⟨x, hx, -, hleast⟩
      obtain ⟨rfl, rfl⟩ := List.append_eq_nil_iff.1 hx.symm
      rw [if_pos (Nat.le_zero.1 hleast)]
      exact List.mem_singleton.2 rfl
  | cons c cs ih =>
    simp only [runMany, List.mem_append]
    constructor
    · rintro (h | h)
      · split at h
        · next hp =>
          obtain ⟨x, rfl, hx, hleast⟩ := ih.1 h
          refine ⟨c :: x, rfl, ?_, ?_⟩
          · exact List.forall_mem_cons.2 ⟨hp, hx⟩
          · rw [List.length_cons]
            omega
        · cases h
      · split at h
        · next hleast =>
          rw [List.mem_singleton.1 h]
          exact ⟨[], rfl, nofun, Nat.le_of_eq hleast⟩
        · cases h
    · rintro ⟨x, hx, hp, hleast⟩
      cases x with
      | nil =>
        right
        rw [if_pos (Nat.le_zero.1 hleast)]
        exact List.mem_singleton.2 hx.symm
      | cons d x =>
        left
        obtain ⟨rfl, rfl⟩ := List.cons.inj hx
        rw [if_pos (hp c List.mem_cons_self)]
        refine ih.2 ⟨x, rfl, fun b hb => hp b (List.mem_cons_of_mem _ hb), ?_⟩
        rw [List.length_cons] at hleast
        omega

/-- Without regard to the order, `run` lists what is matched at the beginning. -/
theorem mem_run {r : Regex} {e e' : Captures} {t rest : List Char} :
    (e', rest) ∈ r.run e t ↔ ∃ x, t = x ++ rest ∧ r.Matches e x e' := by
  induction r generalizing e e' t rest with
  | text s =>
    simp only [run, Matches]
    constructor
    · intro h
      split at h
      · next hpart =>
        obtain ⟨u, rfl⟩ := List.isPrefixOf_iff_prefix.1 hpart
        rw [List.drop_left] at h
        cases List.mem_singleton.1 h
        exact ⟨s, rfl, rfl, rfl⟩
      · cases h
    · rintro ⟨_, rfl, rfl, rfl⟩
      rw [if_pos (List.isPrefixOf_iff_prefix.2 (List.prefix_append _ _)), List.drop_left]
      exact List.mem_singleton.2 rfl
  | set p =>
    cases t with
    | nil =>
      refine iff_of_false List.not_mem_nil ?_
      rintro ⟨_, hx, ⟨c, -, rfl⟩, -⟩
      cases hx
    | cons c cs =>
      simp only [run, Matches]
      constructor
      · intro h
        split at h
        · next hp =>
          cases List.mem_singleton.1 h
          exact ⟨[c], rfl, ⟨c, hp, rfl⟩, rfl⟩
        · cases h
      · rintro ⟨_, hx, ⟨d, hd, rfl⟩, rfl⟩
        cases hx
        rw [if_pos hd]
        exact List.mem_singleton.2 rfl
  | many p least =>
    simp only [run, Matches, List.mem_map, Prod.mk.injEq]
    constructor
    · rintro ⟨u, hu, rfl, rfl⟩
      obtain ⟨x, hx, hp, hleast⟩ := mem_runMany.1 hu
      exact ⟨x, hx, hp, hleast, rfl⟩
    · rintro ⟨x, hx, hp, hleast, rfl⟩
      exact ⟨rest, mem_runMany.2 ⟨x, hx, hp, hleast⟩, rfl, rfl⟩
  | seq r s ihr ihs =>
    simp only [run, Matches, List.mem_flatMap]
    constructor
    · rintro ⟨⟨e₁, u⟩, hr, hs⟩
      obtain ⟨y, rfl, hy⟩ := ihr.1 hr
      obtain ⟨z, rfl, hz⟩ := ihs.1 hs
      exact ⟨y ++ z, (List.append_assoc ..).symm, y, z, e₁, rfl, hy, hz⟩
    · rintro ⟨_, rfl, y, z, e₁, rfl, hy, hz⟩
      rw [List.append_assoc]
      exact ⟨(e₁, z ++ rest), ihr.2 ⟨y, rfl, hy⟩, ihs.2 ⟨z, rfl, hz⟩⟩
  | alt r s ihr ihs =>
    simp only [run, Matches, List.mem_append, ihr, ihs, ← exists_or, ← and_or_left]
  | optional r ih =>
    simp only [run, Matches, List.mem_append, List.mem_singleton, ih, Prod.mk.injEq]
    constructor
    · rintro (⟨x, hx, hr⟩ | ⟨rfl, rfl⟩)
      · exact ⟨x, hx, .inl hr⟩
      · exact ⟨[], rfl, .inr ⟨rfl, rfl⟩⟩
    · rintro ⟨x, hx, hr | ⟨rfl, rfl⟩⟩
      · exact .inl ⟨x, hx, hr⟩
      · exact .inr ⟨rfl, hx.symm⟩
  | group i r ih =>
    simp only [run, Matches, List.mem_map, Prod.mk.injEq]
    have htake (x u : List Char) : (x ++ u).take ((x ++ u).length - u.length) = x := by
      rw [List.length_append, Nat.add_sub_cancel, List.take_left]
    constructor
    · rintro ⟨⟨e₁, u⟩, hr, rfl, rfl⟩
      obtain ⟨x, rfl, hx⟩ := ih.1 hr
      exact ⟨x, rfl, e₁, hx, by rw [htake]⟩
    · rintro ⟨x, rfl, e₁, hx, rfl⟩
      exact ⟨(e₁, rest), ih.2 ⟨x, rfl, hx⟩, by rw [htake], rfl⟩

theorem run_eq_nil {r : Regex} {e : Captures} {t : List Char}
    (h : ∀ x rest e', t = x ++ rest → ¬ r.Matches e x e') : r.run e t = [] := by
  refine List.eq_nil_iff_forall_not_mem.2 fun m hm => ?_
  obtain ⟨x, hx, hmatches⟩ := mem_run.1 hm
  exact h x m.2 m.1 hx hmatches

/-- The first match that is tried if there is only one. -/
theorem head?_of_unique {α : Type} {l : List α} {m : α} (h : m ∈ l) (hunique : ∀ m' ∈ l, m' = m) :
    l.head? = some m := by
  cases l with
  | nil => cases h
  | cons m' l => rw [List.head?_cons, hunique m' List.mem_cons_self]

/-- A match is the first one that is tried if all others give the same. -/
theorem head?_run_of_unique {r : Regex} {e e' : Captures} {x w : List Char}
    (h : r.Matches e x e')
    (hunique : ∀ y rest e₁, x ++ w = y ++ rest → r.Matches e y e₁ → e₁ = e' ∧ rest = w) :
    (r.run e (x ++ w)).head? = some (e', w) := by
  refine head?_of_unique (mem_run.2 ⟨x, rfl, h⟩) fun m hm => ?_
  obtain ⟨y, hy, hmatches⟩ := mem_run.1 hm
  obtain ⟨he, hrest⟩ := hunique y m.2 m.1 hy hmatches
  exact Prod.ext he hrest

/-- A repetition takes as much as lets the rest of the pattern match. -/
theorem head?_runMany {α : Type} {p : Char → Bool} {least : ℕ} {y z : List Char} {m : α}
    (f : List Char → List α) (hy : ∀ c ∈ y, p c = true) (hleast : least ≤ y.length)
    (hz : (f z).head? = some m)
    (hlonger : ∀ u v, z = u ++ v → u ≠ [] → (∀ c ∈ u, p c = true) → f v = []) :
    ((runMany p least (y ++ z)).flatMap f).head? = some m := by
  induction y generalizing least with
  | nil =>
    obtain rfl : least = 0 := Nat.le_zero.1 hleast
    cases z with
    | nil => simpa [runMany] using hz
    | cons c cs =>
      have hrest : ((if p c then runMany p (0 - 1) cs else []).flatMap f) = [] := by
        refine List.flatMap_eq_nil_iff.2 fun v hv => ?_
        split at hv
        · next hp =>
          obtain ⟨u, rfl, hu, -⟩ := mem_runMany.1 hv
          exact hlonger (c :: u) v rfl (List.cons_ne_nil _ _) (List.forall_mem_cons.2 ⟨hp, hu⟩)
        · cases hv
      rw [List.nil_append, runMany, List.flatMap_append, hrest, if_pos rfl]
      simpa using hz
  | cons c y ih =>
    obtain ⟨hc, hy⟩ := List.forall_mem_cons.1 hy
    have hleast : least - 1 ≤ y.length := by
      rw [List.length_cons] at hleast
      omega
    have hhead := ih hy hleast
    rw [List.cons_append, runMany, if_pos hc, List.flatMap_append, List.head?_append, hhead]
    rfl

theorem run_seq_many (p : Char → Bool) (least : ℕ) (s : Regex) (e : Captures) (t : List Char) :
    (seq (many p least) s).run e t = (runMany p least t).flatMap (s.run e) :=
  List.flatMap_map ..

theorem head?_run_seq_many {p : Char → Bool} {least : ℕ} {s : Regex} {e : Captures}
    {y z : List Char} {m : Captures × List Char} (hy : ∀ c ∈ y, p c = true)
    (hleast : least ≤ y.length) (hz : (s.run e z).head? = some m)
    (hlonger : ∀ u v, z = u ++ v → u ≠ [] → (∀ c ∈ u, p c = true) → s.run e v = []) :
    ((seq (many p least) s).run e (y ++ z)).head? = some m := by
  rw [run_seq_many]
  exact head?_runMany _ hy hleast hz hlonger

/-- The longest repetition is captured. -/
theorem head?_run_seq_group_many {i : ℕ} {p : Char → Bool} {least : ℕ} {s : Regex} {e : Captures}
    {y z : List Char} {m : Captures × List Char} (hy : ∀ c ∈ y, p c = true)
    (hleast : least ≤ y.length)
    (hz : (s.run (Function.update e i (some y)) z).head? = some m)
    (hlonger : ∀ u v e', z = u ++ v → u ≠ [] → (∀ c ∈ u, p c = true) → s.run e' v = []) :
    ((seq (group i (many p least)) s).run e (y ++ z)).head? = some m := by
  have hrun : (seq (group i (many p least)) s).run e (y ++ z) =
      (runMany p least (y ++ z)).flatMap fun rest =>
        s.run (Function.update e i (some ((y ++ z).take ((y ++ z).length - rest.length))))
          rest := by
    simp only [run, List.flatMap_map, List.map_map]
    rfl
  have hcaptured : (y ++ z).take ((y ++ z).length - z.length) = y := by
    rw [List.length_append, Nat.add_sub_cancel, List.take_left]
  rw [hrun]
  refine head?_runMany _ hy hleast ?_ fun u v hsplit hu hp => hlonger u v _ hsplit hu hp
  rw [hcaptured]
  exact hz

/-- A repetition takes a whole text. -/
theorem head?_run_group_many {i : ℕ} {p : Char → Bool} {least : ℕ} {e : Captures} {t : List Char}
    (ht : ∀ c ∈ t, p c = true) (hleast : least ≤ t.length) :
    ((group i (many p least)).run e t).head? = some (Function.update e i (some t), []) := by
  have hhead := head?_runMany (z := []) (m := []) (fun rest => [rest]) ht hleast rfl
    fun u v h hu => absurd (List.append_eq_nil_iff.1 h.symm).1 hu
  rw [List.flatMap_singleton', List.append_nil] at hhead
  simp only [run, List.head?_map, hhead, Option.map_some, List.length_nil, Nat.sub_zero,
    List.take_length]

theorem run_seq_text (s : List Char) (r : Regex) (e : Captures) (t : List Char) :
    (seq (text s) r).run e (s ++ t) = r.run e t := by
  have htext : (text s).run e (s ++ t) = [(e, t)] := by
    rw [run, if_pos (List.isPrefixOf_iff_prefix.2 (List.prefix_append s t)), List.drop_left]
  rw [run, htext, List.flatMap_singleton]

/-- The text does not begin with a character of the class. -/
def Outside (p : Char → Bool) (t : List Char) : Prop := ∀ c ∈ t.head?, p c = false

theorem outside_cons {p : Char → Bool} {c : Char} (hc : p c = false) (t : List Char) :
    Outside p (c :: t) := by
  rintro d hd
  cases hd
  exact hc

theorem Outside.append {p : Char → Bool} {s t : List Char} (hs : ∀ c ∈ s, p c = false)
    (ht : Outside p t) : Outside p (s ++ t) := by
  cases s with
  | nil => exact ht
  | cons c s => exact outside_cons (hs c List.mem_cons_self) (s ++ t)

theorem outside_append {p : Char → Bool} {s : List Char} (hs : ∀ c ∈ s, p c = false)
    (hpos : 1 ≤ s.length) (t : List Char) : Outside p (s ++ t) := by
  cases s with
  | nil => cases hpos
  | cons c s => exact outside_cons (hs c List.mem_cons_self) (s ++ t)

theorem Outside.eq_nil {p : Char → Bool} {t u v : List Char} (ht : Outside p t)
    (h : t = u ++ v) (hu : ∀ c ∈ u, p c = true) : u = [] := by
  cases u with
  | nil => rfl
  | cons c u =>
    have hc := hu c List.mem_cons_self
    rw [ht c (by rw [h]; rfl)] at hc
    cases hc

/-- A text begins with one block of a class only. -/
theorem block_inj {p : Char → Bool} {a b s t : List Char} (ha : ∀ c ∈ a, p c = true)
    (hb : ∀ c ∈ b, p c = true) (hs : Outside p s) (ht : Outside p t) (h : a ++ s = b ++ t) :
    a = b ∧ s = t := by
  induction a generalizing b with
  | nil =>
    cases b with
    | nil => exact ⟨rfl, h⟩
    | cons d b =>
      have hd := hb d List.mem_cons_self
      rw [hs d (by rw [show s = d :: (b ++ t) from h]; rfl)] at hd
      cases hd
  | cons c a ih =>
    cases b with
    | nil =>
      have hc := ha c List.mem_cons_self
      rw [ht c (by rw [show t = c :: (a ++ s) from h.symm]; rfl)] at hc
      cases hc
    | cons d b =>
      obtain ⟨rfl, hrest⟩ : c = d ∧ a ++ s = b ++ t := List.cons.inj h
      obtain ⟨rfl, hst⟩ := ih (fun x hx => ha x (List.mem_cons_of_mem _ hx))
        (fun x hx => hb x (List.mem_cons_of_mem _ hx)) hrest
      exact ⟨rfl, hst⟩

/-- The first character outside of a class is at one place only. -/
theorem append_cons_inj {p : Char → Bool} {a b s t : List Char} {c d : Char}
    (ha : ∀ x ∈ a, p x = true) (hb : ∀ x ∈ b, p x = true) (hc : p c = false) (hd : p d = false)
    (h : a ++ c :: s = b ++ d :: t) : a = b ∧ c = d ∧ s = t := by
  obtain ⟨rfl, hrest⟩ := block_inj ha hb (outside_cons hc s) (outside_cons hd t) h
  exact ⟨rfl, List.cons.inj hrest⟩

/-! ## Searching -/

/-- Every match contains the character. -/
def Contains (c : Char) : Regex → Prop
  | .text s => c ∈ s
  | .set _ | .many _ _ | .optional _ => False
  | .seq r s => r.Contains c ∨ s.Contains c
  | .alt r s => r.Contains c ∧ s.Contains c
  | .group _ r => r.Contains c

/-- No match contains the character. -/
def Avoids (c : Char) : Regex → Prop
  | .text s => c ∉ s
  | .set p | .many p _ => p c = false
  | .seq r s | .alt r s => r.Avoids c ∧ s.Avoids c
  | .optional r | .group _ r => r.Avoids c

theorem Contains.mem {c : Char} {r : Regex} {e e' : Captures} {x : List Char}
    (hr : r.Contains c) (h : r.Matches e x e') : c ∈ x := by
  induction r generalizing e e' x with
  | text s =>
    obtain ⟨rfl, -⟩ := h
    exact hr
  | set p => cases hr
  | many p least => cases hr
  | seq r s ihr ihs =>
    obtain ⟨y, z, e₁, rfl, hy, hz⟩ := h
    rcases hr with hr | hs
    · exact List.mem_append_left z (ihr hr hy)
    · exact List.mem_append_right y (ihs hs hz)
  | alt r s ihr ihs =>
    rcases h with h | h
    · exact ihr hr.1 h
    · exact ihs hr.2 h
  | optional r ih => cases hr
  | group i r ih =>
    obtain ⟨e₁, h, -⟩ := h
    exact ih hr h

theorem Avoids.not_mem {c : Char} {r : Regex} {e e' : Captures} {x : List Char}
    (hr : r.Avoids c) (h : r.Matches e x e') : c ∉ x := by
  induction r generalizing e e' x with
  | text s =>
    obtain ⟨rfl, -⟩ := h
    exact hr
  | set p =>
    obtain ⟨⟨d, hd, rfl⟩, -⟩ := h
    rintro hmem
    rw [← List.mem_singleton.1 hmem, hr] at hd
    cases hd
  | many p least =>
    intro hmem
    have hc := h.1 c hmem
    rw [hr] at hc
    cases hc
  | seq r s ihr ihs =>
    obtain ⟨y, z, e₁, rfl, hy, hz⟩ := h
    rw [List.mem_append, not_or]
    exact ⟨ihr hr.1 hy, ihs hr.2 hz⟩
  | alt r s ihr ihs =>
    rcases h with h | h
    · exact ihr hr.1 h
    · exact ihs hr.2 h
  | optional r ih =>
    rcases h with h | ⟨rfl, -⟩
    · exact ih hr h
    · exact List.not_mem_nil
  | group i r ih =>
    obtain ⟨e₁, h, -⟩ := h
    exact ih hr h

theorem search_eq_none {r : Regex} {t : List Char}
    (h : ∀ u v, t = u ++ v → r.run Captures.empty v = []) : r.search t = none := by
  induction t with
  | nil =>
    rw [search, h [] [] rfl]
    rfl
  | cons c cs ih =>
    rw [search, h [] (c :: cs) rfl, ih fun u v hcs => h (c :: u) v (hcs ▸ rfl)]
    rfl

theorem search_cons_eq_none_iff {r : Regex} {c : Char} {cs : List Char} :
    r.search (c :: cs) = none ↔ r.run Captures.empty (c :: cs) = [] ∧ r.search cs = none := by
  rw [search]
  cases hrun : r.run Captures.empty (c :: cs) with
  | nil => exact Option.map_eq_none_iff.trans (and_iff_right rfl).symm
  | cons m ms => exact iff_of_false nofun fun h => List.cons_ne_nil m ms h.1

/-- A text without a character that every match contains. -/
theorem search_eq_none_of_contains {c : Char} {r : Regex} {t : List Char} (hr : r.Contains c)
    (ht : c ∉ t) : r.search t = none := by
  refine search_eq_none fun u v htext => run_eq_nil ?_
  rintro x rest e' rfl h
  refine ht ?_
  rw [htext]
  exact List.mem_append_right u (List.mem_append_left rest (hr.mem h))

/-- The first place with a match. -/
theorem search_append {r : Regex} {u v : List Char} {m : Captures × List Char}
    (hu : ∀ w x, u = w ++ x → x ≠ [] → r.run Captures.empty (x ++ v) = [])
    (hv : (r.run Captures.empty v).head? = some m) : r.search (u ++ v) = some (u, m) := by
  induction u with
  | nil =>
    cases v with
    | nil =>
      rw [List.nil_append, search, hv]
      rfl
    | cons c cs => rw [List.nil_append, search, hv]
  | cons c u ih =>
    have hfirst : r.run Captures.empty (c :: (u ++ v)) = [] := hu [] (c :: u) rfl nofun
    rw [List.cons_append, search, hfirst, ih fun w x hw hx => hu (c :: w) x (hw ▸ rfl) hx]
    rfl

/-- A place is passed over by its first character. -/
theorem search_append_of_start {r : Regex} {u v : List Char} {m : Captures × List Char}
    (hu : ∀ x e, r.Matches Captures.empty x e → ∃ c cs, x = c :: cs ∧ c ∉ u)
    (hv : (r.run Captures.empty v).head? = some m) : r.search (u ++ v) = some (u, m) := by
  refine search_append (fun w x hsplit hx => run_eq_nil fun y rest e hy h => ?_) hv
  obtain ⟨c, cs, rfl, hc⟩ := hu y e h
  cases x with
  | nil => exact hx rfl
  | cons d x =>
    obtain ⟨rfl, -⟩ : d = c ∧ _ := List.cons.inj hy
    exact hc (hsplit ▸ List.mem_append_right w List.mem_cons_self)

theorem search_sound {r : Regex} {t before rest : List Char} {e : Captures}
    (h : r.search t = some (before, e, rest)) :
    ∃ x, t = before ++ x ++ rest ∧ r.Matches Captures.empty x e := by
  induction t generalizing before with
  | nil =>
    obtain ⟨m, hm, hfound⟩ := Option.map_eq_some_iff.1 h
    cases hfound
    exact mem_run.1 (List.mem_of_mem_head? hm)
  | cons c cs ih =>
    rw [search] at h
    split at h
    · next m hm =>
      cases h
      exact mem_run.1 (List.mem_of_mem_head? hm)
    · obtain ⟨⟨before, e, rest⟩, hfound, hcons⟩ := Option.map_eq_some_iff.1 h
      cases hcons
      obtain ⟨x, rfl, hx⟩ := ih hfound
      exact ⟨x, rfl, hx⟩

/-! ## Replacing -/

theorem replace_of_none {r : Regex} {t : List Char} (h : r.search t = none)
    (replacement : Captures → List Char) : r.replace replacement t = t := by
  rw [replace, h]

theorem replace_of_some {r : Regex} {t before rest : List Char} {e : Captures}
    (h : r.search t = some (before, e, rest)) (replacement : Captures → List Char) :
    r.replace replacement t = before ++ replacement e ++ rest := by
  rw [replace, h]

/-- What holds of all characters of a text, and passes from a match to its replacement,
    holds of all characters after replacing. -/
theorem forall_mem_replace {r : Regex} {replacement : Captures → List Char} {p : Char → Prop}
    (hp : ∀ x e, r.Matches Captures.empty x e → (∀ c ∈ x, p c) → ∀ c ∈ replacement e, p c)
    (t : List Char) (ht : ∀ c ∈ t, p c) : ∀ c ∈ r.replace replacement t, p c := by
  cases hsearch : r.search t with
  | none =>
    rw [replace_of_none hsearch]
    exact ht
  | some found =>
    obtain ⟨before, e, rest⟩ := found
    obtain ⟨x, rfl, h⟩ := search_sound hsearch
    obtain ⟨hfirst, hrest⟩ := List.forall_mem_append.1 ht
    obtain ⟨hbefore, hx⟩ := List.forall_mem_append.1 hfirst
    rw [replace_of_some hsearch]
    exact List.forall_mem_append.2 ⟨List.forall_mem_append.2 ⟨hbefore, hp x e h hx⟩, hrest⟩

theorem replaceFrom_skip (r : Regex) (replacement : Captures → List Char) (skip : ℕ)
    (t : List Char) :
    r.replaceFrom replacement skip t = r.replaceAll replacement (t.drop skip) := by
  induction t generalizing skip with
  | nil =>
    rw [List.drop_nil, replaceFrom]
    rfl
  | cons c cs ih =>
    cases skip with
    | zero => rfl
    | succ skip =>
      rw [replaceFrom, ih]
      rfl

theorem replaceAll_of_nil {r : Regex} {replacement : Captures → List Char} {c : Char}
    {cs : List Char} (h : r.run Captures.empty (c :: cs) = []) :
    r.replaceAll replacement (c :: cs) = c :: r.replaceAll replacement cs := by
  rw [replaceAll, replaceFrom, h]
  rfl

/-- Behind a match, replacing goes on with what is left. -/
theorem replaceAll_of_head {r : Regex} {replacement : Captures → List Char} {c : Char}
    {x rest : List Char} {e : Captures}
    (h : (r.run Captures.empty (c :: (x ++ rest))).head? = some (e, rest)) :
    r.replaceAll replacement (c :: (x ++ rest)) =
      replacement e ++ r.replaceAll replacement rest := by
  have hskip : (x ++ rest).drop ((x ++ rest).length - rest.length) = rest := by
    rw [List.length_append, Nat.add_sub_cancel, List.drop_left]
  rw [replaceAll, replaceFrom, h]
  simp only [replaceFrom_skip, hskip]

theorem runMany_append {p : Char → Bool} {c : Char} (hc : p c = false) (least : ℕ)
    (u v : List Char) :
    runMany p least (u ++ c :: v) = (runMany p least u).map (· ++ c :: v) := by
  induction u generalizing least with
  | nil =>
    rw [List.nil_append, runMany, runMany, if_neg (by simp [hc]), List.nil_append]
    split <;> rfl
  | cons d u ih =>
    rw [List.cons_append, runMany, runMany, ih, List.map_append]
    congr 1
    · split <;> rfl
    · split <;> rfl

theorem isPrefixOf_append {s : List Char} {c : Char} (hc : c ∉ s) (u v : List Char) :
    s.isPrefixOf (u ++ c :: v) = s.isPrefixOf u := by
  induction s generalizing u with
  | nil => rfl
  | cons d s ih =>
    obtain ⟨hd, hs⟩ := not_or.1 (fun h => hc (List.mem_cons.2 h))
    cases u with
    | nil =>
      show (d == c && _) = false
      rw [beq_eq_false_iff_ne.2 (Ne.symm hd), Bool.false_and]
    | cons b u => exact congrArg (d == b && ·) (ih hs u)

/-- No match goes beyond a character that it does not contain. -/
theorem run_append {r : Regex} {c : Char} (hr : r.Avoids c) (e : Captures) (u v : List Char) :
    r.run e (u ++ c :: v) = (r.run e u).map fun m => (m.1, m.2 ++ c :: v) := by
  induction r generalizing e u with
  | text s =>
    simp only [run, isPrefixOf_append hr]
    split
    · next hpart =>
      have hlength := (List.isPrefixOf_iff_prefix.1 hpart).length_le
      rw [List.drop_append_of_le_length hlength]
      rfl
    · rfl
  | set p =>
    cases u with
    | nil =>
      rw [List.nil_append, run, run, if_neg (by simp [show p c = false from hr])]
      rfl
    | cons d u =>
      rw [List.cons_append, run, run]
      split <;> rfl
  | many p least =>
    simp only [run, runMany_append (show p c = false from hr), List.map_map]
    rfl
  | seq r s ihr ihs =>
    simp only [run, ihr hr.1, List.flatMap_map, ihs hr.2, List.map_flatMap]
  | alt r s ihr ihs => simp only [run, ihr hr.1, ihs hr.2, List.map_append]
  | optional r ih => simp only [run, ih hr, List.map_append, List.map_cons, List.map_nil]
  | group i r ih =>
    simp only [run, ih hr, List.map_map]
    refine List.map_congr_left fun m _ => ?_
    have hlength : (u ++ c :: v).length - (m.2 ++ c :: v).length = u.length - m.2.length := by
      rw [List.length_append, List.length_append]
      omega
    simp only [Function.comp_apply, hlength,
      List.take_append_of_le_length (Nat.sub_le u.length m.2.length)]

/-- Before and behind a character that no match contains, a text is searched separately. -/
theorem search_append_eq_none {r : Regex} {c : Char} (hr : r.Avoids c)
    (hempty : ∀ e, ¬ r.Matches Captures.empty [] e) {u v : List Char} (hu : r.search u = none)
    (hv : r.search v = none) : r.search (u ++ c :: v) = none := by
  induction u with
  | nil =>
    refine search_cons_eq_none_iff.2 ⟨run_eq_nil fun x rest e hx h => ?_, hv⟩
    cases x with
    | nil => exact hempty _ h
    | cons d x =>
      obtain ⟨rfl, -⟩ := List.cons.inj hx
      exact hr.not_mem h List.mem_cons_self
  | cons d u ih =>
    obtain ⟨hrun, hu⟩ := search_cons_eq_none_iff.1 hu
    refine search_cons_eq_none_iff.2 ⟨?_, ih hu⟩
    have hlong : r.run Captures.empty (d :: u ++ c :: v) = _ := run_append hr _ (d :: u) v
    rw [hrun] at hlong
    exact hlong

/-- Induction along a text in which all matches are replaced: a character without a
    match stays, a match becomes its replacement. -/
theorem replaceAll_induction {r : Regex} {replacement : Captures → List Char}
    {P : List Char → List Char → Prop} (hempty : ∀ e e', ¬ r.Matches e [] e') (nil : P [] [])
    (keep : ∀ c cs, r.run Captures.empty (c :: cs) = [] → P cs (r.replaceAll replacement cs) →
      P (c :: cs) (c :: r.replaceAll replacement cs))
    (change : ∀ x rest e, (r.run Captures.empty (x ++ rest)).head? = some (e, rest) →
      r.Matches Captures.empty x e → P rest (r.replaceAll replacement rest) →
      P (x ++ rest) (replacement e ++ r.replaceAll replacement rest)) :
    ∀ t, P t (r.replaceAll replacement t)
  | [] => nil
  | c :: cs => by
    cases hfirst : r.run Captures.empty (c :: cs) with
    | nil =>
      rw [replaceAll_of_nil hfirst]
      exact keep c cs hfirst (replaceAll_induction hempty nil keep change cs)
    | cons m ms =>
      obtain ⟨e, rest⟩ := m
      have hmem : (e, rest) ∈ r.run Captures.empty (c :: cs) := hfirst ▸ List.mem_cons_self
      obtain ⟨x, hx, hmatches⟩ := mem_run.1 hmem
      cases x with
      | nil => exact absurd hmatches (hempty _ _)
      | cons b x =>
        obtain ⟨rfl, hcs⟩ : c = b ∧ cs = x ++ rest := List.cons.inj hx
        have hshorter : rest.length < (c :: cs).length := by
          rw [hcs, List.length_cons, List.length_append]
          omega
        have hrest := replaceAll_induction hempty nil keep change rest
        subst hcs
        have hhead : (r.run Captures.empty (c :: (x ++ rest))).head? = some (e, rest) := by
          rw [hfirst]
          rfl
        rw [replaceAll_of_head hhead]
        exact change (c :: x) rest e hhead hmatches hrest
termination_by t => t.length

/-- Before and behind a character that no match contains, replacing goes on separately. -/
theorem replaceAll_append {r : Regex} {c : Char} (hr : r.Avoids c)
    (hempty : ∀ e e', ¬ r.Matches e [] e') (replacement : Captures → List Char)
    (u v : List Char) :
    r.replaceAll replacement (u ++ c :: v) =
      r.replaceAll replacement u ++ c :: r.replaceAll replacement v := by
  refine replaceAll_induction (P := fun u w =>
    r.replaceAll replacement (u ++ c :: v) = w ++ c :: r.replaceAll replacement v)
    hempty ?_ ?_ ?_ u
  · refine replaceAll_of_nil (run_eq_nil fun x rest e' hx h => ?_)
    cases x with
    | nil => exact hempty _ _ h
    | cons d x =>
      obtain ⟨rfl, -⟩ := List.cons.inj hx
      exact hr.not_mem h List.mem_cons_self
  · intro d u hrun ih
    have hlong : r.run Captures.empty (d :: (u ++ c :: v)) = _ := run_append hr _ (d :: u) v
    rw [hrun] at hlong
    rw [List.cons_append, replaceAll_of_nil hlong, ih]
    rfl
  · intro x rest e hhead hmatches ih
    cases x with
    | nil => exact absurd hmatches (hempty _ _)
    | cons d x =>
      have hlong : (r.run Captures.empty (d :: (x ++ (rest ++ c :: v)))).head? =
          some (e, rest ++ c :: v) := by
        rw [← List.append_assoc, ← List.cons_append, ← List.cons_append, run_append hr,
          List.head?_map, hhead]
        rfl
      rw [List.append_assoc, List.cons_append, replaceAll_of_head hlong, ih, List.append_assoc]

/-- What holds of all characters of a text, and passes from matches to their
    replacements, holds of all characters after replacing. -/
theorem forall_mem_replaceAll {r : Regex} {replacement : Captures → List Char} {p : Char → Prop}
    (hempty : ∀ e e', ¬ r.Matches e [] e')
    (hp : ∀ x e, r.Matches Captures.empty x e → (∀ c ∈ x, p c) → ∀ c ∈ replacement e, p c)
    (t : List Char) (ht : ∀ c ∈ t, p c) : ∀ c ∈ r.replaceAll replacement t, p c := by
  revert ht
  refine replaceAll_induction (P := fun t w => (∀ c ∈ t, p c) → ∀ c ∈ w, p c) hempty
    (fun h => h) ?_ ?_ t
  · intro c cs _ ih ht
    obtain ⟨hc, hcs⟩ := List.forall_mem_cons.1 ht
    exact List.forall_mem_cons.2 ⟨hc, ih hcs⟩
  · intro x rest e _ hmatches ih ht
    obtain ⟨hx, hrest⟩ := List.forall_mem_append.1 ht
    exact List.forall_mem_append.2 ⟨hp x e hmatches hx, ih hrest⟩

theorem length_le_length_replaceAll {r : Regex} {replacement : Captures → List Char}
    (hempty : ∀ e e', ¬ r.Matches e [] e')
    (hlonger : ∀ x e, r.Matches Captures.empty x e → x.length < (replacement e).length)
    (t : List Char) : t.length ≤ (r.replaceAll replacement t).length := by
  refine replaceAll_induction (P := fun t w => t.length ≤ w.length) hempty (Nat.le_refl 0) ?_ ?_ t
  · intro c cs _ ih
    exact Nat.succ_le_succ ih
  · intro x rest e _ hmatches ih
    rw [List.length_append, List.length_append]
    have := hlonger x e hmatches
    omega

/-- Where replacements are longer than what they replace, only a text without a match
    stays as it is. -/
theorem replaceAll_eq_self_iff {r : Regex} {replacement : Captures → List Char}
    (hempty : ∀ e e', ¬ r.Matches e [] e')
    (hlonger : ∀ x e, r.Matches Captures.empty x e → x.length < (replacement e).length)
    (t : List Char) :
    r.replaceAll replacement t = t ↔ ∀ u v, t = u ++ v → r.run Captures.empty v = [] := by
  have hnil : r.run Captures.empty [] = [] := by
    refine run_eq_nil fun x rest e' hx h => ?_
    rw [(List.append_eq_nil_iff.1 hx.symm).1] at h
    exact hempty _ _ h
  refine replaceAll_induction (P := fun t w =>
    w = t ↔ ∀ u v, t = u ++ v → r.run Captures.empty v = []) hempty ?_ ?_ ?_ t
  · refine iff_of_true rfl fun u v h => ?_
    rw [(List.append_eq_nil_iff.1 h.symm).2, hnil]
  · intro c cs hrun ih
    rw [List.cons_inj_right, ih]
    constructor
    · intro h u v hsplit
      cases u with
      | nil =>
        rw [List.nil_append] at hsplit
        rw [← hsplit, hrun]
      | cons d u => exact h u v (List.cons.inj hsplit).2
    · intro h u v hsplit
      exact h (c :: u) v (hsplit ▸ rfl)
  · intro x rest e hhead hmatches _
    refine iff_of_false (fun h => ?_) (fun h => ?_)
    · have hlength := congrArg List.length h
      rw [List.length_append, List.length_append] at hlength
      have hrest := length_le_length_replaceAll hempty hlonger rest
      have hx := hlonger x e hmatches
      omega
    · rw [h [] (x ++ rest) rfl] at hhead
      cases hhead

end Regex

end BambooShoot.Lib
