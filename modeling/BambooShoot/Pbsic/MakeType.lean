import BambooShoot.Lib.Regex
import Mathlib.Data.Nat.Notation

/-!
# `make_type`

Model of `make_type` (`pbsic.pl`, lines 119–126), which translates the types of
interface files (`bsi.md`) to C++: one substitution for the builtin integers, one for
maps and one for lists, each by a regular expression.

Result: `makeType_eq_translate_iff`, the types that are translated.
-/

namespace BambooShoot.Pbsic

open BambooShoot.Lib

/-! ## Model -/

/-- `\d`, `\w` and `\s`. -/
def isDigit (c : Char) : Bool := c.isDigit

def isWord (c : Char) : Bool := c.isAlphanum || c == '_'

def isSpace (c : Char) : Bool :=
  c == ' ' || c == '\t' || c == '\n' || c == '\r' || c == '\x0b' || c == '\x0c'

/-- What a group has captured. -/
def captured (e : Captures) (i : ℕ) : List Char := (e i).getD []

/-- `(int\d+)`. -/
def intPattern : Regex := .group 1 (.seq (.text "int".toList) (.many isDigit 1))

/-- `\((\S+)\s=>\s(\S+)\)`. -/
def mapPattern : Regex :=
  .seq (.text "(".toList) <| .seq (.group 1 (.many (fun c => !isSpace c) 1)) <|
    .seq (.set isSpace) <| .seq (.text "=>".toList) <| .seq (.set isSpace) <|
    .seq (.group 2 (.many (fun c => !isSpace c) 1)) (.text ")".toList)

/-- `\[(\S+)\]`. -/
def listPattern : Regex :=
  .seq (.text "[".toList) <| .seq (.group 1 (.many (fun c => !isSpace c) 1)) (.text "]".toList)

/-- `s/(int\d+)/$1_t/g`. -/
def suffixInts (t : List Char) : List Char :=
  intPattern.replaceAll (fun e => captured e 1 ++ "_t".toList) t

def mapOf (k v : List Char) : List Char :=
  "std::map<".toList ++ k ++ ", ".toList ++ v ++ ">".toList

def vectorOf (t : List Char) : List Char := "std::vector<".toList ++ t ++ ">".toList

/-- `s/\((\S+)\s=>\s(\S+)\)/std::map<$1, $2>/`. -/
def replaceMap (t : List Char) : List Char :=
  mapPattern.replace (fun e => mapOf (captured e 1) (captured e 2)) t

/-- `s/\[(\S+)\]/std::vector<$1>/`. -/
def replaceList (t : List Char) : List Char :=
  listPattern.replace (fun e => vectorOf (captured e 1)) t

/-- `make_type` (lines 119–126). -/
def makeType (rawType : List Char) : List Char :=
  replaceList (replaceMap (suffixInts rawType))

/-! ## Types of interface files -/

/-- A name, as C++ has them. -/
structure Name where
  text : List Char
  word : ∀ c ∈ text, isWord c = true
  start : ∃ c cs, text = c :: cs ∧ isDigit c = false

/-- `TYPE`: a name, `[TYPE]` or `(TYPE => TYPE)`. -/
inductive BsiType where
  | name (n : Name)
  | list (t : BsiType)
  | map (k v : BsiType)

namespace BsiType

/-- The type in an interface file, with names written by `f`. -/
def renderWith (f : List Char → List Char) : BsiType → List Char
  | .name n => f n.text
  | .list t => '[' :: (t.renderWith f ++ [']'])
  | .map k v => '(' :: (k.renderWith f ++ ' ' :: '=' :: '>' :: ' ' :: (v.renderWith f ++ [')']))

def render (t : BsiType) : List Char := t.renderWith id

def names : BsiType → List Name
  | .name n => [n]
  | .list t => t.names
  | .map k v => k.names ++ v.names

end BsiType

/-- The integers among the builtin types. -/
def builtinInts : List (List Char) :=
  ["int8".toList, "int16".toList, "int32".toList, "int64".toList,
    "uint8".toList, "uint16".toList, "uint32".toList, "uint64".toList]

/-- A type name in C++. -/
def translateName (n : List Char) : List Char :=
  if n ∈ builtinInts then n ++ "_t".toList
  else if n = "string".toList then "std::string".toList
  else n

/-- A type in C++, with names translated by `f`. -/
def BsiType.translateWith (f : List Char → List Char) : BsiType → List Char
  | .name n => f n.text
  | .list t => vectorOf (t.translateWith f)
  | .map k v => mapOf (k.translateWith f) (v.translateWith f)

def BsiType.translate (t : BsiType) : List Char := t.translateWith translateName

/-- `int` and a digit are somewhere in the text. -/
def HasIntDigit (n : List Char) : Prop :=
  ∃ u d v, n = u ++ "int".toList ++ d :: v ∧ isDigit d = true

/-- A name of which only the builtin integers make use of the first substitution, and
    which is not `string`. -/
def Plain (n : List Char) : Prop :=
  n ∈ builtinInts ∨ n ≠ "string".toList ∧ ¬ HasIntDigit n

/-- At most one list and one map, and the map is not in the list. -/
def BsiType.Simple : BsiType → Prop
  | .name _ | .list (.name _) | .map (.name _) (.name _) | .map (.list (.name _)) (.name _)
  | .map (.name _) (.list (.name _)) => True
  | _ => False

/-- Characters that are listed are checked one by one. -/
theorem forall_mem_of_all {l : List Char} {P : Char → Prop} [DecidablePred P]
    (h : (l.all fun c => decide (P c)) = true) : ∀ c ∈ l, P c :=
  fun c hc => of_decide_eq_true (List.all_eq_true.1 h c hc)

/-! ## The first substitution -/

theorem intPattern_matches {e : Captures} {x : List Char}
    (h : intPattern.Matches Captures.empty x e) :
    captured e 1 = x ∧ ∃ d v, x = "int".toList ++ d :: v ∧ isDigit d = true := by
  obtain ⟨e₁, ⟨y, z, e₂, rfl, ⟨rfl, -⟩, hdigits, hleast, -⟩, rfl⟩ := h
  refine ⟨?_, ?_⟩
  · unfold captured
    rw [Function.update_self]
    rfl
  · cases z with
    | nil => cases hleast
    | cons d v => exact ⟨d, v, rfl, hdigits d List.mem_cons_self⟩

theorem intPattern_not_empty (e e' : Captures) : ¬ intPattern.Matches e [] e' := by
  rintro ⟨e₁, ⟨y, z, e₂, hsplit, ⟨rfl, -⟩, -⟩, -⟩
  cases (List.append_eq_nil_iff.1 hsplit.symm).1

theorem intPattern_longer (x : List Char) (e : Captures)
    (h : intPattern.Matches Captures.empty x e) :
    x.length < (captured e 1 ++ "_t".toList).length := by
  rw [(intPattern_matches h).1, List.length_append]
  exact Nat.lt_add_of_pos_right (by decide)

theorem suffixInts_append {c : Char} (htext : c ∉ "int".toList) (hdigit : isDigit c = false)
    (u v : List Char) : suffixInts (u ++ c :: v) = suffixInts u ++ c :: suffixInts v :=
  Regex.replaceAll_append (r := intPattern) ⟨htext, hdigit⟩ intPattern_not_empty _ u v

theorem suffixInts_cons {c : Char} (htext : c ∉ "int".toList) (hdigit : isDigit c = false)
    (v : List Char) : suffixInts (c :: v) = c :: suffixInts v :=
  suffixInts_append htext hdigit [] v

/-- The first substitution reaches every name, and nothing else. -/
theorem suffixInts_render (t : BsiType) : suffixInts t.render = t.renderWith suffixInts := by
  induction t with
  | name n => rfl
  | list t ih =>
    show suffixInts ('[' :: (t.render ++ [']'])) = '[' :: (t.renderWith suffixInts ++ [']'])
    rw [suffixInts_cons (by decide) rfl, suffixInts_append (by decide) rfl, ih]
    rfl
  | map k v ihk ihv =>
    show suffixInts ('(' :: (k.render ++ ' ' :: '=' :: '>' :: ' ' :: (v.render ++ [')']))) =
      '(' :: (k.renderWith suffixInts ++ ' ' :: '=' :: '>' :: ' ' ::
        (v.renderWith suffixInts ++ [')']))
    rw [suffixInts_cons (by decide) rfl, suffixInts_append (by decide) rfl,
      suffixInts_cons (by decide) rfl, suffixInts_cons (by decide) rfl,
      suffixInts_cons (by decide) rfl, suffixInts_append (by decide) rfl, ihk, ihv]
    rfl

/-- A name stays a word. -/
theorem isWord_suffixInts (n : Name) : ∀ c ∈ suffixInts n.text, isWord c = true := by
  refine Regex.forall_mem_replaceAll intPattern_not_empty ?_ n.text n.word
  intro x e hmatches hx c hc
  rw [(intPattern_matches hmatches).1, List.mem_append] at hc
  rcases hc with hc | hc
  · exact hx c hc
  · have hsuffix : ∀ c ∈ "_t".toList, isWord c = true := forall_mem_of_all (by decide)
    exact hsuffix c hc

theorem suffixInts_eq_self_iff (n : List Char) : suffixInts n = n ↔ ¬ HasIntDigit n := by
  rw [suffixInts, Regex.replaceAll_eq_self_iff intPattern_not_empty intPattern_longer]
  constructor
  · rintro h ⟨u, d, v, rfl, hd⟩
    have hnone := h u ("int".toList ++ d :: v) (List.append_assoc ..)
    have hmatch : intPattern.Matches Captures.empty ("int".toList ++ [d])
        (Function.update Captures.empty 1 (some ("int".toList ++ [d]))) :=
      ⟨Captures.empty, ⟨"int".toList, [d], Captures.empty, rfl, ⟨rfl, rfl⟩,
        fun c hc => List.mem_singleton.1 hc ▸ hd, Nat.le_refl 1, rfl⟩, rfl⟩
    have hmem : (_, v) ∈ intPattern.run Captures.empty ("int".toList ++ d :: v) :=
      Regex.mem_run.2 ⟨"int".toList ++ [d], rfl, hmatch⟩
    rw [hnone] at hmem
    cases hmem
  · rintro h u v rfl
    refine Regex.run_eq_nil fun x rest e hx hmatches => h ?_
    obtain ⟨d, w, rfl, hd⟩ := (intPattern_matches hmatches).2
    exact ⟨u, d, w ++ rest, by rw [hx]; simp, hd⟩

/-- The names that the first substitution translates. -/
theorem suffixInts_eq_translateName_iff (n : List Char) :
    suffixInts n = translateName n ↔ Plain n := by
  have hbuiltin : ∀ n ∈ builtinInts, suffixInts n = n ++ "_t".toList := by decide
  unfold translateName Plain
  by_cases hn : n ∈ builtinInts
  · rw [if_pos hn]
    exact iff_of_true (hbuiltin n hn) (.inl hn)
  · rw [if_neg hn]
    by_cases hstring : n = "string".toList
    · rw [if_pos hstring]
      refine iff_of_false ?_ (not_or.2 ⟨hn, fun h => h.1 hstring⟩)
      rw [hstring]
      decide
    · rw [if_neg hstring, suffixInts_eq_self_iff]
      exact ⟨fun h => .inr ⟨hstring, h⟩, fun h => (h.resolve_left hn).2⟩

/-! ## The other substitutions -/

/-- The captures of two groups. -/
def capturedBoth (k v : List Char) : Captures :=
  Function.update (Function.update Captures.empty 1 (some k)) 2 (some v)

/-- A match of the second pattern. -/
theorem mapPattern_matches {e : Captures} {x : List Char} :
    mapPattern.Matches Captures.empty x e ↔
      ∃ k c d v, x = '(' :: (k ++ c :: '=' :: '>' :: d :: (v ++ [')'])) ∧
        ((∀ b ∈ k, (!isSpace b) = true) ∧ 1 ≤ k.length) ∧ isSpace c = true ∧ isSpace d = true ∧
        ((∀ b ∈ v, (!isSpace b) = true) ∧ 1 ≤ v.length) ∧ e = capturedBoth k v := by
  constructor
  · rintro ⟨_, _, _, rfl, ⟨rfl, rfl⟩, k, _, _, rfl, ⟨_, ⟨hk, hk', rfl⟩, rfl⟩, _, _, _, rfl,
      ⟨⟨c, hc, rfl⟩, rfl⟩, _, _, _, rfl, ⟨rfl, rfl⟩, _, _, _, rfl, ⟨⟨d, hd, rfl⟩, rfl⟩, v, _, _,
      rfl, ⟨_, ⟨hv, hv', rfl⟩, rfl⟩, rfl, rfl⟩
    exact ⟨k, c, d, v, rfl, ⟨hk, hk'⟩, hc, hd, ⟨hv, hv'⟩, rfl⟩
  · rintro ⟨k, c, d, v, rfl, ⟨hk, hk'⟩, hc, hd, ⟨hv, hv'⟩, rfl⟩
    exact ⟨_, _, _, rfl, ⟨rfl, rfl⟩, k, _, _, rfl, ⟨_, ⟨hk, hk', rfl⟩, rfl⟩, [c], _, _, rfl,
      ⟨⟨c, hc, rfl⟩, rfl⟩, _, _, _, rfl, ⟨rfl, rfl⟩, [d], _, _, rfl, ⟨⟨d, hd, rfl⟩, rfl⟩, v, _, _,
      rfl, ⟨_, ⟨hv, hv', rfl⟩, rfl⟩, rfl, rfl⟩

/-- A map of which neither part has a blank or, behind the arrow, a parenthesis. -/
theorem replaceMap_eq {u k v w : List Char} (hu : '(' ∉ u)
    (hk : (∀ c ∈ k, (!isSpace c) = true) ∧ 1 ≤ k.length)
    (hv : (∀ c ∈ v, (!isSpace c) = true) ∧ 1 ≤ v.length) (hvw : ')' ∉ v) (hw : ')' ∉ w) :
    replaceMap (u ++ '(' :: (k ++ ' ' :: '=' :: '>' :: ' ' :: (v ++ ')' :: w))) =
      u ++ mapOf k v ++ w := by
  have hsplit : '(' :: (k ++ ' ' :: '=' :: '>' :: ' ' :: (v ++ ')' :: w)) =
      '(' :: (k ++ ' ' :: '=' :: '>' :: ' ' :: (v ++ [')'])) ++ w := by simp
  have hmatches : mapPattern.Matches Captures.empty
      ('(' :: (k ++ ' ' :: '=' :: '>' :: ' ' :: (v ++ [')']))) (capturedBoth k v) :=
    mapPattern_matches.2 ⟨k, ' ', ' ', v, rfl, hk, rfl, rfl, hv, rfl⟩
  have hhead := Regex.head?_run_of_unique hmatches (w := w) (by
    rintro y rest e hy h
    obtain ⟨k', c, d, v', rfl, hk', hc, hd, -, rfl⟩ := mapPattern_matches.1 h
    rw [← hsplit] at hy
    have hbehind : k ++ ' ' :: '=' :: '>' :: ' ' :: (v ++ ')' :: w) =
        k' ++ c :: '=' :: '>' :: d :: (v' ++ ')' :: rest) := by simpa using hy
    obtain ⟨rfl, rfl, harrow⟩ := Regex.append_cons_inj hk.1 hk'.1 rfl (by simp [hc]) hbehind
    obtain ⟨-, hvalue⟩ := List.cons.inj (List.cons.inj (List.cons.inj harrow).2).2
    obtain ⟨rfl, -, rfl⟩ := (List.append_cons_inj_of_notMem hvw hw).1 hvalue
    exact ⟨rfl, rfl⟩)
  rw [← hsplit] at hhead
  have hsearch := Regex.search_append_of_start (u := u) (fun x e h => by
    obtain ⟨k', c, d, v', rfl, -⟩ := mapPattern_matches.1 h
    exact ⟨'(', _, rfl, hu⟩) hhead
  exact Regex.replace_of_some hsearch _

/-- A match of the third pattern. -/
theorem listPattern_matches {e : Captures} {x : List Char} :
    listPattern.Matches Captures.empty x e ↔
      ∃ t, x = '[' :: (t ++ [']']) ∧ ((∀ b ∈ t, (!isSpace b) = true) ∧ 1 ≤ t.length) ∧
        e = Function.update Captures.empty 1 (some t) := by
  constructor
  · rintro ⟨_, _, _, rfl, ⟨rfl, rfl⟩, t, _, _, rfl, ⟨_, ⟨ht, ht', rfl⟩, rfl⟩, rfl, rfl⟩
    exact ⟨t, rfl, ⟨ht, ht'⟩, rfl⟩
  · rintro ⟨t, rfl, ⟨ht, ht'⟩, rfl⟩
    exact ⟨_, _, _, rfl, ⟨rfl, rfl⟩, t, _, _, rfl, ⟨_, ⟨ht, ht', rfl⟩, rfl⟩, rfl, rfl⟩

/-- A list of something without blanks and brackets. -/
theorem replaceList_eq {u t w : List Char} (hu : '[' ∉ u)
    (ht : (∀ c ∈ t, (!isSpace c) = true) ∧ 1 ≤ t.length) (htw : ']' ∉ t) (hw : ']' ∉ w) :
    replaceList (u ++ '[' :: (t ++ ']' :: w)) =
      u ++ vectorOf t ++ w := by
  have hsplit : '[' :: (t ++ ']' :: w) = '[' :: (t ++ [']']) ++ w := by simp
  have hmatches := listPattern_matches.2 ⟨t, rfl, ht, rfl⟩
  have hhead := Regex.head?_run_of_unique hmatches (w := w) (by
    rintro y rest e hy h
    obtain ⟨t', rfl, -, rfl⟩ := listPattern_matches.1 h
    rw [← hsplit] at hy
    have hbehind : t ++ ']' :: w = t' ++ ']' :: rest := by simpa using hy
    obtain ⟨rfl, -, rfl⟩ := (List.append_cons_inj_of_notMem htw hw).1 hbehind
    exact ⟨rfl, rfl⟩)
  rw [← hsplit] at hhead
  have hsearch := Regex.search_append_of_start (u := u) (fun x e h => by
    obtain ⟨t', rfl, -⟩ := listPattern_matches.1 h
    exact ⟨'[', _, rfl, hu⟩) hhead
  exact Regex.replace_of_some hsearch _

/-- Without an opening parenthesis or bracket, nothing is replaced. -/
theorem replaceMap_of_not_mem {t : List Char} (ht : '(' ∉ t) : replaceMap t = t := by
  have hcontains : mapPattern.Contains '(' := Or.inl (List.mem_singleton_self _)
  exact Regex.replace_of_none (Regex.search_eq_none_of_contains hcontains ht) _

theorem replaceList_of_not_mem {t : List Char} (ht : '[' ∉ t) : replaceList t = t := by
  have hcontains : listPattern.Contains '[' := Or.inl (List.mem_singleton_self _)
  exact Regex.replace_of_none (Regex.search_eq_none_of_contains hcontains ht) _

theorem isSpace_ne {c d : Char} (hc : isSpace c = true) (hd : isSpace d = false) : c ≠ d := by
  rintro rfl
  rw [hc] at hd
  cases hd

/-- One substitution takes away one parenthesis or bracket at most. -/
theorem count_replaceMap (t : List Char) :
    t.count '(' ≤ (replaceMap t).count '(' + 1 ∧ t.count '[' = (replaceMap t).count '[' := by
  cases hsearch : mapPattern.search t with
  | none =>
    rw [replaceMap, Regex.replace_of_none hsearch]
    exact ⟨Nat.le_succ _, rfl⟩
  | some found =>
    obtain ⟨before, e, rest⟩ := found
    obtain ⟨x, rfl, h⟩ := Regex.search_sound hsearch
    obtain ⟨k, c, d, v, rfl, -, hc, hd, -, rfl⟩ := mapPattern_matches.1 h
    have hc₁ := isSpace_ne (d := '(') hc rfl
    have hc₂ := isSpace_ne (d := '[') hc rfl
    have hd₁ := isSpace_ne (d := '(') hd rfl
    have hd₂ := isSpace_ne (d := '[') hd rfl
    rw [replaceMap, Regex.replace_of_some hsearch]
    have hfirst : captured (capturedBoth k v) 1 = k := rfl
    have hsecond : captured (capturedBoth k v) 2 = v := rfl
    unfold mapOf
    constructor
    · simp [hfirst, hsecond, hc₁, hd₁]
      omega
    · simp [hfirst, hsecond, hc₂, hd₂]

theorem count_replaceList (t : List Char) :
    t.count '[' ≤ (replaceList t).count '[' + 1 ∧ t.count '(' = (replaceList t).count '(' := by
  cases hsearch : listPattern.search t with
  | none =>
    rw [replaceList, Regex.replace_of_none hsearch]
    exact ⟨Nat.le_succ _, rfl⟩
  | some found =>
    obtain ⟨before, e, rest⟩ := found
    obtain ⟨x, rfl, h⟩ := Regex.search_sound hsearch
    obtain ⟨t', rfl, -, rfl⟩ := listPattern_matches.1 h
    rw [replaceList, Regex.replace_of_some hsearch]
    have hgroup : captured (Function.update Captures.empty 1 (some t')) 1 = t' := rfl
    unfold vectorOf
    constructor
    · simp [hgroup]
      omega
    · simp [hgroup]

/-- A type of one line stays one. -/
theorem newline_not_mem_makeType {t : List Char} (ht : '\n' ∉ t) : '\n' ∉ makeType t := by
  have hints : ∀ c ∈ suffixInts t, c ≠ '\n' := by
    refine Regex.forall_mem_replaceAll intPattern_not_empty ?_ t
      fun c hc => ne_of_mem_of_not_mem hc ht
    intro x e hmatches hx
    rw [(intPattern_matches hmatches).1]
    exact List.forall_mem_append.2 ⟨hx, forall_mem_of_all (by decide)⟩
  have hmap : ∀ c ∈ replaceMap (suffixInts t), c ≠ '\n' := by
    refine Regex.forall_mem_replace ?_ _ hints
    intro x e hmatches hx
    obtain ⟨k, a, b, v, rfl, -, -, -, -, rfl⟩ := mapPattern_matches.1 hmatches
    have hk : ∀ c ∈ k, c ≠ '\n' := fun c hc => hx c (by simp [hc])
    have hv : ∀ c ∈ v, c ≠ '\n' := fun c hc => hx c (by simp [hc])
    have hfirst : ∀ c ∈ "std::map<".toList, c ≠ '\n' := forall_mem_of_all (by decide)
    have hcomma : ∀ c ∈ ", ".toList, c ≠ '\n' := forall_mem_of_all (by decide)
    have hlast : ∀ c ∈ ">".toList, c ≠ '\n' := forall_mem_of_all (by decide)
    exact List.forall_mem_append.2 ⟨List.forall_mem_append.2 ⟨List.forall_mem_append.2
      ⟨List.forall_mem_append.2 ⟨hfirst, hk⟩, hcomma⟩, hv⟩, hlast⟩
  have hlist : ∀ c ∈ makeType t, c ≠ '\n' := by
    refine Regex.forall_mem_replace ?_ _ hmap
    intro x e hmatches hx
    obtain ⟨v, rfl, -, rfl⟩ := listPattern_matches.1 hmatches
    have hv : ∀ c ∈ v, c ≠ '\n' := fun c hc => hx c (by simp [hc])
    have hfirst : ∀ c ∈ "std::vector<".toList, c ≠ '\n' := forall_mem_of_all (by decide)
    have hlast : ∀ c ∈ ">".toList, c ≠ '\n' := forall_mem_of_all (by decide)
    exact List.forall_mem_append.2 ⟨List.forall_mem_append.2 ⟨hfirst, hv⟩, hlast⟩
  exact fun hmem => hlist '\n' hmem rfl

/-! ## Types -/

/-- A name after the first substitution. -/
structure IsWordText (s : List Char) : Prop where
  word : ∀ c ∈ s, isWord c = true
  pos : 1 ≤ s.length

theorem IsWordText.not_mem {s : List Char} (hs : IsWordText s) {c : Char} (hc : isWord c = false) :
    c ∉ s := fun hmem => Bool.false_ne_true (hc.symm.trans (hs.word c hmem))

theorem not_isSpace_of_isWord {c : Char} (hc : isWord c = true) : (!isSpace c) = true := by
  cases hspace : isSpace c with
  | false => rfl
  | true =>
    simp only [isSpace, Bool.or_eq_true, beq_iff_eq] at hspace
    rcases hspace with ((((rfl | rfl) | rfl) | rfl) | rfl) | rfl <;> cases hc

theorem IsWordText.solid {s : List Char} (hs : IsWordText s) :
    (∀ c ∈ s, (!isSpace c) = true) ∧ 1 ≤ s.length :=
  ⟨fun c hc => not_isSpace_of_isWord (hs.word c hc), hs.pos⟩

theorem isWordText_suffixInts (n : Name) : IsWordText (suffixInts n.text) where
  word := isWord_suffixInts n
  pos := by
    obtain ⟨c, cs, hn, -⟩ := n.start
    have hlength := Regex.length_le_length_replaceAll intPattern_not_empty intPattern_longer n.text
    rw [hn] at hlength ⊢
    exact Nat.le_trans (Nat.succ_le_succ (Nat.zero_le _)) hlength

/-- A list of a name, in brackets. -/
theorem solid_list {s : List Char} (hs : IsWordText s) :
    (∀ c ∈ '[' :: (s ++ [']']), (!isSpace c) = true) ∧ 1 ≤ ('[' :: (s ++ [']'])).length := by
  refine ⟨fun c hc => ?_, Nat.succ_le_succ (Nat.zero_le _)⟩
  rw [List.mem_cons, List.mem_append, List.mem_singleton] at hc
  rcases hc with rfl | hc | rfl
  · rfl
  · exact hs.solid.1 c hc
  · rfl

theorem replaceList_name {u w : List Char} (n : Name) (hu : '[' ∉ u) (hw : ']' ∉ w) :
    replaceList (u ++ '[' :: (suffixInts n.text ++ ']' :: w)) =
      u ++ (BsiType.list (.name n)).translateWith suffixInts ++ w :=
  replaceList_eq hu (isWordText_suffixInts n).solid ((isWordText_suffixInts n).not_mem rfl) hw

/-- The parts of a map may be lists, but the value of none but a name. -/
theorem replaceMap_render {u w : List Char} {k v : BsiType} (hu : '(' ∉ u)
    (hk : (∀ c ∈ k.renderWith suffixInts, (!isSpace c) = true) ∧
      1 ≤ (k.renderWith suffixInts).length)
    (hv : (∀ c ∈ v.renderWith suffixInts, (!isSpace c) = true) ∧
      1 ≤ (v.renderWith suffixInts).length)
    (hvw : ')' ∉ v.renderWith suffixInts) (hw : ')' ∉ w) :
    replaceMap (u ++ (BsiType.map k v).renderWith suffixInts ++ w) =
      u ++ mapOf (k.renderWith suffixInts) (v.renderWith suffixInts) ++ w := by
  rw [← replaceMap_eq hu hk hv hvw hw]
  simp only [BsiType.renderWith, List.append_assoc, List.cons_append, List.nil_append]

theorem makeType_name (n : Name) :
    makeType (BsiType.name n).render = (BsiType.name n).translateWith suffixInts := by
  have hn := isWordText_suffixInts n
  rw [makeType, suffixInts_render]
  show replaceList (replaceMap (suffixInts n.text)) = _
  rw [replaceMap_of_not_mem (hn.not_mem rfl), replaceList_of_not_mem (hn.not_mem rfl)]
  rfl

theorem makeType_list (n : Name) :
    makeType (BsiType.list (.name n)).render =
      (BsiType.list (.name n)).translateWith suffixInts := by
  have hn := isWordText_suffixInts n
  have hopen : '(' ∉ '[' :: (suffixInts n.text ++ [']']) := by
    simpa using hn.not_mem (c := '(') rfl
  rw [makeType, suffixInts_render]
  show replaceList (replaceMap ('[' :: (suffixInts n.text ++ [']']))) = _
  rw [replaceMap_of_not_mem hopen]
  exact (replaceList_name (u := []) n List.not_mem_nil List.not_mem_nil).trans (List.append_nil _)

theorem makeType_map (k v : Name) :
    makeType (BsiType.map (.name k) (.name v)).render =
      (BsiType.map (.name k) (.name v)).translateWith suffixInts := by
  have hk := isWordText_suffixInts k
  have hv := isWordText_suffixInts v
  have hmap := replaceMap_render (u := []) (w := []) (k := .name k) (v := .name v)
    List.not_mem_nil hk.solid hv.solid (hv.not_mem rfl) List.not_mem_nil
  have hopen : '[' ∉ mapOf (suffixInts k.text) (suffixInts v.text) := by
    unfold mapOf
    simpa using ⟨hk.not_mem (c := '[') rfl, hv.not_mem (c := '[') rfl⟩
  rw [List.nil_append, List.append_nil, List.nil_append, List.append_nil] at hmap
  rw [makeType, suffixInts_render, hmap]
  exact replaceList_of_not_mem hopen

theorem makeType_map_list_name (k v : Name) :
    makeType (BsiType.map (.list (.name k)) (.name v)).render =
      (BsiType.map (.list (.name k)) (.name v)).translateWith suffixInts := by
  have hk := isWordText_suffixInts k
  have hv := isWordText_suffixInts v
  have hmap := replaceMap_render (u := []) (w := []) (k := .list (.name k)) (v := .name v)
    List.not_mem_nil (solid_list hk) hv.solid (hv.not_mem rfl) List.not_mem_nil
  have hlist := replaceList_name (u := "std::map<".toList)
    (w := ", ".toList ++ suffixInts v.text ++ ">".toList) k (by decide)
    (by simpa using hv.not_mem (c := ']') rfl)
  rw [List.nil_append, List.append_nil, List.nil_append, List.append_nil] at hmap
  rw [makeType, suffixInts_render, hmap]
  simp only [BsiType.renderWith, BsiType.translateWith] at hlist ⊢
  unfold mapOf
  simpa using hlist

theorem makeType_map_name_list (k v : Name) :
    makeType (BsiType.map (.name k) (.list (.name v))).render =
      (BsiType.map (.name k) (.list (.name v))).translateWith suffixInts := by
  have hk := isWordText_suffixInts k
  have hv := isWordText_suffixInts v
  have hclose : ')' ∉ '[' :: (suffixInts v.text ++ [']']) := by
    simpa using hv.not_mem (c := ')') rfl
  have hmap := replaceMap_render (u := []) (w := []) (k := .name k) (v := .list (.name v))
    List.not_mem_nil hk.solid (solid_list hv) hclose List.not_mem_nil
  have hlist := replaceList_name (u := "std::map<".toList ++ suffixInts k.text ++ ", ".toList)
    (w := ">".toList) v (by simpa using hk.not_mem (c := '[') rfl) (by decide)
  rw [List.nil_append, List.append_nil, List.nil_append, List.append_nil] at hmap
  rw [makeType, suffixInts_render, hmap]
  simp only [BsiType.renderWith, BsiType.translateWith] at hlist ⊢
  unfold mapOf
  simpa using hlist

/-- A simple type is translated up to its names. -/
theorem makeType_simple : ∀ t : BsiType, t.Simple →
    makeType t.render = t.translateWith suffixInts
  | .name n, _ => makeType_name n
  | .list (.name n), _ => makeType_list n
  | .map (.name k) (.name v), _ => makeType_map k v
  | .map (.list (.name k)) (.name v), _ => makeType_map_list_name k v
  | .map (.name k) (.list (.name v)), _ => makeType_map_name_list k v

/-- The map in a list keeps its blank, and so the list its brackets. -/
theorem makeType_list_map (k v : Name) :
    '[' ∈ makeType (BsiType.list (.map (.name k) (.name v))).render := by
  have hk := isWordText_suffixInts k
  have hv := isWordText_suffixInts v
  have hmap := replaceMap_render (u := "[".toList) (w := "]".toList) (k := .name k) (v := .name v)
    (by decide) hk.solid hv.solid (hv.not_mem rfl) (by decide)
  have htext : replaceMap (suffixInts (BsiType.list (.map (.name k) (.name v))).render) =
      '[' :: (("std::map<".toList ++ suffixInts k.text ++ ",".toList) ++ ' ' ::
        (suffixInts v.text ++ ">".toList)) ++ [']'] := by
    rw [suffixInts_render]
    unfold mapOf at hmap
    simpa [BsiType.renderWith] using hmap
  rw [makeType, htext]
  cases hsearch : listPattern.search ('[' :: (("std::map<".toList ++ suffixInts k.text ++
      ",".toList) ++ ' ' :: (suffixInts v.text ++ ">".toList)) ++ [']']) with
  | none =>
    rw [replaceList, Regex.replace_of_none hsearch]
    exact List.mem_cons_self
  | some found =>
    exfalso
    obtain ⟨before, e, rest⟩ := found
    obtain ⟨x, hx, h⟩ := Regex.search_sound hsearch
    obtain ⟨t, rfl, ht, -⟩ := listPattern_matches.1 h
    have hfirst : '[' ∉ (("std::map<".toList ++ suffixInts k.text ++ ",".toList) ++ ' ' ::
        (suffixInts v.text ++ ">".toList)) ++ [']'] := by
      simpa using ⟨hk.not_mem (c := '[') rfl, hv.not_mem (c := '[') rfl⟩
    have hlast : ']' ∉ ("std::map<".toList ++ suffixInts k.text ++ ",".toList) ++ ' ' ::
        (suffixInts v.text ++ ">".toList) := by
      simpa using ⟨hk.not_mem (c := ']') rfl, hv.not_mem (c := ']') rfl⟩
    rw [List.append_assoc before, List.cons_append, List.cons_append, List.append_assoc t] at hx
    have hnil : '[' ∉ ([] : List Char) := List.not_mem_nil
    obtain ⟨-, -, hinner⟩ := (List.append_cons_inj_of_notMem hnil hfirst).1 hx
    obtain ⟨rfl, -, -⟩ := (List.append_cons_inj_of_notMem hlast List.not_mem_nil).1 hinner
    exact absurd (ht.1 ' ' (List.mem_append_right _ List.mem_cons_self)) (by decide)

theorem not_mem_translateName (n : Name) {c : Char} (hc : isWord c = false) (hcolon : c ≠ ':') :
    c ∉ translateName n.text := by
  have hname : c ∉ n.text := fun hmem => Bool.false_ne_true (hc.symm.trans (n.word c hmem))
  unfold translateName
  split
  · intro hmem
    rcases List.mem_append.1 hmem with hmem | hmem
    · exact hname hmem
    · have hword : ∀ c ∈ "_t".toList, isWord c = true := forall_mem_of_all (by decide)
      exact Bool.false_ne_true (hc.symm.trans (hword c hmem))
  · split
    · intro hmem
      have hword : ∀ c ∈ "std::string".toList, isWord c = true ∨ c = ':' :=
        forall_mem_of_all (by decide)
      rcases hword c hmem with hword | rfl
      · exact Bool.false_ne_true (hc.symm.trans hword)
      · exact hcolon rfl
    · exact hname

/-- There are no brackets in C++. -/
theorem count_translate (t : BsiType) : t.translate.count '(' = 0 ∧ t.translate.count '[' = 0 := by
  induction t with
  | name n =>
    exact ⟨List.count_eq_zero.2 (not_mem_translateName n rfl (by decide)),
      List.count_eq_zero.2 (not_mem_translateName n rfl (by decide))⟩
  | list t ih =>
    show (vectorOf t.translate).count '(' = 0 ∧ (vectorOf t.translate).count '[' = 0
    unfold vectorOf
    simpa [List.count_append] using ih
  | map k v ihk ihv =>
    show (mapOf k.translate v.translate).count '(' = 0 ∧
      (mapOf k.translate v.translate).count '[' = 0
    unfold mapOf
    simpa [List.count_append, and_and_and_comm] using ⟨ihk, ihv⟩

theorem count_renderWith_list (t : BsiType) (f : List Char → List Char) :
    (t.list.renderWith f).count '(' = (t.renderWith f).count '(' ∧
      (t.list.renderWith f).count '[' = (t.renderWith f).count '[' + 1 := by
  simp [BsiType.renderWith]

theorem count_renderWith_map (k v : BsiType) (f : List Char → List Char) :
    ((k.map v).renderWith f).count '(' =
        (k.renderWith f).count '(' + (v.renderWith f).count '(' + 1 ∧
      ((k.map v).renderWith f).count '[' =
        (k.renderWith f).count '[' + (v.renderWith f).count '[' := by
  simp [BsiType.renderWith]

/-- Each list and each map needs a substitution of its own. -/
theorem count_makeType {t : BsiType} (h : makeType t.render = t.translate) :
    (t.renderWith suffixInts).count '(' ≤ 1 ∧ (t.renderWith suffixInts).count '[' ≤ 1 := by
  have hmap := count_replaceMap (t.renderWith suffixInts)
  have hlist := count_replaceList (replaceMap (t.renderWith suffixInts))
  have htranslate := count_translate t
  rw [makeType, suffixInts_render] at h
  rw [h] at hlist
  omega

theorem name_of_count {t : BsiType} (hmaps : (t.renderWith suffixInts).count '(' = 0)
    (hlists : (t.renderWith suffixInts).count '[' = 0) : ∃ n, t = .name n := by
  cases t with
  | name n => exact ⟨n, rfl⟩
  | list t =>
    have := count_renderWith_list t suffixInts
    omega
  | map k v =>
    have := count_renderWith_map k v suffixInts
    omega

theorem simple_of_count {t : BsiType} (hmaps : (t.renderWith suffixInts).count '(' ≤ 1)
    (hlists : (t.renderWith suffixInts).count '[' ≤ 1) :
    t.Simple ∨ ∃ k v, t = .list (.map (.name k) (.name v)) := by
  cases t with
  | name n => exact .inl trivial
  | list t =>
    have hcount := count_renderWith_list t suffixInts
    cases t with
    | name n => exact .inl trivial
    | list t =>
      have := count_renderWith_list t suffixInts
      omega
    | map k v =>
      have hinner := count_renderWith_map k v suffixInts
      obtain ⟨k, rfl⟩ : ∃ n, k = .name n := name_of_count (by omega) (by omega)
      obtain ⟨v, rfl⟩ : ∃ n, v = .name n := name_of_count (by omega) (by omega)
      exact .inr ⟨k, v, rfl⟩
  | map k v =>
    have hcount := count_renderWith_map k v suffixInts
    left
    -- one of the two parts has the list, if any
    cases k with
    | name k =>
      cases v with
      | name v => trivial
      | list v =>
        have := count_renderWith_list v suffixInts
        obtain ⟨v, rfl⟩ : ∃ n, v = .name n := name_of_count (by omega) (by omega)
        trivial
      | map k' v' =>
        have := count_renderWith_map k' v' suffixInts
        omega
    | list k =>
      have := count_renderWith_list k suffixInts
      obtain ⟨k, rfl⟩ : ∃ n, k = .name n := name_of_count (by omega) (by omega)
      obtain ⟨v, rfl⟩ : ∃ n, v = .name n := name_of_count (by omega) (by omega)
      trivial
    | map k' v' =>
      have := count_renderWith_map k' v' suffixInts
      omega

theorem vectorOf_inj {s t : List Char} : vectorOf s = vectorOf t ↔ s = t := by
  unfold vectorOf
  rw [List.append_left_inj, List.append_right_inj]

/-- The comma tells the parts of a map apart. -/
theorem mapOf_inj {k v k' v' : List Char} (hk : ',' ∉ k) (hk' : ',' ∉ k') :
    mapOf k v = mapOf k' v' ↔ k = k' ∧ v = v' := by
  have hclass (s : List Char) (hs : ',' ∉ s) : ∀ c ∈ s, (c != ',') = true := fun c hc =>
    bne_iff_ne.2 fun heq => hs (heq ▸ hc)
  constructor
  · intro h
    unfold mapOf at h
    rw [List.append_left_inj, List.append_assoc, List.append_assoc, List.append_assoc,
      List.append_assoc, List.append_right_inj] at h
    obtain ⟨hkeys, -, hvalues⟩ := Regex.append_cons_inj (hclass k hk) (hclass k' hk') rfl rfl h
    exact ⟨hkeys, (List.cons.inj hvalues).2⟩
  · rintro ⟨rfl, rfl⟩
    rfl

theorem comma_not_mem (n : Name) : ',' ∉ suffixInts n.text ∧ ',' ∉ translateName n.text :=
  ⟨(isWordText_suffixInts n).not_mem rfl, not_mem_translateName n rfl (by decide)⟩

theorem comma_not_mem_vectorOf {s : List Char} (hs : ',' ∉ s) : ',' ∉ vectorOf s := by
  unfold vectorOf
  simpa using hs

theorem plain_pair (k v : Name) : (∀ n ∈ [k] ++ [v], Plain n.text) ↔
    suffixInts k.text = translateName k.text ∧ suffixInts v.text = translateName v.text := by
  rw [List.singleton_append, List.forall_mem_cons, List.forall_mem_singleton,
    suffixInts_eq_translateName_iff, suffixInts_eq_translateName_iff]

/-- The translation of a simple type is that of its names. -/
theorem translateWith_eq_iff : ∀ t : BsiType, t.Simple →
    (t.translateWith suffixInts = t.translate ↔ ∀ n ∈ t.names, Plain n.text)
  | .name n, _ => by
    rw [BsiType.names, List.forall_mem_singleton]
    exact suffixInts_eq_translateName_iff n.text
  | .list (.name n), _ => by
    rw [BsiType.names, BsiType.names, List.forall_mem_singleton, ← suffixInts_eq_translateName_iff]
    exact vectorOf_inj
  | .map (.name k) (.name v), _ =>
    (mapOf_inj (comma_not_mem k).1 (comma_not_mem k).2).trans (plain_pair k v).symm
  | .map (.list (.name k)) (.name v), _ =>
    (mapOf_inj (comma_not_mem_vectorOf (comma_not_mem k).1)
      (comma_not_mem_vectorOf (comma_not_mem k).2)).trans
      ((and_congr_left' vectorOf_inj).trans (plain_pair k v).symm)
  | .map (.name k) (.list (.name v)), _ =>
    (mapOf_inj (comma_not_mem k).1 (comma_not_mem k).2).trans
      ((and_congr_right' vectorOf_inj).trans (plain_pair k v).symm)

/-- A type is translated exactly if it has at most one list and one map, the map not in
    the list, and all its names are plain. -/
theorem makeType_eq_translate_iff (t : BsiType) :
    makeType t.render = t.translate ↔ t.Simple ∧ ∀ n ∈ t.names, Plain n.text := by
  constructor
  · intro h
    obtain ⟨hmaps, hlists⟩ := count_makeType h
    rcases simple_of_count hmaps hlists with ht | ⟨k, v, rfl⟩
    · rw [makeType_simple t ht] at h
      exact ⟨ht, (translateWith_eq_iff t ht).1 h⟩
    · refine absurd (makeType_list_map k v) ?_
      rw [h]
      exact List.count_eq_zero.1 (count_translate _).2
  · rintro ⟨ht, hnames⟩
    rw [makeType_simple t ht]
    exact (translateWith_eq_iff t ht).2 hnames

/-- `string` stays as it is, `Point3` becomes another name, and of two lists one is
    left. -/
theorem makeType_misses :
    makeType "string".toList = "string".toList ∧
    makeType "Point3".toList = "Point3_t".toList ∧
    makeType "[[int32]]".toList = "std::vector<[int32_t]>".toList ∧
    makeType "[(int32 => double)]".toList = "[std::map<int32_t, double>]".toList ∧
    ¬ ∀ t : BsiType, makeType t.render = t.translate := by
  refine ⟨by decide, by decide, by decide, by decide, fun h => ?_⟩
  have hword : ∀ c ∈ "string".toList, isWord c = true := forall_mem_of_all (by decide)
  have hstring : makeType "string".toList = translateName "string".toList :=
    h (.name ⟨"string".toList, hword, 's', "tring".toList, rfl, rfl⟩)
  exact absurd hstring (by decide)

end BambooShoot.Pbsic
