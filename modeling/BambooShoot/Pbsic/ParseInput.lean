import BambooShoot.Pbsic.MakeType

/-!
# `parse_input`

Model of `parse_input` (`pbsic.pl`, lines 53–94): a state machine over the lines of an
interface file, in which the first regular expression that matches tells what a line
is.

Results: what each kind of line does, `parseLine_comment` to `parseLine_comma`.
-/

namespace BambooShoot.Pbsic

open BambooShoot.Lib

/-! ## Patterns -/

/-- `.`. -/
def isAny (c : Char) : Bool := c != '\n'

/-- `^\s*\/\/`, at the beginning of a line. -/
def commentPattern : Regex := .seq (.many isSpace 0) (.text "//".toList)

/-- `(tuple|struct)\s+([\w\d]+)\s+\{`. -/
def headerPattern : Regex :=
  .seq (.group 1 (.alt (.text "tuple".toList) (.text "struct".toList))) <|
    .seq (.many isSpace 1) <| .seq (.group 2 (.many isWord 1)) <|
    .seq (.many isSpace 1) (.text "\x7b".toList)

/-- `(\s+:?\s+([\w\d]+))?`. -/
def underlyingPattern : Regex :=
  .optional (.group 2 (.seq (.many isSpace 1) <| .seq (.optional (.text ":".toList)) <|
    .seq (.many isSpace 1) (.group 3 (.many isWord 1))))

/-- `enum\s+([\w\d]+)(\s+:?\s+([\w\d]+))?\s+\{`. -/
def enumPattern : Regex :=
  .seq (.text "enum".toList) <| .seq (.many isSpace 1) <| .seq (.group 1 (.many isWord 1)) <|
    .seq underlyingPattern <| .seq (.many isSpace 1) (.text "\x7b".toList)

/-- `\};`. -/
def closePattern : Regex := .text "\x7d;".toList

/-- `([\w\d]+)\s*=\s*(\d+);`. -/
def tagPattern : Regex :=
  .seq (.group 1 (.many isWord 1)) <| .seq (.many isSpace 0) <| .seq (.text "=".toList) <|
    .seq (.many isSpace 0) <| .seq (.group 2 (.many isDigit 1)) (.text ";".toList)

/-- `([\w\d]+);`. -/
def namePattern : Regex := .seq (.group 1 (.many isWord 1)) (.text ";".toList)

/-- `^\s*(.*)\s+$name`, at the beginning of a line. -/
def typePattern (name : List Char) : Regex :=
  .seq (.many isSpace 0) <| .seq (.group 1 (.many isAny 0)) <| .seq (.many isSpace 1) (.text name)

/-- `(.*\,.*)`. -/
def withComma : Regex :=
  .group 1 (.seq (.many isAny 0) (.seq (.text ",".toList) (.many isAny 0)))

/-- `^\s*(.*\,.*)$`, at the beginning of a line and to its end. -/
def commaPattern : Regex := .seq (.many isSpace 0) withComma

/-- A match at the beginning of a line. -/
def matchStart (r : Regex) (line : List Char) : Option Captures :=
  (r.run Captures.empty line).head?.map Prod.fst

/-- A match of the whole line. -/
def matchLine (r : Regex) (line : List Char) : Option Captures :=
  ((r.run Captures.empty line).filter fun m => m.2.isEmpty).head?.map Prod.fst

/-- A match anywhere in a line. -/
def matchAnywhere (r : Regex) (line : List Char) : Option Captures :=
  (r.search line).map fun found => found.2.1

/-! ## Lines -/

/-- What has been collected of one member, or of one line of enumerators. -/
structure Var where
  name : List Char
  tag : Option (List Char) := none
  type : Option (List Char) := none

/-- What has been collected of one declaration. -/
structure Collected where
  name : List Char
  type : List Char
  var : List Var := []

structure ParseState where
  structStart : Bool := false
  structs : List Collected := []

/-- `push @{$structs->[$#{$structs}]->{'var'}}, ...`. -/
def pushVar (v : Var) : List Collected → List Collected
  | [] => []
  | [d] => [{ d with var := d.var ++ [v] }]
  | d :: ds => d :: pushVar v ds

/-- The type before a name: if it is not found, `$1` is still the name. -/
def typeBefore (name line : List Char) : List Char :=
  match matchStart (typePattern name) line with
  | some e => captured e 1
  | none => name

/-- A line outside of declarations (lines 60–72). -/
def parseOutside (s : ParseState) (line : List Char) : ParseState :=
  match matchAnywhere headerPattern line with
  | some e => ⟨true, s.structs ++ [{ name := captured e 2, type := captured e 1 }]⟩
  | none =>
    match matchAnywhere enumPattern line with
    | some e =>
      let type := (e 3).getD "uint32".toList
      ⟨true, s.structs ++ [{ name := captured e 1, type := "enum : ".toList ++ type }]⟩
    | none => s

/-- A line inside of a declaration (lines 73–91). -/
def parseInside (s : ParseState) (line : List Char) : ParseState :=
  if (matchAnywhere closePattern line).isSome then { s with structStart := false }
  else
    match matchAnywhere tagPattern line with
    | some e =>
      let name := captured e 1
      let v : Var := ⟨name, some (captured e 2), some (typeBefore name line)⟩
      { s with structs := pushVar v s.structs }
    | none =>
      match matchAnywhere namePattern line with
      | some e =>
        let name := captured e 1
        { s with structs := pushVar ⟨name, none, some (typeBefore name line)⟩ s.structs }
      | none =>
        match matchLine commaPattern line with
        | some e => { s with structs := pushVar ⟨captured e 1, none, none⟩ s.structs }
        | none => s

def parseLine (s : ParseState) (line : List Char) : ParseState :=
  if (matchStart commentPattern line).isSome then s
  else if s.structStart then parseInside s line
  else parseOutside s line

/-- `parse_input` (lines 53–94). -/
def parseInput (lines : List (List Char)) : List Collected := (lines.foldl parseLine {}).structs

/-! ## What the lines do -/

theorem Name.not_mem (n : Name) {c : Char} (hc : isWord c = false) : c ∉ n.text :=
  fun hmem => Bool.false_ne_true (hc.symm.trans (n.word c hmem))

theorem Name.isWordText (n : Name) : IsWordText n.text where
  word := n.word
  pos := by
    obtain ⟨c, cs, hn, -⟩ := n.start
    rw [hn]
    exact Nat.succ_le_succ (Nat.zero_le _)

theorem isSpace_of_isWord {c : Char} (hc : isWord c = true) : isSpace c = false :=
  Bool.not_eq_eq_eq_not.1 (not_isSpace_of_isWord hc)

/-- A word does not begin with a blank. -/
theorem IsWordText.outside {s : List Char} (hs : IsWordText s) (t : List Char) :
    Regex.Outside isSpace (s ++ t) :=
  Regex.outside_append (fun c hc => isSpace_of_isWord (hs.word c hc)) hs.pos t

theorem isWord_of_isSpace {c : Char} (hc : isSpace c = true) : isWord c = false := by
  cases hword : isWord c with
  | false => rfl
  | true =>
    have hspace := isSpace_of_isWord hword
    rw [hc] at hspace
    cases hspace

/-- At least one blank. -/
structure IsBlank (s : List Char) : Prop where
  space : ∀ c ∈ s, isSpace c = true
  pos : 1 ≤ s.length

theorem isBlank_one : IsBlank " ".toList :=
  ⟨forall_mem_of_all (by decide), Nat.le_refl 1⟩

/-- Blanks do not begin with a word. -/
theorem IsBlank.outside {s : List Char} (hs : IsBlank s) (t : List Char) :
    Regex.Outside isWord (s ++ t) :=
  Regex.outside_append (fun c hc => isWord_of_isSpace (hs.space c hc)) hs.pos t

/-- A word ends with the blank behind it. -/
theorem IsWordText.inj {n n' a a' s t : List Char} (hn : IsWordText n) (hn' : IsWordText n')
    (ha : IsBlank a) (ha' : IsBlank a') (h : n ++ (a ++ s) = n' ++ (a' ++ t)) :
    n = n' ∧ a ++ s = a' ++ t :=
  Regex.block_inj hn.word hn'.word (ha.outside s) (ha'.outside t) h

/-- Blanks end with the word behind them. -/
theorem IsBlank.inj {a a' n n' s t : List Char} (ha : IsBlank a) (ha' : IsBlank a')
    (hn : IsWordText n) (hn' : IsWordText n') (h : a ++ (n ++ s) = a' ++ (n' ++ t)) :
    a = a' ∧ n ++ s = n' ++ t :=
  Regex.block_inj ha.space ha'.space (hn.outside s) (hn'.outside t) h

theorem matchAnywhere_eq_none {c : Char} {r : Regex} {line : List Char} (hr : r.Contains c)
    (hline : c ∉ line) : matchAnywhere r line = none := by
  rw [matchAnywhere, Regex.search_eq_none_of_contains hr hline]
  rfl

/-- Without the character, a pattern that contains it does not match at the beginning either. -/
theorem run_eq_nil_of_contains {c : Char} {r : Regex} {line : List Char} (hr : r.Contains c)
    (hline : c ∉ line) : r.run Captures.empty line = [] := by
  refine Regex.run_eq_nil ?_
  rintro x rest e rfl h
  exact hline (List.mem_append_left rest (hr.mem h))

/-- A match whose first character is found no earlier. -/
theorem matchAnywhere_of_unique {r : Regex} {u x w : List Char} {e : Captures}
    (hu : ∀ y e', r.Matches Captures.empty y e' → ∃ c cs, y = c :: cs ∧ c ∉ u)
    (h : r.Matches Captures.empty x e)
    (hunique : ∀ y rest e₁, x ++ w = y ++ rest → r.Matches Captures.empty y e₁ →
      e₁ = e ∧ rest = w) :
    matchAnywhere r (u ++ (x ++ w)) = some e := by
  rw [matchAnywhere, Regex.search_append_of_start hu (Regex.head?_run_of_unique h hunique)]
  rfl

theorem parseLine_comment (s : ParseState) {u : List Char} (hu : ∀ c ∈ u, isSpace c = true)
    (t : List Char) : parseLine s (u ++ "//".toList ++ t) = s := by
  have hmatches : commentPattern.Matches Captures.empty (u ++ "//".toList) Captures.empty :=
    ⟨u, "//".toList, Captures.empty, rfl, ⟨hu, Nat.zero_le _, rfl⟩, rfl, rfl⟩
  have hmem : (Captures.empty, t) ∈ commentPattern.run Captures.empty (u ++ "//".toList ++ t) :=
    Regex.mem_run.2 ⟨_, rfl, hmatches⟩
  have hfound : (matchStart commentPattern (u ++ "//".toList ++ t)).isSome := by
    rw [matchStart, Option.isSome_map]
    exact List.isSome_head?.2 (List.ne_nil_of_mem hmem)
  rw [parseLine, if_pos hfound]

theorem matchStart_comment {line : List Char} (hline : '/' ∉ line) :
    ¬ (matchStart commentPattern line).isSome = true := by
  have hcontains : commentPattern.Contains '/' := Or.inr List.mem_cons_self
  rw [matchStart, run_eq_nil_of_contains hcontains hline]
  exact Bool.false_ne_true

theorem parseLine_outside {structs : List Collected} {line : List Char} (hline : '/' ∉ line) :
    parseLine ⟨false, structs⟩ line = parseOutside ⟨false, structs⟩ line := by
  rw [parseLine, if_neg (matchStart_comment hline)]
  rfl

theorem parseLine_inside {structs : List Collected} {line : List Char} (hline : '/' ∉ line) :
    parseLine ⟨true, structs⟩ line = parseInside ⟨true, structs⟩ line := by
  rw [parseLine, if_neg (matchStart_comment hline)]
  rfl

/-! ### Headers -/

/-- The header of a struct or a tuple. -/
def structHeader (k n : List Char) : List Char :=
  k ++ (" ".toList ++ (n ++ " \x7b".toList))

/-- The type of an enum, with the colon. -/
def underlyingText (t : List Char) : List Char := " ".toList ++ (":".toList ++ (" ".toList ++ t))

/-- The header of an enum. -/
def enumHeader (n t : List Char) : List Char :=
  "enum".toList ++ (" ".toList ++ (n ++ (underlyingText t ++ (" ".toList ++ "\x7b".toList))))

theorem keyword_isWordText {k : List Char} (hk : k = "tuple".toList ∨ k = "struct".toList) :
    IsWordText k := by
  rcases hk with rfl | rfl
  · exact ⟨forall_mem_of_all (by decide), by decide⟩
  · exact ⟨forall_mem_of_all (by decide), by decide⟩

/-- A match of the first header pattern. -/
theorem headerPattern_matches {e : Captures} {x : List Char} :
    headerPattern.Matches Captures.empty x e ↔
      ∃ k a n b, x = k ++ (a ++ (n ++ (b ++ "\x7b".toList))) ∧
        (k = "tuple".toList ∨ k = "struct".toList) ∧ IsBlank a ∧ IsWordText n ∧ IsBlank b ∧
        e = capturedBoth k n := by
  constructor
  · rintro ⟨k, _, _, rfl, ⟨_, hk, rfl⟩, a, _, _, rfl, ⟨ha, ha', rfl⟩, n, _, _, rfl,
      ⟨_, ⟨hn, hn', rfl⟩, rfl⟩, b, _, _, rfl, ⟨hb, hb', rfl⟩, rfl, rfl⟩
    rcases hk with ⟨rfl, rfl⟩ | ⟨rfl, rfl⟩
    · exact ⟨_, a, n, b, rfl, .inl rfl, ⟨ha, ha'⟩, ⟨hn, hn'⟩, ⟨hb, hb'⟩, rfl⟩
    · exact ⟨_, a, n, b, rfl, .inr rfl, ⟨ha, ha'⟩, ⟨hn, hn'⟩, ⟨hb, hb'⟩, rfl⟩
  · rintro ⟨k, a, n, b, rfl, hk, ha, hn, hb, rfl⟩
    refine ⟨k, _, _, rfl, ⟨Captures.empty, ?_, rfl⟩, a, _, _, rfl, ⟨ha.space, ha.pos, rfl⟩, n, _,
      _, rfl, ⟨_, ⟨hn.word, hn.pos, rfl⟩, rfl⟩, b, _, _, rfl, ⟨hb.space, hb.pos, rfl⟩, rfl, rfl⟩
    rcases hk with rfl | rfl
    · exact .inl ⟨rfl, rfl⟩
    · exact .inr ⟨rfl, rfl⟩

theorem headerPattern_contains : headerPattern.Contains '{' :=
  .inr (.inr (.inr (.inr List.mem_cons_self)))

theorem headerPattern_avoids : headerPattern.Avoids ':' :=
  have htuple : ':' ∉ "tuple".toList := by decide
  have hstruct : ':' ∉ "struct".toList := by decide
  have hbrace : ':' ∉ "\x7b".toList := by decide
  ⟨⟨htuple, hstruct⟩, rfl, rfl, rfl, hbrace⟩

theorem headerPattern_start {e : Captures} {x : List Char}
    (h : headerPattern.Matches Captures.empty x e) : ∃ c cs, x = c :: cs ∧ isSpace c = false := by
  obtain ⟨k, a, n, b, rfl, hk, -⟩ := headerPattern_matches.1 h
  have hword := keyword_isWordText hk
  cases k with
  | nil => cases hword.pos
  | cons c k => exact ⟨c, _, rfl, isSpace_of_isWord (hword.word c List.mem_cons_self)⟩

theorem matchAnywhere_header {u k : List Char} (hu : ∀ c ∈ u, isSpace c = true)
    (hk : k = "tuple".toList ∨ k = "struct".toList) (n : Name) :
    matchAnywhere headerPattern (u ++ structHeader k n.text) = some (capturedBoth k n.text) := by
  have hmatches := headerPattern_matches.2
    ⟨k, " ".toList, n.text, " ".toList, rfl, hk, isBlank_one, n.isWordText, isBlank_one, rfl⟩
  have hfound := matchAnywhere_of_unique (u := u) (w := []) ?_ hmatches ?_
  · rwa [List.append_nil] at hfound
  · rintro y e hy
    obtain ⟨c, cs, rfl, hc⟩ := headerPattern_start hy
    exact ⟨c, cs, rfl, fun hmem => Bool.false_ne_true (hc.symm.trans (hu c hmem))⟩
  · rintro y rest e hy h
    obtain ⟨k', a, n', b, rfl, hk', ha, hn', hb, rfl⟩ := headerPattern_matches.1 h
    simp only [List.append_assoc] at hy
    obtain ⟨rfl, hblank⟩ :=
      (keyword_isWordText hk).inj (keyword_isWordText hk') isBlank_one ha hy
    obtain ⟨rfl, hname⟩ := isBlank_one.inj ha n.isWordText hn' hblank
    obtain ⟨rfl, hend⟩ := n.isWordText.inj hn' isBlank_one hb hname
    obtain ⟨rfl, hbrace⟩ := Regex.block_inj isBlank_one.space hb.space (Regex.outside_cons rfl _)
      (Regex.outside_cons rfl _) hend
    exact ⟨rfl, (List.cons.inj hbrace).2.symm⟩

/-- The captures of an enum header: the name, the type, and what stands around the type. -/
def enumCaptures (n t o : List Char) : Captures :=
  Function.update (Function.update (Function.update Captures.empty 1 (some n)) 3 (some t)) 2
    (some o)

/-- A match of the second header pattern. -/
theorem enumPattern_matches {e : Captures} {x : List Char}
    (h : enumPattern.Matches Captures.empty x e) :
    ∃ a n o b, x = "enum".toList ++ (a ++ (n ++ (o ++ (b ++ "\x7b".toList)))) ∧ IsBlank a ∧
      IsWordText n ∧ IsBlank b ∧
      (o = [] ∨ ∃ a' c b' t, o = a' ++ (c ++ (b' ++ t)) ∧ (c = ":".toList ∨ c = []) ∧
        IsBlank a' ∧ IsBlank b' ∧ IsWordText t ∧ e = enumCaptures n t o) := by
  obtain ⟨_, _, _, rfl, ⟨rfl, rfl⟩, a, _, _, rfl, ⟨ha, ha', rfl⟩, n, _, _, rfl,
    ⟨_, ⟨hn, hn', rfl⟩, rfl⟩, o, _, _, rfl, ho, b, _, _, rfl, ⟨hb, hb', rfl⟩, rfl, rfl⟩ := h
  refine ⟨a, n, o, b, rfl, ⟨ha, ha'⟩, ⟨hn, hn'⟩, ⟨hb, hb'⟩, ?_⟩
  rcases ho with ⟨_, ⟨a', _, _, rfl, ⟨h₁, h₂, rfl⟩, c, _, _, rfl, hc, b', t, _, rfl, ⟨h₃, h₄, rfl⟩,
    _, ⟨h₅, h₆, rfl⟩, rfl⟩, rfl⟩ | ⟨rfl, rfl⟩
  · right
    rcases hc with ⟨rfl, rfl⟩ | ⟨rfl, rfl⟩
    · exact ⟨a', _, b', t, rfl, .inl rfl, ⟨h₁, h₂⟩, ⟨h₃, h₄⟩, ⟨h₅, h₆⟩, rfl⟩
    · exact ⟨a', _, b', t, rfl, .inr rfl, ⟨h₁, h₂⟩, ⟨h₃, h₄⟩, ⟨h₅, h₆⟩, rfl⟩
  · exact .inl rfl

/-- The type behind the colon. -/
theorem enumPattern_of_type {n t : List Char} (hn : IsWordText n) (ht : IsWordText t) :
    enumPattern.Matches Captures.empty (enumHeader n t) (enumCaptures n t (underlyingText t)) :=
  have hb := isBlank_one
  ⟨_, _, _, rfl, ⟨rfl, rfl⟩, _, _, _, rfl, ⟨hb.space, hb.pos, rfl⟩, n, _, _, rfl,
    ⟨_, ⟨hn.word, hn.pos, rfl⟩, rfl⟩, _, _, _, rfl,
    .inl ⟨_, ⟨_, _, _, rfl, ⟨hb.space, hb.pos, rfl⟩, ":".toList, _, _, rfl, .inl ⟨rfl, rfl⟩,
      _, t, _, rfl, ⟨hb.space, hb.pos, rfl⟩, _, ⟨ht.word, ht.pos, rfl⟩, rfl⟩, rfl⟩,
    _, _, _, rfl, ⟨hb.space, hb.pos, rfl⟩, rfl, rfl⟩

theorem matchAnywhere_enum {u : List Char} (hu : ∀ c ∈ u, isSpace c = true) (n t : Name) :
    matchAnywhere enumPattern (u ++ enumHeader n.text t.text) =
      some (enumCaptures n.text t.text (underlyingText t.text)) := by
  have hfound := matchAnywhere_of_unique (u := u) (w := []) ?_
    (enumPattern_of_type n.isWordText t.isWordText) ?_
  · rwa [List.append_nil] at hfound
  · rintro y e hy
    obtain ⟨a, n', o, b, rfl, -⟩ := enumPattern_matches hy
    refine ⟨'e', _, rfl, fun hc => ?_⟩
    cases hu 'e' hc
  · rintro y rest e hy h
    obtain ⟨a, n', o, b, rfl, ha, hn', hb, ho⟩ := enumPattern_matches h
    simp only [enumHeader, underlyingText, List.append_assoc] at hy
    obtain ⟨rfl, hname⟩ :=
      isBlank_one.inj ha n.isWordText hn' (List.append_cancel_left hy)
    rcases ho with rfl | ⟨a', c, b', t', rfl, hc, ha', hb', ht', rfl⟩
    · -- the colon is not passed over
      obtain ⟨rfl, hend⟩ := n.isWordText.inj hn' isBlank_one hb hname
      obtain ⟨-, hcolon⟩ := Regex.block_inj isBlank_one.space hb.space (Regex.outside_cons rfl _)
        (Regex.outside_cons rfl _) hend
      cases (List.cons.inj hcolon).1
    · simp only [List.append_assoc] at hname
      obtain ⟨rfl, hcolon⟩ := n.isWordText.inj hn' isBlank_one ha' hname
      rcases hc with rfl | rfl
      · obtain ⟨rfl, htype⟩ := Regex.block_inj isBlank_one.space ha'.space
          (Regex.outside_cons rfl _) (Regex.outside_cons rfl _) hcolon
        obtain ⟨rfl, hlast⟩ := isBlank_one.inj hb' t.isWordText ht' (List.cons.inj htype).2
        obtain ⟨rfl, hend⟩ := t.isWordText.inj ht' isBlank_one hb hlast
        obtain ⟨rfl, hbrace⟩ := Regex.block_inj isBlank_one.space hb.space
          (Regex.outside_cons rfl _) (Regex.outside_cons rfl _) hend
        exact ⟨rfl, (List.cons.inj hbrace).2.symm⟩
      · -- without the colon, the type is not reached
        rw [List.nil_append, ← List.append_assoc a'] at hcolon
        obtain ⟨-, htype⟩ := Regex.block_inj isBlank_one.space
          (List.forall_mem_append.2 ⟨ha'.space, hb'.space⟩) (Regex.outside_cons rfl _)
          (ht'.outside _) hcolon
        cases t' with
        | nil => cases ht'.pos
        | cons c t' =>
          have hc := ht'.word c List.mem_cons_self
          rw [← (List.cons.inj htype).1] at hc
          cases hc

/-- Between a keyword and a brace, there are two blanks. -/
theorem headerPattern_blanks {t : List Char} (ht : t.countP isSpace ≤ 1) :
    headerPattern.search t = none := by
  refine Regex.search_eq_none fun u v hsplit => Regex.run_eq_nil ?_
  rintro x rest e rfl h
  obtain ⟨k, a, n, b, rfl, -, ha, -, hb, -⟩ := headerPattern_matches.1 h
  rw [hsplit] at ht
  simp only [List.countP_append, List.countP_eq_length.2 ha.space,
    List.countP_eq_length.2 hb.space] at ht
  have := ha.pos
  have := hb.pos
  omega

/-- An enum is not taken for a struct, whatever its name and its type are. -/
theorem matchAnywhere_header_enum {u : List Char} (hu : ∀ c ∈ u, isSpace c = true) (n t : Name) :
    matchAnywhere headerPattern (u ++ enumHeader n.text t.text) = none := by
  have hbefore : headerPattern.search (u ++ ("enum".toList ++ (" ".toList ++ (n.text ++
      " ".toList)))) = none := by
    have hbrace : '{' ∉ u := fun hmem => Bool.false_ne_true (hu '{' hmem)
    refine Regex.search_eq_none_of_contains headerPattern_contains ?_
    simpa [n.not_mem (c := '{') rfl] using hbrace
  have hbehind : headerPattern.search (' ' :: (t.text ++ " \x7b".toList)) = none := by
    refine Regex.search_cons_eq_none_iff.2 ⟨Regex.run_eq_nil ?_, headerPattern_blanks ?_⟩
    · intro x rest e hx h
      obtain ⟨c, cs, rfl, hc⟩ := headerPattern_start h
      rw [← (List.cons.inj hx).1] at hc
      cases hc
    · have htype : t.text.countP isSpace = 0 :=
        List.countP_eq_zero.2 fun c hc => by simp [isSpace_of_isWord (t.word c hc)]
      rw [List.countP_append, htype]
      decide
  have hcolon := Regex.search_append_eq_none headerPattern_avoids
    (fun e h => List.not_mem_nil (headerPattern_contains.mem h)) hbefore hbehind
  unfold enumHeader underlyingText
  simp only [List.append_assoc] at hcolon ⊢
  exact congrArg (Option.map _) hcolon

theorem parseLine_header (structs : List Collected) {u k : List Char}
    (hu : ∀ c ∈ u, isSpace c = true) (hk : k = "tuple".toList ∨ k = "struct".toList) (n : Name) :
    parseLine ⟨false, structs⟩ (u ++ structHeader k n.text) =
      ⟨true, structs ++ [{ name := n.text, type := k }]⟩ := by
  have hslash : '/' ∉ u ++ structHeader k n.text := by
    have hblank : '/' ∉ u := fun hmem => Bool.false_ne_true (hu '/' hmem)
    have hword : '/' ∉ k := (keyword_isWordText hk).not_mem rfl
    unfold structHeader
    simpa [n.not_mem (c := '/') rfl] using ⟨hblank, hword⟩
  rw [parseLine_outside hslash, parseOutside, matchAnywhere_header hu hk]
  rfl

theorem parseLine_enum (structs : List Collected) {u : List Char}
    (hu : ∀ c ∈ u, isSpace c = true) (n t : Name) :
    parseLine ⟨false, structs⟩ (u ++ enumHeader n.text t.text) =
      ⟨true, structs ++ [{ name := n.text, type := "enum : ".toList ++ t.text }]⟩ := by
  have hslash : '/' ∉ u ++ enumHeader n.text t.text := by
    have hblank : '/' ∉ u := fun hmem => Bool.false_ne_true (hu '/' hmem)
    unfold enumHeader underlyingText
    simpa [n.not_mem (c := '/') rfl, t.not_mem (c := '/') rfl] using hblank
  rw [parseLine_outside hslash, parseOutside, matchAnywhere_header_enum hu,
    matchAnywhere_enum hu]
  rfl

/-- Outside of declarations, a line without a brace is passed over. -/
theorem parseLine_skip (structs : List Collected) {line : List Char} (hslash : '/' ∉ line)
    (hbrace : '{' ∉ line) : parseLine ⟨false, structs⟩ line = ⟨false, structs⟩ := by
  have henum : enumPattern.Contains '{' := .inr (.inr (.inr (.inr (.inr List.mem_cons_self))))
  rw [parseLine_outside hslash, parseOutside, matchAnywhere_eq_none headerPattern_contains hbrace,
    matchAnywhere_eq_none henum hbrace]

/-! ### Members -/

theorem parseLine_close (structs : List Collected) {u : List Char}
    (hu : ∀ c ∈ u, isSpace c = true) :
    parseLine ⟨true, structs⟩ (u ++ "\x7d;".toList) = ⟨false, structs⟩ := by
  have hslash : '/' ∉ u ++ "\x7d;".toList := by
    have hblank : '/' ∉ u := fun hmem => Bool.false_ne_true (hu '/' hmem)
    simpa using hblank
  have hfound : matchAnywhere closePattern (u ++ ("\x7d;".toList ++ [])) =
      some Captures.empty := by
    refine matchAnywhere_of_unique ?_ ⟨rfl, rfl⟩ ?_
    · rintro y e ⟨rfl, -⟩
      exact ⟨'}', [';'], rfl, fun hmem => Bool.false_ne_true (hu '}' hmem)⟩
    · rintro y rest e hy ⟨rfl, rfl⟩
      exact ⟨rfl, (List.append_cancel_left hy).symm⟩
  rw [List.append_nil] at hfound
  rw [parseLine_inside hslash, parseInside, hfound]
  rfl

/-- Every `=` is that of an arrow. -/
inductive Arrows : List Char → Prop
  | nil : Arrows []
  | cons {c : Char} {t : List Char} : c ≠ '=' → Arrows t → Arrows (c :: t)
  | arrow {t : List Char} : Arrows t → Arrows ('=' :: '>' :: t)

theorem Arrows.append {s t : List Char} (hs : Arrows s) (ht : Arrows t) : Arrows (s ++ t) := by
  induction hs with
  | nil => exact ht
  | cons hc _ ih => exact .cons hc ih
  | arrow _ ih => exact .arrow ih

theorem Arrows.of_not_mem {t : List Char} (ht : '=' ∉ t) : Arrows t := by
  induction t with
  | nil => exact .nil
  | cons c t ih =>
    obtain ⟨hc, ht⟩ := not_or.1 fun h => ht (List.mem_cons.2 h)
    exact .cons (Ne.symm hc) (ih ht)

theorem Arrows.split {s u v : List Char} (h : Arrows s) (hs : s = u ++ '=' :: v) :
    ∃ w, v = '>' :: w := by
  induction h generalizing u with
  | nil => cases (List.append_eq_nil_iff.1 hs.symm).2
  | cons hc _ ih =>
    cases u with
    | nil => exact absurd (List.cons.inj hs).1 hc
    | cons d u => exact ih (List.cons.inj hs).2
  | arrow _ ih =>
    cases u with
    | nil => exact ⟨_, (List.cons.inj hs).2.symm⟩
    | cons d u =>
      cases u with
      | nil => cases (List.cons.inj (List.cons.inj hs).2).1
      | cons d' u => exact ih (List.cons.inj (List.cons.inj hs).2).2

/-- What stands before the name of a member. -/
structure IsTypeText (t : List Char) : Prop where
  start : ∃ c cs, t = c :: cs ∧ isSpace c = false
  arrows : Arrows t
  clean : ∀ c ∈ t, c ∉ "\n\x7d;/".toList

theorem IsTypeText.outside {t : List Char} (ht : IsTypeText t) (s : List Char) :
    Regex.Outside isSpace (t ++ s) := by
  obtain ⟨c, cs, rfl, hc⟩ := ht.start
  exact Regex.outside_cons hc (cs ++ s)

/-- A match of a name and a tag. -/
theorem tagPattern_matches {e : Captures} {x : List Char} :
    tagPattern.Matches Captures.empty x e ↔
      ∃ n a b d, x = n ++ (a ++ '=' :: (b ++ (d ++ ";".toList))) ∧ IsWordText n ∧
        (∀ c ∈ a, isSpace c = true) ∧ (∀ c ∈ b, isSpace c = true) ∧
        ((∀ c ∈ d, isDigit c = true) ∧ 1 ≤ d.length) ∧ e = capturedBoth n d := by
  constructor
  · rintro ⟨n, _, _, rfl, ⟨_, ⟨hn, hn', rfl⟩, rfl⟩, a, _, _, rfl, ⟨ha, -, rfl⟩, _, _, _, rfl,
      ⟨rfl, rfl⟩, b, _, _, rfl, ⟨hb, -, rfl⟩, d, _, _, rfl, ⟨_, ⟨hd, hd', rfl⟩, rfl⟩, rfl, rfl⟩
    exact ⟨n, a, b, d, rfl, ⟨hn, hn'⟩, ha, hb, ⟨hd, hd'⟩, rfl⟩
  · rintro ⟨n, a, b, d, rfl, hn, ha, hb, ⟨hd, hd'⟩, rfl⟩
    exact ⟨n, _, _, rfl, ⟨_, ⟨hn.word, hn.pos, rfl⟩, rfl⟩, a, _, _, rfl, ⟨ha, Nat.zero_le _, rfl⟩,
      "=".toList, _, _, rfl, ⟨rfl, rfl⟩, b, _, _, rfl, ⟨hb, Nat.zero_le _, rfl⟩, d, _, _, rfl,
      ⟨_, ⟨hd, hd', rfl⟩, rfl⟩, rfl, rfl⟩

/-- Behind `=`, a tag is no arrow. -/
theorem tag_not_arrow {b d s w : List Char} (hb : ∀ c ∈ b, isSpace c = true)
    (hd : (∀ c ∈ d, isDigit c = true) ∧ 1 ≤ d.length) : b ++ (d ++ s) ≠ '>' :: w := by
  intro h
  cases b with
  | nil =>
    cases d with
    | nil => cases hd.2
    | cons c d =>
      have hc := hd.1 c List.mem_cons_self
      rw [(List.cons.inj h).1] at hc
      cases hc
  | cons c b =>
    have hc := hb c List.mem_cons_self
    rw [(List.cons.inj h).1] at hc
    cases hc

theorem matchAnywhere_tag_eq_none {line : List Char} (hline : Arrows line) :
    matchAnywhere tagPattern line = none := by
  have hnone : tagPattern.search line = none := by
    refine Regex.search_eq_none fun w v hsplit => Regex.run_eq_nil ?_
    rintro x rest e rfl h
    obtain ⟨n, a, b, d, rfl, -, -, hb, hd, -⟩ := tagPattern_matches.1 h
    have harrow : line = (w ++ (n ++ a)) ++ '=' :: (b ++ (d ++ (";".toList ++ rest))) := by
      simp only [hsplit, List.append_assoc, List.cons_append]
    obtain ⟨w', hw'⟩ := hline.split harrow
    exact tag_not_arrow hb hd hw'
  rw [matchAnywhere, hnone]
  rfl

theorem isWord_of_isDigit {c : Char} (hc : isDigit c = true) : isWord c = true := by
  unfold isDigit at hc
  simp [isWord, Char.isAlphanum, hc]

/-- A tag of an interface file. -/
structure Tag where
  digits : List Char
  digit : ∀ c ∈ digits, isDigit c = true
  pos : 1 ≤ digits.length

/-- A name, a tag, and a semicolon. -/
def tagText (n : Name) (g : Tag) : List Char :=
  n.text ++ (" ".toList ++ '=' :: (" ".toList ++ (g.digits ++ ";".toList)))

theorem head?_run_tag (n : Name) (g : Tag) :
    (tagPattern.run Captures.empty (tagText n g)).head? =
      some (capturedBoth n.text g.digits, []) := by
  have hmatches := tagPattern_matches.2 ⟨n.text, " ".toList, " ".toList, g.digits, rfl,
    n.isWordText, isBlank_one.space, isBlank_one.space, ⟨g.digit, g.pos⟩, rfl⟩
  have hhead := Regex.head?_run_of_unique (w := []) hmatches ?_
  · rwa [List.append_nil] at hhead
  · rintro y rest e hy h
    obtain ⟨n', a, b, d, rfl, hn', ha, hb, hd, rfl⟩ := tagPattern_matches.1 h
    simp only [List.append_assoc, List.cons_append] at hy
    obtain ⟨rfl, hblank⟩ := Regex.block_inj n.word hn'.word (isBlank_one.outside _)
      (Regex.Outside.append (fun c hc => isWord_of_isSpace (ha c hc)) (Regex.outside_cons rfl _)) hy
    obtain ⟨rfl, hequal⟩ := Regex.block_inj isBlank_one.space ha (Regex.outside_cons rfl _)
      (Regex.outside_cons rfl _) hblank
    have hdigits {d : List Char} (hd : ∀ c ∈ d, isDigit c = true) (hpos : 1 ≤ d.length)
        (s : List Char) : Regex.Outside isSpace (d ++ s) :=
      (IsWordText.mk (fun c hc => isWord_of_isDigit (hd c hc)) hpos).outside s
    obtain ⟨rfl, htag⟩ := Regex.block_inj isBlank_one.space hb (hdigits g.digit g.pos _)
      (hdigits hd.1 hd.2 _) (List.cons.inj hequal).2
    obtain ⟨rfl, hend⟩ := Regex.block_inj g.digit hd.1 (Regex.outside_cons rfl _)
      (Regex.outside_cons rfl _) htag
    exact ⟨rfl, (List.cons.inj hend).2.symm⟩

/-- What is left of a text that ends with a blank ends with it too. -/
theorem exists_append_blank {u w x : List Char} (h : u ++ " ".toList = w ++ x) (hx : x ≠ []) :
    ∃ y, x = y ++ " ".toList := by
  obtain rfl | ⟨y, c, rfl⟩ := List.eq_nil_or_concat' x
  · exact absurd rfl hx
  · rw [← List.append_assoc] at h
    have hc : " ".toList = [c] := (List.append_inj' h rfl).2
    exact ⟨y, by rw [hc]⟩

/-- A name between blanks is not part of a word, nor of the blanks behind it. -/
theorem ne_word_blank {x n n' a : List Char} (hn : IsWordText n) (hn' : IsWordText n')
    (ha : ∀ c ∈ a, isSpace c = true) : x ++ " ".toList ++ (n ++ " ".toList) ≠ n' ++ a := by
  intro h
  rcases List.append_eq_append_iff.1 h with ⟨s, rfl, -⟩ | ⟨s, -, rfl⟩
  · have hblank := hn'.word ' ' (by simp)
    cases hblank
  · obtain ⟨c, hc⟩ := List.exists_mem_of_length_pos hn.pos
    have hspace := ha c (List.mem_append_right s (List.mem_append_left _ hc))
    rw [isSpace_of_isWord (hn.word c hc)] at hspace
    cases hspace

/-- The first match begins with the name: before it, `=` is part of an arrow, and the
    blank before it is part of no name. -/
theorem matchAnywhere_tag {u : List Char} (hu : Arrows (u ++ " ".toList)) (n : Name) (g : Tag) :
    matchAnywhere tagPattern (u ++ (" ".toList ++ tagText n g)) =
      some (capturedBoth n.text g.digits) := by
  have hsearch := Regex.search_append (u := u ++ " ".toList) (v := tagText n g) (r := tagPattern) ?_
    (head?_run_tag n g)
  · rw [List.append_assoc] at hsearch
    rw [matchAnywhere, hsearch]
    rfl
  · intro w x hsplit hx
    refine Regex.run_eq_nil ?_
    rintro y rest e hy h
    obtain ⟨n', a, b, d, rfl, hn', ha, hb, hd, -⟩ := tagPattern_matches.1 h
    simp only [List.append_assoc, List.cons_append] at hy
    have hbefore : ∀ c ∈ n' ++ a, (c != '=') = true := by
      refine List.forall_mem_append.2 ⟨fun c hc => ?_, fun c hc => ?_⟩
      · exact bne_iff_ne.2 (ne_of_mem_of_not_mem hc (hn'.not_mem rfl))
      · exact bne_iff_ne.2 (isSpace_ne (ha c hc) rfl)
    by_cases harrow : '=' ∈ x
    · obtain ⟨p, q, rfl, hp⟩ := List.eq_append_cons_of_mem harrow
      obtain ⟨w', rfl⟩ := hu.split (hsplit.trans (List.append_assoc w p _).symm)
      have hp' : ∀ c ∈ p, (c != '=') = true := fun c hc =>
        bne_iff_ne.2 (ne_of_mem_of_not_mem hc hp)
      rw [List.append_assoc, List.cons_append, ← List.append_assoc n'] at hy
      obtain ⟨-, -, hbehind⟩ := Regex.append_cons_inj hp' hbefore rfl rfl hy
      exact tag_not_arrow hb hd hbehind.symm
    · obtain ⟨x, rfl⟩ := exists_append_blank hsplit hx
      have hname : ∀ b ∈ x ++ " ".toList ++ (n.text ++ " ".toList), (b != '=') = true := by
        refine List.forall_mem_append.2 ⟨fun b hb => ?_, List.forall_mem_append.2
          ⟨fun b hb => ?_, fun b hb => ?_⟩⟩
        · exact bne_iff_ne.2 (ne_of_mem_of_not_mem hb harrow)
        · exact bne_iff_ne.2 (ne_of_mem_of_not_mem hb (n.not_mem rfl))
        · exact bne_iff_ne.2 (isSpace_ne (isBlank_one.space b hb) rfl)
      rw [tagText, ← List.append_assoc n.text, ← List.append_assoc (x ++ _),
        ← List.append_assoc n'] at hy
      obtain ⟨hword, -, -⟩ := Regex.append_cons_inj hname hbefore rfl rfl hy
      exact ne_word_blank n.isWordText hn' ha hword

/-- A match of a name. -/
theorem namePattern_matches {e : Captures} {x : List Char} :
    namePattern.Matches Captures.empty x e ↔
      ∃ n, x = n ++ ";".toList ∧ IsWordText n ∧
        e = Function.update Captures.empty 1 (some n) := by
  constructor
  · rintro ⟨n, _, _, rfl, ⟨_, ⟨hn, hn', rfl⟩, rfl⟩, rfl, rfl⟩
    exact ⟨n, rfl, ⟨hn, hn'⟩, rfl⟩
  · rintro ⟨n, rfl, hn, rfl⟩
    exact ⟨n, _, _, rfl, ⟨_, ⟨hn.word, hn.pos, rfl⟩, rfl⟩, rfl, rfl⟩

/-- The only name before a semicolon is the one behind the last blank. -/
theorem matchAnywhere_name {u : List Char} (hu : ';' ∉ u) (n : Name) :
    matchAnywhere namePattern (u ++ (" ".toList ++ (n.text ++ ";".toList))) =
      some (Function.update Captures.empty 1 (some n.text)) := by
  have hbefore {n : List Char} (hn : IsWordText n) : ∀ c ∈ n, (c != ';') = true := fun c hc =>
    bne_iff_ne.2 (ne_of_mem_of_not_mem hc (hn.not_mem rfl))
  have hmatches := namePattern_matches.2 ⟨n.text, rfl, n.isWordText, rfl⟩
  have hhead := Regex.head?_run_of_unique (w := []) hmatches ?_
  · have hsearch := Regex.search_append (u := u ++ " ".toList) ?_ hhead
    · rw [List.append_assoc, List.append_nil] at hsearch
      rw [matchAnywhere, hsearch]
      rfl
    · intro w x hsplit hx
      refine Regex.run_eq_nil ?_
      rintro y rest e hy h
      obtain ⟨n', rfl, hn', -⟩ := namePattern_matches.1 h
      obtain ⟨x, rfl⟩ := exists_append_blank hsplit hx
      have hx' : ∀ b ∈ x ++ " ".toList ++ n.text, (b != ';') = true := by
        refine List.forall_mem_append.2 ⟨fun b hb => ?_, hbefore n.isWordText⟩
        have hmem : b ∈ u ++ " ".toList := by
          rw [hsplit]
          exact List.mem_append_right w hb
        refine bne_iff_ne.2 (ne_of_mem_of_not_mem hmem ?_)
        simpa using hu
      rw [List.append_nil, ← List.append_assoc, List.append_assoc n'] at hy
      obtain ⟨rfl, -, -⟩ := Regex.append_cons_inj hx' (hbefore hn') rfl rfl hy
      have hblank := hn'.word ' ' (by simp)
      cases hblank
  · rintro y rest e hy h
    obtain ⟨n', rfl, hn', rfl⟩ := namePattern_matches.1 h
    rw [List.append_nil, List.append_assoc] at hy
    obtain ⟨rfl, -, hend⟩ := Regex.append_cons_inj (hbefore n.isWordText) (hbefore hn') rfl rfl hy
    exact ⟨rfl, hend.symm⟩

/-- Behind the name, `\s+$name` does not match: what follows has digits, but no names. -/
theorem run_name_eq_nil {n : Name} {s u v : List Char} {e : Captures}
    (hs : ∀ c ∈ s, isWord c = true → isDigit c = true) (h : n.text ++ s = u ++ v) :
    (Regex.seq (.many isSpace 1) (.text n.text)).run e v = [] := by
  refine Regex.run_eq_nil ?_
  rintro x rest e' rfl ⟨a, _, _, rfl, ⟨ha, ha', -⟩, rfl, -⟩
  obtain ⟨c, cs, hn, hc⟩ := n.start
  have hword : isWord c = true := n.word c (hn ▸ List.mem_cons_self)
  have hbehind : c ∉ s := fun hmem => Bool.false_ne_true (hc.symm.trans (hs c hmem hword))
  rw [List.append_assoc] at h
  rcases List.append_eq_append_iff.1 h with ⟨w, -, rfl⟩ | ⟨w, hw, hsplit⟩
  · exact hbehind (by simp [hn])
  · cases w with
    | nil =>
      rw [List.nil_append] at hsplit
      exact hbehind (hsplit ▸ by simp [hn])
    | cons d w =>
      cases a with
      | nil => cases ha'
      | cons b a =>
        have hb := isSpace_of_isWord (n.word d (hw ▸ by simp))
        rw [← (List.cons.inj hsplit).1, ha b List.mem_cons_self] at hb
        cases hb

/-- The type is what stands before the blank before the name. -/
theorem typeBefore_eq {u t s : List Char} {n : Name} (hu : ∀ c ∈ u, isSpace c = true)
    (ht : IsTypeText t) (hs : ∀ c ∈ s, isWord c = true → isDigit c = true) :
    typeBefore n.text (u ++ (t ++ (" ".toList ++ (n.text ++ s)))) = t := by
  have htext : ((Regex.text n.text).run (Function.update Captures.empty 1 (some t))
      (n.text ++ s)).head? = some (Function.update Captures.empty 1 (some t), s) := by
    refine Regex.head?_run_of_unique ⟨rfl, rfl⟩ ?_
    rintro y rest e hy ⟨rfl, rfl⟩
    exact ⟨rfl, (List.append_cancel_left hy).symm⟩
  have hname : ((Regex.seq (.many isSpace 1) (.text n.text)).run
      (Function.update Captures.empty 1 (some t)) (" ".toList ++ (n.text ++ s))).head? =
      some (Function.update Captures.empty 1 (some t), s) := by
    refine Regex.head?_run_seq_many isBlank_one.space isBlank_one.pos htext ?_
    exact fun p v hsplit hp hspace => absurd ((n.isWordText.outside s).eq_nil hsplit hspace) hp
  have htype : (((Regex.group 1 (.many isAny 0)).seq
      ((Regex.many isSpace 1).seq (.text n.text))).run Captures.empty
        (t ++ (" ".toList ++ (n.text ++ s)))).head? =
      some (Function.update Captures.empty 1 (some t), s) := by
    refine Regex.head?_run_seq_group_many (fun c hc => ?_) (Nat.zero_le _) hname ?_
    · exact bne_iff_ne.2 fun heq => ht.clean c hc (heq ▸ by decide)
    · intro p v e hsplit hp _
      cases p with
      | nil => exact absurd rfl hp
      | cons b p => exact run_name_eq_nil hs (List.cons.inj hsplit).2
  have hmatch : ((typePattern n.text).run Captures.empty
      (u ++ (t ++ (" ".toList ++ (n.text ++ s))))).head? =
      some (Function.update Captures.empty 1 (some t), s) := by
    refine Regex.head?_run_seq_many hu (Nat.zero_le _) htype ?_
    exact fun p v hsplit hp hspace => absurd ((ht.outside _).eq_nil hsplit hspace) hp
  rw [typeBefore, matchStart, hmatch]
  rfl

theorem closePattern_contains : closePattern.Contains '}' := List.mem_cons_self

theorem tagPattern_contains : tagPattern.Contains ';' :=
  .inr (.inr (.inr (.inr (.inr List.mem_cons_self))))

theorem namePattern_contains : namePattern.Contains ';' := .inr List.mem_cons_self

theorem commaPattern_contains : commaPattern.Contains ',' := .inr (.inr (.inl List.mem_cons_self))

/-- What is pushed belongs to the last declaration. -/
theorem pushVar_append (v : Var) (structs : List Collected) (d : Collected) :
    pushVar v (structs ++ [d]) = structs ++ [{ d with var := d.var ++ [v] }] := by
  induction structs with
  | nil => rfl
  | cons d' structs ih =>
    cases structs with
    | nil => rfl
    | cons d'' structs => exact congrArg (d' :: ·) ih

theorem not_mem_of_isSpace {u : List Char} (hu : ∀ c ∈ u, isSpace c = true) {c : Char}
    (hc : isSpace c = false) : c ∉ u := fun hmem => Bool.false_ne_true (hc.symm.trans (hu c hmem))

theorem memberLine_clean {u t s : List Char} (hu : ∀ c ∈ u, isSpace c = true)
    (ht : IsTypeText t) {c : Char} (hc : c ∈ "\x7d;/".toList) (hs : c ∉ s) :
    c ∉ u ++ (t ++ (" ".toList ++ s)) := by
  have hlisted : ∀ c ∈ "\x7d;/".toList, isSpace c = false ∧ c ∈ "\n\x7d;/".toList :=
    forall_mem_of_all (by decide)
  obtain ⟨hspace, htype⟩ := hlisted c hc
  simp only [List.mem_append, not_or]
  exact ⟨not_mem_of_isSpace hu hspace, fun hmem => ht.clean c hmem htype,
    not_mem_of_isSpace isBlank_one.space hspace, hs⟩

theorem Tag.not_mem (g : Tag) {c : Char} (hc : isWord c = false) : c ∉ g.digits :=
  (IsWordText.mk (fun c hc => isWord_of_isDigit (g.digit c hc)) g.pos).not_mem hc

theorem parseLine_tag (structs : List Collected) (d : Collected) {u t : List Char}
    (hu : ∀ c ∈ u, isSpace c = true) (ht : IsTypeText t) (n : Name) (g : Tag) :
    parseLine ⟨true, structs ++ [d]⟩ (u ++ (t ++ (" ".toList ++ tagText n g))) =
      ⟨true, structs ++
        [{ d with var := d.var ++ [⟨n.text, some g.digits, some t⟩] }]⟩ := by
  have hbrace : '}' ∉ tagText n g := by
    simp [tagText, n.not_mem (c := '}') rfl, g.not_mem (c := '}') rfl]
  have hslash : '/' ∉ tagText n g := by
    simp [tagText, n.not_mem (c := '/') rfl, g.not_mem (c := '/') rfl]
  have harrows : Arrows (u ++ t ++ " ".toList) :=
    ((Arrows.of_not_mem (not_mem_of_isSpace hu rfl)).append ht.arrows).append
      (.of_not_mem (by decide))
  have hfound := matchAnywhere_tag harrows n g
  rw [List.append_assoc] at hfound
  have hsuffix : ∀ c ∈ " ".toList ++ '=' :: (" ".toList ++ (g.digits ++ ";".toList)),
      isWord c = true → isDigit c = true := by
    have hblank : ∀ c ∈ " ".toList, isWord c = true → isDigit c = true :=
      forall_mem_of_all (by decide)
    have hend : ∀ c ∈ ";".toList, isWord c = true → isDigit c = true :=
      forall_mem_of_all (by decide)
    have hdigits : ∀ c ∈ g.digits, isWord c = true → isDigit c = true := fun c hc _ => g.digit c hc
    exact List.forall_mem_append.2 ⟨hblank, List.forall_mem_cons.2 ⟨nofun,
      List.forall_mem_append.2 ⟨hblank, List.forall_mem_append.2 ⟨hdigits, hend⟩⟩⟩⟩
  have htype := typeBefore_eq hu ht hsuffix (n := n)
  rw [parseLine_inside (memberLine_clean hu ht (by decide) hslash), parseInside,
    matchAnywhere_eq_none closePattern_contains (memberLine_clean hu ht (by decide) hbrace), hfound]
  show ParseState.mk true (pushVar ⟨n.text, _, some (typeBefore n.text _)⟩ (structs ++ [d])) = _
  rw [pushVar_append, tagText, htype]
  rfl

theorem parseLine_name (structs : List Collected) (d : Collected) {u t : List Char}
    (hu : ∀ c ∈ u, isSpace c = true) (ht : IsTypeText t) (n : Name) :
    parseLine ⟨true, structs ++ [d]⟩ (u ++ (t ++ (" ".toList ++ (n.text ++ ";".toList)))) =
      ⟨true, structs ++ [{ d with var := d.var ++ [⟨n.text, none, some t⟩] }]⟩ := by
  have hbrace : '}' ∉ n.text ++ ";".toList := by simp [n.not_mem (c := '}') rfl]
  have hslash : '/' ∉ n.text ++ ";".toList := by simp [n.not_mem (c := '/') rfl]
  have hequal : '=' ∉ n.text ++ ";".toList := by simp [n.not_mem (c := '=') rfl]
  have harrows : Arrows (u ++ (t ++ (" ".toList ++ (n.text ++ ";".toList)))) :=
    (Arrows.of_not_mem (not_mem_of_isSpace hu rfl)).append <|
      ht.arrows.append <| (Arrows.of_not_mem (by decide)).append (.of_not_mem hequal)
  have hsemicolon : ';' ∉ u ++ t :=
    List.not_mem_append (not_mem_of_isSpace hu rfl) fun hmem => ht.clean ';' hmem (by decide)
  have hfound := matchAnywhere_name hsemicolon n
  rw [List.append_assoc] at hfound
  have htype := typeBefore_eq hu ht (s := ";".toList) (n := n) (forall_mem_of_all (by decide))
  rw [parseLine_inside (memberLine_clean hu ht (by decide) hslash), parseInside,
    matchAnywhere_eq_none closePattern_contains (memberLine_clean hu ht (by decide) hbrace),
    matchAnywhere_tag_eq_none harrows, hfound]
  show ParseState.mk true (pushVar ⟨n.text, _, some (typeBefore n.text _)⟩ (structs ++ [d])) = _
  rw [pushVar_append, htype]

/-- A line without a semicolon and without a comma is passed over. -/
theorem parseLine_idle (structs : List Collected) {line : List Char}
    (hline : ∀ c ∈ "/\x7d;,".toList, c ∉ line) :
    parseLine ⟨true, structs⟩ line = ⟨true, structs⟩ := by
  have hcomma : matchLine commaPattern line = none := by
    rw [matchLine, run_eq_nil_of_contains commaPattern_contains (hline ',' (by decide))]
    rfl
  rw [parseLine_inside (hline '/' (by decide)), parseInside,
    matchAnywhere_eq_none closePattern_contains (hline '}' (by decide)),
    matchAnywhere_eq_none tagPattern_contains (hline ';' (by decide)),
    matchAnywhere_eq_none namePattern_contains (hline ';' (by decide)), hcomma]
  rfl

/-- What is matched to the end of a line with a comma is the line behind its blanks. -/
theorem matchLine_comma {u t : List Char} (hu : ∀ c ∈ u, isSpace c = true)
    (hstart : Regex.Outside isSpace t) (hany : ∀ c ∈ t, isAny c = true) (hcomma : ',' ∈ t) :
    matchLine commaPattern (u ++ t) = some (Function.update Captures.empty 1 (some t)) := by
  have hmatches : withComma.Matches Captures.empty t
      (Function.update Captures.empty 1 (some t)) := by
    obtain ⟨p, q, rfl⟩ := List.append_of_mem hcomma
    obtain ⟨hp, hq⟩ := List.forall_mem_append.1 hany
    exact ⟨_, ⟨p, _, _, rfl, ⟨hp, Nat.zero_le _, rfl⟩, ",".toList, q, _, rfl, ⟨rfl, rfl⟩,
      fun c hc => hq c (List.mem_cons_of_mem _ hc), Nat.zero_le _, rfl⟩, rfl⟩
  have hwhole : ((withComma.run Captures.empty t).filter fun m => m.2.isEmpty).head? =
      some (Function.update Captures.empty 1 (some t), []) := by
    refine Regex.head?_of_unique ?_ ?_
    · refine List.mem_filter.2 ⟨Regex.mem_run.2 ⟨t, (List.append_nil t).symm, hmatches⟩, rfl⟩
    · rintro ⟨e, rest⟩ hm
      obtain ⟨hmem, hempty⟩ := List.mem_filter.1 hm
      obtain rfl := List.isEmpty_iff.1 hempty
      obtain ⟨x, hx, e', ⟨p, q, e₁, -, ⟨-, -, rfl⟩, _, _, _, -, ⟨-, rfl⟩, -, -, rfl⟩, rfl⟩ :=
        Regex.mem_run.1 hmem
      rw [List.append_nil] at hx
      rw [hx]
  have hhead := Regex.head?_runMany
    (fun t => (withComma.run Captures.empty t).filter fun m => m.2.isEmpty) hu (Nat.zero_le _)
    hwhole fun p v hsplit hp hspace => absurd (hstart.eq_nil hsplit hspace) hp
  rw [matchLine, commaPattern, Regex.run_seq_many, List.filter_flatMap, hhead]
  rfl

theorem parseLine_comma (structs : List Collected) (d : Collected) {u t : List Char}
    (hu : ∀ c ∈ u, isSpace c = true) (hstart : Regex.Outside isSpace t)
    (hclean : ∀ c ∈ "\n/\x7d;".toList, c ∉ t) (hcomma : ',' ∈ t) :
    parseLine ⟨true, structs ++ [d]⟩ (u ++ t) =
      ⟨true, structs ++ [{ d with var := d.var ++ [⟨t, none, none⟩] }]⟩ := by
  have hline : ∀ c ∈ "/\x7d;".toList, c ∉ u ++ t := by
    have hlisted : ∀ c ∈ "/\x7d;".toList, isSpace c = false ∧ c ∈ "\n/\x7d;".toList :=
      forall_mem_of_all (by decide)
    intro c hc
    exact List.not_mem_append (not_mem_of_isSpace hu (hlisted c hc).1) (hclean c (hlisted c hc).2)
  have hany : ∀ c ∈ t, isAny c = true := fun c hc =>
    bne_iff_ne.2 (ne_of_mem_of_not_mem hc (hclean '\n' (by decide)))
  rw [parseLine_inside (hline '/' (by decide)), parseInside,
    matchAnywhere_eq_none closePattern_contains (hline '}' (by decide)),
    matchAnywhere_eq_none tagPattern_contains (hline ';' (by decide)),
    matchAnywhere_eq_none namePattern_contains (hline ';' (by decide)),
    matchLine_comma hu hstart hany hcomma]
  show ParseState.mk true (pushVar ⟨t, none, none⟩ (structs ++ [d])) = _
  rw [pushVar_append]

end BambooShoot.Pbsic
