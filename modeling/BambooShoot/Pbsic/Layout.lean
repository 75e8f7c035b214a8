import BambooShoot.Pbsic.ParseInput

/-!
# Interface files

The layout of interface files, as `hitdata.bsi` has it: declarations over several lines,
and between and in them comments, blank lines and `extern` lines.

Result: `parseInput_fileLines`, what `parse_input` collects of a file.
-/

namespace BambooShoot.Pbsic

open BambooShoot.Lib

/-! ## Layout -/

def indentation (n : ℕ) : List Char := List.replicate n ' '

/-- A line with something of its own, or one of those that may stand anywhere. -/
inductive Line (α : Type) where
  | item (indent : ℕ) (a : α)
  | comment (indent : ℕ) (text : List Char)
  | blank (indent : ℕ)
  | external (indent : ℕ) (n : Name)

def Line.text {α : Type} (f : α → List Char) : Line α → List Char
  | .item indent a => indentation indent ++ f a
  | .comment indent text => indentation indent ++ "//".toList ++ text
  | .blank indent => indentation indent
  | .external indent n =>
    indentation indent ++ ("extern".toList ++ (" ".toList ++ (n.text ++ ";".toList)))

def items {α : Type} (lines : List (Line α)) : List α :=
  lines.filterMap fun
    | .item _ a => some a
    | _ => none

def externals {α : Type} (lines : List (Line α)) : List Name :=
  lines.filterMap fun
    | .external _ n => some n
    | _ => none

/-- The lines between a header and `};`. An item may be written differently if there are
    more of them behind it. -/
def bodyLines {α : Type} (f : Bool → α → List Char) : List (Line α) → List (List Char)
  | [] => []
  | l :: ls => l.text (f (!(items ls).isEmpty)) :: bodyLines f ls

structure Member where
  type : BsiType
  name : Name

structure TaggedMember extends Member where
  tag : Tag

/-- The value of an enumerator: a number or a name. -/
structure Value where
  text : List Char
  word : ∀ c ∈ text, (isWord c || c == '-') = true
  pos : 1 ≤ text.length

structure Enumerator where
  name : Name
  value : Option Value

/-- The enumerators of one line. -/
structure Enumerators where
  first : Enumerator
  others : List Enumerator

def Member.text (m : Member) : List Char :=
  m.type.render ++ (" ".toList ++ (m.name.text ++ ";".toList))

def TaggedMember.text (m : TaggedMember) : List Char :=
  m.type.render ++ (" ".toList ++ tagText m.name m.tag)

def Enumerator.text (e : Enumerator) : List Char :=
  e.name.text ++ match e.value with
    | some v => '=' :: v.text
    | none => []

def Enumerators.list (l : Enumerators) : List Enumerator := l.first :: l.others

/-- Enumerators are separated by commas, also where a line ends. -/
def Enumerators.text (more : Bool) (l : Enumerators) : List Char :=
  l.first.text ++ l.others.flatMap (fun e => ", ".toList ++ e.text) ++
    if more then ",".toList else []

inductive Declaration where
  | struct (name : Name) (body : List (Line TaggedMember)) (closing : ℕ)
  | tuple (name : Name) (body : List (Line Member)) (closing : ℕ)
  | enum (name type : Name) (body : List (Line Enumerators)) (closing : ℕ)

namespace Declaration

def header : Declaration → List Char
  | .struct name _ _ => structHeader "struct".toList name.text
  | .tuple name _ _ => structHeader "tuple".toList name.text
  | .enum name type _ _ => enumHeader name.text type.text

def body : Declaration → List (List Char)
  | .struct _ lines _ => bodyLines (fun _ => TaggedMember.text) lines
  | .tuple _ lines _ => bodyLines (fun _ => Member.text) lines
  | .enum _ _ lines _ => bodyLines Enumerators.text lines

def closing : Declaration → ℕ
  | .struct _ _ closing | .tuple _ _ closing | .enum _ _ _ closing => closing

def lines (indent : ℕ) (d : Declaration) : List (List Char) :=
  (indentation indent ++ d.header) :: (d.body ++ [indentation d.closing ++ "\x7d;".toList])

end Declaration

/-- The lines of an interface file. -/
def fileLines : List (Line Declaration) → List (List Char)
  | [] => []
  | .item indent d :: ls => d.lines indent ++ fileLines ls
  | l :: ls => l.text Declaration.header :: fileLines ls

/-! ## What is collected -/

/-- An `extern` line in a declaration is taken for a member. -/
def Line.collect {α : Type} (g : α → List Var) : Line α → List Var
  | .item _ a => g a
  | .external _ n => [⟨n.text, none, some "extern".toList⟩]
  | .comment _ _ | .blank _ => []

def collectBody {α : Type} (g : Bool → α → List Var) : List (Line α) → List Var
  | [] => []
  | l :: ls => l.collect (g (!(items ls).isEmpty)) ++ collectBody g ls

def Member.var (m : Member) : Var := ⟨m.name.text, none, some m.type.render⟩

def TaggedMember.var (m : TaggedMember) : Var :=
  ⟨m.name.text, some m.tag.digits, some m.type.render⟩

/-- A line of enumerators is collected as a whole, if there is a comma in it. -/
def Enumerators.vars (more : Bool) (l : Enumerators) : List Var :=
  if more || !l.others.isEmpty then [⟨l.text more, none, none⟩] else []

def Declaration.collected : Declaration → Collected
  | .struct name body _ => ⟨name.text, "struct".toList, collectBody (fun _ m => [m.var]) body⟩
  | .tuple name body _ => ⟨name.text, "tuple".toList, collectBody (fun _ m => [m.var]) body⟩
  | .enum name type body _ =>
    ⟨name.text, "enum : ".toList ++ type.text, collectBody Enumerators.vars body⟩

/-! ## Parsing -/

theorem indentation_isSpace (n : ℕ) : ∀ c ∈ indentation n, isSpace c = true := by
  intro c hc
  rw [List.eq_of_mem_replicate hc]
  rfl

theorem isTypeText_external : IsTypeText "extern".toList where
  start := ⟨'e', "xtern".toList, rfl, rfl⟩
  arrows := .of_not_mem (by decide)
  clean := forall_mem_of_all (by decide)

theorem render_chars (t : BsiType) :
    ∀ c ∈ t.render, isWord c = true ∨ c ∈ "[]()=> ".toList := by
  induction t with
  | name n => exact fun c hc => .inl (n.word c hc)
  | list t ih =>
    have hclose : ∀ c ∈ "]".toList, isWord c = true ∨ c ∈ "[]()=> ".toList :=
      forall_mem_of_all (by decide)
    exact List.forall_mem_cons.2 ⟨by decide, List.forall_mem_append.2 ⟨ih, hclose⟩⟩
  | map k v ihk ihv =>
    have hclose : ∀ c ∈ ")".toList, isWord c = true ∨ c ∈ "[]()=> ".toList :=
      forall_mem_of_all (by decide)
    have hvalue := List.forall_mem_append.2 ⟨ihv, hclose⟩
    have harrow : ∀ c ∈ ' ' :: '=' :: '>' :: ' ' :: (v.render ++ ")".toList),
        isWord c = true ∨ c ∈ "[]()=> ".toList := by
      simpa only [List.forall_mem_cons] using
        ⟨by decide, by decide, by decide, by decide, hvalue⟩
    exact List.forall_mem_cons.2 ⟨by decide, List.forall_mem_append.2 ⟨ihk, harrow⟩⟩

theorem render_arrows (t : BsiType) : Arrows t.render := by
  induction t with
  | name n => exact .of_not_mem (n.not_mem rfl)
  | list t ih => exact .cons (by decide) (ih.append (.cons (by decide) .nil))
  | map k v ihk ihv =>
    exact .cons (by decide) (ihk.append (.cons (by decide) (.arrow (.cons (by decide)
      (ihv.append (.cons (by decide) .nil))))))

theorem isTypeText_render (t : BsiType) : IsTypeText t.render where
  start := by
    cases t with
    | name n =>
      obtain ⟨c, cs, hn, -⟩ := n.start
      exact ⟨c, cs, hn, isSpace_of_isWord (n.word c (hn ▸ List.mem_cons_self))⟩
    | list t => exact ⟨'[', _, rfl, rfl⟩
    | map k v => exact ⟨'(', _, rfl, rfl⟩
  arrows := render_arrows t
  clean := by
    intro c hc hlisted
    have hnot : ∀ c ∈ "\n\x7d;/".toList, isWord c = false ∧ c ∉ "[]()=> ".toList :=
      forall_mem_of_all (by decide)
    rcases render_chars t c hc with hword | hword
    · rw [(hnot c hlisted).1] at hword
      cases hword
    · exact (hnot c hlisted).2 hword

/-- An enumerator is of words, signs and `=`. -/
theorem Enumerator.text_chars (e : Enumerator) :
    ∀ c ∈ e.text, isWord c = true ∨ c ∈ "-=".toList := by
  refine List.forall_mem_append.2 ⟨fun c hc => .inl (e.name.word c hc), ?_⟩
  cases e.value with
  | none => exact nofun
  | some v =>
    refine List.forall_mem_cons.2 ⟨by decide, fun c hc => ?_⟩
    have hword := v.word c hc
    rw [Bool.or_eq_true, beq_iff_eq] at hword
    rcases hword with hword | rfl
    · exact .inl hword
    · exact .inr (by decide)

theorem Enumerators.text_chars (more : Bool) (l : Enumerators) :
    ∀ c ∈ l.text more, isWord c = true ∨ c ∈ "-=, ".toList := by
  have henumerator (e : Enumerator) : ∀ c ∈ e.text, isWord c = true ∨ c ∈ "-=, ".toList := by
    intro c hc
    have hlisted : ∀ c ∈ "-=".toList, c ∈ "-=, ".toList := forall_mem_of_all (by decide)
    exact (e.text_chars c hc).imp_right (hlisted c)
  refine List.forall_mem_append.2 ⟨List.forall_mem_append.2 ⟨henumerator l.first, ?_⟩, ?_⟩
  · intro c hc
    obtain ⟨e, -, hc⟩ := List.mem_flatMap.1 hc
    have hseparator : ∀ c ∈ ", ".toList, isWord c = true ∨ c ∈ "-=, ".toList :=
      forall_mem_of_all (by decide)
    exact List.forall_mem_append.2 ⟨hseparator, henumerator e⟩ c hc
  · cases more with
    | false => exact nofun
    | true => exact forall_mem_of_all (by decide)

theorem Enumerators.clean (more : Bool) (l : Enumerators) :
    ∀ c ∈ "\n/\x7d;".toList, c ∉ l.text more := by
  have hnot : ∀ c ∈ "\n/\x7d;".toList, isWord c = false ∧ c ∉ "-=, ".toList :=
    forall_mem_of_all (by decide)
  intro c hc hmem
  rcases l.text_chars more c hmem with hword | hword
  · rw [(hnot c hc).1] at hword
    cases hword
  · exact (hnot c hc).2 hword

theorem Enumerators.outside (more : Bool) (l : Enumerators) :
    Regex.Outside isSpace (l.text more) := by
  unfold Enumerators.text Enumerator.text
  rw [List.append_assoc, List.append_assoc]
  exact l.first.name.isWordText.outside _

/-- A comma stands between two enumerators, or at the end. -/
theorem Enumerators.comma_mem (more : Bool) (l : Enumerators) :
    ',' ∈ l.text more ↔ (more || !l.others.isEmpty) = true := by
  have hfirst (e : Enumerator) : ',' ∉ e.text := fun hmem => by
    rcases e.text_chars ',' hmem with hword | hword
    · cases hword
    · revert hword
      decide
  unfold Enumerators.text
  cases more with
  | true => simp
  | false =>
    cases l.others with
    | nil => simpa using hfirst l.first
    | cons e es => simp

theorem parseLine_enumerators (more : Bool) (indent : ℕ) (l : Enumerators)
    (structs : List Collected) (d : Collected) :
    parseLine ⟨true, structs ++ [d]⟩ (indentation indent ++ l.text more) =
      ⟨true, structs ++ [{ d with var := d.var ++ l.vars more }]⟩ := by
  unfold Enumerators.vars
  by_cases hcomma : (more || !l.others.isEmpty) = true
  · rw [if_pos hcomma]
    exact parseLine_comma structs d (indentation_isSpace indent) (l.outside more) (l.clean more)
      ((l.comma_mem more).2 hcomma)
  · rw [if_neg hcomma, List.append_nil]
    refine parseLine_idle _ fun c hc => ?_
    have hlisted : ∀ c ∈ "/\x7d;,".toList,
        isSpace c = false ∧ (c ∈ "\n/\x7d;".toList ∨ c = ',') := forall_mem_of_all (by decide)
    refine List.not_mem_append (not_mem_of_isSpace (indentation_isSpace indent) (hlisted c hc).1) ?_
    rcases (hlisted c hc).2 with hclean | rfl
    · exact l.clean more c hclean
    · exact fun hmem => hcomma ((l.comma_mem more).1 hmem)

theorem parseLine_taggedMember (indent : ℕ) (m : TaggedMember)
    (structs : List Collected) (d : Collected) :
    parseLine ⟨true, structs ++ [d]⟩ (indentation indent ++ m.text) =
      ⟨true, structs ++ [{ d with var := d.var ++ [m.var] }]⟩ := by
  unfold TaggedMember.text
  exact parseLine_tag structs d (indentation_isSpace indent) (isTypeText_render m.type) m.name m.tag

theorem parseLine_member (indent : ℕ) (m : Member)
    (structs : List Collected) (d : Collected) :
    parseLine ⟨true, structs ++ [d]⟩ (indentation indent ++ m.text) =
      ⟨true, structs ++ [{ d with var := d.var ++ [m.var] }]⟩ := by
  unfold Member.text
  exact parseLine_name structs d (indentation_isSpace indent) (isTypeText_render m.type) m.name

/-- One line after the other is collected, if each item is. -/
theorem foldl_bodyLines {α : Type} {f : Bool → α → List Char} {g : Bool → α → List Var}
    (hitem : ∀ more indent a structs d,
      parseLine ⟨true, structs ++ [d]⟩ (indentation indent ++ f more a) =
        ⟨true, structs ++ [{ d with var := d.var ++ g more a }]⟩)
    (body : List (Line α)) (structs : List Collected) (d : Collected) :
    (bodyLines f body).foldl parseLine ⟨true, structs ++ [d]⟩ =
      ⟨true, structs ++ [{ d with var := d.var ++ collectBody g body }]⟩ := by
  induction body generalizing d with
  | nil =>
    rw [collectBody, List.append_nil]
    rfl
  | cons l ls ih =>
    have hline : parseLine ⟨true, structs ++ [d]⟩ (l.text (f (!(items ls).isEmpty))) =
        ⟨true, structs ++
          [{ d with var := d.var ++ l.collect (g (!(items ls).isEmpty)) }]⟩ := by
      cases l with
      | item indent a => exact hitem _ indent a structs d
      | comment indent text =>
        rw [Line.collect, List.append_nil]
        exact parseLine_comment _ (indentation_isSpace indent) text
      | blank indent =>
        rw [Line.collect, List.append_nil]
        have hlisted : ∀ c ∈ "/\x7d;,".toList, isSpace c = false := forall_mem_of_all (by decide)
        exact parseLine_idle _ fun c hc =>
          not_mem_of_isSpace (indentation_isSpace indent) (hlisted c hc)
      | external indent n =>
        exact parseLine_name structs d (indentation_isSpace indent) isTypeText_external n
    rw [bodyLines, List.foldl_cons, hline, ih, collectBody, List.append_assoc]

theorem parseLine_declaration (indent : ℕ) (d : Declaration) (structs : List Collected) :
    parseLine ⟨false, structs⟩ (indentation indent ++ d.header) =
      ⟨true, structs ++ [{ d.collected with var := [] }]⟩ := by
  cases d with
  | struct name body closing =>
    exact parseLine_header structs (indentation_isSpace indent) (.inr rfl) name
  | tuple name body closing =>
    exact parseLine_header structs (indentation_isSpace indent) (.inl rfl) name
  | enum name type body closing =>
    exact parseLine_enum structs (indentation_isSpace indent) name type

theorem foldl_body (d : Declaration) (structs : List Collected) :
    d.body.foldl parseLine ⟨true, structs ++ [{ d.collected with var := [] }]⟩ =
      ⟨true, structs ++ [d.collected]⟩ := by
  cases d with
  | struct name body closing =>
    exact foldl_bodyLines (fun _ => parseLine_taggedMember) body structs _
  | tuple name body closing =>
    exact foldl_bodyLines (fun _ => parseLine_member) body structs _
  | enum name type body closing => exact foldl_bodyLines parseLine_enumerators body structs _

theorem foldl_declaration (indent : ℕ) (d : Declaration) (structs : List Collected) :
    (d.lines indent).foldl parseLine ⟨false, structs⟩ = ⟨false, structs ++ [d.collected]⟩ := by
  unfold Declaration.lines
  rw [List.foldl_cons, parseLine_declaration, List.foldl_append, foldl_body, List.foldl_cons,
    List.foldl_nil]
  exact parseLine_close _ (indentation_isSpace _)

theorem external_clean (indent : ℕ) (n : Name) : ∀ c ∈ "/\x7b".toList,
    c ∉ indentation indent ++ ("extern".toList ++ (" ".toList ++ (n.text ++ ";".toList))) := by
  have hlisted : ∀ c ∈ "/\x7b".toList, isSpace c = false ∧ isWord c = false ∧
      c ∉ "extern".toList ∧ c ∉ " ".toList ∧ c ∉ ";".toList := forall_mem_of_all (by decide)
  intro c hc
  obtain ⟨hspace, hword, hexternal, hblank, hend⟩ := hlisted c hc
  exact List.not_mem_append (not_mem_of_isSpace (indentation_isSpace indent) hspace) <|
    List.not_mem_append hexternal <| List.not_mem_append hblank <|
      List.not_mem_append (n.not_mem hword) hend

theorem foldl_fileLines (file : List (Line Declaration)) (structs : List Collected) :
    (fileLines file).foldl parseLine ⟨false, structs⟩ =
      ⟨false, structs ++ (items file).map Declaration.collected⟩ := by
  induction file generalizing structs with
  | nil =>
    rw [items, List.filterMap_nil, List.map_nil, List.append_nil]
    rfl
  | cons l ls ih =>
    cases l with
    | item indent d =>
      rw [fileLines, List.foldl_append, foldl_declaration, ih, List.append_assoc]
      rfl
    | comment indent text =>
      have hskip := parseLine_comment ⟨false, structs⟩ (indentation_isSpace indent) text
      exact (congrArg ((fileLines ls).foldl parseLine) hskip).trans (ih structs)
    | blank indent =>
      have hskip := parseLine_skip structs (not_mem_of_isSpace (indentation_isSpace indent) rfl)
        (not_mem_of_isSpace (indentation_isSpace indent) rfl)
      exact (congrArg ((fileLines ls).foldl parseLine) hskip).trans (ih structs)
    | external indent n =>
      have hskip := parseLine_skip structs (external_clean indent n '/' (by decide))
        (external_clean indent n '{' (by decide))
      exact (congrArg ((fileLines ls).foldl parseLine) hskip).trans (ih structs)

/-- Of a file, the declarations are collected in order. -/
theorem parseInput_fileLines (file : List (Line Declaration)) :
    parseInput (fileLines file) = (items file).map Declaration.collected :=
  congrArg ParseState.structs (foldl_fileLines file [])

example :
    parseInput ["// of one PMT".toList, "struct PmtHit \x7b".toList, "  [SingleHit] hits = 3;".toList,
        "\x7d;".toList] =
      [⟨"PmtHit".toList, "struct".toList,
        [⟨"hits".toList, some "3".toList, some "[SingleHit]".toList⟩]⟩] := rfl

end BambooShoot.Pbsic
