import BambooShoot.Pbsic.ParseInput

/-!
# Generated classes

Model of `make_class` and of what it calls (`pbsic.pl`, lines 96–117 and 128–215), and of
the printing of the header (lines 39–51).

Results: `makeStructMemberTag_eq`, `makeTupleMemberDeclaration_eq` and `makeEnum_eq`, the
texts in which members and enumerators are declared.
-/

namespace BambooShoot.Pbsic

open BambooShoot.Lib

/-! ## Model -/

/-- The texts of names one after the other, with a separator behind each name that is not
    that of the last. -/
def joinNames (separator : List Char) (f : List Char → List Char) (names : List (List Char)) :
    List Char :=
  names.flatMap fun name => f name ++ if names.getLast? = some name then [] else separator

/-- `make_operator_equal` (lines 128–141). -/
def makeOperatorEqual (structName : List Char) (names : List (List Char)) : List Char :=
  "    bool operator==(const ".toList ++ structName ++ "& other) const\n    \x7b\n".toList ++
    "        return ".toList ++
    joinNames " && ".toList
      (fun name => "(".toList ++ name ++ "==other.".toList ++ name ++ ")".toList) names ++
    ";\n    \x7d\n\n".toList

/-- `make_tuple_operator_less_than` (lines 150–170). -/
def makeTupleOperatorLessThan (structName : List Char) (names : List (List Char)) : List Char :=
  let text := "    template <class Other>\n".toList ++
    "    auto operator<(const Other& other) const\n".toList ++
    "        -> typename std::enable_if<std::is_same<Other, ".toList ++ structName ++
    ">::value, decltype(__TYPE__)>::type\n    \x7b\n".toList
  let type := joinNames ", ".toList
    (fun name => "bool(".toList ++ name ++ "<other.".toList ++ name ++ ")".toList) names
  (Regex.text "__TYPE__".toList).replace (fun _ => type) text ++
    names.flatMap (fun name => "        if (".toList ++ name ++ " != other.".toList ++ name ++
      ") return ".toList ++ name ++ " < other.".toList ++ name ++ ";\n".toList) ++
    "        return false;\n    \x7d\n\n".toList

def memberDeclaration : Regex := .text "__MEMBER_DECLARATION__".toList

/-- `make_tuple_member_declaration` (lines 172–185). -/
def makeTupleMemberDeclaration (structName : List Char) (names : List (List Char)) : List Char :=
  let membersText := joinNames ", ".toList
    (fun name => "PBSS_TUPLE_MEMBER(&".toList ++ structName ++ "::".toList ++ name ++ ")".toList)
    names
  memberDeclaration.replace (fun _ => membersText)
    "    PBSS_TUPLE_MEMBERS(__MEMBER_DECLARATION__);\n".toList

/-- `make_tuple_code` (lines 143–148). -/
def makeTupleCode (structName : List Char) (names : List (List Char)) : List Char :=
  makeTupleOperatorLessThan structName names ++ makeTupleMemberDeclaration structName names

/-- The text of a tagged member. -/
def tagMember (structName tag name : List Char) : List Char :=
  "PBSS_TAG_MEMBER(".toList ++ tag ++ ", &".toList ++ structName ++ "::".toList ++ name ++
    ")".toList

/-- `make_struct_member_tag` (lines 187–201). -/
def makeStructMemberTag (structName : List Char) (names tags : List (List Char)) : List Char :=
  let membersText := (List.range names.length).flatMap fun idx =>
    tagMember structName (tags[idx]?.getD []) (names[idx]?.getD []) ++
      if idx + 1 = names.length then [] else ", ".toList
  memberDeclaration.replace (fun _ => membersText)
    "    PBSS_TAGGED_STRUCT(__MEMBER_DECLARATION__);\n".toList

/-- `:\s+(\S+)`. -/
def enumTypePattern : Regex :=
  .seq (.text ":".toList) <| .seq (.many isSpace 1) (.group 1 (.many (fun c => !isSpace c) 1))

/-- `make_enum` (lines 203–215): of the collected lines, only the first is printed. -/
def makeEnum (enumName type : List Char) (var : List Var) : List Char :=
  let newType := suffixInts (((matchAnywhere enumTypePattern type).map (captured · 1)).getD [])
  "enum class ".toList ++ enumName ++ " : ".toList ++ newType ++ " \x7b\n    ".toList ++
    ((var.head?.map Var.name).getD []) ++ "\n\x7d;\n".toList

/-- The declaration of a member. -/
def memberLine (v : Var) : List Char :=
  "    ".toList ++ makeType (v.type.getD []) ++ " ".toList ++ v.name ++ ";\n".toList

/-- `make_class` (lines 96–117). -/
def makeClass (struct : Collected) : List Char :=
  if struct.type = "struct".toList ∨ struct.type = "tuple".toList then
    let names := struct.var.map Var.name
    let tags := struct.var.filterMap Var.tag
    "struct ".toList ++ struct.name ++ " \x7b\n".toList ++ struct.var.flatMap memberLine ++
      "\n".toList ++ makeOperatorEqual struct.name names ++
      (if struct.type = "tuple".toList then makeTupleCode struct.name names else []) ++
      (if struct.type = "struct".toList then makeStructMemberTag struct.name names tags else []) ++
      "\x7d;\n".toList
  else if (matchStart (.text "enum".toList) struct.type).isSome then
    makeEnum struct.name struct.type struct.var
  else []

/-- What is printed: forward declarations, and the classes. -/
structure Header where
  forward : List (List Char)
  classes : List (List Char)

/-- The output (lines 39–51). -/
def generate (lines : List (List Char)) : Header :=
  let res := parseInput lines
  { forward := (res.filter fun struct =>
        struct.type = "struct".toList ∨ struct.type = "tuple".toList).map fun struct =>
      "struct ".toList ++ struct.name ++ ";\n".toList
    classes := res.map makeClass }

def Header.text (h : Header) : List Char :=
  h.forward.flatten ++ "\n".toList ++ "\n".toList.intercalate h.classes

/-! ## Texts -/

theorem intercalate_concat (separator : List Char) (ts : List (List Char)) (t : List Char) :
    separator.intercalate (ts ++ [t]) = ts.flatMap (· ++ separator) ++ t := by
  induction ts with
  | nil => simp [List.intercalate]
  | cons t' ts ih =>
    cases ts with
    | nil => simp [List.intercalate]
    | cons t'' ts =>
      simp only [List.intercalate, List.cons_append, List.intersperse_cons_cons, List.flatten_cons,
        List.flatMap_cons, List.append_assoc] at ih ⊢
      rw [ih]

/-- Separated by index, the texts are joined. -/
theorem flatMap_range (separator : List Char) (f : ℕ → List Char) (n : ℕ) :
    ((List.range n).flatMap fun i => f i ++ if i + 1 = n then [] else separator) =
      separator.intercalate ((List.range n).map f) := by
  cases n with
  | zero => rfl
  | succ n =>
    have hbefore : ((List.range n).flatMap fun i =>
        f i ++ if i + 1 = n + 1 then [] else separator) =
        ((List.range n).map f).flatMap (· ++ separator) := by
      rw [List.flatMap_map]
      refine List.flatMap_congr fun i hi => ?_
      rw [if_neg (by have := List.mem_range.1 hi; omega)]
    rw [List.range_succ, List.flatMap_append, hbefore, List.map_append, List.map_singleton,
      intercalate_concat, List.flatMap_singleton, if_pos rfl, List.append_nil]

/-- Separated by name, the texts are joined if the last name is not a name before. -/
theorem joinNames_concat_eq_iff {separator : List Char} (hseparator : 1 ≤ separator.length)
    (f : List Char → List Char) (names : List (List Char)) (last : List Char) :
    joinNames separator f (names ++ [last]) = separator.intercalate ((names ++ [last]).map f) ↔
      last ∉ names := by
  have hjoin : joinNames separator f (names ++ [last]) =
      names.flatMap (fun name => f name ++ if last = name then [] else separator) ++ f last := by
    unfold joinNames
    simp
  have hexpected : separator.intercalate ((names ++ [last]).map f) =
      names.flatMap (fun name => f name ++ separator) ++ f last := by
    rw [List.map_append, List.map_singleton, intercalate_concat, List.flatMap_map]
  have hlength : ∀ names : List (List Char),
      (names.flatMap fun name => f name ++ if last = name then [] else separator).length ≤
        (names.flatMap fun name => f name ++ separator).length ∧
      (last ∈ names → (names.flatMap fun name =>
          f name ++ if last = name then [] else separator).length <
        (names.flatMap fun name => f name ++ separator).length) := by
    intro names
    induction names with
    | nil => exact ⟨Nat.le_refl 0, nofun⟩
    | cons name names ih =>
      simp only [List.flatMap_cons, List.length_append, List.mem_cons]
      obtain ⟨hle, hlt⟩ := ih
      by_cases hname : last = name
      · rw [if_pos hname, List.length_nil]
        exact ⟨by omega, fun _ => by omega⟩
      · rw [if_neg hname]
        refine ⟨by omega, fun h => ?_⟩
        have := hlt (h.resolve_left hname)
        omega
  rw [hjoin, hexpected, List.append_left_inj]
  constructor
  · intro h hmem
    exact (Nat.ne_of_lt ((hlength names).2 hmem)) (congrArg List.length h)
  · intro h
    refine List.flatMap_congr fun name hname => ?_
    rw [if_neg (ne_of_mem_of_not_mem hname h).symm]

/-! ## Classes -/

theorem makeStructMemberTag_eq {α : Type} (structName : List Char) (name tag : α → List Char)
    (members : List α) :
    makeStructMemberTag structName (members.map name) (members.map tag) =
      "    PBSS_TAGGED_STRUCT(".toList ++ ", ".toList.intercalate (members.map fun m =>
        tagMember structName (tag m) (name m)) ++ ");\n".toList := by
  have hsearch : memberDeclaration.search
      "    PBSS_TAGGED_STRUCT(__MEMBER_DECLARATION__);\n".toList =
      some ("    PBSS_TAGGED_STRUCT(".toList, Captures.empty, ");\n".toList) := rfl
  have hmembers : (List.range members.length).map (fun idx => tagMember structName
      ((members.map tag)[idx]?.getD []) ((members.map name)[idx]?.getD [])) =
      members.map fun m => tagMember structName (tag m) (name m) := by
    refine List.ext_getElem (by simp) fun i h₁ h₂ => ?_
    have hi : i < members.length := by simpa using h₂
    simp [hi]
  have hjoin : ((List.range (members.map name).length).flatMap fun idx =>
      tagMember structName ((members.map tag)[idx]?.getD []) ((members.map name)[idx]?.getD []) ++
        if idx + 1 = (members.map name).length then [] else ", ".toList) =
      ", ".toList.intercalate (members.map fun m => tagMember structName (tag m) (name m)) := by
    rw [List.length_map, ← hmembers]
    exact flatMap_range ", ".toList (fun idx => tagMember structName
      ((members.map tag)[idx]?.getD []) ((members.map name)[idx]?.getD [])) members.length
  unfold makeStructMemberTag
  simp only [hjoin]
  exact Regex.replace_of_some hsearch _

theorem makeTupleMemberDeclaration_eq (structName : List Char) (names : List (List Char)) :
    makeTupleMemberDeclaration structName names =
      "    PBSS_TUPLE_MEMBERS(".toList ++ joinNames ", ".toList (fun name =>
        "PBSS_TUPLE_MEMBER(&".toList ++ structName ++ "::".toList ++ name ++ ")".toList) names ++
        ");\n".toList := by
  have hsearch : memberDeclaration.search
      "    PBSS_TUPLE_MEMBERS(__MEMBER_DECLARATION__);\n".toList =
      some ("    PBSS_TUPLE_MEMBERS(".toList, Captures.empty, ");\n".toList) := rfl
  unfold makeTupleMemberDeclaration
  exact Regex.replace_of_some hsearch _

theorem matchAnywhere_enumType {t : List Char} (ht : IsWordText t) :
    (matchAnywhere enumTypePattern ("enum : ".toList ++ t)).map (captured · 1) = some t := by
  have htype : ((Regex.seq (.many isSpace 1) (.group 1 (.many (fun c => !isSpace c) 1))).run
      Captures.empty (" ".toList ++ t)).head? =
      some (Function.update Captures.empty 1 (some t), []) := by
    have houtside := ht.outside []
    rw [List.append_nil] at houtside
    exact Regex.head?_run_seq_many isBlank_one.space isBlank_one.pos
      (Regex.head?_run_group_many ht.solid.1 ht.solid.2)
      fun p v hsplit hp hspace => absurd (houtside.eq_nil hsplit hspace) hp
  have hcolon : (enumTypePattern.run Captures.empty (":".toList ++ (" ".toList ++ t))).head? =
      some (Function.update Captures.empty 1 (some t), []) := by
    rw [enumTypePattern, Regex.run_seq_text, htype]
  have hsearch := Regex.search_append_of_start (u := "enum ".toList) ?_ hcolon
  · exact congrArg (fun found => (found.map fun found => found.2.1).map (captured · 1)) hsearch
  · rintro x e ⟨_, _, _, rfl, ⟨rfl, -⟩, -⟩
    exact ⟨':', _, rfl, by decide⟩

theorem makeEnum_eq (enumName : List Char) {t : List Char} (ht : IsWordText t) (var : List Var) :
    makeEnum enumName ("enum : ".toList ++ t) var =
      "enum class ".toList ++ enumName ++ " : ".toList ++ suffixInts t ++ " \x7b\n    ".toList ++
        ((var.head?.map Var.name).getD []) ++ "\n\x7d;\n".toList := by
  unfold makeEnum
  rw [matchAnywhere_enumType ht, Option.getD_some]

/-- A class with its members and with code of its own. -/
def classText (name : List Char) (var : List Var) (code : List Char) : List Char :=
  "struct ".toList ++ name ++ " \x7b\n".toList ++ var.flatMap memberLine ++ "\n".toList ++
    makeOperatorEqual name (var.map Var.name) ++ code ++ "\x7d;\n".toList

theorem makeClass_struct {struct : Collected} (h : struct.type = "struct".toList) :
    makeClass struct = classText struct.name struct.var
      (makeStructMemberTag struct.name (struct.var.map Var.name)
        (struct.var.filterMap Var.tag)) := by
  have htuple : ¬ struct.type = "tuple".toList := fun h' => absurd (h.symm.trans h') (by decide)
  unfold makeClass classText
  rw [if_pos (.inl h)]
  dsimp only
  rw [if_neg htuple, if_pos h, List.append_nil]

theorem makeClass_tuple {struct : Collected} (h : struct.type = "tuple".toList) :
    makeClass struct = classText struct.name struct.var
      (makeTupleCode struct.name (struct.var.map Var.name)) := by
  have hstruct : ¬ struct.type = "struct".toList := fun h' => absurd (h.symm.trans h') (by decide)
  unfold makeClass classText
  rw [if_pos (.inr h)]
  dsimp only
  rw [if_pos h, if_neg hstruct, List.append_nil]

theorem makeClass_enum (name t : List Char) (var : List Var) :
    makeClass ⟨name, "enum : ".toList ++ t, var⟩ = makeEnum name ("enum : ".toList ++ t) var := by
  have hstruct : ¬ ("enum : ".toList ++ t = "struct".toList ∨
      "enum : ".toList ++ t = "tuple".toList) := by
    rintro (h | h) <;> cases (List.cons.inj h).1
  have henum : (matchStart (.text "enum".toList) ("enum : ".toList ++ t)).isSome = true :=
    rfl
  unfold makeClass
  rw [if_neg hstruct, if_pos henum]

end BambooShoot.Pbsic
