import BambooShoot.Pbsic.Layout
import BambooShoot.Pbsic.Generate
import Mathlib.Data.List.Forall2

/-!
# The interface compiler

From an interface file to the generated header: every declaration should become a class
with exactly its members or enumerators, in order, and with their tags and values.

Result: `declares_iff`, the files of which nothing is lost.
-/

namespace BambooShoot.Pbsic

open BambooShoot.Lib

/-! ## What is declared -/

/-- The enumerators in the body of an enum class. -/
def enumeratorsOf (body : List Char) : List (List Char) :=
  ((body.splitOn ',').map (List.dropWhile isSpace)).filter (!·.isEmpty)

/-- All enumerators of an enum, with their values. -/
def enumeratorTexts (body : List (Line Enumerators)) : List (List Char) :=
  (items body).flatMap fun l => l.list.map Enumerator.text

/-- The macro that tags the members of a struct. -/
def tagsText (name : List Char) (members : List TaggedMember) : List Char :=
  "    PBSS_TAGGED_STRUCT(".toList ++ ", ".toList.intercalate (members.map fun m =>
    tagMember name m.tag.digits m.name.text) ++ ");\n".toList

/-- The macro that lists the members of a tuple. -/
def tupleText (name : List Char) (names : List (List Char)) : List Char :=
  "    PBSS_TUPLE_MEMBERS(".toList ++ ", ".toList.intercalate (names.map fun n =>
    "PBSS_TUPLE_MEMBER(&".toList ++ name ++ "::".toList ++ n ++ ")".toList) ++ ");\n".toList

/-- The class declares what the declaration does: its members, each with its type, in
    order, and nothing else; the tags of a struct; all enumerators of an enum. -/
def Declaration.Declares : Declaration → List Char → Prop
  | .struct name body _, text =>
    text = classText name.text ((items body).map TaggedMember.var) (tagsText name.text (items body))
  | .tuple name body _, text =>
    let names := (items body).map fun m => m.name.text
    text = classText name.text ((items body).map Member.var)
      (makeTupleOperatorLessThan name.text names ++ tupleText name.text names)
  | .enum name type body _, text =>
    ∃ enumerators, text = "enum class ".toList ++ name.text ++ " : ".toList ++
      suffixInts type.text ++ " \x7b\n    ".toList ++ enumerators ++ "\n\x7d;\n".toList ∧
      enumeratorsOf enumerators = enumeratorTexts body

/-- An enum of which the line that is printed has all enumerators. Comments and blank lines
    apart, a first line of enumerators is the only one, and has more than one of them; or
    there is one enumerator in all, and the first `extern` line reads like it. -/
def EnumKept : List (Line Enumerators) → Prop
  | [] => True
  | .item _ l :: ls => items ls = [] ∧
    (l.others ≠ [] ∨ ∃ n, (externals ls).head? = some n ∧ l.first.text = n.text)
  | .external _ n :: ls => ∃ l, items ls = [l] ∧ l.others = [] ∧ l.first.text = n.text
  | .comment _ _ :: ls | .blank _ :: ls => EnumKept ls

/-- A declaration of which nothing is lost, and to which nothing is added. -/
def Declaration.Kept : Declaration → Prop
  | .struct _ body _ => externals body = []
  | .tuple _ body _ => externals body = [] ∧ ∀ before last, items body = before ++ [last] →
      ∀ m ∈ before, m.name.text ≠ last.name.text
  | .enum _ _ body _ => EnumKept body

/-! ## Members -/

/-- Lines that are indented, before the first line that is empty. -/
theorem length_eq_of_flatten {a b : List (List Char)} {s t : List Char}
    (ha : ∀ l ∈ a, ∃ w, l = ' ' :: (w ++ "\n".toList) ∧ '\n' ∉ w)
    (hb : ∀ l ∈ b, ∃ w, l = ' ' :: (w ++ "\n".toList) ∧ '\n' ∉ w)
    (h : a.flatten ++ '\n' :: s = b.flatten ++ '\n' :: t) : a.length = b.length := by
  induction a generalizing b with
  | nil =>
    cases b with
    | nil => rfl
    | cons l b =>
      obtain ⟨w, rfl, -⟩ := hb l List.mem_cons_self
      cases (List.cons.inj h).1
  | cons l a ih =>
    obtain ⟨w, rfl, hw⟩ := ha l List.mem_cons_self
    cases b with
    | nil => cases (List.cons.inj h).1
    | cons l' b =>
      obtain ⟨w', rfl, hw'⟩ := hb l' List.mem_cons_self
      have hclass {w : List Char} (hw : '\n' ∉ w) : ∀ c ∈ w, (c != '\n') = true := fun c hc =>
        bne_iff_ne.2 (ne_of_mem_of_not_mem hc hw)
      have hlines : w ++ '\n' :: (a.flatten ++ '\n' :: s) =
          w' ++ '\n' :: (b.flatten ++ '\n' :: t) := by
        simpa using h
      obtain ⟨-, -, hrest⟩ := Regex.append_cons_inj (hclass hw) (hclass hw') rfl rfl hlines
      have hlength := ih (fun l hl => ha l (List.mem_cons_of_mem _ hl))
        (fun l hl => hb l (List.mem_cons_of_mem _ hl)) hrest
      rw [List.length_cons, List.length_cons, hlength]

/-- A member with a type and a name of one line. -/
def Var.OneLine (v : Var) : Prop := '\n' ∉ v.type.getD [] ∧ '\n' ∉ v.name

theorem memberLine_oneLine {v : Var} (hv : v.OneLine) :
    ∃ w, memberLine v = ' ' :: (w ++ "\n".toList) ∧ '\n' ∉ w := by
  refine ⟨"   ".toList ++ makeType (v.type.getD []) ++ " ".toList ++ v.name ++ ";".toList, ?_, ?_⟩
  · unfold memberLine
    simp
  · have htype := newline_not_mem_makeType hv.1
    simpa using ⟨htype, hv.2⟩

/-- The number of members can be read off a class. -/
theorem length_eq_of_classText {name code code' : List Char} {var var' : List Var}
    (hvar : ∀ v ∈ var, v.OneLine) (hvar' : ∀ v ∈ var', v.OneLine)
    (h : classText name var code = classText name var' code') : var.length = var'.length := by
  unfold classText at h
  simp only [List.append_assoc] at h
  have hmembers := List.append_cancel_left (List.append_cancel_left (List.append_cancel_left h))
  have hlines {var : List Var} (hvar : ∀ v ∈ var, v.OneLine) : ∀ l ∈ var.map memberLine,
      ∃ w, l = ' ' :: (w ++ "\n".toList) ∧ '\n' ∉ w := by
    intro l hl
    obtain ⟨v, hv, rfl⟩ := List.mem_map.1 hl
    exact memberLine_oneLine (hvar v hv)
  rw [List.flatMap_def, List.flatMap_def] at hmembers
  have hlength := length_eq_of_flatten (hlines hvar) (hlines hvar') hmembers
  rwa [List.length_map, List.length_map] at hlength

/-- Without `extern` lines, the items are collected, and nothing else. -/
theorem collectBody_of_externals {α : Type} (g : α → Var) (body : List (Line α))
    (h : externals body = []) : collectBody (fun _ a => [g a]) body = (items body).map g := by
  induction body with
  | nil => rfl
  | cons l ls ih =>
    cases l with
    | item indent a => exact congrArg (g a :: ·) (ih h)
    | comment indent text => exact ih h
    | blank indent => exact ih h
    | external indent n => cases h

theorem length_collectBody {α : Type} (g : α → Var) (body : List (Line α)) :
    (collectBody (fun _ a => [g a]) body).length =
      (items body).length + (externals body).length := by
  induction body with
  | nil => rfl
  | cons l ls ih =>
    cases l with
    | item indent a =>
      have hlength : (g a :: collectBody (fun _ a => [g a]) ls).length =
          ((items ls).length + 1) + (externals ls).length := by
        rw [List.length_cons, ih]
        omega
      exact hlength
    | comment indent text => exact ih
    | blank indent => exact ih
    | external indent n => exact congrArg (· + 1) ih

theorem mem_collectBody {α : Type} {g : α → Var} {body : List (Line α)} {v : Var}
    (hv : v ∈ collectBody (fun _ a => [g a]) body) :
    (∃ a ∈ items body, v = g a) ∨ ∃ n : Name, v = ⟨n.text, none, some "extern".toList⟩ := by
  induction body with
  | nil => cases hv
  | cons l ls ih =>
    cases l with
    | item indent a =>
      have hcases : v ∈ g a :: collectBody (fun _ a => [g a]) ls := hv
      rcases List.mem_cons.1 hcases with rfl | hv
      · exact .inl ⟨a, List.mem_cons_self, rfl⟩
      · exact (ih hv).imp_left fun ⟨b, hb, hvb⟩ => ⟨b, List.mem_cons_of_mem _ hb, hvb⟩
    | comment indent text => exact ih hv
    | blank indent => exact ih hv
    | external indent n =>
      have hcases : v ∈ ⟨n.text, none, some "extern".toList⟩ ::
          collectBody (fun _ a => [g a]) ls := hv
      rcases List.mem_cons.1 hcases with rfl | hv
      · exact .inr ⟨n, rfl⟩
      · exact ih hv

/-- If the class has the members of the declaration, there is no `extern` line in it. -/
theorem externals_eq_nil {α : Type} {g : α → Var} {body : List (Line α)}
    {name code code' : List Char} (hg : ∀ a, (g a).OneLine)
    (h : classText name (collectBody (fun _ a => [g a]) body) code =
      classText name ((items body).map g) code') : externals body = [] := by
  have hcollected : ∀ v ∈ collectBody (fun _ a => [g a]) body, v.OneLine := by
    intro v hv
    rcases mem_collectBody hv with ⟨a, -, rfl⟩ | ⟨n, rfl⟩
    · exact hg a
    · exact ⟨(by decide : '\n' ∉ "extern".toList), n.not_mem rfl⟩
  have hitems : ∀ v ∈ (items body).map g, v.OneLine := by
    intro v hv
    obtain ⟨a, -, rfl⟩ := List.mem_map.1 hv
    exact hg a
  have hlength := length_eq_of_classText hcollected hitems h
  rw [length_collectBody, List.length_map] at hlength
  exact List.eq_nil_of_length_eq_zero (by omega)

theorem newline_not_mem_render (t : BsiType) : '\n' ∉ t.render := fun hmem =>
  (isTypeText_render t).clean '\n' hmem (by decide)

theorem filterMap_tag (members : List TaggedMember) :
    (members.map TaggedMember.var).filterMap Var.tag = members.map fun m => m.tag.digits := by
  rw [List.filterMap_map, ← List.filterMap_eq_map]
  rfl

theorem classText_struct_iff (name : List Char) (body : List (Line TaggedMember)) :
    makeClass ⟨name, "struct".toList, collectBody (fun _ m => [m.var]) body⟩ =
        classText name ((items body).map TaggedMember.var) (tagsText name (items body)) ↔
      externals body = [] := by
  rw [makeClass_struct rfl]
  constructor
  · exact externals_eq_nil fun m => ⟨newline_not_mem_render m.type, m.name.not_mem rfl⟩
  · intro h
    have hnames : ((items body).map TaggedMember.var).map Var.name =
        (items body).map fun m => m.name.text := List.map_map ..
    rw [collectBody_of_externals _ body h, filterMap_tag, hnames, makeStructMemberTag_eq]
    rfl

theorem tupleText_eq_iff (name : List Char) (members : List Member) :
    makeTupleMemberDeclaration name (members.map fun m => m.name.text) =
        tupleText name (members.map fun m => m.name.text) ↔
      ∀ before last, members = before ++ [last] → ∀ m ∈ before, m.name.text ≠ last.name.text := by
  rw [makeTupleMemberDeclaration_eq]
  unfold tupleText
  rw [List.append_left_inj, List.append_right_inj]
  rcases List.eq_nil_or_concat' members with rfl | ⟨before, last, rfl⟩
  · refine iff_of_true rfl fun before last h => ?_
    cases (List.append_eq_nil_iff.1 h.symm).2
  · rw [List.map_append, List.map_singleton, joinNames_concat_eq_iff (by decide)]
    constructor
    · intro h before' last' hsplit m hm heq
      obtain ⟨rfl, hlast⟩ := List.append_inj' hsplit rfl
      obtain ⟨rfl, -⟩ := List.cons.inj hlast
      exact h (heq ▸ List.mem_map_of_mem hm)
    · intro h hmem
      obtain ⟨m, hm, hname⟩ := List.mem_map.1 hmem
      exact h before last rfl m hm hname

theorem classText_tuple_iff (name : List Char) (body : List (Line Member)) :
    makeClass ⟨name, "tuple".toList, collectBody (fun _ m => [m.var]) body⟩ =
        classText name ((items body).map Member.var)
          (makeTupleOperatorLessThan name ((items body).map fun m => m.name.text) ++
            tupleText name ((items body).map fun m => m.name.text)) ↔
      externals body = [] ∧ ∀ before last, items body = before ++ [last] →
        ∀ m ∈ before, m.name.text ≠ last.name.text := by
  rw [makeClass_tuple rfl]
  have hcode (h : externals body = []) :
      classText name (collectBody (fun _ m => [m.var]) body)
        (makeTupleCode name ((collectBody (fun _ m => [m.var]) body).map Var.name)) =
      classText name ((items body).map Member.var)
        (makeTupleOperatorLessThan name ((items body).map fun m => m.name.text) ++
          tupleText name ((items body).map fun m => m.name.text)) ↔
      ∀ before last, items body = before ++ [last] →
        ∀ m ∈ before, m.name.text ≠ last.name.text := by
    have hnames : ((items body).map Member.var).map Var.name =
        (items body).map fun m => m.name.text := List.map_map ..
    rw [← tupleText_eq_iff name, collectBody_of_externals _ body h, hnames]
    unfold classText makeTupleCode
    rw [List.append_left_inj, List.append_right_inj, List.append_right_inj]
  constructor
  · intro h
    have hexternals := externals_eq_nil (g := Member.var)
      (fun m => ⟨newline_not_mem_render m.type, m.name.not_mem rfl⟩) h
    exact ⟨hexternals, (hcode hexternals).1 h⟩
  · exact fun ⟨hexternals, hlast⟩ => (hcode hexternals).2 hlast

/-! ## Enumerators -/

theorem enumeratorsOf_nil : enumeratorsOf [] = [] := rfl

theorem enumeratorsOf_append (s t : List Char) :
    enumeratorsOf (s ++ ',' :: t) = enumeratorsOf s ++ enumeratorsOf t := by
  unfold enumeratorsOf
  rw [List.splitOn_append_cons_self, List.map_append, List.filter_append]

/-- A name, perhaps with a value, is one enumerator. -/
theorem enumeratorsOf_name {u s : List Char} (n : Name) (hu : ∀ c ∈ u, isSpace c = true)
    (hs : ',' ∉ s) : enumeratorsOf (u ++ (n.text ++ s)) = [n.text ++ s] := by
  have hcomma : ',' ∉ u ++ (n.text ++ s) :=
    List.not_mem_append (not_mem_of_isSpace hu rfl) (List.not_mem_append (n.not_mem rfl) hs)
  obtain ⟨c, cs, hn, -⟩ := n.start
  have hc := isSpace_of_isWord (n.word c (hn ▸ List.mem_cons_self))
  have hdrop : (u ++ (n.text ++ s)).dropWhile isSpace = n.text ++ s := by
    rw [List.dropWhile_append_of_pos hu, hn, List.cons_append,
      List.dropWhile_cons_of_neg (by simp [hc])]
  unfold enumeratorsOf
  rw [List.splitOn_eq_singleton hcomma, List.map_singleton, hdrop, hn]
  rfl

theorem Enumerator.comma_not_mem (e : Enumerator) : ',' ∉ e.text := fun hmem => by
  have hlisted : isWord ',' = false ∧ ',' ∉ "-=".toList := by decide
  rcases e.text_chars ',' hmem with hword | hword
  · rw [hlisted.1] at hword
    cases hword
  · exact hlisted.2 hword

theorem enumeratorsOf_text {u : List Char} (e : Enumerator) (hu : ∀ c ∈ u, isSpace c = true) :
    enumeratorsOf (u ++ e.text) = [e.text] :=
  enumeratorsOf_name e.name hu fun hmem => e.comma_not_mem (List.mem_append_right _ hmem)

theorem enumeratorsOf_others (s : List Char) (es : List Enumerator) :
    enumeratorsOf (s ++ es.flatMap fun e => ", ".toList ++ e.text) =
      enumeratorsOf s ++ es.map Enumerator.text := by
  induction es generalizing s with
  | nil => rw [List.flatMap_nil, List.append_nil, List.map_nil, List.append_nil]
  | cons e es ih =>
    have hsplit : s ++ (e :: es).flatMap (fun e => ", ".toList ++ e.text) =
        s ++ ',' :: ((" ".toList ++ e.text) ++ es.flatMap fun e => ", ".toList ++ e.text) := by
      rw [List.flatMap_cons, List.append_assoc, List.append_assoc]
      rfl
    rw [hsplit, enumeratorsOf_append, ih, enumeratorsOf_text e isBlank_one.space]
    rfl

/-- A line of enumerators says which they are. -/
theorem enumeratorsOf_line (more : Bool) (l : Enumerators) :
    enumeratorsOf (l.text more) = l.list.map Enumerator.text := by
  have hfirst := enumeratorsOf_text (u := []) l.first nofun
  have hline : enumeratorsOf (l.first.text ++ l.others.flatMap fun e => ", ".toList ++ e.text) =
      l.list.map Enumerator.text := by
    rw [enumeratorsOf_others, ← List.nil_append l.first.text, hfirst]
    rfl
  unfold Enumerators.text
  cases more with
  | false => rwa [if_neg Bool.false_ne_true, List.append_nil]
  | true =>
    have hcomma := enumeratorsOf_append (l.first.text ++
      l.others.flatMap fun e => ", ".toList ++ e.text) []
    rw [hline, enumeratorsOf_nil, List.append_nil] at hcomma
    exact hcomma

/-- What `make_enum` prints of an enum. -/
def firstCollected (body : List (Line Enumerators)) : List Char :=
  ((collectBody Enumerators.vars body).head?.map Var.name).getD []

theorem enumeratorTexts_eq_nil_iff (body : List (Line Enumerators)) :
    enumeratorTexts body = [] ↔ items body = [] := by
  unfold enumeratorTexts
  rw [List.flatMap_eq_nil_iff]
  constructor
  · intro h
    exact List.eq_nil_iff_forall_not_mem.2 fun l hl => List.cons_ne_nil _ _ (h l hl)
  · intro h l hl
    rw [h] at hl
    cases hl

theorem enumeratorsOf_external (n : Name) : enumeratorsOf n.text = [n.text] := by
  have hname := enumeratorsOf_name (u := []) n nofun (List.not_mem_nil (a := ','))
  rwa [List.append_nil, List.nil_append] at hname

/-- Without enumerators, the first `extern` line is printed. -/
theorem enumeratorsOf_externals (body : List (Line Enumerators)) (h : items body = []) :
    enumeratorsOf (firstCollected body) = ((externals body).head?.map Name.text).toList := by
  induction body with
  | nil => rfl
  | cons l ls ih =>
    cases l with
    | item indent l => cases h
    | comment indent text => exact ih h
    | blank indent => exact ih h
    | external indent n => exact enumeratorsOf_external n

theorem firstCollected_item (indent : ℕ) (l : Enumerators) (ls : List (Line Enumerators)) :
    enumeratorsOf (firstCollected (.item indent l :: ls)) =
        l.list.map Enumerator.text ++ enumeratorTexts ls ↔
      items ls = [] ∧
        (l.others ≠ [] ∨ ∃ n, (externals ls).head? = some n ∧ l.first.text = n.text) := by
  have hcollect : collectBody Enumerators.vars (.item indent l :: ls) =
      l.vars (!(items ls).isEmpty) ++ collectBody Enumerators.vars ls := rfl
  unfold firstCollected
  rw [hcollect]
  unfold Enumerators.vars
  by_cases hmore : items ls = []
  · rw [(enumeratorTexts_eq_nil_iff ls).2 hmore, List.append_nil, and_iff_right hmore, hmore]
    cases hothers : l.others with
    | nil =>
      have hprinted := enumeratorsOf_externals ls hmore
      unfold firstCollected at hprinted
      have hlist : l.list.map Enumerator.text = [l.first.text] := by
        rw [Enumerators.list, hothers]
        rfl
      show enumeratorsOf (((collectBody Enumerators.vars ls).head?.map Var.name).getD []) = _ ↔ _
      rw [hprinted, hlist, Option.toList_eq_singleton_iff, Option.map_eq_some_iff,
        or_iff_right (by simp)]
      exact exists_congr fun n => and_congr_right' eq_comm
    | cons e es =>
      refine iff_of_true ?_ (.inl (List.cons_ne_nil e es))
      exact enumeratorsOf_line false l
  · -- the line ends with a comma, and is all that is printed
    have hpushed : (!(items ls).isEmpty || !l.others.isEmpty) = true := by
      rw [List.isEmpty_eq_false_iff.2 hmore]
      rfl
    rw [if_pos hpushed]
    refine iff_of_false (fun h => ?_) fun h => hmore h.1
    have hline : enumeratorsOf (l.text (!(items ls).isEmpty)) = _ := h
    rw [enumeratorsOf_line, List.self_eq_append_right] at hline
    exact hmore ((enumeratorTexts_eq_nil_iff ls).1 hline)

theorem firstCollected_external (n : Name) (body : List (Line Enumerators)) :
    [n.text] = enumeratorTexts body ↔
      ∃ l, items body = [l] ∧ l.others = [] ∧ l.first.text = n.text := by
  cases hitems : items body with
  | nil =>
    rw [(enumeratorTexts_eq_nil_iff body).2 hitems]
    refine iff_of_false (List.cons_ne_nil _ _) ?_
    rintro ⟨l, hl, -⟩
    cases hl
  | cons l ls =>
    have htexts : enumeratorTexts body = l.first.text :: (l.others.map Enumerator.text ++
        ls.flatMap fun l => l.list.map Enumerator.text) := by
      unfold enumeratorTexts
      rw [hitems]
      rfl
    rw [htexts]
    constructor
    · intro h
      obtain ⟨hname, hrest⟩ := List.cons.inj h
      obtain ⟨hothers, hlines⟩ := List.append_eq_nil_iff.1 hrest.symm
      refine ⟨l, ?_, List.map_eq_nil_iff.1 hothers, hname.symm⟩
      cases ls with
      | nil => rfl
      | cons l' ls => cases hlines
    · rintro ⟨l', hl', hothers, hname⟩
      obtain ⟨rfl, rfl⟩ := List.cons.inj hl'
      rw [hothers, hname]
      rfl

/-- Exactly in the cases listed, the enumerators that are printed are all. -/
theorem firstCollected_iff (body : List (Line Enumerators)) :
    enumeratorsOf (firstCollected body) = enumeratorTexts body ↔ EnumKept body := by
  induction body with
  | nil => exact iff_of_true rfl trivial
  | cons l ls ih =>
    cases l with
    | item indent l => exact firstCollected_item indent l ls
    | comment indent text => exact ih
    | blank indent => exact ih
    | external indent n =>
      show enumeratorsOf n.text = enumeratorTexts ls ↔ _
      rw [enumeratorsOf_external]
      exact firstCollected_external n ls

theorem makeClass_enum_iff (name type : Name) (body : List (Line Enumerators)) (closing : ℕ) :
    (Declaration.enum name type body closing).Declares
        (makeClass (Declaration.enum name type body closing).collected) ↔ EnumKept body := by
  have hclass : makeClass (Declaration.enum name type body closing).collected =
      "enum class ".toList ++ name.text ++ " : ".toList ++ suffixInts type.text ++
        " \x7b\n    ".toList ++ firstCollected body ++ "\n\x7d;\n".toList :=
    (makeClass_enum name.text type.text _).trans (makeEnum_eq name.text type.isWordText _)
  rw [hclass, ← firstCollected_iff]
  constructor
  · rintro ⟨enumerators, htext, henumerators⟩
    rw [List.append_left_inj, List.append_right_inj] at htext
    rw [htext, henumerators]
  · exact fun h => ⟨firstCollected body, rfl, h⟩

theorem declares_makeClass_iff (d : Declaration) :
    d.Declares (makeClass d.collected) ↔ d.Kept := by
  cases d with
  | struct name body closing => exact classText_struct_iff name.text body
  | tuple name body closing => exact classText_tuple_iff name.text body
  | enum name type body closing => exact makeClass_enum_iff name type body closing

theorem classes_fileLines (file : List (Line Declaration)) :
    (generate (fileLines file)).classes =
      (items file).map fun d => makeClass d.collected := by
  unfold generate
  rw [parseInput_fileLines]
  exact List.map_map ..

/-- Of a file, every declaration becomes a class that declares the same, in order, exactly
    if each is written so that nothing of it is lost. -/
theorem declares_iff (file : List (Line Declaration)) :
    List.Forall₂ Declaration.Declares (items file) (generate (fileLines file)).classes ↔
      ∀ d ∈ items file, d.Kept := by
  rw [classes_fileLines, List.forall₂_map_right_iff, List.forall₂_same]
  exact forall₂_congr fun d _ => declares_makeClass_iff d

/-- An enumerator alone is lost, and so is what follows the first line of enumerators; an
    `extern` line in a struct becomes a member. -/
theorem enumerators_lost :
    (generate ["enum E : uint8 \x7b".toList, "  A=1".toList, "\x7d;".toList]).text =
      "\nenum class E : uint8_t \x7b\n    \n\x7d;\n".toList ∧
    (generate
        ["enum E : uint8 \x7b".toList, "  A,".toList, "  B".toList, "\x7d;".toList]).text =
      "\nenum class E : uint8_t \x7b\n    A,\n\x7d;\n".toList ∧
    (parseInput ["struct S \x7b".toList, "  extern T;".toList, "\x7d;".toList]).flatMap (·.var) =
      [⟨"T".toList, none, some "extern".toList⟩] ∧
    ¬ ∀ file : List (Line Declaration),
      List.Forall₂ Declaration.Declares (items file) (generate (fileLines file)).classes := by
  refine ⟨?_, ?_, ?_, fun h => ?_⟩
  · decide
  · decide
  · rfl
  · have hname : ∀ c ∈ "E".toList, isWord c = true := forall_mem_of_all (by decide)
    have htype : ∀ c ∈ "uint8".toList, isWord c = true := forall_mem_of_all (by decide)
    have hvalue : ∀ c ∈ "1".toList, (isWord c || c == '-') = true := forall_mem_of_all (by decide)
    let name : Name := ⟨"E".toList, hname, 'E', [], rfl, rfl⟩
    let type : Name := ⟨"uint8".toList, htype, 'u', "int8".toList, rfl, rfl⟩
    let value : Value := ⟨"1".toList, hvalue, by decide⟩
    let alone : Declaration := .enum name type [.item 2 ⟨⟨name, some value⟩, []⟩] 0
    have hclasses := h [.item 0 alone]
    rw [classes_fileLines] at hclasses
    obtain ⟨hdeclares, -⟩ := List.forall₂_cons.1 hclasses
    obtain ⟨-, hothers | ⟨n, hn, -⟩⟩ := (declares_makeClass_iff alone).1 hdeclares
    · exact hothers rfl
    · cases hn

end BambooShoot.Pbsic
