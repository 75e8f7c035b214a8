import Mathlib.Data.Nat.Notation
import Mathlib.Data.List.Basic

/-!
# `multiplex_writer`

Model of `multiplex_output_iterator` (`iter-util.hh`, lines 119–177), which is to
write its input unchanged into all of its outputs (`utils.md`,
"multiplex_writer"). `write_to_iter_tuple` forwards one argument to every output:
an rvalue is offered to each of them to be moved from.

Result: `delivers_iff`, the histories of writes that every output receives.
-/

namespace BambooShoot.Pbsu

variable {α : Type}

/-! ## Model -/

/-- The value category of an argument. -/
inductive ValueCategory where
  | lvalue
  | rvalue

/-- An output iterator: what an assignment leaves of an rvalue (all of it, if the
    output copies), the values that were assigned, and the increments. -/
structure OutputIterator (α : Type) where
  leaves : α → α
  received : List α := []
  position : ℕ := 0

/-- `*it = std::forward<T>(v)`, with what is left of `v`. -/
def OutputIterator.assign (it : OutputIterator α) (category : ValueCategory) (v : α) :
    OutputIterator α × α :=
  ({ it with received := it.received ++ [v] },
    match category with
    | .lvalue => v
    | .rvalue => it.leaves v)

/-- `write_to_iter_tuple` (lines 126–131): the outputs in order, all with the
    same object. -/
def writeToIterTuple (category : ValueCategory) : List (OutputIterator α) → α →
    List (OutputIterator α)
  | [], _ => []
  | it :: iters, v =>
    let (it, v) := it.assign category v
    it :: writeToIterTuple category iters v

/-- `increment_iter_tuple` (lines 119–124). -/
def incrementIterTuple (iters : List (OutputIterator α)) : List (OutputIterator α) :=
  iters.map fun it => { it with position := it.position + 1 }

/-- What is done with a `multiplex_output_iterator`. -/
inductive WriterCall (α : Type) where
  | write (category : ValueCategory) (v : α)
  | increment

/-- `*it = v` (lines 145–151) or `++it` (lines 153–158). -/
def multiplexCall (iters : List (OutputIterator α)) : WriterCall α → List (OutputIterator α)
  | .write category v => writeToIterTuple category iters v
  | .increment => incrementIterTuple iters

/-- The iterator after a history of calls. -/
def multiplexRun (iters : List (OutputIterator α)) (history : List (WriterCall α)) :
    List (OutputIterator α) :=
  history.foldl multiplexCall iters

/-- The values written. -/
def written : List (WriterCall α) → List α
  | [] => []
  | .write _ v :: history => v :: written history
  | .increment :: history => written history

/-! ## What the outputs receive -/

/-- Every output has received `vs`. -/
def Delivered (iters : List (OutputIterator α)) (vs : List α) : Prop :=
  ∀ it ∈ iters, it.received = vs

/-- Every output but the last leaves `v` as it is. -/
def Survives (iters : List (OutputIterator α)) (v : α) : Prop :=
  ∀ leaves ∈ (iters.map OutputIterator.leaves).dropLast, leaves v = v

/-- Every rvalue that is written survives all outputs but the last. -/
def Harmless (iters : List (OutputIterator α)) (history : List (WriterCall α)) : Prop :=
  ∀ v, WriterCall.write .rvalue v ∈ history → Survives iters v

theorem delivered_cons {it : OutputIterator α} {iters : List (OutputIterator α)} {vs : List α} :
    Delivered (it :: iters) vs ↔ it.received = vs ∧ Delivered iters vs :=
  List.forall_mem_cons

theorem survives_cons_cons {it it' : OutputIterator α} {iters : List (OutputIterator α)} {v : α} :
    Survives (it :: it' :: iters) v ↔ it.leaves v = v ∧ Survives (it' :: iters) v :=
  List.forall_mem_cons

/-- No call changes what an output leaves of an rvalue. -/
theorem leaves_writeToIterTuple (category : ValueCategory) (iters : List (OutputIterator α)) (v : α) :
    (writeToIterTuple category iters v).map OutputIterator.leaves =
      iters.map OutputIterator.leaves := by
  induction iters generalizing v with
  | nil => rfl
  | cons it iters ih => exact congrArg (it.leaves :: ·) (ih _)

theorem leaves_incrementIterTuple (iters : List (OutputIterator α)) :
    (incrementIterTuple iters).map OutputIterator.leaves = iters.map OutputIterator.leaves := by
  unfold incrementIterTuple
  rw [List.map_map]
  rfl

/-- An lvalue reaches every output. -/
theorem delivered_write_lvalue (iters : List (OutputIterator α)) (vs : List α) (v : α) :
    Delivered (writeToIterTuple .lvalue iters v) (vs ++ [v]) ↔ Delivered iters vs := by
  induction iters with
  | nil => exact iff_of_true (by rintro it ⟨⟩) (by rintro it ⟨⟩)
  | cons it iters ih =>
    show Delivered ({ it with received := it.received ++ [v] } ::
      writeToIterTuple .lvalue iters v) (vs ++ [v]) ↔ _
    rw [delivered_cons, delivered_cons, ih]
    exact and_congr_left' (List.append_left_inj [v])

/-- An rvalue reaches every output exactly if it survives all but the last. -/
theorem delivered_write_rvalue (iters : List (OutputIterator α)) (vs : List α) (v : α) :
    Delivered (writeToIterTuple .rvalue iters v) (vs ++ [v]) ↔
      Delivered iters vs ∧ Survives iters v := by
  induction iters with
  | nil => exact iff_of_true (by rintro it ⟨⟩) ⟨by rintro it ⟨⟩, by rintro leaves ⟨⟩⟩
  | cons it iters ih =>
    show Delivered ({ it with received := it.received ++ [v] } ::
      writeToIterTuple .rvalue iters (it.leaves v)) (vs ++ [v]) ↔ _
    rw [delivered_cons, delivered_cons]
    have hfirst : it.received ++ [v] = vs ++ [v] ↔ it.received = vs := List.append_left_inj [v]
    cases iters with
    | nil =>
      have hlast : Survives [it] v := by rintro leaves ⟨⟩
      have hnone (us : List α) : Delivered ([] : List (OutputIterator α)) us := by rintro it ⟨⟩
      exact ⟨fun h => ⟨⟨hfirst.1 h.1, hnone _⟩, hlast⟩, fun h => ⟨hfirst.2 h.1.1, hnone _⟩⟩
    | cons it' iters =>
      rw [survives_cons_cons]
      constructor
      · rintro ⟨hreceived, hrest⟩
        -- the second output shows what the first has left
        have hleft : it.leaves v = v := by
          have hsecond : it'.received ++ [it.leaves v] = vs ++ [v] := (delivered_cons.1 hrest).1
          exact List.singleton_injective (List.append_inj_right' hsecond rfl)
        rw [hleft] at hrest
        obtain ⟨hvs, hsurvives⟩ := ih.1 hrest
        exact ⟨⟨hfirst.1 hreceived, hvs⟩, hleft, hsurvives⟩
      · rintro ⟨⟨hreceived, hvs⟩, hleft, hsurvives⟩
        refine ⟨hfirst.2 hreceived, ?_⟩
        rw [hleft]
        exact ih.2 ⟨hvs, hsurvives⟩

theorem delivered_increment (iters : List (OutputIterator α)) (vs : List α) :
    Delivered (incrementIterTuple iters) vs ↔ Delivered iters vs :=
  List.forall_mem_map

/-! ## Histories -/

theorem harmless_congr {iters iters' : List (OutputIterator α)}
    (h : iters'.map OutputIterator.leaves = iters.map OutputIterator.leaves)
    (history : List (WriterCall α)) : Harmless iters' history ↔ Harmless iters history := by
  unfold Harmless Survives
  rw [h]

theorem harmless_cons_rvalue {iters : List (OutputIterator α)} {v : α}
    {history : List (WriterCall α)} :
    Harmless iters (.write .rvalue v :: history) ↔ Survives iters v ∧ Harmless iters history := by
  constructor
  · intro h
    exact ⟨h v List.mem_cons_self, fun u hu => h u (List.mem_cons_of_mem _ hu)⟩
  · rintro ⟨hv, hrest⟩ u hu
    cases hu with
    | head => exact hv
    | tail _ hmem => exact hrest u hmem

theorem harmless_cons {iters : List (OutputIterator α)} {call : WriterCall α}
    {history : List (WriterCall α)} (hcall : ∀ v, call ≠ .write .rvalue v) :
    Harmless iters (call :: history) ↔ Harmless iters history := by
  constructor
  · exact fun h u hu => h u (List.mem_cons_of_mem _ hu)
  · intro h u hu
    cases hu with
    | head => exact absurd rfl (hcall u)
    | tail _ hmem => exact h u hmem

theorem delivered_run (iters : List (OutputIterator α)) (history : List (WriterCall α))
    (vs : List α) :
    Delivered (multiplexRun iters history) (vs ++ written history) ↔
      Delivered iters vs ∧ Harmless iters history := by
  induction history generalizing iters vs with
  | nil =>
    have hharmless : Harmless iters [] := by rintro v ⟨⟩
    show Delivered iters (vs ++ []) ↔ _
    rw [List.append_nil, and_iff_left hharmless]
  | cons call history ih =>
    cases call with
    | increment =>
      show Delivered (multiplexRun (incrementIterTuple iters) history) (vs ++ written history) ↔ _
      rw [ih, delivered_increment, harmless_congr (leaves_incrementIterTuple iters),
        harmless_cons (by rintro v ⟨⟩)]
    | write category v =>
      show Delivered (multiplexRun (writeToIterTuple category iters v) history)
        (vs ++ ([v] ++ written history)) ↔ _
      rw [← List.append_assoc, ih, harmless_congr (leaves_writeToIterTuple category iters v)]
      cases category with
      | lvalue => rw [delivered_write_lvalue, harmless_cons (by rintro u ⟨⟩)]
      | rvalue => rw [delivered_write_rvalue, harmless_cons_rvalue, and_assoc]

/-- Outputs with nothing written yet. -/
def multiplexWriter (outputs : List (α → α)) : List (OutputIterator α) :=
  outputs.map fun leaves => { leaves := leaves }

/-- Every output receives the values written exactly if every rvalue among them
    survives all outputs but the last. -/
theorem delivers_iff (outputs : List (α → α)) (history : List (WriterCall α)) :
    Delivered (multiplexRun (multiplexWriter outputs) history) (written history) ↔
      ∀ v, WriterCall.write .rvalue v ∈ history → ∀ leaves ∈ outputs.dropLast, leaves v = v := by
  have hstart : Delivered (multiplexWriter outputs) [] := List.forall_mem_map.2 fun _ _ => rfl
  have hleaves : (multiplexWriter outputs).map OutputIterator.leaves = outputs := by
    unfold multiplexWriter
    rw [List.map_map]
    exact List.map_id _
  have hrun := delivered_run (multiplexWriter outputs) history []
  rw [List.nil_append, and_iff_right hstart] at hrun
  rw [hrun]
  unfold Harmless Survives
  rw [hleaves]

/-- A list moved into the first of two outputs: the second receives an empty one. -/
theorem moved_not_delivered :
    ¬ Delivered (multiplexRun (multiplexWriter [fun _ : List ℕ => [], fun _ : List ℕ => []])
        [.write .rvalue [1, 2], .increment])
      (written [.write .rvalue [1, 2], .increment]) := by
  intro h
  have hsecond := h ⟨fun _ => [], [[]], 1⟩ (List.mem_cons_of_mem _ List.mem_cons_self)
  exact absurd hsecond (by decide)

end BambooShoot.Pbsu
