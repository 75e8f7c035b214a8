import BambooShoot.Pbss.EarlyEof
import BambooShoot.Pbss.Lengths
import BambooShoot.Pbss.Progress

/-!
# Parsing ends and only moves forward

A `char_range_reader` whose calls are written down (`Watched`) shows what a run
of `parse` does with its cursor. In builds with range checks, `parse` ends on
every input, no call moves the cursor back or reads outside of the range, and
every round of the field loop moves on, up to undefined behaviour. With `NDEBUG`
a length of an unknown field that does not fit the signed type becomes a negative
count, and `ignore` goes back.

Result: `movesForward_iff`: `parse` ends, defined, and only moves forward exactly
on the inputs that fit (`Fits`).
-/

namespace BambooShoot.Pbss

open BambooShoot.Lib
open Measured

/-! ## Watched readers -/

/-- A call on a reader: where its cursor was before and is after it, and whether
    the call touched bytes of the range only. -/
structure Call where
  before : ℤ
  after : ℤ
  inside : Bool

/-- The cursor was not moved back and nothing else was read. -/
structure Call.Proper (call : Call) : Prop where
  forward : call.before ≤ call.after
  inside : call.inside = true

/-- A reader and the calls on it so far. -/
structure Watched where
  reader : CharRangeReader
  calls : List Call

namespace Watched

/-- A reader at the start of `bs`, without any calls. -/
def ofBytes (bs : List Byte) : Watched := ⟨CharRangeReader.ofBytes bs, []⟩

/-- Write a call down; what touches a byte outside is undefined behaviour. -/
def watch {α : Type} (p : Run CharRangeReader α) : Run Watched α := fun w =>
  match p w.reader with
  | .ok a r => .ok a ⟨r, w.calls ++ [⟨w.reader.current, r.current, true⟩]⟩
  | .error e r =>
    .error e ⟨r, w.calls ++ [⟨w.reader.current, r.current, decide (e ≠ .undefinedBehaviour)⟩]⟩

theorem reader_watch {α : Type} (p : Run CharRangeReader α) (w : Watched) :
    (finalState (watch p w)).reader = finalState (p w.reader) := by
  unfold watch
  cases p w.reader with
  | ok a r => rfl
  | error e r => rfl

theorem sameResult_watch {α : Type} (p : Run CharRangeReader α) (w : Watched) :
    SameResult (fun w r => w.reader = r) (watch p w) (p w.reader) := by
  unfold watch
  cases p w.reader with
  | ok a r => exact .ok rfl
  | error e r => exact .error

instance : InputStream Watched where
  get := watch CharRangeReader.get
  peek := watch CharRangeReader.peek
  read n := watch (CharRangeReader.read n)
  ignore n := watch (CharRangeReader.ignore n)
  eof w := w.reader.eof

instance : Measured Stop Watched where
  left w := left w.reader
  exhausted := .outOfFuel

theorem forward_watch {α : Type} {p : Run CharRangeReader α} {w : Watched}
    (h : Forward w.reader (p w.reader)) : Forward w (watch p w) := by
  unfold watch
  cases hp : p w.reader with
  | ok a r =>
    rw [hp] at h
    exact h
  | error e r =>
    rw [hp] at h
    exact h

instance : ForwardInputStream Watched where
  exhausted_eq := rfl
  get_lt := by
    intro w w' b h
    simp only [InputStream.get, watch] at h
    cases hget : CharRangeReader.get w.reader with
    | ok x r =>
      rw [hget] at h
      cases h
      exact ForwardInputStream.get_lt (show InputStream.get w.reader = _ from hget)
    | error e r =>
      rw [hget] at h
      cases h
  get_forward w := forward_watch (ForwardInputStream.get_forward w.reader)
  peek_forward w := forward_watch (ForwardInputStream.peek_forward w.reader)
  read_forward n w := forward_watch (ForwardInputStream.read_forward n w.reader)
  ignore_forward n w := forward_watch (ForwardInputStream.ignore_forward n w.reader)

end Watched

/-- The calls of a `char_range_reader` do not throw. -/
theorem callsPass_watched : CallsPass (· = .throws signedRangeError) Watched := by
  have hwatch : ∀ {α : Type} {p : Run CharRangeReader α} {w : Watched},
      (∀ r, p w.reader ≠ .error (.throws signedRangeError) r) →
      Passes (· = .throws signedRangeError) (Watched.watch p) w := by
    rintro α p w h e w' hw' rfl
    unfold Watched.watch at hw'
    cases hp : p w.reader with
    | ok a r =>
      rw [hp] at hw'
      cases hw'
    | error e r =>
      rw [hp] at hw'
      cases hw'
      exact h r hp
  refine ⟨fun w => hwatch fun r => ?_, fun n w => hwatch fun r => ?_, fun n w => hwatch nofun⟩
  · unfold CharRangeReader.get
    dsimp only
    split_ifs <;> exact nofun
  · unfold CharRangeReader.read
    dsimp only
    split_ifs <;> exact nofun

/-! ## The property -/

/-- The loops of a call of `parse` on `bs` all end, and `r` is what the call comes
    to: more rounds change nothing. -/
def Ends {α : Type} (build : Build) (s : Ty α) (bs : List Byte)
    (r : EStateM.Result Stop Watched α) : Prop :=
  (∀ w, r ≠ .error .outOfFuel w) ∧
    ∃ fuel, ∀ fuel', fuel ≤ fuel' → Fuel.parse build fuel' s (Watched.ofBytes bs) = r

/-- Every round of the field loop of any struct, with calls among `calls`, leaves
    the cursor behind where it began. -/
def RoundsMoveOn (build : Build) (calls : List Call) : Prop :=
  ∀ {tags : List Byte} {τ : Type} (ms : Members tags τ) (fuel : ℕ) (obj obj' : τ) (w w' : Watched),
    parseCustomStructRound (Fuel.parseCustomStructMember build fuel ms) obj w = .ok (.inr obj') w' →
    w'.calls <+: calls → w.reader.current < w'.reader.current

/-- A call of `parse` ends in a value or an exception and moves forward on the
    way. Nothing is known of a run that comes to undefined behaviour. -/
def MovesForward {α : Type} (build : Build) (s : Ty α) (bs : List Byte) : Prop :=
  ∃ r, Ends build s bs r ∧ (∀ w, r ≠ .error .undefinedBehaviour w) ∧
    (∀ call ∈ (finalState r).calls, call.Proper) ∧ RoundsMoveOn build (finalState r).calls

mutual

/-- The type `s`, but the elements of arrays that nothing is assigned to hold what
    `unset` says is in memory. -/
def Ty.filled (unset : {α : Type} → Ty α → α) : {α : Type} → Ty α → Ty α
  | _, .arith p => .arith p
  | _, .enum p value enumerator h => .enum p value enumerator h
  | _, .varUint w hw => .varUint w hw
  | _, .stdTuple e ms => .stdTuple e (Tuple.filled unset ms)
  | _, .tupleStruct e ms => .tupleStruct e (Tuple.filled unset ms)
  | _, .contiguous k hk valueInit => .contiguous k hk valueInit
  | _, .sequence m hm reserve s => .sequence m hm reserve (Ty.filled unset s)
  | _, .ordered lt hlt s => .ordered lt hlt (Ty.filled unset s)
  | _, .array n hn init s => .array n hn (some (init.getD (unset s))) (Ty.filled unset s)
  | _, .taggedStruct e init ms => .taggedStruct e init (Members.filled unset ms)

def Tuple.filled (unset : {α : Type} → Ty α → α) : {τ : Type} → Tuple τ → Tuple τ
  | _, .nil => .nil
  | _, .cons s ms => .cons (Ty.filled unset s) (Tuple.filled unset ms)

def Members.filled (unset : {α : Type} → Ty α → α) : {tags : List Byte} → {τ : Type} →
    Members tags τ → Members tags τ
  | _, _, .nil => .nil
  | _, _, .cons id hzero hmem s ms =>
    .cons id hzero hmem (Ty.filled unset s) (Members.filled unset ms)

end

/-! ## Runs with the check -/

namespace Watched

/-- All calls so far were proper, and the cursor is not before the range. -/
def InOrder (w : Watched) : Prop := (∀ call ∈ w.calls, call.Proper) ∧ 0 ≤ w.reader.current

/-- The cursor is not before `c`. -/
def Behind (c : ℤ) (w : Watched) : Prop := c ≤ w.reader.current

/-- Some call has moved the cursor back. -/
def WentBack (w : Watched) : Prop := ∃ call ∈ w.calls, call.after < call.before

/-- A further call that was proper and did not move the cursor back. -/
theorem InOrder.append {w : Watched} (h : InOrder w) {r : CharRangeReader} {call : Call}
    (hproper : call.Proper) (hforward : w.reader.current ≤ r.current) :
    InOrder ⟨r, w.calls ++ [call]⟩ := by
  refine ⟨fun call' hcall => ?_, h.2.trans hforward⟩
  rcases List.mem_append.mp hcall with hold | hnew
  · exact h.1 call' hold
  · rw [List.mem_singleton.mp hnew]
    exact hproper

/-- What one call does to the three of them. -/
theorem inOrder_watch {α : Type} {p : Run CharRangeReader α} {w : Watched} (h : InOrder w)
    (hforward : w.reader.current ≤ (finalState (p w.reader)).current)
    (hinside : ∀ r, p w.reader ≠ .error .undefinedBehaviour r) :
    InOrder (finalState (watch p w)) := by
  unfold watch
  cases hp : p w.reader with
  | ok a r =>
    rw [hp] at hforward
    exact h.append ⟨hforward, rfl⟩ hforward
  | error e r =>
    rw [hp] at hforward
    have hproper : decide (e ≠ .undefinedBehaviour) = true := by
      refine decide_eq_true ?_
      rintro rfl
      exact hinside r hp
    exact h.append ⟨hforward, hproper⟩ hforward

theorem behind_watch {α : Type} {p : Run CharRangeReader α} {w : Watched} {c : ℤ} (h : Behind c w)
    (hforward : w.reader.current ≤ (finalState (p w.reader)).current) :
    Behind c (finalState (watch p w)) := by
  unfold watch
  cases hp : p w.reader with
  | ok a r =>
    rw [hp] at hforward
    exact h.trans hforward
  | error e r =>
    rw [hp] at hforward
    exact h.trans hforward

theorem wentBack_watch {α : Type} {p : Run CharRangeReader α} {w : Watched} (h : WentBack w) :
    WentBack (finalState (watch p w)) := by
  obtain ⟨call, hcall, hback⟩ := h
  unfold watch
  cases p w.reader with
  | ok a r => exact ⟨call, List.mem_append_left _ hcall, hback⟩
  | error e r => exact ⟨call, List.mem_append_left _ hcall, hback⟩

theorem get_current (r : CharRangeReader) :
    (finalState (CharRangeReader.get r)).current = r.current + 1 := by
  unfold CharRangeReader.get
  dsimp only
  split_ifs <;> rfl

theorem read_current (n : ℤ) (r : CharRangeReader) :
    (finalState (CharRangeReader.read n r)).current = r.current + n := by
  unfold CharRangeReader.read
  dsimp only
  split_ifs <;> rfl

section Checked

variable {build : Build} (hbuild : build.rangeChecks = true)

include hbuild

theorem respects_inOrder :
    Respects build build (fun _ _ {_} (p _ : Run Watched _) => Keeps InOrder p) := by
  apply respects_keeps hbuild
  · intro w h
    have hcursor := h.2
    apply inOrder_watch h
    · rw [get_current]
      omega
    · intro r hr
      unfold CharRangeReader.get at hr
      dsimp only at hr
      split_ifs at hr
      · omega
  · intro n w h
    have hcursor := h.2
    apply inOrder_watch h
    · rw [read_current]
      omega
    · intro r hr
      unfold CharRangeReader.read at hr
      dsimp only at hr
      split_ifs at hr
      · omega
  · intro n w h
    apply inOrder_watch h
    · show w.reader.current ≤ w.reader.current + n
      omega
    · exact nofun

theorem respects_behind (c : ℤ) :
    Respects build build (fun _ _ {_} (p _ : Run Watched _) => Keeps (Behind c) p) := by
  apply respects_keeps hbuild
  · intro w h
    apply behind_watch h
    rw [get_current]
    omega
  · intro n w h
    apply behind_watch h
    rw [read_current]
    omega
  · intro n w h
    apply behind_watch h
    show w.reader.current ≤ w.reader.current + n
    omega

/-- A round of the field loop begins with a byte, and nothing behind it goes back. -/
theorem round_moves_on {tags : List Byte} {τ : Type} (ms : Members tags τ) (fuel : ℕ) {obj obj' : τ}
    {w w' : Watched}
    (h : parseCustomStructRound (Fuel.parseCustomStructMember build fuel ms) obj w =
      .ok (.inr obj') w') : w.reader.current < w'.reader.current := by
  obtain ⟨id, w1, hid, hrest⟩ := bind_eq_ok h
  have hnext : w1.reader.current = w.reader.current + 1 := by
    obtain ⟨c, w2, hget, hc⟩ := bind_eq_ok hid
    have hreader := reader_watch CharRangeReader.get w
    rw [show watch CharRangeReader.get w = .ok c w2 from hget] at hreader
    have hcurrent := get_current w.reader
    rw [← hreader] at hcurrent
    cases c with
    | none => cases hc
    | some c =>
      cases hc
      exact hcurrent
  split_ifs at hrest
  · cases hrest
  · obtain ⟨o, w2, hmember, hpure⟩ := bind_eq_ok hrest
    have hbehind := related_member (respects_behind hbuild w1.reader.current) fuel ms id obj w1
      (le_refl _)
    rw [hmember] at hbehind
    cases hpure
    have hle : w1.reader.current ≤ w'.reader.current := hbehind
    omega

end Checked

end Watched

/-! ## Runs without it -/

theorem backward_wentBack : Backward Watched.WentBack := by
  constructor
  · exact fun w h => Watched.wentBack_watch h
  · exact fun n w h => Watched.wentBack_watch h
  · exact fun n w h => Watched.wentBack_watch h
  · intro n hn w
    refine ⟨⟨w.reader.current, w.reader.current + n, true⟩, ?_, by dsimp only; omega⟩
    exact List.mem_append_right _ (List.mem_singleton_self _)

/-- Writing the calls down does not change what `parse` does. -/
theorem respects_watched (build : Build) : Respects build build
    (fun _ _ {_} (p : Run Watched _) (q : Run CharRangeReader _) =>
      ∀ w, SameResult (fun w r => w.reader = r) (p w) (q w.reader)) where
  sameThreshold := rfl
  of_any h := h
  to_any h := h
  pure _ _ := .ok rfl
  bind hp hf w := (hp w).bind fun a w' r' h => h ▸ hf a w'
  undefined _ := .error
  lengthError _ := .error
  outOfFuel _ := .error
  byte := by
    intro w
    refine (Watched.sameResult_watch CharRangeReader.get w).bind fun c w' r' h => ?_
    cases c with
    | none => exact .error
    | some c => exact .ok h
  read := by
    intro n w
    refine (Watched.sameResult_watch (CharRangeReader.read n) w).bind fun got w' r' h => ?_
    subst h
    have heof : InputStream.eof w' = InputStream.eof w'.reader := rfl
    rw [bind_of_ok (eofOf_run w'), bind_of_ok (eofOf_run w'.reader), heof]
    cases InputStream.eof w'.reader with
    | true => exact .error
    | false => exact .ok rfl
  get := Watched.sameResult_watch CharRangeReader.get
  ignore := by
    intro length w
    unfold ignoreLength toSigned
    split_ifs
    · exact .error
    · rw [pure_bind, pure_bind]
      exact Watched.sameResult_watch (CharRangeReader.ignore length.toInt) w

theorem parse_watched (build : Build) (fuel : ℕ) {α : Type} (s : Ty α) (w : Watched) :
    SameResult (fun w r => w.reader = r) (Fuel.parse build fuel s w)
      (Fuel.parse build fuel s w.reader) :=
  related_parse (respects_watched build) fuel s w

section Unchecked

variable {α : Type} (build : Build) (s : Ty α) (bs : List Byte)

/-- The fuel of `parse` is enough for a run with the check. -/
theorem checked_ends : Ends build.checked s bs
    (Fuel.parse build.checked (bs.length + 1) s (Watched.ofBytes bs)) := by
  have hleft : left (Watched.ofBytes bs) = bs.length := by
    show (((([] : List Byte) ++ bs).length : ℤ) - 0).toNat = bs.length
    rw [List.nil_append]
    omega
  have hchecks : build.checked.rangeChecks = true := rfl
  have hsettles := settles_parse hchecks s (Watched.ofBytes bs) (bs.length + 1) (by omega)
  refine ⟨fun w hw => ?_, bs.length + 1, fun fuel' hfuel => hsettles.2 fuel' (by omega)⟩
  have hforward := hsettles.1
  beta_reduce at hforward
  rw [hw] at hforward
  exact hforward ForwardInputStream.exhausted_eq.symm

/-- With the check, calls are proper on every run. -/
theorem checked_inOrder : Watched.InOrder
    (finalState (Fuel.parse build.checked (bs.length + 1) s (Watched.ofBytes bs))) := by
  have hchecks : build.checked.rangeChecks = true := rfl
  exact related_parse (Watched.respects_inOrder hchecks) (bs.length + 1) s (Watched.ofBytes bs)
    ⟨nofun, le_refl _⟩

/-- What a checked run comes to does not depend on its being watched. -/
theorem passes_watched (bad : Stop → Prop) :
    Passes bad (Fuel.parse build.checked (bs.length + 1) s) (Watched.ofBytes bs) ↔
      Passes bad (Fuel.parse build.checked (bs.length + 1) s) (CharRangeReader.ofBytes bs) := by
  have hsame : SameResult _ _ (Fuel.parse _ _ s (CharRangeReader.ofBytes bs)) :=
    parse_watched build.checked (bs.length + 1) s (Watched.ofBytes bs)
  unfold Passes
  generalize Fuel.parse build.checked (bs.length + 1) s (Watched.ofBytes bs) = r at hsame ⊢
  generalize Fuel.parse build.checked (bs.length + 1) s (CharRangeReader.ofBytes bs) = r' at hsame ⊢
  cases hsame with
  | ok h => exact iff_of_true nofun nofun
  | @error e w t =>
    constructor
    · intro h e' t' ht
      cases ht
      exact h e w rfl
    · intro h e' w' hw
      cases hw
      exact h e t rfl

/-! ## What a checked run that is not allowed says -/

/-- A run that comes to undefined behaviour with the check does so without it. -/
theorem not_movesForward_of_undefined {w : Watched}
    (h : Fuel.parse build.checked (bs.length + 1) s (Watched.ofBytes bs) =
      .error .undefinedBehaviour w) : ¬ MovesForward build s bs := by
  rintro ⟨r, ⟨-, fuel, hr⟩, hdefined, -⟩
  obtain ⟨-, fuel', hchecked⟩ := checked_ends build s bs
  have hr := hr (max fuel fuel') (le_max_left _ _)
  have hchecked := (hchecked (max fuel fuel') (le_max_right _ _)).trans h
  rcases build.eq_checked_or_unchecked with hbuild | hbuild
  · rw [← hbuild] at hchecked
    exact hdefined w (hr.symm.trans hchecked)
  · rw [hbuild] at hr
    rcases (related_parse (respects_unchecked backward_wentBack build) (max fuel fuel') s).same
        (Watched.ofBytes bs) with hsame | ⟨⟨w', hthrows⟩, -⟩
    · exact hdefined w (hr.symm.trans (hsame.trans hchecked))
    · cases hchecked.symm.trans hthrows

/-- Where the check fails, a run without it goes back. -/
theorem not_movesForward_of_throws {w : Watched}
    (h : Fuel.parse build.checked (bs.length + 1) s (Watched.ofBytes bs) =
      .error (.throws signedRangeError) w) : ¬ MovesForward build.unchecked s bs := by
  rintro ⟨r, ⟨-, fuel, hr⟩, -, hproper, -⟩
  obtain ⟨-, fuel', hchecked⟩ := checked_ends build s bs
  have hr := hr (max fuel fuel') (le_max_left _ _)
  have hchecked := (hchecked (max fuel fuel') (le_max_right _ _)).trans h
  rcases (related_parse (respects_unchecked backward_wentBack build) (max fuel fuel') s).same
      (Watched.ofBytes bs) with hsame | ⟨-, call, hcall, hback⟩
  · exact related_parse (respects_passes callsPass_watched build) _ s (Watched.ofBytes bs) _ w
      (hsame.trans hchecked) rfl
  · rw [hr] at hcall
    have hforward := (hproper call hcall).forward
    omega

theorem not_movesForward
    (h : ¬ Passes build.Fatal (Fuel.parse build.checked (bs.length + 1) s) (Watched.ofBytes bs)) :
    ¬ MovesForward build s bs := by
  unfold Passes at h
  push Not at h
  obtain ⟨e, w, hrun, rfl | ⟨hchecks, rfl⟩⟩ := h
  · exact not_movesForward_of_undefined build s bs hrun
  · have hbuild : build = build.unchecked := by
      unfold Build.unchecked
      rw [← hchecks]
    rw [hbuild]
    exact not_movesForward_of_throws build s bs hrun

/-! ## What one that is allowed says -/

/-- A round without the check does what it does with it, or goes back. -/
theorem round_sameUnless {tags : List Byte} {τ : Type} (ms : Members tags τ) (fuel : ℕ) (obj : τ) :
    SameUnless Watched.WentBack
      (parseCustomStructRound (Fuel.parseCustomStructMember build.checked fuel ms) obj)
      (parseCustomStructRound (Fuel.parseCustomStructMember build.unchecked fuel ms) obj) := by
  have hrespects := respects_unchecked backward_wentBack build
  apply hrespects.byte.bind
  intro id
  split_ifs
  · exact SameUnless.refl fun _ h => h
  · exact (related_member hrespects fuel ms id obj).bind fun _ => SameUnless.refl fun _ h => h

/-- The rounds of a run whose calls were proper move on, in either build. -/
theorem rounds_move_on {calls : List Call} (hproper : ∀ call ∈ calls, call.Proper) :
    RoundsMoveOn build calls := by
  intro tags τ ms fuel obj obj' w w' hround hcalls
  have hchecks : build.checked.rangeChecks = true := rfl
  rcases build.eq_checked_or_unchecked with hbuild | hbuild
  · rw [hbuild] at hround
    exact Watched.round_moves_on hchecks ms fuel hround
  · rw [hbuild] at hround
    rcases (round_sameUnless build ms fuel obj).same w with hsame | ⟨-, call, hcall, hback⟩
    · exact Watched.round_moves_on hchecks ms fuel (hsame.symm.trans hround)
    · rw [hround] at hcall
      have hforward := (hproper call (hcalls.subset hcall)).forward
      omega

/-- A build does what the checked one does, unless that comes to something fatal. -/
theorem ends_of_passes
    (h : Passes build.Fatal (Fuel.parse build.checked (bs.length + 1) s) (Watched.ofBytes bs)) :
    Ends build s bs (Fuel.parse build.checked (bs.length + 1) s (Watched.ofBytes bs)) := by
  obtain ⟨hends, fuel, hchecked⟩ := checked_ends build s bs
  rcases build.eq_checked_or_unchecked with hbuild | hbuild
  · rw [hbuild]
    exact checked_ends build s bs
  · refine ⟨hends, fuel, fun k hk => ?_⟩
    have hrun := hchecked k hk
    rcases (related_parse (respects_unchecked backward_wentBack build) k s).same
        (Watched.ofBytes bs) with hsame | ⟨⟨w, hthrows⟩, -⟩
    · rw [← hbuild] at hsame
      exact hsame.trans hrun
    · have hchecks : build.rangeChecks = false := by rw [hbuild]; rfl
      exact absurd (Or.inr ⟨hchecks, rfl⟩) (h _ w (hrun.symm.trans hthrows))

theorem movesForward_of_passes
    (h : Passes build.Fatal (Fuel.parse build.checked (bs.length + 1) s) (Watched.ofBytes bs)) :
    MovesForward build s bs := by
  have hproper := (checked_inOrder build s bs).1
  exact ⟨_, ends_of_passes build s bs h, fun w hw => h _ w hw (Or.inl rfl), hproper,
    rounds_move_on build hproper⟩

end Unchecked

/-- `parse` ends, defined, and only moves forward exactly on the inputs that fit,
    whatever is in the elements of arrays that nothing is assigned to. -/
theorem movesForward_iff {α : Type} (build : Build) (unset : {α : Type} → Ty α → α) (s : Ty α)
    (bs : List Byte) :
    MovesForward build (s.filled unset) bs ↔
      Fits build (bs.length + 1) (s.filled unset) (CharRangeReader.ofBytes bs) := by
  have hrange : CharRangeReader.InRange (bs.length + 1) (CharRangeReader.ofBytes bs) :=
    ⟨le_refl _, Nat.lt_succ_self _⟩
  rw [← passes_parse build (s.filled unset) _ hrange, ← passes_watched]
  exact ⟨fun h => by_contra fun hnot => not_movesForward build _ bs hnot h,
    movesForward_of_passes build _ bs⟩

/-- A field with tag 9 whose length is `2 ^ 64 - 11`: `ignore` goes back to the
    tag, over and over. -/
def backToTag : List Byte := [9, 0xf5, 0xff, 0xff, 0xff, 0xff, 0xff, 0xff, 0xff, 0xff, 1]

theorem backToTag_not_forward : ¬ MovesForward { rangeChecks := false } byteStruct backToTag := by
  have hthrows : outcome (Fuel.parse { rangeChecks := true } (backToTag.length + 1) byteStruct
      (CharRangeReader.ofBytes backToTag)) = .error (.throws signedRangeError) := rfl
  have hfatal : Build.Fatal { rangeChecks := false } (.throws signedRangeError) :=
    Or.inr ⟨rfl, rfl⟩
  exact not_movesForward _ byteStruct backToTag
    ((passes_watched _ byteStruct backToTag _).not.mpr (not_passes_of_outcome hthrows hfatal))

end BambooShoot.Pbss
