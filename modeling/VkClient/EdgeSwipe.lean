import Mathlib.Algebra.Order.Ring.Rat
import Mathlib.Data.List.Infix
import Mathlib.Tactic.NormNum
import VkClient.Runs

/-!
# The interactive pop

One `CustomInteractiveTransition` serves all pushes and pops of a navigation
controller. During an edge swipe its `changed` events note in `shouldFinish`
whether the swipe has come far enough, and the end of the swipe decides by
it. Nothing resets the note when a swipe begins, so a swipe that ends before
its first `changed` event decides by the note of an earlier one.

`edgeSwipes_iff` says that this is the only way a swipe depends on those
before it.
-/

namespace VkClient

/-- The bounds of a view on the screen have a width. -/
abbrev Width := {w : ℚ // 0 < w}

/-- What a `changed` event reads: the vertical translation, and the width of
the gesture's view, if it has one. -/
structure EdgeChange where
  translationY : ℚ
  width : Option Width
deriving DecidableEq

inductive EdgeEvent where
  | began
  | changed (change : EdgeChange)
  | ended
  | cancelled
deriving DecidableEq

inductive TransitionCall where
  | popViewController
  | update (progress : ℚ)
  | finish
  | cancel
deriving DecidableEq, Repr

def EdgeChange.progress (change : EdgeChange) : ℚ :=
  let relativeTransition := change.translationY / (change.width.map Subtype.val).getD 1
  max 0 (min 1 relativeTransition)

/-- `navigates` is whether `viewController` has a navigation controller. -/
structure CustomInteractiveTransition where
  navigates : Bool := true
  hasStarted : Bool := false
  shouldFinish : Bool := false
deriving DecidableEq, Repr

/-- A swipe: its `changed` events, and whether it is cancelled at its end. -/
structure EdgeSwipe where
  changes : List EdgeChange
  isCancelled : Bool
deriving DecidableEq

def EdgeSwipe.last (g : EdgeSwipe) : EdgeEvent := if g.isCancelled then .cancelled else .ended

def EdgeSwipe.events (g : EdgeSwipe) : List EdgeEvent :=
  .began :: g.changes.map .changed ++ [g.last]

/-- Whether the last of the changes has come far enough. -/
def passed (changes : List EdgeChange) : Bool :=
  changes.getLast?.any fun change => 0.33 < change.progress

theorem passed_append {before changes : List EdgeChange} (h : changes ≠ []) :
    passed (before ++ changes) = passed changes := by
  rw [passed, List.getLast?_append_of_ne_nil _ h]
  rfl

namespace CustomInteractiveTransition

/-- `handleScreenEdgeGesture`, and the calls it makes. -/
def handle (t : CustomInteractiveTransition) :
    EdgeEvent → CustomInteractiveTransition × List TransitionCall
  | .began => ({ t with hasStarted := true }, if t.navigates then [.popViewController] else [])
  | .changed change =>
      ({ t with shouldFinish := 0.33 < change.progress }, [.update change.progress])
  | .ended => ({ t with hasStarted := false }, [if t.shouldFinish then .finish else .cancel])
  | .cancelled => ({ t with hasStarted := false }, [.cancel])

def after : CustomInteractiveTransition → List EdgeEvent → CustomInteractiveTransition
  | t, [] => t
  | t, e :: es => (t.handle e).1.after es

def calls : CustomInteractiveTransition → List EdgeEvent → List TransitionCall
  | _, [] => []
  | t, e :: es => (t.handle e).2 ++ (t.handle e).1.calls es

def step (t : CustomInteractiveTransition) (g : EdgeSwipe) : Option CustomInteractiveTransition :=
  some (t.after g.events)

/-- The swipe makes one call of `finish` and `cancel`, `hasStarted` is true
from its first event to its last, and it finishes if it ends and its own
last change has come far enough. -/
def DecidedAlone (t : CustomInteractiveTransition) (g : EdgeSwipe) : Prop :=
  (t.calls g.events).count .finish + (t.calls g.events).count .cancel = 1 ∧
  (∀ pre, pre <+: g.events →
    ((t.after pre).hasStarted = true ↔ pre ≠ [] ∧ pre ≠ g.events)) ∧
  (.finish ∈ t.calls g.events ↔ g.isCancelled = false ∧ passed g.changes = true)

/-! ## One swipe -/

variable {t : CustomInteractiveTransition} {g : EdgeSwipe}

theorem after_append (t : CustomInteractiveTransition) (es es' : List EdgeEvent) :
    t.after (es ++ es') = (t.after es).after es' := by
  induction es generalizing t with
  | nil => rfl
  | cons e es ih => exact ih (t.handle e).1

theorem calls_append (t : CustomInteractiveTransition) (es es' : List EdgeEvent) :
    t.calls (es ++ es') = t.calls es ++ (t.after es).calls es' := by
  induction es generalizing t with
  | nil => rfl
  | cons e es ih =>
      rw [List.cons_append, calls, calls, ih, List.append_assoc]
      rfl

/-- The note is that of the last change, or the old one if there is none. -/
theorem after_changes (t : CustomInteractiveTransition) (changes : List EdgeChange) :
    t.after (changes.map .changed) =
      { t with shouldFinish := if changes = [] then t.shouldFinish else passed changes } := by
  induction changes generalizing t with
  | nil => rfl
  | cons change changes ih =>
      refine (ih (t.handle (.changed change)).1).trans ?_
      cases changes with
      | nil => simp [passed, handle]
      | cons next changes => simp [passed, handle]

/-- The changes of a swipe only update. -/
theorem calls_changes (t : CustomInteractiveTransition) (changes : List EdgeChange) :
    t.calls (changes.map .changed) = changes.map fun change => .update change.progress := by
  induction changes generalizing t with
  | nil => rfl
  | cons change changes ih =>
      rw [List.map_cons, calls, ih]
      rfl

/-- The note a swipe decides by. -/
def note (t : CustomInteractiveTransition) (g : EdgeSwipe) : Bool :=
  if g.changes = [] then t.shouldFinish else passed g.changes

/-- A swipe before its last event. -/
theorem after_began (t : CustomInteractiveTransition) (g : EdgeSwipe) :
    t.after (.began :: g.changes.map .changed) =
      { t with hasStarted := true, shouldFinish := t.note g } :=
  after_changes { t with hasStarted := true } g.changes

theorem after_events (t : CustomInteractiveTransition) (g : EdgeSwipe) :
    t.after g.events = { t with hasStarted := false, shouldFinish := t.note g } := by
  unfold EdgeSwipe.events EdgeSwipe.last
  rw [after_append, after_began]
  cases g.isCancelled <;> rfl

/-- Before the last event a swipe only pops and updates. -/
theorem calls_events (t : CustomInteractiveTransition) (g : EdgeSwipe) :
    ∃ before, t.calls g.events =
        before ++ [if g.isCancelled = false ∧ t.note g = true then .finish else .cancel] ∧
      .finish ∉ before ∧ .cancel ∉ before := by
  refine ⟨(if t.navigates then [.popViewController] else []) ++
    g.changes.map fun change => .update change.progress, ?_, ?_, ?_⟩
  · unfold EdgeSwipe.events EdgeSwipe.last
    rw [calls_append, after_began, calls, calls_changes]
    cases g.isCancelled <;> simp [calls, handle]
  · cases t.navigates <;> simp
  · cases t.navigates <;> simp

theorem finish_mem_calls_iff :
    .finish ∈ t.calls g.events ↔ g.isCancelled = false ∧ t.note g = true := by
  obtain ⟨before, hcalls, hfinish, -⟩ := calls_events t g
  rw [hcalls]
  by_cases h : g.isCancelled = false ∧ t.note g = true
  · simp [h]
  · simp [h, hfinish]

theorem one_decision (t : CustomInteractiveTransition) (g : EdgeSwipe) :
    (t.calls g.events).count .finish + (t.calls g.events).count .cancel = 1 := by
  obtain ⟨before, hcalls, hfinish, hcancel⟩ := calls_events t g
  rw [hcalls, List.count_append, List.count_append, List.count_eq_zero_of_not_mem hfinish,
    List.count_eq_zero_of_not_mem hcancel]
  by_cases h : g.isCancelled = false ∧ t.note g = true
  · simp [h]
  · simp [h]

theorem hasStarted_iff (ht : t.hasStarted = false) {pre : List EdgeEvent}
    (hpre : pre <+: g.events) :
    (t.after pre).hasStarted = true ↔ pre ≠ [] ∧ pre ≠ g.events := by
  unfold EdgeSwipe.events at hpre
  rcases List.prefix_concat_iff.mp hpre with rfl | hbefore
  · have hend : (t.after g.events).hasStarted = false := by rw [after_events]
    exact iff_of_false (Bool.eq_false_iff.mp hend) fun h => h.2 rfl
  · cases pre with
    | nil => exact iff_of_false (by simp [after, ht]) fun h => h.1 rfl
    | cons e pre =>
        -- between the first event and the last
        obtain ⟨rfl, hchanges⟩ := List.cons_prefix_cons.mp hbefore
        obtain ⟨changes, -, rfl⟩ := List.prefix_map_iff.mp hchanges
        refine iff_of_true ?_ ⟨List.cons_ne_nil _ _, fun hall => ?_⟩
        · exact congrArg hasStarted (after_changes { t with hasStarted := true } changes)
        · have hlen := hbefore.length_le
          rw [hall] at hlen
          simp [EdgeSwipe.events] at hlen

theorem decidedAlone_iff (ht : t.hasStarted = false) :
    t.DecidedAlone g ↔ (g.isCancelled = false → g.changes = [] → t.shouldFinish = false) := by
  unfold DecidedAlone
  rw [and_iff_right (one_decision t g), and_iff_right fun pre hpre => hasStarted_iff ht hpre,
    finish_mem_calls_iff, note]
  by_cases hchanges : g.changes = []
  · simp [hchanges, passed]
  · simp [hchanges]

/-! ## Runs of swipes -/

/-- Between swipes the note is that of the last change there has been. -/
theorem run_eq (navigates : Bool) (gestures : List EdgeSwipe) :
    Runs.run step { navigates := navigates } gestures = some
      { navigates := navigates
        shouldFinish := passed (gestures.flatMap EdgeSwipe.changes) } := by
  induction gestures using List.reverseRecOn with
  | nil => rfl
  | append_singleton gestures g ih =>
      rw [Runs.run_append, ih, Option.bind_some, Runs.run, step, after_events, Option.bind_some,
        Runs.run, List.flatMap_append, List.flatMap_singleton, note]
      by_cases hchanges : g.changes = []
      · simp [hchanges]
      · rw [if_neg hchanges, passed_append hchanges]

/-- **Edge swipes.** Every swipe of a run is decided on its own exactly if
each swipe that ends before its first change comes after no change, or after
a last one that had not come far enough. -/
theorem edgeSwipes_iff (navigates : Bool) (gestures : List EdgeSwipe) :
    Runs.Always step DecidedAlone { navigates := navigates } gestures ↔
      ∀ pre g, pre ++ [g] <+: gestures → g.isCancelled = false → g.changes = [] →
        passed (pre.flatMap EdgeSwipe.changes) = false := by
  refine forall₂_congr fun pre g => ?_
  constructor
  · intro h hpre
    exact (decidedAlone_iff rfl).mp (h _ hpre (run_eq navigates pre))
  · intro h t hpre ht
    rw [run_eq, Option.some.injEq] at ht
    subst ht
    exact (decidedAlone_iff rfl).mpr (h hpre)

/-- A swipe that goes all the way and is cancelled, then one that ends at
once: the second finishes. -/
theorem edgeSwipes_leak :
    ¬Runs.Always step DecidedAlone {}
      [{ changes := [⟨100, some ⟨100, by decide⟩⟩], isCancelled := true },
        { changes := [], isCancelled := false }] := by
  intro h
  have hsecond := (Runs.always_cons.mp ((Runs.always_cons.mp h).2 _ rfl)).1
  have hnote := (decidedAlone_iff rfl).mp hsecond rfl rfl
  rw [after_events] at hnote
  norm_num [note, passed, EdgeChange.progress] at hnote

end CustomInteractiveTransition

end VkClient
