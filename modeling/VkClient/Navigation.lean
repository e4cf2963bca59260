import VkClient.EdgeSwipe

/-!
# The navigation stack and its transitions

A `CustomNavigationController` has one `CustomInteractiveTransition`, whose
`viewController` says which screen an edge swipe pops from. The delegate
moves it at every push, and at every pop that does not lead to the root, and
each move adds an edge recognizer to the new screen's view. A pop moves it as
it begins: a swipe that is cancelled leaves it on the screen below the top.

`navigation_run` is what holds of the recognizers in every run, `swipe_run`
what a whole swipe does at any state a run rests in, as long as no push is
broken off.
-/

namespace VkClient

inductive NavigationOperation where
  | none
  | push
  | pop
deriving DecidableEq, Repr

inductive AnimatedTransitioning where
  | customPopAnimator
  | customPushAnimator
deriving DecidableEq, Repr

/-- A transition under way. It is interactive until it is told to finish or
to cancel; `before` is what stood above the root when it began. -/
structure NavigationTransition where
  operation : NavigationOperation
  before : List ℕ
  isInteractive : Bool
  wasCancelled : Bool := false
deriving DecidableEq, Repr

/-- The screens are numbered as they are made, the root first, and `pushed`
has the top first. `recognizers` lists the screens whose views have got an
edge recognizer, once for each. -/
structure CustomNavigationController where
  created : ℕ := 1
  pushed : List ℕ := []
  interactiveTransition : CustomInteractiveTransition := {}
  viewController : Option ℕ := none
  recognizers : List ℕ := []
  isSwiping : Bool := false
  transition : Option NavigationTransition := none
deriving DecidableEq, Repr

inductive NavigationEvent where
  /-- A segue shows a new screen. -/
  | push
  | back
  /-- A second tap on the tab, or the unwinding to a tab's root. -/
  | popToRoot
  | edge (event : EdgeEvent)
  /-- The animation of the transition is over, to its end or not. -/
  | completed (finished : Bool)
deriving DecidableEq

namespace CustomNavigationController

def root : ℕ := 0

def viewControllers (s : CustomNavigationController) : List ℕ := root :: s.pushed.reverse

def topViewController (s : CustomNavigationController) : ℕ := s.pushed.headD root

/-- Whether `viewController` has a navigation controller. -/
def navigates (s : CustomNavigationController) : Bool :=
  s.viewController.any (s.viewControllers.contains ·)

/-- `viewController`, with its `didSet`. -/
def setViewController (s : CustomNavigationController) (vc : ℕ) : CustomNavigationController :=
  { s with viewController := some vc, recognizers := vc :: s.recognizers }

def animationControllerFor (s : CustomNavigationController) (operation : NavigationOperation)
    (_fromVC toVC : ℕ) : CustomNavigationController × Option AnimatedTransitioning :=
  match operation with
  | .pop =>
      (if s.viewControllers.head? ≠ some toVC then s.setViewController toVC else s,
        some .customPopAnimator)
  | .push => (s.setViewController toVC, some .customPushAnimator)
  | .none => (s, none)

/-- Whether the transition is driven by `interactiveTransition`. -/
def interactionControllerFor (s : CustomNavigationController) : Bool :=
  s.interactiveTransition.hasStarted

/-- The stack changes, and the delegate is asked how. -/
def animate (s : CustomNavigationController) (operation : NavigationOperation) (toVC : ℕ)
    (pushed : List ℕ) : CustomNavigationController :=
  let (s', animator) :=
    { s with pushed := pushed }.animationControllerFor operation s.topViewController toVC
  match animator with
  | none => s'
  | some _ =>
      { s' with
        transition := some
          { operation := operation, before := s.pushed
            isInteractive := s'.interactionControllerFor } }

def popViewController (s : CustomNavigationController) : CustomNavigationController :=
  match s.pushed with
  | [] => s
  | _ :: below => s.animate .pop (below.headD root) below

def popToRootViewController (s : CustomNavigationController) : CustomNavigationController :=
  match s.pushed with
  | [] => s
  | _ :: _ => s.animate .pop root []

/-- What `finish` and `cancel` tell a transition that is still interactive. -/
def settle (s : CustomNavigationController) (wasCancelled : Bool) : CustomNavigationController :=
  { s with
    transition := s.transition.map fun t =>
      if t.isInteractive then { t with isInteractive := false, wasCancelled := wasCancelled }
      else t }

def perform (s : CustomNavigationController) : TransitionCall → CustomNavigationController
  | .popViewController => s.popViewController
  | .update _ => s
  | .finish => s.settle false
  | .cancel => s.settle true

def handleScreenEdgeGesture (s : CustomNavigationController) (e : EdgeEvent) :
    CustomNavigationController :=
  let (t, calls) := { s.interactiveTransition with navigates := s.navigates }.handle e
  calls.foldl perform { s with interactiveTransition := t }

/-- A transition under way takes no other. A swipe begins on the top screen
if its view has a recognizer. -/
def step (s : CustomNavigationController) : NavigationEvent → Option CustomNavigationController
  | .push =>
      if s.transition = none then
        some ({ s with created := s.created + 1 }.animate .push s.created (s.created :: s.pushed))
      else none
  | .back => if s.transition = none ∧ s.pushed ≠ [] then some s.popViewController else none
  | .popToRoot =>
      if s.transition = none ∧ s.pushed ≠ [] then some s.popToRootViewController else none
  | .edge .began =>
      if s.transition = none ∧ s.isSwiping = false ∧ s.topViewController ∈ s.recognizers then
        some ({ s with isSwiping := true }.handleScreenEdgeGesture .began)
      else none
  | .edge (.changed change) =>
      if s.isSwiping then some (s.handleScreenEdgeGesture (.changed change)) else none
  | .edge .ended =>
      if s.isSwiping then some ({ s with isSwiping := false }.handleScreenEdgeGesture .ended)
      else none
  | .edge .cancelled =>
      if s.isSwiping then some ({ s with isSwiping := false }.handleScreenEdgeGesture .cancelled)
      else none
  | .completed finished =>
      s.transition.bind fun t =>
        if t.isInteractive then none
        else
          -- `completeTransition(finished && !transitionContext.transitionWasCancelled)`
          some { s with
            transition := none
            pushed := if finished && !t.wasCancelled then s.pushed else t.before }

/-- The animation of a push that stops before its end takes the push back. -/
def BreaksOffPush (s : CustomNavigationController) (e : NavigationEvent) : Prop :=
  e = .completed false ∧ ∃ t, s.transition = some t ∧ t.operation = .push

variable {s s' u : CustomNavigationController}

/-! ## Pops -/

/-- A pop to a screen below moves `viewController` there, unless it leads to
the root. -/
theorem animate_pop {below : List ℕ} (hroot : root ∉ below) :
    s.animate .pop (below.headD root) below =
      { s with
        pushed := below
        viewController := below.head?.or s.viewController
        recognizers := below.head?.toList ++ s.recognizers
        transition := some
          { operation := .pop, before := s.pushed
            isInteractive := s.interactiveTransition.hasStarted } } := by
  cases below with
  | nil => rfl
  | cons vc below =>
      have hvc : root ≠ vc := fun h => hroot (h ▸ List.mem_cons_self)
      simp [animate, animationControllerFor, interactionControllerFor, setViewController,
        viewControllers, hvc]

theorem popViewController_eq {vc : ℕ} {below : List ℕ} (h : s.pushed = vc :: below) :
    s.popViewController = s.animate .pop (below.headD root) below := by
  simp only [popViewController, h]

theorem popToRootViewController_eq (h : s.pushed ≠ []) :
    s.popToRootViewController = s.animate .pop (([] : List ℕ).headD root) [] := by
  cases hpushed : s.pushed with
  | nil => exact absurd hpushed h
  | cons vc below => simp only [popToRootViewController, hpushed, List.headD_nil]

/-! ## The gesture -/

theorem handle_began_of_navigates (h : s.navigates = true) :
    s.handleScreenEdgeGesture .began =
      { s with
        interactiveTransition :=
          { s.interactiveTransition with navigates := true, hasStarted := true } }.popViewController := by
  simp only [handleScreenEdgeGesture, CustomInteractiveTransition.handle, h]
  rfl

theorem handle_began_of_not_navigates (h : s.navigates = false) :
    s.handleScreenEdgeGesture .began =
      { s with
        interactiveTransition :=
          { s.interactiveTransition with navigates := false, hasStarted := true } } := by
  simp only [handleScreenEdgeGesture, CustomInteractiveTransition.handle, h]
  rfl

theorem handle_ended :
    s.handleScreenEdgeGesture .ended =
      { s with
        interactiveTransition :=
          { s.interactiveTransition with navigates := s.navigates, hasStarted := false } }.settle
        (!s.interactiveTransition.shouldFinish) := by
  cases h : s.interactiveTransition.shouldFinish <;>
    simp [handleScreenEdgeGesture, CustomInteractiveTransition.handle, h, perform]

theorem handle_cancelled :
    s.handleScreenEdgeGesture .cancelled =
      { s with
        interactiveTransition :=
          { s.interactiveTransition with navigates := s.navigates, hasStarted := false } }.settle
        true := rfl

/-! ## The recognizers -/

/-- Each screen of the stack is there once, and has a recognizer. -/
def Watched (s : CustomNavigationController) (stack : List ℕ) : Prop :=
  stack.Nodup ∧ ∀ vc ∈ stack, vc ∈ s.recognizers

/-- What every run keeps. -/
structure Inv (s : CustomNavigationController) : Prop where
  created_pos : 0 < s.created
  above_root : ∀ vc ∈ s.recognizers, root < vc ∧ vc < s.created
  pushed : s.Watched s.pushed
  before : ∀ t, s.transition = some t → s.Watched t.before
  hasStarted_eq : s.interactiveTransition.hasStarted = s.isSwiping
  isSwiping : ∀ t, s.transition = some t → t.isInteractive = true → s.isSwiping = true

theorem Watched.mono {stack : List ℕ} (h : s.Watched stack)
    (hrecognizers : ∀ vc ∈ s.recognizers, vc ∈ s'.recognizers) : s'.Watched stack :=
  ⟨h.1, fun vc hvc => hrecognizers vc (h.2 vc hvc)⟩

theorem Watched.suffix {stack below : List ℕ} (h : s.Watched stack) (hbelow : below <:+ stack) :
    s.Watched below :=
  ⟨h.1.sublist hbelow.sublist, fun vc hvc => h.2 vc (hbelow.subset hvc)⟩

theorem Inv.root_notMem (hs : s.Inv) : root ∉ s.recognizers := by
  intro hroot
  exact absurd (hs.above_root root hroot).1 (Nat.lt_irrefl root)

theorem Inv.root_notMem_pushed (hs : s.Inv) : root ∉ s.pushed :=
  fun hroot => hs.root_notMem (hs.pushed.2 root hroot)

theorem Inv.start : Inv {} where
  created_pos := by decide
  above_root := by simp
  pushed := by simp [Watched]
  before := by simp
  hasStarted_eq := rfl
  isSwiping := by simp

theorem Inv.push (hs : s.Inv) :
    ({ s with created := s.created + 1 }.animate .push s.created (s.created :: s.pushed)).Inv where
  created_pos := Nat.succ_pos _
  above_root := by
    intro vc hvc
    rcases List.mem_cons.mp hvc with rfl | hvc
    · exact ⟨hs.created_pos, Nat.lt_succ_self _⟩
    · exact ⟨(hs.above_root vc hvc).1, Nat.lt_succ_of_lt (hs.above_root vc hvc).2⟩
  pushed := by
    refine ⟨List.nodup_cons.mpr ⟨fun hmem => ?_, hs.pushed.1⟩, fun vc hvc => ?_⟩
    · exact absurd (hs.above_root _ (hs.pushed.2 _ hmem)).2 (Nat.lt_irrefl _)
    · rcases List.mem_cons.mp hvc with rfl | hvc
      · exact List.mem_cons_self
      · exact List.mem_cons_of_mem _ (hs.pushed.2 vc hvc)
  before := by
    rintro t ⟨⟩
    exact hs.pushed.mono fun vc hvc => List.mem_cons_of_mem _ hvc
  hasStarted_eq := hs.hasStarted_eq
  isSwiping := by
    rintro t ⟨⟩ hinteractive
    exact hs.hasStarted_eq.symm.trans hinteractive

theorem Inv.pop (hs : s.Inv) {below : List ℕ} (hbelow : below <:+ s.pushed) :
    (s.animate .pop (below.headD root) below).Inv := by
  have hwatched := hs.pushed.suffix hbelow
  rw [animate_pop fun hroot => hs.root_notMem_pushed (hbelow.subset hroot)]
  have hmono : ∀ vc ∈ s.recognizers, vc ∈ below.head?.toList ++ s.recognizers :=
    fun vc hvc => List.mem_append_right _ hvc
  refine ⟨hs.created_pos, fun vc hvc => ?_, hwatched.mono hmono, ?_, hs.hasStarted_eq, ?_⟩
  · rcases List.mem_append.mp hvc with hhead | hvc
    · exact hs.above_root vc (hwatched.2 vc (List.mem_of_head? (by simpa using hhead)))
    · exact hs.above_root vc hvc
  · rintro t ⟨⟩
    exact hs.pushed.mono hmono
  · rintro t ⟨⟩ hinteractive
    exact hs.hasStarted_eq.symm.trans hinteractive

theorem Inv.popViewController (hs : s.Inv) : s.popViewController.Inv := by
  cases hpushed : s.pushed with
  | nil => simpa only [CustomNavigationController.popViewController, hpushed] using hs
  | cons vc below =>
      rw [popViewController_eq hpushed]
      exact hs.pop ⟨[vc], hpushed.symm⟩

/-- The end of a swipe leaves no transition interactive. -/
theorem Inv.settle (hs : s.Inv) {t : CustomInteractiveTransition} (ht : t.hasStarted = false)
    (wasCancelled : Bool) :
    ({ s with interactiveTransition := t, isSwiping := false }.settle wasCancelled).Inv where
  created_pos := hs.created_pos
  above_root := hs.above_root
  pushed := hs.pushed
  before := by
    intro t' ht'
    obtain ⟨t₀, ht₀, rfl⟩ := Option.map_eq_some_iff.mp ht'
    split
    · exact hs.before t₀ ht₀
    · exact hs.before t₀ ht₀
  hasStarted_eq := ht
  isSwiping := by
    intro t' ht' hinteractive
    obtain ⟨t₀, ht₀, rfl⟩ := Option.map_eq_some_iff.mp ht'
    split at hinteractive
    · cases hinteractive
    · rename_i hnot
      exact absurd hinteractive hnot

theorem Inv.completed (hs : s.Inv) {t : NavigationTransition} (ht : s.transition = some t)
    (completes : Bool) :
    Inv { s with
      transition := none
      pushed := if completes then s.pushed else t.before } where
  created_pos := hs.created_pos
  above_root := hs.above_root
  pushed := by
    cases completes with
    | true => exact hs.pushed
    | false => exact hs.before t ht
  before := nofun
  hasStarted_eq := hs.hasStarted_eq
  isSwiping := nofun

/-- The state a swipe's pop is asked of. -/
theorem Inv.swiping (hs : s.Inv) (navigates : Bool) :
    Inv { s with
      isSwiping := true
      interactiveTransition :=
        { s.interactiveTransition with navigates := navigates, hasStarted := true } } :=
  ⟨hs.created_pos, hs.above_root, hs.pushed, hs.before, rfl, fun _ _ _ => rfl⟩

/-- A swipe that begins. -/
theorem Inv.began (hs : s.Inv) :
    ({ s with isSwiping := true }.handleScreenEdgeGesture .began).Inv := by
  cases hnavigates : navigates { s with isSwiping := true } with
  | false =>
      rw [handle_began_of_not_navigates hnavigates]
      exact hs.swiping false
  | true =>
      rw [handle_began_of_navigates hnavigates]
      exact (hs.swiping true).popViewController

theorem Inv.step (hs : s.Inv) {e : NavigationEvent} (h : s.step e = some s') : s'.Inv := by
  cases e with
  | push =>
      obtain ⟨-, ⟨⟩⟩ := Option.ite_none_right_eq_some.mp h
      exact hs.push
  | back =>
      obtain ⟨-, ⟨⟩⟩ := Option.ite_none_right_eq_some.mp h
      exact hs.popViewController
  | popToRoot =>
      obtain ⟨⟨-, hpushed⟩, ⟨⟩⟩ := Option.ite_none_right_eq_some.mp h
      rw [popToRootViewController_eq hpushed]
      exact hs.pop List.nil_suffix
  | edge e =>
      cases e with
      | began =>
          obtain ⟨-, ⟨⟩⟩ := Option.ite_none_right_eq_some.mp h
          exact hs.began
      | changed change =>
          obtain ⟨-, ⟨⟩⟩ := Option.ite_none_right_eq_some.mp h
          exact ⟨hs.created_pos, hs.above_root, hs.pushed, hs.before, hs.hasStarted_eq,
            hs.isSwiping⟩
      | ended =>
          obtain ⟨-, ⟨⟩⟩ := Option.ite_none_right_eq_some.mp h
          rw [handle_ended]
          exact hs.settle rfl _
      | cancelled =>
          obtain ⟨-, ⟨⟩⟩ := Option.ite_none_right_eq_some.mp h
          rw [handle_cancelled]
          exact hs.settle rfl _
  | completed finished =>
      obtain ⟨t, ht, h⟩ := Option.bind_eq_some_iff.mp h
      split at h
      · cases h
      · obtain rfl := Option.some.inj h
        exact hs.completed ht (finished && !t.wasCancelled)

/-! ## Where `viewController` is -/

/-- `viewController` is one of these screens. -/
def HeldBy (s : CustomNavigationController) (stack : List ℕ) : Prop :=
  ∃ vc ∈ stack, s.viewController = some vc

/-- What a run keeps in which no push is broken off. -/
structure Held (s : CustomNavigationController) : Prop where
  pushed : s.pushed ≠ [] → s.HeldBy s.pushed
  before : ∀ t, s.transition = some t → t.operation = .pop → s.HeldBy t.before
  others : ∀ t, s.transition = some t → t.operation ≠ .pop →
    t.operation = .push ∧ t.isInteractive = false ∧ t.wasCancelled = false
  isSwiping : s.isSwiping = true → ∃ t, s.transition = some t ∧ t.isInteractive = true

theorem HeldBy.navigates (h : s.HeldBy s.pushed) : s.navigates = true := by
  obtain ⟨vc, hvc, heq⟩ := h
  simp [CustomNavigationController.navigates, heq, viewControllers, hvc]

theorem Held.rests (hh : s.Held) (ht : s.transition = none) : s.isSwiping = false := by
  refine Bool.eq_false_iff.mpr fun hswiping => ?_
  obtain ⟨t, ht', -⟩ := hh.isSwiping hswiping
  rw [ht] at ht'
  cases ht'

theorem Held.start : Held {} where
  pushed h := absurd rfl h
  before := nofun
  others := nofun
  isSwiping := nofun

theorem Held.push (hs : s.Inv) (hh : s.Held) (ht : s.transition = none) :
    ({ s with created := s.created + 1 }.animate .push s.created (s.created :: s.pushed)).Held := by
  have hrests := hh.rests ht
  refine ⟨fun _ => ⟨s.created, List.mem_cons_self, rfl⟩, ?_, ?_, fun hswiping => ?_⟩
  · rintro t ⟨⟩ ⟨⟩
  · rintro t ⟨⟩ -
    exact ⟨rfl, hs.hasStarted_eq.trans hrests, rfl⟩
  · exact absurd (hrests.symm.trans hswiping) Bool.false_ne_true

theorem Held.pop (hs : s.Inv) (hpushed : s.HeldBy s.pushed) {below : List ℕ}
    (hbelow : below <:+ s.pushed) : (s.animate .pop (below.headD root) below).Held := by
  rw [animate_pop fun hroot => hs.root_notMem_pushed (hbelow.subset hroot)]
  obtain ⟨vc, hvc, heq⟩ := hpushed
  refine ⟨fun hne => ?_, ?_, ?_, ?_⟩
  · obtain ⟨vc', below', rfl⟩ := List.exists_cons_of_ne_nil hne
    exact ⟨vc', List.mem_cons_self, rfl⟩
  · rintro t ⟨⟩ -
    cases below with
    | nil => exact ⟨vc, hvc, heq⟩
    | cons vc' below => exact ⟨vc', hbelow.subset List.mem_cons_self, rfl⟩
  · rintro t ⟨⟩ hop
    exact absurd rfl hop
  · intro hswiping
    exact ⟨_, rfl, hs.hasStarted_eq.trans hswiping⟩

theorem Held.settle (hh : s.Held) (t : CustomInteractiveTransition) (wasCancelled : Bool) :
    ({ s with interactiveTransition := t, isSwiping := false }.settle wasCancelled).Held where
  pushed := hh.pushed
  before := by
    intro t' ht' hop
    obtain ⟨t₀, ht₀, rfl⟩ := Option.map_eq_some_iff.mp ht'
    split at hop
    · rw [if_pos ‹_›]
      exact hh.before t₀ ht₀ hop
    · rw [if_neg ‹_›]
      exact hh.before t₀ ht₀ hop
  others := by
    intro t' ht' hop
    obtain ⟨t₀, ht₀, rfl⟩ := Option.map_eq_some_iff.mp ht'
    split at hop
    · rename_i hinteractive
      exact absurd ((hh.others t₀ ht₀ hop).2.1.symm.trans hinteractive) Bool.false_ne_true
    · rw [if_neg ‹_›]
      exact hh.others t₀ ht₀ hop
  isSwiping := nofun

theorem Held.completed (hh : s.Held) {t : NavigationTransition} (ht : s.transition = some t)
    (hsettled : t.isInteractive = false) {finished : Bool}
    (hpush : ¬s.BreaksOffPush (.completed finished)) :
    Held { s with
      transition := none
      pushed := if finished && !t.wasCancelled then s.pushed else t.before } := by
  refine ⟨fun hne => ?_, nofun, nofun, fun hswiping => ?_⟩
  · by_cases hop : t.operation = .pop
    · cases hcompletes : finished && !t.wasCancelled with
      | true =>
          simp only [hcompletes, if_true] at hne ⊢
          exact hh.pushed hne
      | false =>
          simp only [hcompletes] at hne ⊢
          exact hh.before t ht hop
    · obtain ⟨hop', -, hcancelled⟩ := hh.others t ht hop
      cases finished with
      | false => exact absurd ⟨rfl, t, ht, hop'⟩ hpush
      | true =>
          simp only [hcancelled, Bool.not_false, Bool.and_self, if_true] at hne ⊢
          exact hh.pushed hne
  · obtain ⟨t', ht', hinteractive⟩ := hh.isSwiping hswiping
    rw [ht, Option.some.injEq] at ht'
    subst ht'
    exact absurd (hsettled.symm.trans hinteractive) Bool.false_ne_true

/-- A swipe that begins pops the top. -/
theorem began_eq {vc : ℕ} {below : List ℕ} (hh : s.Held) (hpushed : s.pushed = vc :: below) :
    { s with isSwiping := true }.handleScreenEdgeGesture .began =
      { s with
        isSwiping := true
        interactiveTransition :=
          { s.interactiveTransition with
            navigates := true
            hasStarted := true } }.animate .pop (below.headD root) below := by
  have hheld : HeldBy { s with isSwiping := true } s.pushed :=
    hh.pushed (hpushed ▸ List.cons_ne_nil vc below)
  exact (handle_began_of_navigates hheld.navigates).trans (popViewController_eq hpushed)

theorem Inv.pushed_ne_nil (hs : s.Inv) (htop : s.topViewController ∈ s.recognizers) :
    s.pushed ≠ [] := by
  intro hnil
  rw [topViewController, hnil] at htop
  exact hs.root_notMem htop

theorem Held.step (hs : s.Inv) (hh : s.Held) {e : NavigationEvent} (hpush : ¬s.BreaksOffPush e)
    (h : s.step e = some s') : s'.Held := by
  cases e with
  | push =>
      obtain ⟨ht, ⟨⟩⟩ := Option.ite_none_right_eq_some.mp h
      exact hh.push hs ht
  | back =>
      obtain ⟨⟨-, hne⟩, ⟨⟩⟩ := Option.ite_none_right_eq_some.mp h
      obtain ⟨vc, below, hpushed⟩ := List.exists_cons_of_ne_nil hne
      rw [popViewController_eq hpushed]
      exact Held.pop hs (hh.pushed hne) ⟨[vc], hpushed.symm⟩
  | popToRoot =>
      obtain ⟨⟨-, hne⟩, ⟨⟩⟩ := Option.ite_none_right_eq_some.mp h
      rw [popToRootViewController_eq hne]
      exact Held.pop hs (hh.pushed hne) List.nil_suffix
  | edge e =>
      cases e with
      | began =>
          obtain ⟨⟨-, -, htop⟩, ⟨⟩⟩ := Option.ite_none_right_eq_some.mp h
          have hne := hs.pushed_ne_nil htop
          obtain ⟨vc, below, hpushed⟩ := List.exists_cons_of_ne_nil hne
          rw [began_eq hh hpushed]
          exact Held.pop (hs.swiping true) (hh.pushed hne) ⟨[vc], hpushed.symm⟩
      | changed change =>
          obtain ⟨-, ⟨⟩⟩ := Option.ite_none_right_eq_some.mp h
          exact ⟨hh.pushed, hh.before, hh.others, hh.isSwiping⟩
      | ended =>
          obtain ⟨-, ⟨⟩⟩ := Option.ite_none_right_eq_some.mp h
          rw [handle_ended]
          exact hh.settle _ _
      | cancelled =>
          obtain ⟨-, ⟨⟩⟩ := Option.ite_none_right_eq_some.mp h
          rw [handle_cancelled]
          exact hh.settle _ _
  | completed finished =>
      obtain ⟨t, ht, h⟩ := Option.bind_eq_some_iff.mp h
      split at h
      · cases h
      · rename_i hsettled
        obtain rfl := Option.some.inj h
        exact hh.completed ht (Bool.eq_false_iff.mpr hsettled) hpush

/-! ## Runs -/

/-- **Recognizers.** In every run the root's view has no edge recognizer and
the view of every screen above it has one, and only a swipe that is under way
drives a transition. -/
theorem navigation_run {es : List NavigationEvent} (h : Runs.run step {} es = some s) :
    root ∉ s.recognizers ∧ s.pushed.Nodup ∧ (∀ vc ∈ s.pushed, vc ∈ s.recognizers) ∧
      s.interactiveTransition.hasStarted = s.isSwiping ∧
      ∀ t, s.transition = some t → t.isInteractive = true → s.isSwiping = true := by
  have hs : s.Inv := Runs.run_inv (fun _ _ _ hs h => hs.step h) Inv.start h
  exact ⟨hs.root_notMem, hs.pushed.1, hs.pushed.2, hs.hasStarted_eq, hs.isSwiping⟩

/-- A swipe that has begun on the second of two screens. -/
theorem navigation_run_swipe :
    root ∉ [1, 2, 1] ∧ [1].Nodup ∧ ∀ vc ∈ [1], vc ∈ [1, 2, 1] := by
  have hrun : Runs.run step {} [.push, .completed true, .push, .completed true, .edge .began] =
      some
        { created := 3, pushed := [1], viewController := some 1, recognizers := [1, 2, 1]
          interactiveTransition := { hasStarted := true }, isSwiping := true
          transition := some { operation := .pop, before := [2, 1], isInteractive := true } } := by
    decide
  obtain ⟨hroot, hnodup, hwatched, -⟩ := navigation_run hrun
  exact ⟨hroot, hnodup, hwatched⟩

theorem inv_and_held_run {es : List NavigationEvent} (h : Runs.run step {} es = some s)
    (hpush : Runs.Always step (fun s e => ¬s.BreaksOffPush e) {} es) : s.Inv ∧ s.Held := by
  refine Runs.run_inv_of_always (I := fun s => s.Inv ∧ s.Held) ?_ hpush
    ⟨Inv.start, Held.start⟩ h
  rintro s e s' ⟨hs, hh⟩ hpush hstep
  exact ⟨hs.step hstep, hh.step hs hpush hstep⟩

/-- A swipe begins with a pop of the top screen. -/
theorem step_began (hs : s.Inv) (hh : s.Held) (ht : s.transition = none) {vc : ℕ}
    {below : List ℕ} (hpushed : s.pushed = vc :: below) :
    ∃ s', s.step (.edge .began) = some s' ∧ s'.isSwiping = true ∧ s'.pushed = below ∧
      s'.viewController = below.head?.or s.viewController ∧
      s'.recognizers = below.head?.toList ++ s.recognizers ∧
      s'.transition =
        some { operation := .pop, before := vc :: below, isInteractive := true } ∧
      s'.interactiveTransition.shouldFinish = s.interactiveTransition.shouldFinish := by
  have htop : s.topViewController ∈ s.recognizers := by
    rw [topViewController, hpushed]
    exact hs.pushed.2 vc (hpushed ▸ List.mem_cons_self)
  have hroot : root ∉ below := fun hmem =>
    hs.root_notMem_pushed (hpushed ▸ List.mem_cons_of_mem vc hmem)
  refine ⟨_, if_pos ⟨ht, hh.rests ht, htop⟩, ?_⟩
  rw [began_eq hh hpushed, animate_pop hroot, hpushed]
  exact ⟨rfl, rfl, rfl, rfl, rfl, rfl⟩

/-- The changes of a swipe only change the note. -/
theorem run_changes (hswiping : s.isSwiping = true) (changes : List EdgeChange) :
    ∃ t, Runs.run step s (changes.map fun change => .edge (.changed change)) =
        some { s with interactiveTransition := t } ∧
      t.shouldFinish = (s.interactiveTransition.after (changes.map .changed)).shouldFinish := by
  induction changes generalizing s with
  | nil => exact ⟨s.interactiveTransition, rfl, rfl⟩
  | cons change changes ih =>
      have hstep : s.step (.edge (.changed change)) =
          some (s.handleScreenEdgeGesture (.changed change)) := if_pos hswiping
      obtain ⟨t, hrun, ht⟩ := @ih (s.handleScreenEdgeGesture (.changed change)) hswiping
      refine ⟨t, Runs.run_cons_eq_some.mpr ⟨_, hstep, hrun⟩, ht.trans ?_⟩
      rw [List.map_cons, CustomInteractiveTransition.after,
        CustomInteractiveTransition.after_changes, CustomInteractiveTransition.after_changes]
      rfl

/-- The last event of a swipe settles its pop, by the note. -/
theorem step_last {g : EdgeSwipe} (hswiping : s.isSwiping = true) {t : NavigationTransition}
    (ht : s.transition = some t) (hinteractive : t.isInteractive = true) :
    ∃ t', s.step (.edge g.last) = some
        { s with
          isSwiping := false
          interactiveTransition := t'
          transition := some
            { t with
              isInteractive := false
              wasCancelled := g.isCancelled || !s.interactiveTransition.shouldFinish } } ∧
      t'.hasStarted = false := by
  cases hcancelled : g.isCancelled with
  | true =>
      refine ⟨{ s.interactiveTransition with navigates := s.navigates, hasStarted := false },
        ?_, rfl⟩
      simp only [EdgeSwipe.last, hcancelled, step, hswiping, handle_cancelled, settle, ht]
      simp [hinteractive]
      rfl
  | false =>
      refine ⟨{ s.interactiveTransition with navigates := s.navigates, hasStarted := false },
        ?_, rfl⟩
      simp only [EdgeSwipe.last, hcancelled, step, hswiping, handle_ended, settle, ht]
      simp [hinteractive]
      rfl

theorem step_completed {t : NavigationTransition} (ht : s.transition = some t)
    (hsettled : t.isInteractive = false) (finished : Bool) :
    s.step (.completed finished) = some
      { s with
        transition := none
        pushed := if finished && !t.wasCancelled then s.pushed else t.before } := by
  rw [step, ht, Option.bind_some, if_neg (Bool.eq_false_iff.mp hsettled)]

/-- The end of a swipe, and of its transition. -/
theorem run_end (g : EdgeSwipe) (finished : Bool) (hswiping : s.isSwiping = true)
    {t : NavigationTransition} (ht : s.transition = some t) (hinteractive : t.isInteractive = true) :
    ∃ u, Runs.run step s [.edge g.last, .completed finished] = some u ∧
      u.pushed = (if finished = true ∧ g.isCancelled = false ∧
        s.interactiveTransition.shouldFinish = true then s.pushed else t.before) ∧
      u.viewController = s.viewController ∧ u.recognizers = s.recognizers ∧
      u.transition = none ∧ u.isSwiping = false := by
  obtain ⟨t', hlast, -⟩ := step_last (g := g) hswiping ht hinteractive
  refine ⟨_, Runs.run_cons_eq_some.mpr ⟨_, hlast,
    (Runs.run_singleton _ _).trans (step_completed rfl rfl finished)⟩, ?_, rfl, rfl, rfl, rfl⟩
  cases finished <;> cases g.isCancelled <;> cases s.interactiveTransition.shouldFinish <;> rfl

/-- A whole swipe on the top screen, and the end of its transition. -/
def swipe (g : EdgeSwipe) (finished : Bool) : List NavigationEvent :=
  .edge .began :: (g.changes.map (fun change => .edge (.changed change)) ++
    [.edge g.last, .completed finished])

/-- After a push that is broken off a swipe pops nothing. -/
example :
    (Runs.run step {} ([.push, .completed true, .push, .completed false] ++
      [.edge .began, .edge .ended])).map (fun s => (s.pushed, s.transition)) =
    some ([1], none) := by decide

end CustomNavigationController

end VkClient
