import Mathlib.Algebra.Order.Ring.Rat
import Mathlib.Data.Int.Basic
import VkClient.Runs
import VkClient.Services

/-!
# The photo gallery

`PictureViewController` pages through the photos with two image views. The
one on the screen is panned; at the end of a swipe the other one gets the
next picture and comes in, and the first is animated off the screen by the
width of the view. Each of the two has a pan handler of its own, and the two
are mirror images only in part: they hide the resting view in every phase of
a gesture, but only the second gives it the current picture, and after
a swipe to the left they leave the panned view on different sides.

Whatever is panned, the screen shows the picture of a clamped pager
(`Pager.move`). The simulation relation is `Shows`. What the handlers have
in common is stated once, for the view on either `Side`; each has its own
proof that it turns pages (`Pages`).
-/

namespace VkClient

/-! ## Image views and gestures -/

/-- A translation goes so many widths of the view and so many points to the
right; the two scales are equal wherever the screen scales. -/
inductive CGAffineTransform where
  | scale (s : ℚ)
  | translationX (widths : ℤ) (points : ℚ)
deriving DecidableEq, Repr

def CGAffineTransform.identity : CGAffineTransform := .scale 1

/-- Whole widths take a view off the screen, points only follow the finger. -/
def CGAffineTransform.OnScreen : CGAffineTransform → Prop
  | .scale _ => True
  | .translationX widths _ => widths = 0

structure UIImageView where
  image : Option UIImage := none
  isHidden : Bool := false
  transform : CGAffineTransform := .identity
  alpha : ℚ := 1
deriving DecidableEq, Repr

def UIImageView.Shown (view : UIImageView) : Prop :=
  view.isHidden = false ∧ view.transform.OnScreen

instance (transform : CGAffineTransform) : Decidable transform.OnScreen := by
  cases transform with
  | scale s => exact inferInstanceAs (Decidable True)
  | translationX widths points => exact inferInstanceAs (Decidable (widths = 0))

instance (view : UIImageView) : Decidable view.Shown :=
  inferInstanceAs (Decidable (_ ∧ _))

/-- The states of the recognizer the handlers act on: `changed` comes with
`translation(in:).x`, `ended` with `frame.minX` of the panned view. -/
inductive PanState where
  | began
  | changed (x : ℚ)
  | ended (minX : ℚ)
  | cancelled
deriving DecidableEq, Repr

/-- The distances of a picture to the top and the bottom of the screen. -/
structure Margins where
  top : ℚ := 50
  bottom : ℚ := 146
deriving DecidableEq, Repr

/-! ## The controller -/

/-- `interactiveAnimate` is whether there is an animator: the property is nil
until a pan has begun. -/
structure PictureViewController where
  photosList : List PhotosVK
  photosCached : List UIImage
  imagesFriendOne : UIImageView
  imagesFriendTwo : UIImageView
  img1 : Margins := {}
  img2 : Margins := {}
  count : ℤ := 0
  interactiveAnimate : Bool := false
deriving DecidableEq, Repr

/-- The two image views, `imagesFriendOne` and `imagesFriendTwo`. -/
inductive Side where
  | one
  | two
deriving DecidableEq, Repr

def Side.other : Side → Side
  | .one => .two
  | .two => .one

@[simp] theorem Side.other_other (side : Side) : side.other.other = side := by
  cases side <;> rfl

/-- A Swift subscript, which traps outside of the array. -/
def subscript {α : Type} (xs : List α) (i : ℤ) : Option α :=
  if 0 ≤ i then xs[i.toNat]? else none

namespace PictureViewController

/-- `viewDidLoad` for the photos the controller's `loadData` read; a photo
without an image traps, and so does an empty list. -/
def viewDidLoad (getImage : String → Option UIImage) (photosList : List PhotosVK) :
    Option PictureViewController := do
  let photosCached ← photosList.mapM fun i => getImage i.photo
  let images ← subscript photosCached 0
  return {
    photosList := photosList
    photosCached := photosCached
    imagesFriendOne := { image := some images }
    imagesFriendTwo := { isHidden := true } }

variable (vc : PictureViewController)

def view : Side → UIImageView
  | .one => vc.imagesFriendOne
  | .two => vc.imagesFriendTwo

def setView (view : UIImageView) : Side → PictureViewController
  | .one => { vc with imagesFriendOne := view }
  | .two => { vc with imagesFriendTwo := view }

def panTo (side : Side) (transform : CGAffineTransform) : PictureViewController :=
  vc.setView { vc.view side with transform := transform } side

/-- The pictures change hands: the other view comes in with the picture at
`count`, the panned one ends up `widths` to the right. -/
def turn (side : Side) (count widths : ℤ) : Option PictureViewController := do
  let images ← subscript vc.photosCached count
  return { vc with count := count }.setView { image := some images } side.other
    |>.panTo side (.translationX widths 0)

/-- The end of a gesture on one of the views. Of the two handlers each has
its own idea of the number of pictures for a swipe to the left, and of where
the panned view ends up after it. -/
def endPan (side : Side) (length leftWidths : ℤ) (minX : ℚ) : Option PictureViewController :=
  if 100 ≤ minX then
    let count := vc.count - 1
    if 0 ≤ count ∧ count < vc.photosList.length then vc.turn side count (-1)
    else some ({ vc with count := 0 }.panTo side .identity)
  else if minX ≤ -100 then
    let count := vc.count + 1
    if count < length then vc.turn side count leftWidths
    else some ({ vc with count := length - 1 }.panTo side .identity)
  else some (vc.panTo side .identity)

/-- What `onPanImg1` does in every phase. -/
def hideTwo : PictureViewController :=
  { vc with
    imagesFriendTwo :=
      { vc.imagesFriendTwo with isHidden := true, transform := .scale 0.8, alpha := 0.5 }
    img2 := { top := 50, bottom := 146 } }

/-- `onPanImg1`; ending a gesture that has no animator traps. -/
def onPanImg1 (state : PanState) : Option PictureViewController :=
  let vc := vc.hideTwo
  match state with
  | .began => some { vc with interactiveAnimate := true }
  | .changed x => some (vc.panTo .one (.translationX 0 (x / 2)))
  | .ended minX =>
      if vc.interactiveAnimate then vc.endPan .one vc.photosCached.length 1 minX else none
  | .cancelled => some vc

/-- What `onPanImg2` does in every phase: unlike its sibling it also gives
the resting view the current picture. -/
def hideOne : Option PictureViewController := do
  let images ← subscript vc.photosCached vc.count
  return { vc with
    imagesFriendOne := { image := some images, isHidden := true, transform := .scale 0.8, alpha := 0.5 }
    img1 := { top := 50, bottom := 146 } }

/-- `onPanImg2`. -/
def onPanImg2 (state : PanState) : Option PictureViewController := do
  let vc ← vc.hideOne
  match state with
  | .began => some ({ vc with interactiveAnimate := true }.panTo .two .identity)
  | .changed x => some (vc.panTo .two (.translationX 0 (x / 2)))
  | .ended minX =>
      if vc.interactiveAnimate then vc.endPan .two vc.photosList.length (-1) minX else none
  | .cancelled => some vc

end PictureViewController

/-! ## Gestures and the pager -/

/-- A pan: the translations of its `changed` phases, and `frame.minX` of the
panned view at its end, unless it is cancelled. -/
structure Gesture where
  moves : List ℚ
  minX : Option ℚ
deriving DecidableEq, Repr

def Gesture.states (g : Gesture) : List PanState :=
  .began :: g.moves.map .changed ++ [g.minX.elim .cancelled .ended]

inductive Swipe where
  | right
  | left
  | neither
deriving DecidableEq, Repr

def Swipe.of (minX : ℚ) : Swipe :=
  if 100 ≤ minX then .right else if minX ≤ -100 then .left else .neither

def Gesture.swipe (g : Gesture) : Swipe := g.minX.elim .neither .of

/-- The clamped pager over `n` pictures. -/
def Pager.move (n : ℤ) (i : ℤ) : Swipe → ℤ
  | .right => max (i - 1) 0
  | .left => min (i + 1) (n - 1)
  | .neither => i

namespace PictureViewController

/-- A gesture on the view that is shown; none starts where no view is. -/
def pan (vc : PictureViewController) (g : Gesture) : Option PictureViewController :=
  if vc.imagesFriendOne.Shown then Runs.run onPanImg1 vc g.states
  else if vc.imagesFriendTwo.Shown then Runs.run onPanImg2 vc g.states
  else none

/-! ## The simulation -/

structure Loaded (P : List UIImage) (i : ℤ) (vc : PictureViewController) : Prop where
  cached : vc.photosCached = P
  listed : vc.photosList.length = P.length
  count : vc.count = i
  nonneg : 0 ≤ i
  lt : i < P.length

/-- The screen shows picture `i` in the view, and the other one is away. -/
structure Active (P : List UIImage) (side : Side) (i : ℤ) (vc : PictureViewController) : Prop where
  loaded : Loaded P i vc
  image : (vc.view side).image = subscript P i
  shown : (vc.view side).Shown
  resting : ¬(vc.view side.other).Shown

def Shows (P : List UIImage) (i : ℤ) (vc : PictureViewController) : Prop :=
  ∃ side, Active P side i vc

theorem exists_subscript {P : List UIImage} {i : ℤ} (h0 : 0 ≤ i) (hlt : i < P.length) :
    ∃ images, subscript P i = some images := by
  have hlt' : i.toNat < P.length := by omega
  rw [subscript, if_pos h0]
  exact ⟨P[i.toNat], List.getElem?_eq_getElem hlt'⟩

theorem not_shown_of_translation {view : UIImageView} {widths : ℤ} {points : ℚ}
    (hview : view.transform = .translationX widths points) (hwidths : widths ≠ 0) :
    ¬view.Shown := by
  rintro ⟨-, hscreen⟩
  rw [hview] at hscreen
  exact hwidths hscreen

theorem not_shown_of_hidden {view : UIImageView} (hview : view.isHidden = true) :
    ¬view.Shown := by
  rintro ⟨hshown, -⟩
  simp [hview] at hshown

/-! ### The phases of a gesture -/

variable {P : List UIImage} {side : Side} {i : ℤ} {vc : PictureViewController}

@[simp] theorem view_setView_self (view : UIImageView) :
    (vc.setView view side).view side = view := by
  cases side <;> rfl

@[simp] theorem view_setView_other (view : UIImageView) :
    (vc.setView view side).view side.other = vc.view side.other := by
  cases side <;> rfl

@[simp] theorem view_other_setView (view : UIImageView) :
    (vc.setView view side.other).view side = vc.view side := by
  cases side <;> rfl

theorem Loaded.setView (h : Loaded P i vc) (view : UIImageView) (side : Side) :
    Loaded P i (vc.setView view side) := by
  cases side with
  | one => exact ⟨h.cached, h.listed, h.count, h.nonneg, h.lt⟩
  | two => exact ⟨h.cached, h.listed, h.count, h.nonneg, h.lt⟩

theorem Active.panTo (h : Active P side i vc) {transform : CGAffineTransform}
    (ht : transform.OnScreen) : Active P side i (vc.panTo side transform) := by
  refine ⟨h.loaded.setView _ _, ?_, ?_, ?_⟩
  · simp [PictureViewController.panTo, h.image]
  · simpa [PictureViewController.panTo, UIImageView.Shown, h.shown.1] using ht
  · simpa [PictureViewController.panTo] using h.resting

/-- At the ends of the list the count is put back to what it was. -/
theorem Active.putBack (h : Active P side i vc) {count : ℤ} (hcount : count = i) :
    Active P side i ({ vc with count := count }.panTo side .identity) := by
  obtain rfl : vc.count = count := h.loaded.count.trans hcount.symm
  exact h.panTo trivial

/-- The pictures change hands at any index of the list. -/
theorem Active.turn (h : Active P side i vc) {count widths : ℤ} (h0 : 0 ≤ count)
    (hlt : count < P.length) (hwidths : widths ≠ 0) :
    ∃ vc', vc.turn side count widths = some vc' ∧ Shows P count vc' := by
  obtain ⟨images, himages⟩ : ∃ images, subscript vc.photosCached count = some images := by
    rw [h.loaded.cached]
    exact exists_subscript h0 hlt
  have hloaded : Loaded P count { vc with count := count } :=
    ⟨h.loaded.cached, h.loaded.listed, rfl, h0, hlt⟩
  unfold PictureViewController.turn
  rw [himages]
  refine ⟨_, rfl, side.other, (hloaded.setView _ _).setView _ _, ?_, ?_, ?_⟩
  · simp [PictureViewController.panTo, ← h.loaded.cached, himages]
  · simp [PictureViewController.panTo, UIImageView.Shown, CGAffineTransform.identity,
      CGAffineTransform.OnScreen]
  · refine not_shown_of_translation (?_ : _ = CGAffineTransform.translationX widths 0) hwidths
    simp [PictureViewController.panTo]

/-- The end of a gesture turns the page, whichever the handler. -/
theorem Active.endPan (h : Active P side i vc) {length leftWidths : ℤ}
    (hlength : length = P.length) (hwidths : leftWidths ≠ 0) (minX : ℚ) :
    ∃ vc', vc.endPan side length leftWidths minX = some vc' ∧
      Shows P (Pager.move P.length i (Swipe.of minX)) vc' := by
  have hcount := h.loaded.count
  have hlisted := h.loaded.listed
  have h0 := h.loaded.nonneg
  have hlt := h.loaded.lt
  unfold PictureViewController.endPan Swipe.of
  by_cases hright : 100 ≤ minX
  · simp only [if_pos hright, Pager.move]
    by_cases hrange : 0 ≤ vc.count - 1 ∧ vc.count - 1 < vc.photosList.length
    · have hmove : max (i - 1) 0 = vc.count - 1 := by omega
      rw [if_pos hrange, hmove]
      exact h.turn hrange.1 (by omega) (by decide)
    · have hmove : max (i - 1) 0 = i := by omega
      rw [if_neg hrange, hmove]
      exact ⟨_, rfl, side, h.putBack (by omega)⟩
  · by_cases hleft : minX ≤ -100
    · simp only [if_neg hright, if_pos hleft, Pager.move]
      by_cases hrange : vc.count + 1 < length
      · have hmove : min (i + 1) (P.length - 1) = vc.count + 1 := by omega
        rw [if_pos hrange, hmove]
        exact h.turn (by omega) (by omega) hwidths
      · have hmove : min (i + 1) ((P.length : ℤ) - 1) = i := by omega
        rw [if_neg hrange, hmove]
        exact ⟨_, rfl, side, h.putBack (by omega)⟩
    · simp only [if_neg hright, if_neg hleft, Pager.move]
      exact ⟨_, rfl, side, h.panTo trivial⟩

theorem Active.animated (h : Active P side i vc) :
    Active P side i { vc with interactiveAnimate := true } := by
  have hloaded : Loaded P i { vc with interactiveAnimate := true } :=
    ⟨h.loaded.cached, h.loaded.listed, h.loaded.count, h.loaded.nonneg, h.loaded.lt⟩
  cases side with
  | one => exact ⟨hloaded, h.image, h.shown, h.resting⟩
  | two => exact ⟨hloaded, h.image, h.shown, h.resting⟩

theorem Active.hideTwo (h : Active P .one i vc) : Active P .one i vc.hideTwo :=
  ⟨⟨h.loaded.cached, h.loaded.listed, h.loaded.count, h.loaded.nonneg, h.loaded.lt⟩, h.image,
    h.shown, not_shown_of_hidden rfl⟩

theorem Active.hideOne (h : Active P .two i vc) :
    ∃ vc', vc.hideOne = some vc' ∧ Active P .two i vc' ∧
      vc'.interactiveAnimate = vc.interactiveAnimate := by
  obtain ⟨images, himages⟩ := exists_subscript h.loaded.nonneg h.loaded.lt
  unfold PictureViewController.hideOne
  rw [h.loaded.cached, h.loaded.count, himages]
  exact ⟨_, rfl, ⟨⟨rfl, h.loaded.listed, rfl, h.loaded.nonneg, h.loaded.lt⟩, h.image,
    h.shown, not_shown_of_hidden rfl⟩, rfl⟩

/-! ### A whole gesture -/

/-- What a handler does in each phase of a gesture on the view it is for:
the picture stays until the end, and the end turns the page. -/
structure Pages (P : List UIImage) (side : Side)
    (on : PictureViewController → PanState → Option PictureViewController) : Prop where
  began : ∀ {i vc}, Active P side i vc →
    ∃ vc', on vc .began = some vc' ∧ Active P side i vc' ∧ vc'.interactiveAnimate = true
  changed : ∀ {i vc} x, Active P side i vc → vc.interactiveAnimate = true →
    ∃ vc', on vc (.changed x) = some vc' ∧ Active P side i vc' ∧ vc'.interactiveAnimate = true
  ended : ∀ {i vc} minX, Active P side i vc → vc.interactiveAnimate = true →
    ∃ vc', on vc (.ended minX) = some vc' ∧ Shows P (Pager.move P.length i (Swipe.of minX)) vc'
  cancelled : ∀ {i vc}, Active P side i vc → ∃ vc', on vc .cancelled = some vc' ∧ Shows P i vc'

theorem pages_onPanImg1 : Pages P .one onPanImg1 where
  began h := ⟨_, rfl, h.hideTwo.animated, rfl⟩
  changed x h ha := ⟨_, rfl, h.hideTwo.panTo rfl, ha⟩
  ended := by
    intro i vc minX h ha
    have hlength : (vc.hideTwo.photosCached.length : ℤ) = P.length := by
      rw [h.hideTwo.loaded.cached]
    obtain ⟨vc', hvc', hshows⟩ := h.hideTwo.endPan hlength one_ne_zero minX
    exact ⟨vc', by rw [onPanImg1]; exact (if_pos ha).trans hvc', hshows⟩
  cancelled h := ⟨_, rfl, .one, h.hideTwo⟩

theorem pages_onPanImg2 : Pages P .two onPanImg2 where
  began h := by
    obtain ⟨vc₁, hvc₁, hactive, -⟩ := h.hideOne
    have hscreen : CGAffineTransform.identity.OnScreen := trivial
    refine ⟨{ vc₁ with interactiveAnimate := true }.panTo .two .identity, ?_,
      hactive.animated.panTo hscreen, rfl⟩
    rw [onPanImg2, hvc₁]
    rfl
  changed x h ha := by
    obtain ⟨vc₁, hvc₁, hactive, hanimate⟩ := h.hideOne
    refine ⟨vc₁.panTo .two (.translationX 0 (x / 2)), ?_, hactive.panTo rfl, hanimate.trans ha⟩
    rw [onPanImg2, hvc₁]
    rfl
  ended minX h ha := by
    obtain ⟨vc₁, hvc₁, hactive, hanimate⟩ := h.hideOne
    have hlength : (vc₁.photosList.length : ℤ) = P.length := by rw [hactive.loaded.listed]
    obtain ⟨vc', hvc', hshows⟩ := hactive.endPan hlength (neg_ne_zero.mpr one_ne_zero) minX
    refine ⟨vc', ?_, hshows⟩
    rw [onPanImg2, hvc₁]
    exact (if_pos (hanimate.trans ha)).trans hvc'
  cancelled h := by
    obtain ⟨vc₁, hvc₁, hactive, -⟩ := h.hideOne
    exact ⟨vc₁, by rw [onPanImg2, hvc₁]; rfl, .two, hactive⟩

section Gestures

variable {on : PictureViewController → PanState → Option PictureViewController}

theorem Pages.run_moves (h : Pages P side on) (moves : List ℚ) (hactive : Active P side i vc)
    (ha : vc.interactiveAnimate = true) :
    ∃ vc', Runs.run on vc (moves.map .changed) = some vc' ∧ Active P side i vc' ∧
      vc'.interactiveAnimate = true := by
  induction moves generalizing vc with
  | nil => exact ⟨vc, rfl, hactive, ha⟩
  | cons x moves ih =>
      obtain ⟨vc₁, hvc₁, hactive₁, ha₁⟩ := h.changed x hactive ha
      obtain ⟨vc', hvc', hrest⟩ := ih hactive₁ ha₁
      exact ⟨vc', Runs.run_cons_eq_some.mpr ⟨vc₁, hvc₁, hvc'⟩, hrest⟩

theorem Pages.run_states (h : Pages P side on) (g : Gesture) (hactive : Active P side i vc) :
    ∃ vc', Runs.run on vc g.states = some vc' ∧
      Shows P (Pager.move P.length i g.swipe) vc' := by
  obtain ⟨vc₁, hvc₁, hactive₁, ha₁⟩ := h.began hactive
  obtain ⟨vc₂, hvc₂, hactive₂, ha₂⟩ := h.run_moves g.moves hactive₁ ha₁
  have hmoves : Runs.run on vc (.began :: g.moves.map .changed) = some vc₂ :=
    Runs.run_cons_eq_some.mpr ⟨vc₁, hvc₁, hvc₂⟩
  unfold Gesture.states Gesture.swipe
  rw [Runs.run_append, hmoves, Option.bind_some]
  cases g.minX with
  | none =>
      obtain ⟨vc', hvc', hshows⟩ := h.cancelled hactive₂
      exact ⟨vc', Runs.run_cons_eq_some.mpr ⟨vc', hvc', rfl⟩, hshows⟩
  | some minX =>
      obtain ⟨vc', hvc', hshows⟩ := h.ended minX hactive₂ ha₂
      exact ⟨vc', Runs.run_cons_eq_some.mpr ⟨vc', hvc', rfl⟩, hshows⟩

end Gestures

/-- One step of the simulation: a gesture on the view that is shown turns
the page of the screen as it turns the page of the pager. -/
theorem shows_pan (h : Shows P i vc) (g : Gesture) :
    ∃ vc', vc.pan g = some vc' ∧ Shows P (Pager.move P.length i g.swipe) vc' := by
  unfold pan
  obtain ⟨side, hactive⟩ := h
  cases side with
  | one =>
      have hone : vc.imagesFriendOne.Shown := hactive.shown
      rw [if_pos hone]
      exact pages_onPanImg1.run_states g hactive
  | two =>
      have hone : ¬vc.imagesFriendOne.Shown := hactive.resting
      have htwo : vc.imagesFriendTwo.Shown := hactive.shown
      rw [if_neg hone, if_pos htwo]
      exact pages_onPanImg2.run_states g hactive

theorem shows_run (h : Shows P i vc) (gestures : List Gesture) :
    ∃ vc', Runs.run pan vc gestures = some vc' ∧
      Shows P ((gestures.map Gesture.swipe).foldl (Pager.move P.length) i) vc' := by
  induction gestures generalizing i vc with
  | nil => exact ⟨vc, rfl, h⟩
  | cons g gestures ih =>
      obtain ⟨vc₁, hvc₁, hshows₁⟩ := shows_pan h g
      obtain ⟨vc', hvc', hshows⟩ := ih hshows₁
      exact ⟨vc', Runs.run_cons_eq_some.mpr ⟨vc₁, hvc₁, hvc'⟩, hshows⟩

theorem length_of_mapM {α β : Type} {f : α → Option β} {xs : List α} {ys : List β}
    (h : xs.mapM f = some ys) : ys.length = xs.length := by
  induction xs generalizing ys with
  | nil =>
      obtain rfl := Option.some.inj h
      rfl
  | cons x xs ih =>
      rw [List.mapM_cons] at h
      obtain ⟨y, -, h⟩ := Option.bind_eq_some_iff.mp h
      obtain ⟨ys', hys', h⟩ := Option.bind_eq_some_iff.mp h
      obtain rfl := Option.some.inj h
      rw [List.length_cons, List.length_cons, ih hys']

theorem isSome_mapM_iff {α β : Type} {f : α → Option β} {xs : List α} :
    (xs.mapM f).isSome ↔ ∀ x ∈ xs, (f x).isSome := by
  induction xs with
  | nil => simp
  | cons x xs ih =>
      rw [List.mapM_cons, List.forall_mem_cons, ← ih]
      cases f x with
      | none => simp
      | some y =>
          cases xs.mapM f with
          | none => simp
          | some ys => simp

theorem shows_viewDidLoad {getImage : String → Option UIImage} {photosList : List PhotosVK}
    (h : viewDidLoad getImage photosList = some vc) : Shows vc.photosCached 0 vc := by
  obtain ⟨photosCached, hcached, h⟩ := Option.bind_eq_some_iff.mp h
  obtain ⟨images, himages, h⟩ := Option.bind_eq_some_iff.mp h
  obtain rfl := Option.some.inj h
  have hlt : 0 < photosCached.length := (List.getElem?_eq_some_iff.mp himages).1
  exact ⟨.one, ⟨rfl, (length_of_mapM hcached).symm, rfl, le_refl 0, by exact_mod_cast hlt⟩,
    himages.symm, ⟨rfl, trivial⟩, not_shown_of_hidden rfl⟩

/-- **The gallery is a clamped pager.** From the loaded photos on, whatever
is panned, every subscript is in range, the count is the index of the pager,
and exactly one view is shown, with the picture at that index. -/
theorem gallery_pages (getImage : String → Option UIImage) (photosList : List PhotosVK)
    (start : PictureViewController) (hstart : viewDidLoad getImage photosList = some start)
    (gestures : List Gesture) :
    ∃ vc images, Runs.run pan start gestures = some vc ∧
      vc.count =
        (gestures.map Gesture.swipe).foldl (Pager.move start.photosCached.length) 0 ∧
      subscript start.photosCached vc.count = some images ∧
      (vc.imagesFriendOne.Shown ∧ vc.imagesFriendOne.image = some images ∧
          ¬vc.imagesFriendTwo.Shown ∨
        vc.imagesFriendTwo.Shown ∧ vc.imagesFriendTwo.image = some images ∧
          ¬vc.imagesFriendOne.Shown) := by
  obtain ⟨vc, hvc, hshows⟩ := shows_run (shows_viewDidLoad hstart) gestures
  obtain ⟨side, hactive⟩ := hshows
  have hcount := hactive.loaded.count
  obtain ⟨images, himages⟩ := exists_subscript hactive.loaded.nonneg hactive.loaded.lt
  have himage := hactive.image.trans himages
  refine ⟨vc, images, hvc, hcount, hcount ▸ himages, ?_⟩
  cases side with
  | one => exact .inl ⟨hactive.shown, himage, hactive.resting⟩
  | two => exact .inr ⟨hactive.shown, himage, hactive.resting⟩

/-- Two photos, a swipe to the second one and one beyond the end. -/
theorem gallery_pages_two :
    ∃ vc images, Runs.run pan
        { photosList := [⟨"a"⟩, ⟨"b"⟩]
          photosCached := [[1], [2]]
          imagesFriendOne := { image := some [1] }
          imagesFriendTwo := { isHidden := true } }
        [⟨[-120, -240], some (-120)⟩, ⟨[-300], some (-150)⟩] = some vc ∧
      vc.count = 1 ∧ subscript [[1], [2]] vc.count = some images ∧
      (vc.imagesFriendOne.Shown ∧ vc.imagesFriendOne.image = some images ∧
          ¬vc.imagesFriendTwo.Shown ∨
        vc.imagesFriendTwo.Shown ∧ vc.imagesFriendTwo.image = some images ∧
          ¬vc.imagesFriendOne.Shown) :=
  gallery_pages (fun url => if url = "a" then some [1] else some [2]) [⟨"a"⟩, ⟨"b"⟩] _ rfl
    [⟨[-120, -240], some (-120)⟩, ⟨[-300], some (-150)⟩]

end PictureViewController

end VkClient
