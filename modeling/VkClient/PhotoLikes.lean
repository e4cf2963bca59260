import VkClient.FriendCollection

/-!
# Likes on the photo screen

The like of a photo lives in the cell that shows it: `onTap` switches the
cell's `count` and paints label and heart accordingly. `prepareForReuse`
takes the label and the heart away and leaves `count` as it is, and
`cellForItemAt` sets only the picture. A reused cell therefore shows neither
state, and starts counting where its last photo stopped; a new cell shows
the unliked state of the storyboard whatever its photo has been through.

Cells are asked for by scrolling, and by the reloads that `cellForItemAt`
queues itself when the picture it waits for has come: the item is then given
another cell, and the one that showed it goes to the pool.

So the likes are right exactly as long as the collection view has no cell to
reuse and asks for no cell of a photo that is liked (`likes_iff`).
-/

namespace VkClient

inductive UIColor where
  | systemLink
  | black
  | red
  | blue
deriving DecidableEq, Repr

/-- `likeImage` is the name of the system image. The defaults are those of
the storyboard. -/
structure FriendsCollectionCell where
  friendImageView : Option UIImage := none
  likeImage : Option String := some "heart"
  tintColor : UIColor := .systemLink
  countLikeLabel : Option String := some "0"
  textColor : UIColor := .black
  count : Int := 0
deriving DecidableEq, Repr

namespace FriendsCollectionCell

def onTap (cell : FriendsCollectionCell) : FriendsCollectionCell :=
  if cell.count = 0 then
    { cell with
      count := cell.count + 1
      countLikeLabel := some (toString (cell.count + 1))
      likeImage := some "heart.fill"
      tintColor := .red
      textColor := .red }
  else
    { cell with
      count := 0
      countLikeLabel := some (toString (0 : Int))
      likeImage := some "heart"
      tintColor := .blue
      textColor := .black }

def prepareForReuse (cell : FriendsCollectionCell) : FriendsCollectionCell :=
  { cell with friendImageView := none, likeImage := none, countLikeLabel := none }

/-- What `cellForItemAt` does to the cell it has dequeued. -/
def setImage (cell : FriendsCollectionCell) (image : Option UIImage) : FriendsCollectionCell :=
  match image with
  | none => cell
  | some cached => { cell with friendImageView := some cached }

/-- The liked state, label 1 and a filled heart, or the unliked one. -/
def ShowsLike (cell : FriendsCollectionCell) (liked : Bool) : Prop :=
  cell.countLikeLabel = some (if liked then "1" else "0") ∧
    cell.likeImage = some (if liked then "heart.fill" else "heart")

/-- The cell shows what `n` taps on its photo come to, and remembers it. -/
def Tapped (cell : FriendsCollectionCell) (n : Nat) : Prop :=
  cell.count = (n % 2 : Nat) ∧ cell.ShowsLike (decide (n % 2 = 1))

theorem tapped_onTap {cell : FriendsCollectionCell} {n : Nat} (h : cell.Tapped n) :
    cell.onTap.Tapped (n + 1) := by
  obtain ⟨hcount, -⟩ := h
  rcases Nat.mod_two_eq_zero_or_one n with hn | hn
  · have hn' : (n + 1) % 2 = 1 := by omega
    have hzero : cell.count = 0 := by rw [hcount, hn]; rfl
    rw [onTap, if_pos hzero]
    refine ⟨by simp [hzero, hn'], ?_⟩
    simp only [ShowsLike, hzero, hn']
    decide
  · have hn' : (n + 1) % 2 = 0 := by omega
    have hone : cell.count = 1 := by rw [hcount, hn]; rfl
    have hne : cell.count ≠ 0 := by omega
    rw [onTap, if_neg hne]
    refine ⟨by simp [hn'], ?_⟩
    simp only [ShowsLike, hn']
    decide

theorem setImage_like (cell : FriendsCollectionCell) (image : Option UIImage) :
    (cell.setImage image).count = cell.count ∧
      (cell.setImage image).countLikeLabel = cell.countLikeLabel ∧
      (cell.setImage image).likeImage = cell.likeImage := by
  cases image with
  | none => exact ⟨rfl, rfl, rfl⟩
  | some cached => exact ⟨rfl, rfl, rfl⟩

/-- A new cell shows the unliked state. -/
theorem new_showsLike_iff {image : Option UIImage} {liked : Bool} :
    (({} : FriendsCollectionCell).setImage image).ShowsLike liked ↔ liked = false := by
  obtain ⟨-, hlabel, himage⟩ := setImage_like {} image
  rw [ShowsLike, hlabel, himage]
  cases liked <;> simp

/-- A reused cell shows neither state. -/
theorem not_showsLike_reused (cell : FriendsCollectionCell) (image : Option UIImage)
    (liked : Bool) : ¬(cell.prepareForReuse.setImage image).ShowsLike liked := by
  obtain ⟨-, hlabel, -⟩ := setImage_like cell.prepareForReuse image
  rintro ⟨hshown, -⟩
  rw [hlabel] at hshown
  cases hshown

end FriendsCollectionCell

/-! ## The collection view -/

/-- A cell and the item it shows; a cell that shows none is there to be
reused. -/
structure CellSlot where
  cell : FriendsCollectionCell
  item : Option Nat

/-- `reloads` is what `downloadImage` has put on the main queue; `taps` counts
the taps on the like control of each photo. -/
structure LikesScreen where
  vc : FriendCollectionController
  photos : Table PhotosVK
  slots : List CellSlot := []
  reloads : List Nat := []
  taps : Nat → Nat := fun _ => 0

/-- `cellForItem` and `reloadItems` give the item the reused cell, or a new
one; `reloadItems` is the first reload on the main queue. -/
inductive LikesEvent where
  | cellForItem (item : Nat) (reused : Option Nat)
  | reloadItems (reused : Option Nat)
  | endDisplaying (k : Nat)
  | tap (k : Nat)
deriving DecidableEq, Repr

namespace LikesScreen

variable (getImage : Option String → Option UIImage) (w : LikesScreen)

def Displayed (item : Nat) : Prop := ∃ slot ∈ w.slots, slot.item = some item

/-- There is no cell to reuse. -/
def PoolEmpty : Prop := ∀ slot ∈ w.slots, slot.item ≠ none

instance (item : Nat) : Decidable (w.Displayed item) :=
  inferInstanceAs (Decidable (∃ slot ∈ w.slots, slot.item = some item))

instance : Decidable w.PoolEmpty :=
  inferInstanceAs (Decidable (∀ slot ∈ w.slots, slot.item ≠ none))

/-- `dequeueReusableCell` and `cellForItemAt`: a cell of the pool is prepared
for reuse, and a new cell is made only where the pool is empty. -/
def dequeue (item : Nat) (image : Option UIImage) : Option Nat → Option (List CellSlot)
  | none =>
      if w.PoolEmpty then
        some (w.slots ++ [{ cell := ({} : FriendsCollectionCell).setImage image, item := some item }])
      else none
  | some k => do
      let slot ← w.slots[k]?
      if slot.item = none then
        return w.slots.set k
          { cell := slot.cell.prepareForReuse.setImage image, item := some item }
      else none

/-- The collection view asks for a cell. -/
def request (item : Nat) (reused : Option Nat) : Option LikesScreen := do
  let (image, vc, reloads) ← w.vc.cellForItemAt getImage w.photos item
  let slots ← w.dequeue item image reused
  return { w with vc := vc, slots := slots, reloads := w.reloads ++ reloads }

/-- A cell leaves the screen and goes to the pool. -/
def release (k : Nat) : LikesScreen :=
  { w with slots := w.slots.modify k fun slot => { slot with item := none } }

/-- `reloadItems(at:)` asks for a cell if the item is on the screen, and then
takes the old one off it. -/
def reload (item : Nat) (reused : Option Nat) : Option LikesScreen :=
  match w.slots.findIdx? (·.item = some item) with
  | none => some w
  | some k => (w.request getImage item reused).map fun w' => w'.release k

def step : LikesEvent → Option LikesScreen
  | .cellForItem item reused => if w.Displayed item then none else w.request getImage item reused
  | .reloadItems reused =>
      match w.reloads with
      | [] => none
      | item :: reloads => { w with reloads := reloads }.reload getImage item reused
  | .endDisplaying k => do
      let slot ← w.slots[k]?
      if slot.item = none then none
      else return w.release k
  | .tap k => do
      let slot ← w.slots[k]?
      let item ← slot.item
      return { w with
        slots := w.slots.set k { slot with cell := slot.cell.onTap }
        taps := Function.update w.taps item (w.taps item + 1) }

/-- The item the event asks for a cell of. -/
def asked : LikesEvent → Option Nat
  | .cellForItem item _ => some item
  | .reloadItems _ => w.reloads.head?.filter fun item => w.Displayed item
  | _ => none

/-- Every cell on the screen shows whether its photo has been tapped an odd
number of times. -/
def LikesRight : Prop :=
  ∀ slot ∈ w.slots, ∀ item, slot.item = some item →
    slot.cell.ShowsLike (decide (w.taps item % 2 = 1))

/-- A cell is asked for only while there is none to reuse, and only for a
photo that has been tapped an even number of times. -/
def AsksNew (e : LikesEvent) : Prop :=
  ∀ item, w.asked e = some item → (w.step getImage e).isSome →
    w.PoolEmpty ∧ w.taps item % 2 = 0

/-- The invariant: every item is shown once at most, by a cell that shows
and remembers its taps. -/
structure Counted : Prop where
  tapped : ∀ (i : Nat) (slot : CellSlot) (item : Nat),
    w.slots[i]? = some slot → slot.item = some item → slot.cell.Tapped (w.taps item)
  once : ∀ (i j : Nat) (slot slot' : CellSlot) (item : Nat),
    w.slots[i]? = some slot → w.slots[j]? = some slot' →
    slot.item = some item → slot'.item = some item → i = j

variable {getImage w} {w' : LikesScreen}

theorem likesRight_of_counted (hw : w.Counted) : w.LikesRight := by
  intro slot hslot item hitem
  obtain ⟨i, hi⟩ := List.getElem?_of_mem hslot
  exact (hw.tapped i slot item hi hitem).2

/-- One slot becomes `new`, and the others stay as they are. -/
theorem counted_replace {k : Nat} {new : CellSlot} (hw : w.Counted)
    (hslots : ∀ i slot, w'.slots[i]? = some slot →
      i = k ∧ slot = new ∨ i ≠ k ∧ w.slots[i]? = some slot)
    (hnew : ∀ item, new.item = some item → new.cell.Tapped (w'.taps item))
    (hothers : ∀ i slot item, i ≠ k → w.slots[i]? = some slot → slot.item = some item →
      w'.taps item = w.taps item ∧ new.item ≠ some item) : w'.Counted := by
  constructor
  · intro i slot item hi hitem
    rcases hslots i slot hi with ⟨-, rfl⟩ | ⟨hne, hold⟩
    · exact hnew item hitem
    · rw [(hothers i slot item hne hold hitem).1]
      exact hw.tapped i slot item hold hitem
  · intro i j slot slot' item hi hj hitem hitem'
    rcases hslots i slot hi with ⟨rfl, rfl⟩ | ⟨hne, hold⟩
    · rcases hslots j slot' hj with ⟨rfl, -⟩ | ⟨hne', hold'⟩
      · rfl
      · exact absurd hitem (hothers j slot' item hne' hold' hitem').2
    · rcases hslots j slot' hj with ⟨rfl, rfl⟩ | ⟨hne', hold'⟩
      · exact absurd hitem' (hothers i slot item hne hold hitem).2
      · exact hw.once i j slot slot' item hold hold' hitem hitem'

theorem getElem?_set_cases {slots : List CellSlot} {k i : Nat} {new slot : CellSlot}
    (h : (slots.set k new)[i]? = some slot) :
    i = k ∧ slot = new ∨ i ≠ k ∧ slots[i]? = some slot := by
  rw [List.getElem?_set] at h
  split at h
  · rename_i hk
    obtain ⟨-, h⟩ := Option.ite_none_right_eq_some.mp h
    exact .inl ⟨hk.symm, (Option.some.inj h).symm⟩
  · rename_i hk
    exact .inr ⟨fun hi => hk hi.symm, h⟩

theorem getElem?_append_cases {slots : List CellSlot} {i : Nat} {new slot : CellSlot}
    (h : (slots ++ [new])[i]? = some slot) :
    i = slots.length ∧ slot = new ∨ i ≠ slots.length ∧ slots[i]? = some slot := by
  rcases Nat.lt_trichotomy i slots.length with hi | hi | hi
  · rw [List.getElem?_append_left hi] at h
    exact .inr ⟨by omega, h⟩
  · subst hi
    rw [List.getElem?_append_right (le_refl _), Nat.sub_self] at h
    exact .inl ⟨rfl, (Option.some.inj h).symm⟩
  · rw [List.getElem?_eq_none (by simp; omega)] at h
    cases h

/-! ### The events -/

theorem request_eq_some {item : Nat} {reused : Option Nat} :
    w.request getImage item reused = some w' ↔
      ∃ image vc reloads slots,
        w.vc.cellForItemAt getImage w.photos item = some (image, vc, reloads) ∧
        w.dequeue item image reused = some slots ∧
        w' = { w with vc := vc, slots := slots, reloads := w.reloads ++ reloads } := by
  simp only [request, Option.bind_eq_bind, Option.bind_eq_some_iff, Prod.exists, Option.pure_def,
    Option.some.injEq]
  refine exists_congr fun image => exists_congr fun vc => exists_congr fun reloads => ?_
  constructor
  · rintro ⟨hcell, slots, hslots, rfl⟩
    exact ⟨slots, hcell, hslots, rfl⟩
  · rintro ⟨slots, hcell, hslots, rfl⟩
    exact ⟨hcell, slots, hslots, rfl⟩

theorem dequeue_new_eq_some {item : Nat} {image : Option UIImage} {slots : List CellSlot} :
    w.dequeue item image none = some slots ↔
      w.PoolEmpty ∧ slots =
        w.slots ++ [{ cell := ({} : FriendsCollectionCell).setImage image, item := some item }] := by
  simp only [dequeue, Option.ite_none_right_eq_some, Option.some.injEq]
  exact and_congr_right fun _ => eq_comm

theorem dequeue_reused_eq_some {item k : Nat} {image : Option UIImage}
    {slots : List CellSlot} :
    w.dequeue item image (some k) = some slots ↔
      ∃ slot, w.slots[k]? = some slot ∧ slot.item = none ∧ slots = w.slots.set k
        { cell := slot.cell.prepareForReuse.setImage image, item := some item } := by
  simp only [dequeue, Option.bind_eq_bind, Option.bind_eq_some_iff, Option.ite_none_right_eq_some,
    Option.pure_def, Option.some.injEq]
  exact exists_congr fun _ => and_congr_right fun _ => and_congr_right fun _ => eq_comm

/-- Where no cell shows anything new, nothing new can be wrong. -/
theorem counted_of_shown (hw : w.Counted) (htaps : w'.taps = w.taps)
    (hshown : ∀ (i : Nat) (slot : CellSlot) (item : Nat), w'.slots[i]? = some slot →
      slot.item = some item → w.slots[i]? = some slot) : w'.Counted where
  tapped i slot item hi hitem := by
    rw [htaps]
    exact hw.tapped i slot item (hshown i slot item hi hitem) hitem
  once i j slot slot' item hi hj hitem hitem' :=
    hw.once i j slot slot' item (hshown i slot item hi hitem) (hshown j slot' item hj hitem')
      hitem hitem'

theorem getElem?_release {k i : Nat} {slot : CellSlot} (h : (w.release k).slots[i]? = some slot) :
    i = k ∧ slot.item = none ∨ i ≠ k ∧ w.slots[i]? = some slot := by
  rw [release, List.getElem?_modify] at h
  obtain ⟨old, hold, rfl⟩ := Option.map_eq_some_iff.mp h
  by_cases hk : k = i
  · rw [if_pos hk]
    exact .inl ⟨hk.symm, rfl⟩
  · rw [if_neg hk]
    exact .inr ⟨fun hi => hk hi.symm, hold⟩

theorem modify_append {α : Type} (f : α → α) {xs : List α} {k : Nat} (hk : k < xs.length) (x : α) :
    (xs ++ [x]).modify k f = xs.modify k f ++ [x] := by
  induction xs generalizing k with
  | nil => cases hk
  | cons y xs ih =>
      cases k with
      | zero => rfl
      | succ k =>
          rw [List.cons_append, List.modify_succ_cons, List.modify_succ_cons,
            ih (Nat.lt_of_succ_lt_succ hk), List.cons_append]

theorem counted_release (hw : w.Counted) (k : Nat) : (w.release k).Counted := by
  refine counted_of_shown hw rfl fun i slot item hi hitem => ?_
  rcases getElem?_release hi with ⟨-, hnone⟩ | ⟨-, hold⟩
  · rw [hnone] at hitem
    cases hitem
  · exact hold

/-- A new cell for an item that none shows. -/
theorem counted_append {item : Nat} {image : Option UIImage} (hw : w.Counted)
    (hdisplayed : ¬w.Displayed item) (heven : w.taps item % 2 = 0)
    (hslots : w'.slots =
      w.slots ++ [{ cell := ({} : FriendsCollectionCell).setImage image, item := some item }])
    (htaps : w'.taps = w.taps) : w'.Counted := by
  refine counted_replace hw (fun i slot hi => getElem?_append_cases (hslots ▸ hi))
    (fun item' hitem' => ?_) (fun i slot item' _ hslot hitem' => ⟨congrFun htaps item', ?_⟩)
  · obtain rfl : item = item' := Option.some.inj hitem'
    obtain ⟨hcount, -⟩ := FriendsCollectionCell.setImage_like {} image
    rw [htaps]
    refine ⟨by rw [hcount, heven]; rfl, FriendsCollectionCell.new_showsLike_iff.mpr ?_⟩
    simp [heven]
  · intro hsame
    obtain rfl : item = item' := Option.some.inj hsame
    exact hdisplayed ⟨slot, List.mem_of_getElem? hslot, hitem'⟩

theorem counted_endDisplaying {k : Nat} (hw : w.Counted)
    (h : w.step getImage (.endDisplaying k) = some w') : w'.Counted := by
  obtain ⟨slot, -, h⟩ := Option.bind_eq_some_iff.mp h
  obtain ⟨-, h⟩ := Option.ite_none_left_eq_some.mp h
  obtain rfl := Option.some.inj h
  exact counted_release hw k

theorem counted_tap {k : Nat} (hw : w.Counted)
    (h : w.step getImage (.tap k) = some w') : w'.Counted := by
  obtain ⟨slot, hslot, h⟩ := Option.bind_eq_some_iff.mp h
  obtain ⟨item, hitem, h⟩ := Option.bind_eq_some_iff.mp h
  obtain rfl := Option.some.inj h
  refine counted_replace hw (fun _ _ => getElem?_set_cases) (fun item' hitem' => ?_)
    (fun i slot' item' hi hslot' hitem' => ?_)
  · obtain rfl : item = item' := Option.some.inj (hitem.symm.trans hitem')
    have htapped := FriendsCollectionCell.tapped_onTap (hw.tapped k slot item hslot hitem)
    simpa only [Function.update_self] using htapped
  · -- another cell shows another item
    have hne : item' ≠ item := by
      rintro rfl
      exact hi (hw.once i k slot' slot item' hslot' hslot hitem' hitem)
    refine ⟨Function.update_of_ne hne .., fun hsame => hne ?_⟩
    exact Option.some.inj (hsame.symm.trans hitem)

/-- A reload of an item on the screen gives it another cell, and of any other
item does nothing. -/
theorem reload_cases {item : Nat} {reused : Option Nat}
    (h : w.reload getImage item reused = some w') :
    ¬w.Displayed item ∧ w' = w ∨
      ∃ k slot w₁, w.slots[k]? = some slot ∧ slot.item = some item ∧
        w.request getImage item reused = some w₁ ∧ w' = w₁.release k := by
  unfold reload at h
  split at h
  · rename_i hnone
    refine .inl ⟨?_, (Option.some.inj h).symm⟩
    rintro ⟨slot, hslot, hitem⟩
    have hno := List.findIdx?_eq_none_iff.mp hnone slot hslot
    simp [hitem] at hno
  · rename_i k hk
    obtain ⟨w₁, hw₁, rfl⟩ := Option.map_eq_some_iff.mp h
    obtain ⟨hlt, hitem, -⟩ := List.findIdx?_eq_some_iff_getElem.mp hk
    exact .inr ⟨k, w.slots[k], w₁, List.getElem?_eq_getElem hlt, by simpa using hitem, hw₁, rfl⟩

/-- What an event that asks for a cell comes to: a cell dequeued, where none
showed the item or the one that did goes to the pool. -/
theorem step_asked {e : LikesEvent} {item : Nat} (h : w.step getImage e = some w')
    (hasked : w.asked e = some item) :
    ∃ image reused w₁, w.dequeue item image reused = some w₁.slots ∧ w₁.taps = w.taps ∧
      (¬w.Displayed item ∧ w' = w₁ ∨
        ∃ k slot, w.slots[k]? = some slot ∧ slot.item = some item ∧ w' = w₁.release k) := by
  cases e with
  | cellForItem item' reused =>
      obtain rfl := Option.some.inj hasked
      obtain ⟨hdisplayed, h⟩ := Option.ite_none_left_eq_some.mp h
      obtain ⟨image, vc, reloads, slots, -, hslots, hw'⟩ := request_eq_some.mp h
      exact ⟨image, reused, w', by rw [hw', hslots], by rw [hw'], .inl ⟨hdisplayed, rfl⟩⟩
  | reloadItems reused =>
      obtain ⟨hhead, hdisplayed⟩ := Option.filter_eq_some_iff.mp hasked
      cases hreloads : w.reloads with
      | nil =>
          rw [hreloads] at hhead
          cases hhead
      | cons item' reloads =>
          rw [hreloads] at hhead
          obtain rfl := Option.some.inj hhead
          simp only [step, hreloads] at h
          rcases reload_cases h with ⟨hnot, -⟩ | ⟨k, slot, w₁, hslot, hitem, hw₁, rfl⟩
          · exact absurd (of_decide_eq_true hdisplayed) hnot
          · obtain ⟨image, vc, reloads', slots, -, hslots, hw₁⟩ := request_eq_some.mp hw₁
            exact ⟨image, reused, w₁, hw₁ ▸ hslots, by rw [hw₁], .inr ⟨k, slot, hslot, hitem, rfl⟩⟩
  | endDisplaying k => cases hasked
  | tap k => cases hasked

/-- The other events keep the invariant. -/
theorem counted_of_not_asked {e : LikesEvent} (hw : w.Counted) (hasked : w.asked e = none)
    (h : w.step getImage e = some w') : w'.Counted := by
  cases e with
  | cellForItem item reused => cases hasked
  | reloadItems reused =>
      cases hreloads : w.reloads with
      | nil =>
          simp only [step, hreloads] at h
          cases h
      | cons item reloads =>
          simp only [step, hreloads] at h
          rcases reload_cases h with ⟨-, rfl⟩ | ⟨k, slot, w₁, hslot, hitem, -, -⟩
          · exact counted_of_shown hw rfl fun _ _ _ hi _ => hi
          · have hdisplayed : w.Displayed item := ⟨slot, List.mem_of_getElem? hslot, hitem⟩
            simp [asked, hreloads, hdisplayed] at hasked
  | endDisplaying k => exact counted_endDisplaying hw h
  | tap k => exact counted_tap hw h

/-- A cell asked for while the pool is empty, and for a photo tapped an even
number of times, is a new one, and right. -/
theorem counted_of_asked {e : LikesEvent} {item : Nat} (hw : w.Counted)
    (hasked : w.asked e = some item) (hpool : w.PoolEmpty) (heven : w.taps item % 2 = 0)
    (h : w.step getImage e = some w') : w'.Counted := by
  obtain ⟨image, reused, w₁, hslots, htaps, hafter⟩ := step_asked h hasked
  have hnew : w₁.slots =
      w.slots ++ [{ cell := ({} : FriendsCollectionCell).setImage image, item := some item }] := by
    cases reused with
    | some k =>
        obtain ⟨slot, hslot, hnone, -⟩ := dequeue_reused_eq_some.mp hslots
        exact absurd hnone (hpool slot (List.mem_of_getElem? hslot))
    | none => exact (dequeue_new_eq_some.mp hslots).2
  rcases hafter with ⟨hdisplayed, rfl⟩ | ⟨k, slot, hslot, hitem, rfl⟩
  · exact counted_append hw hdisplayed heven hnew htaps
  · -- the old cell might as well have left before the new one came
    have hk := (List.getElem?_eq_some_iff.mp hslot).1
    have hreleased : (w₁.release k).slots = (w.release k).slots ++
        [{ cell := ({} : FriendsCollectionCell).setImage image, item := some item }] := by
      rw [release, hnew]
      exact modify_append _ hk _
    have hdisplayed : ¬(w.release k).Displayed item := by
      rintro ⟨slot', hslot', hitem'⟩
      obtain ⟨i, hi⟩ := List.getElem?_of_mem hslot'
      rcases getElem?_release hi with ⟨-, hnone⟩ | ⟨hne, hold⟩
      · rw [hnone] at hitem'
        cases hitem'
      · exact hne (hw.once i k slot' slot item hold hslot hitem' hitem)
    exact counted_append (counted_release hw k) hdisplayed heven hreleased htaps

/-- The cell dequeued for an item: a new one, or one that was shown before. -/
theorem dequeue_cases {item : Nat} {image : Option UIImage} {reused : Option Nat}
    {slots : List CellSlot} (h : w.dequeue item image reused = some slots) :
    ∃ (j : Nat) (new : CellSlot), slots[j]? = some new ∧ new.item = some item ∧
      (∀ slot, w.slots[j]? = some slot → slot.item = none) ∧
      (w.PoolEmpty ∧ new.cell = ({} : FriendsCollectionCell).setImage image ∨
        ∃ old : FriendsCollectionCell, new.cell = old.prepareForReuse.setImage image) := by
  cases reused with
  | some k =>
      obtain ⟨slot, hslot, hnone, rfl⟩ := dequeue_reused_eq_some.mp h
      have hk := (List.getElem?_eq_some_iff.mp hslot).1
      refine ⟨k, _, List.getElem?_set_self hk, rfl, fun slot' hslot' => ?_, .inr ⟨slot.cell, rfl⟩⟩
      obtain rfl := Option.some.inj (hslot.symm.trans hslot')
      exact hnone
  | none =>
      obtain ⟨hpool, rfl⟩ := dequeue_new_eq_some.mp h
      refine ⟨w.slots.length, _, List.getElem?_concat_length, rfl, fun slot hslot => ?_,
        .inl ⟨hpool, rfl⟩⟩
      rw [List.getElem?_eq_none (Nat.le_refl _)] at hslot
      cases hslot

/-- A cell handed out shows a state only if it is new, and then the unliked
one. -/
theorem asksNew_of_likesRight {e : LikesEvent} {item : Nat} (h : w.step getImage e = some w')
    (hasked : w.asked e = some item) (hright : w'.LikesRight) :
    w.PoolEmpty ∧ w.taps item % 2 = 0 := by
  obtain ⟨image, reused, w₁, hslots, htaps, hafter⟩ := step_asked h hasked
  obtain ⟨j, new, hj, hitem, hfree, hcell⟩ := dequeue_cases hslots
  have hmem : new ∈ w'.slots := by
    rcases hafter with ⟨-, rfl⟩ | ⟨k, slot, hslot, hshown, rfl⟩
    · exact List.mem_of_getElem? hj
    · have hne : k ≠ j := by
        rintro rfl
        rw [hfree slot hslot] at hshown
        cases hshown
      refine List.mem_of_getElem? (i := j) ?_
      rw [release, List.getElem?_modify_ne _ _ hne, hj]
  have htaps' : w'.taps = w.taps := by
    rcases hafter with ⟨-, rfl⟩ | ⟨k, slot, -, -, rfl⟩
    · exact htaps
    · exact htaps
  have hshows := hright new hmem item hitem
  rcases hcell with ⟨hpool, hcell⟩ | ⟨old, hcell⟩
  · rw [hcell, FriendsCollectionCell.new_showsLike_iff, htaps'] at hshows
    exact ⟨hpool, by simpa using hshows⟩
  · rw [hcell] at hshows
    exact absurd hshows (FriendsCollectionCell.not_showsLike_reused old image _)

theorem counted_step {e : LikesEvent} (hw : w.Counted) (hnew : w.AsksNew getImage e)
    (h : w.step getImage e = some w') : w'.Counted := by
  cases hasked : w.asked e with
  | none => exact counted_of_not_asked hw hasked h
  | some item =>
      obtain ⟨hpool, heven⟩ := hnew item hasked (by rw [h]; rfl)
      exact counted_of_asked hw hasked hpool heven h

theorem likesRight_step_iff {e : LikesEvent} (hw : w.Counted) :
    (∀ w', w.step getImage e = some w' → w'.LikesRight) ↔ w.AsksNew getImage e := by
  constructor
  · intro h item hasked hsome
    obtain ⟨w', hw'⟩ := Option.isSome_iff_exists.mp hsome
    exact asksNew_of_likesRight hw' hasked (h w' hw')
  · intro hnew w' hw'
    exact likesRight_of_counted (counted_step hw hnew hw')

/-- The screen before its first cell. -/
def start (vc : FriendCollectionController) (photos : Table PhotosVK) : LikesScreen where
  vc := vc
  photos := photos

theorem counted_start (vc : FriendCollectionController) (photos : Table PhotosVK) :
    (start vc photos).Counted := by
  constructor
  · intro i slot item hi
    cases hi
  · intro i j slot slot' item hi
    cases hi

/-- **Likes.** Throughout a run of taps, scrolls and reconfigured cells the
visible cells show the likes of their photos exactly if no cell is asked for
while there is one to reuse, and none for a photo tapped an odd number of
times. -/
theorem likes_iff (getImage : Option String → Option UIImage) (vc : FriendCollectionController)
    (photos : Table PhotosVK) (es : List LikesEvent) :
    Runs.Throughout (step getImage) LikesRight (start vc photos) es ↔
      Runs.Always (step getImage) (AsksNew getImage) (start vc photos) es := by
  have hstart := counted_start vc photos
  rw [Runs.throughout_iff_always, and_iff_right (likesRight_of_counted hstart)]
  exact Runs.always_iff_of_inv (I := Counted) (fun _ _ hw => likesRight_step_iff hw)
    (fun _ _ _ hw hnew h => counted_step hw hnew h) hstart

def onePhoto : Table PhotosVK := Table.empty.replaceAll [⟨"a.jpg"⟩]

/-- The cell of the only photo leaves the screen and is reused for it. -/
theorem likes_lost_on_reuse :
    ¬Runs.Throughout (step fun _ => none) LikesRight
      (start { photoService := .init {}, photosList := [0] } onePhoto)
      [.cellForItem 0 none, .endDisplaying 0, .cellForItem 0 (some 0)] := by
  intro h
  have hnew := (Runs.throughout_cons.mp h).2 _ rfl
  have hended := (Runs.throughout_cons.mp hnew).2 _ rfl
  have hreused := ((Runs.throughout_cons.mp hended).2 _ rfl).head
  have hcell := hreused _ List.mem_cons_self 0 rfl
  cases hcell.1

/-- The picture of a liked photo comes, and its item is reloaded: the new cell
shows it unliked. -/
example :
    (Runs.run (step fun _ => some []) (start { photoService := .init {}, photosList := [0] } onePhoto)
        [.cellForItem 0 none, .tap 0, .reloadItems none]).map (fun w =>
      (w.slots.map fun slot => (slot.item, slot.cell.countLikeLabel), w.taps 0)) =
      some ([(none, some "1"), (some 0, some "0")], 1) := by
  decide

end LikesScreen

end VkClient
