import VkClient.FriendsTable
import VkClient.GroupsTable
import VkClient.PhotoDownloads

/-!
# Row reloads of the three tables

The friends, the groups and the news table each own a `PhotoCache`.
`loadImage` keeps the index path it was given and reloads that row when the
picture has come, whatever the table has become by then: it may have lost
the row to a swipe or a save, show another element there, or show the result
of a search.

`rowReloads_iff` says exactly which runs are spared: those where no change
of the table leaves a download in flight, or a reload on the main queue,
whose row does not show its URL any more.
-/

namespace VkClient

namespace NewsViewController

variable (realm : Realm) (vc : NewsViewController)

/-- The URL `fillGroup` asks the cache for, if the post is from the group. -/
def addAvatar (element : NewsVK) (avatars : List String) (group : Nat) :
    Option (List String) := do
  let i ← (realm .groups).read group
  let source ← negate i.id
  return if element.id = source then avatars ++ [i.photo] else avatars

/-- The URLs `cellForRowAt` asks the cache for: the avatars of the groups
the post is from, then the picture of the post. -/
def urlsAt (row : Nat) : Option (List String) := do
  let news ← (vc.newsMassiveCell realm)[row]?
  let element ← (realm .news).read news
  let avatars ← (vc.groupsMassive realm).foldlM (addAvatar realm element) []
  return avatars ++ [element.newsPhoto]

variable {vc}

theorem fillGroup_loads (cache : PhotoCache) (element : NewsVK) (cell : NewsCell)
    (avatars : List String) (group : Nat) :
    (fillGroup realm cache element (cell, cache.loads avatars) group).map Prod.snd =
      (addAvatar realm element avatars group).map cache.loads := by
  unfold fillGroup addAvatar
  cases (realm .groups).read group with
  | none => rfl
  | some i =>
      cases hsource : negate i.id with
      | none => simp [hsource]
      | some source =>
          by_cases hid : element.id = source
          · simp [hsource, hid, PhotoCache.loads]
          · simp [hsource, hid]

theorem foldlM_fillGroup (cache : PhotoCache) (element : NewsVK) (groups : List Nat)
    (cell : NewsCell) (avatars : List String) :
    (groups.foldlM (fillGroup realm cache element) (cell, cache.loads avatars)).map Prod.snd =
      (groups.foldlM (addAvatar realm element) avatars).map cache.loads := by
  induction groups generalizing cell avatars with
  | nil => rfl
  | cons group groups ih =>
      have hgroup := fillGroup_loads realm cache element cell avatars group
      rw [List.foldlM_cons, List.foldlM_cons]
      cases hfill : fillGroup realm cache element (cell, cache.loads avatars) group with
      | none =>
          rw [hfill, Option.map_none, eq_comm, Option.map_eq_none_iff] at hgroup
          rw [hgroup]
          rfl
      | some filled =>
          obtain ⟨filledCell, loads⟩ := filled
          rw [hfill, Option.map_some, eq_comm, Option.map_eq_some_iff] at hgroup
          obtain ⟨avatars', havatars, rfl⟩ := hgroup
          rw [havatars]
          exact ih filledCell avatars'

/-- The downloads a cell of the news table starts are those of the URLs the
row asks for. -/
theorem loads_cellForRowAt (cache : PhotoCache) (cell : NewsCell) (row : Nat) :
    (vc.cellForRowAt realm cache cell row).map Prod.snd =
      (vc.urlsAt realm row).map cache.loads := by
  cases hnews : (vc.newsMassiveCell realm)[row]? with
  | none => simp [cellForRowAt, urlsAt, hnews]
  | some news =>
      cases hread : (realm .news).read news with
      | none => simp [cellForRowAt, urlsAt, hnews, hread]
      | some element =>
          have hfold := foldlM_fillGroup realm cache element (vc.groupsMassive realm)
            (cell.setTexts element) []
          rw [cellForRowAt_of_read hnews hread]
          simp only [urlsAt, hnews, hread, Option.bind_eq_bind, Option.bind_some]
          simp only [PhotoCache.loads, List.flatMap_nil] at hfold
          cases havatars : (vc.groupsMassive realm).foldlM (addAvatar realm element) [] with
          | none =>
              rw [havatars, Option.map_none, Option.map_eq_none_iff] at hfold
              simp [hfold]
          | some avatars =>
              rw [havatars, Option.map_some, Option.map_eq_some_iff] at hfold
              obtain ⟨filled, hfilled, hloads⟩ := hfold
              simp [hfilled, hloads, PhotoCache.loads]

end NewsViewController

/-! ## The owners -/

inductive PhotoOwner where
  | friends (w : FriendsScreen)
  | groups (w : GroupsScreen)
  | news (realm : Realm) (vc : NewsViewController)

/-- `save` and `deleteGroup` are the commits the news screen follows. -/
inductive OwnerChange where
  | friends (e : FriendsEvent)
  | groups (e : GroupsEvent)
  | updateNews
  | save (e : Entity) (objects : List e.Object)
  | deleteGroup (group : Nat)

namespace PhotoOwner

variable (T : TextOps) (rangeOf : String → String → Bool) (N : Notifier GroupsVK)

def urlsAt (indexPath : IndexPath) : PhotoOwner → Option (List String)
  | friends w => (w.vc.cellForRowAt T w.table indexPath).map fun element => [element.val.photo]
  | groups w =>
      if indexPath.sect = 0 then
        (w.vc.cellForRowAt w.groups indexPath.row).map fun element => [element.photo]
      else none
  | news realm vc => if indexPath.sect = 0 then vc.urlsAt realm indexPath.row else none

def change : PhotoOwner → OwnerChange → Option PhotoOwner
  | friends w, .friends e => (w.step T e).map friends
  | groups w, .groups e => (w.step rangeOf N e).map groups
  | news realm vc, .updateNews => some (news realm (vc.reloadData realm))
  | news realm vc, .save e objects => some (news (realm.save e .committed objects) vc)
  | news realm vc, .deleteGroup group =>
      some (news (Function.update realm .groups ((realm .groups).delete group)) vc)
  | _, _ => none

def source : RowSource PhotoOwner OwnerChange where
  urlsAt owner indexPath := owner.urlsAt T indexPath
  change owner c := owner.change T rangeOf N c

/-- The screen with its cache before the first cell is asked for. -/
def loader (owner : PhotoOwner) (cache : PhotoCache) : PhotoLoader PhotoOwner where
  owner := owner
  cache := cache

theorem loader_targeted (owner : PhotoOwner) (cache : PhotoCache) :
    (owner.loader cache).Targeted (source T rangeOf N) := by
  rintro d (hd | hd)
  · exact absurd hd List.not_mem_nil
  · exact absurd hd List.not_mem_nil

/-- **Row reloads.** For each of the three tables, the reloads of a run are
right, and so are those its pending downloads can still lead to while the
table stands still, exactly if every change of the table keeps the targets
of what is pending. -/
theorem rowReloads_iff (owner : PhotoOwner) (cache : PhotoCache)
    (es : List (LoaderEvent OwnerChange)) :
    (Runs.Always (PhotoLoader.step (source T rangeOf N)) (PhotoLoader.RightRow (source T rangeOf N))
        (owner.loader cache) es ∧
      Runs.Throughout (PhotoLoader.step (source T rangeOf N)) (PhotoLoader.Safe (source T rangeOf N))
        (owner.loader cache) es) ↔
      Runs.Always (PhotoLoader.step (source T rangeOf N))
        (PhotoLoader.KeepsTargets (source T rangeOf N)) (owner.loader cache) es := by
  have hstart := loader_targeted T rangeOf N owner cache
  rw [← PhotoLoader.safe_throughout_iff hstart]
  exact and_iff_right_of_imp PhotoLoader.rightRow_of_safe

def oneFriend : Table FriendsVK :=
  Table.empty.replaceAll [{ id := 1, name := "Anna Ivanova", photo := "anna.jpg" }]

/-- The row of the only friend is asked for, a save of the empty list takes
it away, the picture comes, and its row is reloaded all the same. -/
theorem rowReloads_after_empty_save :
    ¬Runs.Always
      (PhotoLoader.step (source .ascii (· == ·) (Notifier.afterCommon GroupsVK)))
      (PhotoLoader.RightRow (source .ascii (· == ·) (Notifier.afterCommon GroupsVK)))
      (loader (friends (FriendsScreen.viewDidLoad .ascii {} oneFriend)) ⟨fun _ => none⟩)
      [.cell ⟨0, 0⟩, .change (.friends (.commit (.save []))),
        .loaded ⟨⟨0, 0⟩, "anna.jpg"⟩ [], .reloadRow ⟨⟨0, 0⟩, "anna.jpg"⟩] := by
  intro h
  have hcell := (Runs.always_cons.mp h).2 _ rfl
  have hsave := (Runs.always_cons.mp hcell).2 _ rfl
  have hloaded := (Runs.always_cons.mp hsave).2 _ rfl
  obtain ⟨urls, hurls, -⟩ := (Runs.always_cons.mp hloaded).1 (by decide)
  cases hurls

end PhotoOwner

end VkClient
