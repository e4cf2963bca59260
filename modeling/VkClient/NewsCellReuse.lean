import Mathlib.Algebra.Group.Basic
import Mathlib.Algebra.Group.Int.Defs
import VkClient.Dictionary
import VkClient.NewsTable

/-!
# Reused news cells

A news cell comes out of `dequeueReusableCell` with what its last row left
in it, less what `prepareForReuse` clears. `cellForRowAt` sets the texts,
the counters and the picture of every post, but the name and the avatar only
where a stored group is the author of the post, and those two are what
`prepareForReuse` forgets.

The loop over the groups is a lookup in the dictionary of the groups by
the negative ids their posts carry (`foldlM_fillGroup_fill`), so the order of
the groups is without effect. What is left over of the previous row shows
exactly in the posts without an author (`shows_own_post_iff`).
-/

namespace VkClient

/-! ## What a cell shows -/

/-- `prepareForReuse`, which clears five of the eight outlets. -/
def NewsCell.prepareForReuse (cell : NewsCell) : NewsCell :=
  { cell with textView := none, likes := none, comments := none, reposts := none, views := none }

structure NewsDisplay where
  textView : String
  likes : String
  comments : String
  reposts : String
  views : String
  postImage : Option UIImage
  nameGroup : String
  groupImage : Option UIImage
deriving DecidableEq, Repr

/-- A label without a text is as blank as one with the empty text. -/
def NewsCell.displayed (cell : NewsCell) : NewsDisplay where
  textView := cell.textView.getD ""
  likes := cell.likes.getD ""
  comments := cell.comments.getD ""
  reposts := cell.reposts.getD ""
  views := cell.views.getD ""
  postImage := cell.postImage
  nameGroup := cell.nameGroup.getD ""
  groupImage := cell.groupImage

/-- A post as it should be shown: with the name and the cached avatar of its
author, and both blank without an author. -/
def ownPost (cache : PhotoCache) (element : NewsVK) (author : Option GroupsVK) : NewsDisplay where
  textView := element.text
  likes := element.likes
  comments := element.comments
  reposts := element.repost
  views := element.views
  postImage := cache.images element.newsPhoto
  nameGroup := (author.map GroupsVK.name).getD ""
  groupImage := author.bind fun group => cache.images group.photo

/-- The author is a matter of which groups there are, not of their order. -/
def IsAuthor (groups : List GroupsVK) (element : NewsVK) (author : Option GroupsVK) : Prop :=
  ∀ group, author = some group ↔ group ∈ groups ∧ group.id = -element.id

def ShowsOwnPost (cache : PhotoCache) (element : NewsVK) (groups : List GroupsVK)
    (cell : NewsCell) : Prop :=
  ∃ author, IsAuthor groups element author ∧ cell.displayed = ownPost cache element author

theorem IsAuthor.unique {groups groups' : List GroupsVK} {element : NewsVK}
    {author author' : Option GroupsVK} (h : IsAuthor groups element author)
    (h' : IsAuthor groups' element author') (hsame : ∀ group, group ∈ groups ↔ group ∈ groups') :
    author = author' := by
  refine Option.ext fun group => ?_
  rw [h group, h' group, hsame group]

/-- Two cells that show the post, whatever was in them and in whatever order
the groups came, look the same. -/
theorem ShowsOwnPost.displayed_eq {cache : PhotoCache} {element : NewsVK}
    {groups groups' : List GroupsVK} {cell cell' : NewsCell}
    (h : ShowsOwnPost cache element groups cell) (h' : ShowsOwnPost cache element groups' cell')
    (hsame : ∀ group, group ∈ groups ↔ group ∈ groups') : cell.displayed = cell'.displayed := by
  obtain ⟨author, hauthor, hcell⟩ := h
  obtain ⟨author', hauthor', hcell'⟩ := h'
  rw [hcell, hcell', hauthor.unique hauthor' hsame]

/-! ## The author -/

def byPost (groups : List GroupsVK) : List (Int × GroupsVK) :=
  groups.map fun group => (-group.id, group)

def authorIn (groups : List GroupsVK) (element : NewsVK) : Option GroupsVK :=
  Dictionary.ofPairs (byPost groups) element.id

theorem isAuthor_authorIn {groups : List GroupsVK} (hdistinct : (groups.map GroupsVK.id).Nodup)
    (element : NewsVK) : IsAuthor groups element (authorIn groups element) := by
  intro group
  have hkeys : ((byPost groups).map Prod.fst).Nodup := by
    have hneg := hdistinct.map neg_injective
    rw [List.map_map] at hneg
    rw [byPost, List.map_map]
    exact hneg
  rw [authorIn, Dictionary.ofPairs_eq_some_iff_mem hkeys, byPost, List.mem_map]
  constructor
  · rintro ⟨group', hgroup', heq⟩
    obtain ⟨hid, rfl⟩ := Prod.mk.inj heq
    exact ⟨hgroup', by omega⟩
  · rintro ⟨hgroup, hid⟩
    exact ⟨group, hgroup, by rw [hid, neg_neg]⟩

theorem showsOwnPost_iff {cache : PhotoCache} {element : NewsVK} {groups : List GroupsVK}
    (hdistinct : (groups.map GroupsVK.id).Nodup) {cell : NewsCell} :
    ShowsOwnPost cache element groups cell ↔
      cell.displayed = ownPost cache element (authorIn groups element) := by
  have hauthor := isAuthor_authorIn hdistinct element
  constructor
  · rintro ⟨author, hauthor', hown⟩
    rw [hown, hauthor'.unique hauthor fun _ => Iff.rfl]
  · exact fun hown => ⟨_, hauthor, hown⟩

/-- The name and the avatar of an author, if there is one. -/
def NewsCell.fill (cell : NewsCell) (cache : PhotoCache) : Option GroupsVK → NewsCell
  | none => cell
  | some group =>
      { cell with nameGroup := some group.name, groupImage := cache.images group.photo }

theorem PhotoCache.fst_image (cache : PhotoCache) (url : String) :
    (cache.image url).1 = cache.images url := by
  unfold image
  cases cache.images url <;> rfl

namespace NewsViewController

variable {realm : Realm} {vc : NewsViewController}

/-- The groups the screen follows. -/
def groups (realm : Realm) (vc : NewsViewController) : List GroupsVK :=
  (vc.groupsMassive realm).filterMap (realm .groups).read

theorem fillGroup_fill {cache : PhotoCache} {element : NewsVK} {k : Nat} {group : GroupsVK}
    (hread : (realm .groups).read k = some group) (hneg : group.id ≠ -0x8000000000000000)
    (cell : NewsCell) (author : Int → Option GroupsVK) (loads : List String) :
    ∃ loads', fillGroup realm cache element (cell.fill cache (author element.id), loads) k =
      some (cell.fill cache (Function.update author (-group.id) (some group) element.id),
        loads') := by
  have hsource : negate group.id = some (-group.id) := if_neg hneg
  by_cases hid : element.id = -group.id
  · refine ⟨loads ++ (cache.image group.photo).2, ?_⟩
    rw [hid, Function.update_self]
    simp only [fillGroup, hread, hsource, Option.bind_eq_bind, Option.bind_some, hid, if_true]
    cases author (-group.id) <;> simp [NewsCell.fill, ← cache.fst_image]
  · refine ⟨loads, ?_⟩
    rw [Function.update_of_ne hid]
    simp [fillGroup, hread, hsource, hid]

/-- After the loop the cell has the name and the avatar the dictionary of
the groups gives for the post. -/
theorem foldlM_fillGroup_fill {cache : PhotoCache} {element : NewsVK} {ks : List Nat}
    {groups : List GroupsVK} (hread : ks.map (realm .groups).read = groups.map some)
    (hneg : ∀ group ∈ groups, group.id ≠ -0x8000000000000000) (cell : NewsCell)
    (author : Int → Option GroupsVK) (loads : List String) :
    ∃ loads', ks.foldlM (fillGroup realm cache element)
        (cell.fill cache (author element.id), loads) =
      some (cell.fill cache (Dictionary.assign author (byPost groups) element.id), loads') := by
  induction ks generalizing groups author loads with
  | nil =>
      obtain rfl := List.map_eq_nil_iff.mp hread.symm
      exact ⟨loads, rfl⟩
  | cons k ks ih =>
      cases groups with
      | nil => cases hread
      | cons group groups =>
          obtain ⟨hfirst, hrest⟩ := List.cons.inj hread
          obtain ⟨hfirstNeg, hrestNeg⟩ := List.forall_mem_cons.mp hneg
          obtain ⟨loads₁, hloads₁⟩ := fillGroup_fill hfirst hfirstNeg cell author loads
          rw [List.foldlM_cons, hloads₁]
          exact ih hrest hrestNeg (Function.update author (-group.id) (some group)) loads₁

/-- All of the groups the screen follows can be read. -/
theorem map_read_groupsMassive :
    (vc.groupsMassive realm).map (realm .groups).read = (vc.groups realm).map some := by
  rw [groups]
  have hlive : ∀ k ∈ vc.groupsMassive realm, ((realm .groups).read k).isSome := fun k hk =>
    Table.read_isSome_iff.mpr (live_of_mem_arrayOf hk)
  generalize vc.groupsMassive realm = ks at hlive
  induction ks with
  | nil => rfl
  | cons k ks ih =>
      obtain ⟨hk, hks⟩ := List.forall_mem_cons.mp hlive
      obtain ⟨group, hgroup⟩ := Option.isSome_iff_exists.mp hk
      rw [List.map_cons, List.filterMap_cons_some hgroup, List.map_cons, hgroup, ih hks]

def ElementAt (realm : Realm) (vc : NewsViewController) (row : Nat) (element : NewsVK) : Prop :=
  ∃ news, (vc.newsMassiveCell realm)[row]? = some news ∧ (realm .news).read news = some element

/-- Without an author the name and the avatar are those of the dequeued
cell. -/
theorem displayed_cellForRowAt {row : Nat} {element : NewsVK}
    (hrow : ElementAt realm vc row element)
    (hneg : ∀ group ∈ vc.groups realm, group.id ≠ -0x8000000000000000) (cache : PhotoCache)
    (cell : NewsCell) :
    ∃ filled loads, vc.cellForRowAt realm cache cell row = some (filled, loads) ∧
      filled.displayed =
        match authorIn (vc.groups realm) element with
        | some group => ownPost cache element (some group)
        | none =>
            { ownPost cache element none with
              nameGroup := cell.nameGroup.getD "", groupImage := cell.groupImage } := by
  obtain ⟨news, hnews, hread⟩ := hrow
  obtain ⟨loads, hloads⟩ : ∃ loads, (vc.groupsMassive realm).foldlM
      (fillGroup realm cache element) (cell.setTexts element, []) =
        some ((cell.setTexts element).fill cache (authorIn (vc.groups realm) element), loads) :=
    foldlM_fillGroup_fill map_read_groupsMassive hneg (cell.setTexts element) (fun _ => none) []
  refine ⟨_, _, by rw [cellForRowAt_of_read hnews hread, hloads, Option.map_some], ?_⟩
  simp only [cache.fst_image]
  cases authorIn (vc.groups realm) element with
  | none => rfl
  | some group => rfl

/-- **A reused cell shows its own post.** For groups with distinct ids, the
filled cell shows its own post only exactly when one of them is the author
or the name and the avatar of the previous row were blank already. -/
theorem shows_own_post_iff {row : Nat} {element : NewsVK}
    (hrow : ElementAt realm vc row element)
    (hdistinct : ((vc.groups realm).map GroupsVK.id).Nodup)
    (hneg : ∀ group ∈ vc.groups realm, group.id ≠ -0x8000000000000000) (cache : PhotoCache)
    (previous : NewsCell) :
    (∃ filled loads,
        vc.cellForRowAt realm cache previous.prepareForReuse row = some (filled, loads) ∧
          ShowsOwnPost cache element (vc.groups realm) filled) ↔
      (∃ group ∈ vc.groups realm, group.id = -element.id) ∨
        previous.nameGroup.getD "" = "" ∧ previous.groupImage = none := by
  have hauthor := isAuthor_authorIn hdistinct element
  obtain ⟨filled, loads, hfilled, hdisplayed⟩ :=
    displayed_cellForRowAt hrow hneg cache previous.prepareForReuse
  simp only [hfilled, Option.some.injEq, Prod.mk.injEq, showsOwnPost_iff hdistinct]
  simp only [and_assoc, exists_and_left, exists_eq_left', hdisplayed]
  cases hgroup : authorIn (vc.groups realm) element with
  | some group =>
      rw [hgroup] at hauthor
      exact iff_of_true rfl (.inl ⟨group, (hauthor group).mp rfl⟩)
  | none =>
      rw [hgroup] at hauthor
      have hstranger : ¬∃ group ∈ vc.groups realm, group.id = -element.id := by
        rintro ⟨group, hgroup⟩
        cases (hauthor group).mpr hgroup
      rw [or_iff_right hstranger]
      simp [ownPost, NewsCell.prepareForReuse]

/-- Two posts, of the group 1 and of the group 2; the table holds the
first. -/
def twoPosts : Realm
  | .news => Table.empty.replaceAll [{ id := -1, text := "First" }, { id := -2, text := "Second" }]
  | .groups => Table.empty.replaceAll [{ id := 1, name := "Group", photo := "group.jpg" }]
  | _ => Table.empty

def twoPostsScreen : NewsViewController := loadData twoPosts {} (.ok ())

theorem shows_own_post_of_group :
    (∃ filled loads,
        twoPostsScreen.cellForRowAt twoPosts ⟨fun _ => none⟩
            (NewsCell.prepareForReuse { nameGroup := some "Other" }) 0 = some (filled, loads) ∧
          ShowsOwnPost ⟨fun _ => none⟩ { id := -1, text := "First" }
            (twoPostsScreen.groups twoPosts) filled) ↔
      (∃ group ∈ twoPostsScreen.groups twoPosts, group.id = -(-1)) ∨
        (some "Other").getD "" = "" ∧ (none : Option UIImage) = none := by
  have hrow : ElementAt twoPosts twoPostsScreen 0 { id := -1, text := "First" } := ⟨0, rfl, rfl⟩
  exact shows_own_post_iff hrow (by decide) (by decide) _ _

/-- The cell of the first row is reused for the second, whose group is not
stored. -/
theorem shows_previous_group :
    ∃ first second loads,
      twoPostsScreen.cellForRowAt twoPosts ⟨fun _ => none⟩ {} 0 = some (first, ["group.jpg", ""]) ∧
        twoPostsScreen.cellForRowAt twoPosts ⟨fun _ => none⟩ first.prepareForReuse 1 =
          some (second, loads) ∧
        second.nameGroup = some "Group" ∧
        ¬ShowsOwnPost ⟨fun _ => none⟩ { id := -2, text := "Second" }
          (twoPostsScreen.groups twoPosts) second := by
  refine ⟨_, _, _, rfl, rfl, rfl, ?_⟩
  rintro ⟨author, hauthor, hown⟩
  have hname := congrArg NewsDisplay.nameGroup hown
  cases author with
  | none => exact absurd hname (by decide)
  | some group =>
      obtain ⟨hgroup, hid⟩ := (hauthor group).mp rfl
      obtain rfl := List.mem_singleton.mp hgroup
      exact absurd hid (by decide)

end NewsViewController

end VkClient
