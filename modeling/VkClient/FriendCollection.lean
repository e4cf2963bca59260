import VkClient.MainThreadWrites
import VkClient.PhotoRequests

/-!
# The photo screen of a friend

Selecting a friend pushes a `FriendCollectionController`. The segue
instantiates it first, and with it the `PhotosRequest` in its stored
property, which copies the session's user id there and then; only
afterwards does `prepare` store the id of the selected friend. The request
issued from `viewDidLoad` therefore asks for the photos of whoever was
selected before (`owner_agrees_iff`).

The screen shows `photosList`, a snapshot of managed objects taken in
`viewDidLoad` before the response can have arrived. The save that follows
deletes exactly the rows behind the snapshot, and nothing takes a new one:
the snapshot mirrors the table after a save only if there never was a photo
to show (`mirrors_iff`). The save is one of the main thread's: where its
commit throws, the rows are gone from sight all the same, and the next save
raises.
-/

namespace VkClient

/-- `photosList` holds the handles of managed objects. -/
structure FriendCollectionController where
  photoService : PhotosRequest
  collectionFriendName : Option String := none
  title : Option String := none
  photosList : List Nat := []
  cachedImaged : String → Option UIImage := fun _ => none

namespace FriendCollectionController

/-- The stored-property initialisers. -/
def init (session : Session) : FriendCollectionController where
  photoService := .init session

def loadData (vc : FriendCollectionController) (realm : Except String (Table PhotosVK)) :
    FriendCollectionController :=
  match realm with
  | .error _ => vc
  | .ok photos => { vc with photosList := photos.rows.map Row.key }

/-- `viewDidLoad`, and the request its `photoService.loadData()` issues. -/
def viewDidLoad (vc : FriendCollectionController) (realm : Except String (Table PhotosVK)) :
    FriendCollectionController × HTTPRequest :=
  ({ vc with title := vc.collectionFriendName }.loadData realm, vc.photoService.request)

/-- The download is waited for; if it brings an image, a reload of the item
is put on the main queue. -/
def downloadImage (getImage : Option String → Option UIImage) (vc : FriendCollectionController)
    (url : String) (row : Nat) : FriendCollectionController × List Nat :=
  match getImage (some url) with
  | none => (vc, [])
  | some image =>
      ({ vc with cachedImaged := Function.update vc.cachedImaged url (some image) }, [row])

/-- The image the cell is given, if any, and the reloads put on the main
queue; `none` is the trap of the subscript or of reading a deleted object. -/
def cellForItemAt (getImage : Option String → Option UIImage) (vc : FriendCollectionController)
    (photos : Table PhotosVK) (row : Nat) :
    Option (Option UIImage × FriendCollectionController × List Nat) := do
  let element ← vc.photosList[row]?
  let photo ← photos.read element
  return match vc.cachedImaged photo.photo with
    | some cached => (some cached, vc, [])
    | none => (none, vc.downloadImage getImage photo.photo row)

theorem photosList_viewDidLoad {vc : FriendCollectionController}
    {realm : Except String (Table PhotosVK)} (hnew : vc.photosList = []) :
    (vc.viewDidLoad realm).1.photosList =
      match realm with
      | .error _ => []
      | .ok photos => photos.rows.map Row.key := by
  cases realm with
  | error message => exact hnew
  | ok photos => rfl

theorem photosList_cellForItemAt {getImage : Option String → Option UIImage}
    {vc vc' : FriendCollectionController} {photos : Table PhotosVK} {row : Nat}
    {image : Option UIImage} {reloads : List Nat}
    (h : vc.cellForItemAt getImage photos row = some (image, vc', reloads)) :
    vc'.photosList = vc.photosList := by
  rcases Option.bind_eq_some_iff.mp h with ⟨element, -, h⟩
  rcases Option.bind_eq_some_iff.mp h with ⟨photo, -, h⟩
  have hpair := Option.some.inj h
  split at hpair
  · obtain ⟨-, hvc, -⟩ := by simpa only [Prod.mk.injEq] using hpair
    rw [← hvc]
  · have hvc : (vc.downloadImage getImage photo.photo row).1 = vc' :=
      congrArg Prod.fst (Prod.mk.inj hpair).2
    rw [← hvc, downloadImage]
    split <;> rfl

end FriendCollectionController

/-! ## The owner of the request -/

namespace FriendsScreen

open FriendsTableViewController

variable (T : TextOps)

/-- The segue "Show Friends" for the selected row: the destination is
instantiated, prepared, and loads its view. -/
def showFriends (w : FriendsScreen) (indexPath : IndexPath)
    (photos : Except String (Table PhotosVK)) :
    Option (FriendCollectionController × HTTPRequest) := do
  let destination := FriendCollectionController.init w.session
  let (name, _) ← w.vc.prepare T w.table w.session "Show Friends" (some indexPath)
  return { destination with collectionFriendName := name }.viewDidLoad photos

/-- A step of the friends screen that leaves search inactive. -/
def browse (w : FriendsScreen) (e : FriendsEvent) : Option FriendsScreen :=
  (w.step T e).filter fun w' => !w'.vc.isActive

/-- The request of the screen pushed for the friend a selected row shows
asks for the photos of that friend. -/
def OwnerAgrees (w : FriendsScreen) (e : FriendsEvent) : Prop :=
  ∀ indexPath friend, e = .select indexPath →
    w.vc.cellForRowAt T w.table indexPath = some friend →
      ∀ photos vc request, w.showFriends T indexPath photos = some (vc, request) →
        request.parameters.lookup "owner_id" = some (.int friend.val.id)

def Selects (userId : Int) (w : FriendsScreen) (e : FriendsEvent) : Prop :=
  ∀ indexPath friend, e = .select indexPath →
    w.vc.cellForRowAt T w.table indexPath = some friend → friend.val.id = userId

variable {T}

theorem prepare_of_shown {w : FriendsScreen} (hinactive : w.vc.isActive = false)
    {indexPath : IndexPath} {friend : Row FriendsVK}
    (hshown : w.vc.cellForRowAt T w.table indexPath = some friend) :
    w.vc.prepare T w.table w.session "Show Friends" (some indexPath) =
      some (some friend.val.name, { w.session with userId := friend.val.id }) :=
  ((actionsHit_iff hshown).mpr (.inl hinactive)).2

/-- Whoever is selected, the request asks for the user the session had
before. -/
theorem owner_of_showFriends {w : FriendsScreen} {indexPath : IndexPath}
    {photos : Except String (Table PhotosVK)} {vc : FriendCollectionController}
    {request : HTTPRequest} (h : w.showFriends T indexPath photos = some (vc, request)) :
    request.parameters.lookup "owner_id" = some (.int w.session.userId) := by
  obtain ⟨prepared, -, hpushed⟩ := Option.bind_eq_some_iff.mp h
  obtain rfl := (Prod.mk.inj (Option.some.inj hpushed)).2
  rfl

theorem ownerAgrees_iff_selects {w : FriendsScreen} {e : FriendsEvent}
    (hinactive : w.vc.isActive = false) :
    w.OwnerAgrees T e ↔ w.Selects T w.session.userId e := by
  refine forall₄_congr fun indexPath friend _ hshown => ?_
  constructor
  · intro h
    have hprepare := prepare_of_shown hinactive hshown
    have howner := h (.error "") _ _ (by rw [showFriends, hprepare]; rfl)
    exact (ParameterValue.int.inj (Option.some.inj howner)).symm
  · intro hid photos vc request hpushed
    rw [owner_of_showFriends hpushed, hid]

theorem userId_browse {w w' : FriendsScreen} {e : FriendsEvent}
    (hinactive : w.vc.isActive = false) (hselects : w.Selects T w.session.userId e)
    (h : browse T w e = some w') :
    w'.vc.isActive = false ∧ w'.session.userId = w.session.userId := by
  rcases Option.filter_eq_some_iff.mp h with ⟨hstep, hinactive'⟩
  refine ⟨by simpa using hinactive', ?_⟩
  rcases step_cases hstep with
    ⟨c, rfl, hcommit⟩ | ⟨isActive, text, rfl, rfl⟩ | ⟨indexPath, friend, rfl, hfriend, rfl⟩
  · rw [frame_commitStep hcommit]
  · rfl
  · have hshown : w.vc.cellForRowAt T w.table indexPath = some friend := by
      rw [cellForRowAt, myFriendsCell_inactive hinactive]
      exact hfriend
    exact hselects indexPath friend rfl hshown

/-- **Selected friend and requested owner.** As long as search is inactive,
every photo request asks for the friend it was issued for exactly when every
friend selected has the id the session had at the start. -/
theorem owner_agrees_iff (session : Session) (table : Table FriendsVK) (es : List FriendsEvent) :
    Runs.Always (browse T) (OwnerAgrees T) (viewDidLoad T session table) es ↔
      Runs.Always (browse T) (Selects T session.userId) (viewDidLoad T session table) es := by
  refine Runs.always_iff_of_inv
    (I := fun w => w.vc.isActive = false ∧ w.session.userId = session.userId)
    (fun w e hw => ?_) (fun w e w' hw hselects h => ?_) ⟨rfl, rfl⟩
  · rw [ownerAgrees_iff_selects hw.1, hw.2]
  · rw [← hw.2] at hselects
    have hkept := userId_browse hw.1 hselects h
    exact ⟨hkept.1, hkept.2.trans hw.2⟩

/-- The first friend selected after a login: the request asks for the photos
of the owner 0. -/
theorem owner_disagrees_on_first_selection :
    ¬Runs.Always (browse .ascii) (OwnerAgrees .ascii) (viewDidLoad .ascii {} twoFriends)
      [.select ⟨0, 0⟩] := by
  intro h
  have howner := (Runs.always_cons.mp h).1 ⟨0, 0⟩ ⟨0, { id := 1, name := "Anna Ivanova" }⟩ rfl
    (by decide) (.error "") _ _ rfl
  exact absurd howner (by decide)

end FriendsScreen

/-! ## The photos on the screen -/

/-- An instance over a file: in no transaction, or in one that an earlier
write has left open and that shows `uncommitted`. -/
def MainRealm.over (committed : Realm) (uncommitted : Option Realm) : MainRealm where
  committed := committed
  visible := uncommitted.getD committed
  inTransaction := uncommitted.isSome

/-- The completion of `loadData` on the main thread: parse what arrived, save
what was parsed. `none` is the exception a save raises inside a transaction. -/
def PhotosRequest.complete (F : Foundation) (outcome : Outcome) (response : DataResponse)
    (realm : MainRealm) : Option MainRealm :=
  match response.data with
  | none => some realm
  | some data =>
      realm.write outcome fun file =>
        file.save .photos .committed (SwiftyJSONParserPhotos.parse F data)

/-- What the completion leaves in the file is what `loadData` says. -/
theorem PhotosRequest.committed_complete {F : Foundation} {outcome : Outcome}
    {response : DataResponse} {realm realm' : MainRealm}
    (h : PhotosRequest.complete F outcome response realm = some realm') :
    realm'.committed = PhotosRequest.loadData F outcome response realm.committed := by
  unfold complete at h
  unfold loadData completion
  cases hdata : response.data with
  | none =>
      rw [hdata] at h
      obtain rfl := Option.some.inj h
      rfl
  | some data =>
      rw [hdata] at h
      rw [MainRealm.committed_of_write h]
      cases outcome <;> rfl

structure PhotoScreen where
  realm : MainRealm
  vc : FriendCollectionController

/-- A cell is asked for, by scrolling or by a queued reload, or a response
arrives. -/
inductive PhotoEvent where
  | cell (row : Nat)
  | respond (outcome : Outcome) (data : Data) (error : Option String)

namespace PhotoScreen

/-- The screen after its `viewDidLoad`, which finds Realm open or not. -/
def start (session : Session) (friendName : Option String) (opened : Except String Unit)
    (realm : MainRealm) : PhotoScreen where
  realm := realm
  vc :=
    ({ FriendCollectionController.init session with
        collectionFriendName := friendName }.viewDidLoad
          (opened.map fun _ => realm.visible .photos)).1

variable (F : Foundation) (getImage : Option String → Option UIImage)

def step (w : PhotoScreen) : PhotoEvent → Option PhotoScreen
  | .cell row => do
      let (_, vc, _) ← w.vc.cellForItemAt getImage (w.realm.visible .photos) row
      return { w with vc := vc }
  | .respond outcome data error => do
      let realm ← PhotosRequest.complete F outcome (received data error) w.realm
      return { w with realm := realm }

/-- A cell reads a row of the table; a response that is saved leaves the
screen with the saved list. -/
def Mirrors (w : PhotoScreen) : PhotoEvent → Prop
  | .cell row =>
      ∀ element, w.vc.photosList[row]? = some element → (w.realm.visible .photos).Live element
  | .respond outcome data error => outcome = .committed →
      ∀ w', step F getImage w (.respond outcome data error) = some w' →
        w'.vc.photosList.map (w'.realm.visible .photos).read =
          (SwiftyJSONParserPhotos.parse F data).map some

/-- No commit has thrown since `viewDidLoad`, or else no cell is asked for
that there is a photo for. And a response that is saved, which none is while
a transaction is open, brings no photo, and none was on the screen: Realm was
not opened, or the table was empty. -/
def NoPhotos (opened : Except String Unit) (committed : Realm) (uncommitted : Option Realm)
    (w : PhotoScreen) : PhotoEvent → Prop
  | .cell row =>
      uncommitted = none → w.realm.inTransaction = true → w.vc.photosList[row]? = none
  | .respond outcome data _ =>
      outcome = .committed → w.realm.inTransaction = false →
        (opened = .ok () → (committed .photos).rows = []) ∧ (items? F data).getD [] = []

/-- The invariant: the snapshot stays what it was, and its photos can be read
exactly until a commit throws. -/
structure Snapshot (photosList : List Nat) (uncommitted : Option Realm) (w : PhotoScreen) :
    Prop where
  kept : w.vc.photosList = photosList
  clean : w.realm.inTransaction = false → uncommitted = none ∧ w.realm.visible = w.realm.committed
  live : (uncommitted = none → w.realm.inTransaction = false) →
    ∀ element ∈ photosList, (w.realm.visible .photos).Live element
  dead : uncommitted = none → w.realm.inTransaction = true →
    ∀ element ∈ photosList, ¬(w.realm.visible .photos).Live element

variable {F getImage} {opened : Except String Unit} {committed : Realm}
  {uncommitted : Option Realm} {photosList : List Nat} {w w' : PhotoScreen}

theorem snapshot_start (session : Session) (friendName : Option String)
    (opened : Except String Unit) (committed : Realm) (uncommitted : Option Realm) :
    Snapshot (start session friendName opened (.over committed uncommitted)).vc.photosList
      uncommitted (start session friendName opened (.over committed uncommitted)) := by
  refine ⟨rfl, fun hclosed => ?_, fun _ => ?_, fun hnone hopen => ?_⟩
  · obtain rfl : uncommitted = none :=
      Option.isNone_iff_eq_none.mp (Option.isSome_eq_false_iff.mp hclosed)
    exact ⟨rfl, rfl⟩
  · rw [start, FriendCollectionController.photosList_viewDidLoad rfl]
    cases opened with
    | error message => exact fun _ h => absurd h List.not_mem_nil
    | ok u => exact fun _ h => h
  · subst hnone
    cases hopen

/-- The snapshot of an instance in no transaction is empty where Realm was not
opened or the table was empty. -/
theorem start_photosList_eq_nil_iff {session : Session} {friendName : Option String} :
    (start session friendName opened (.over committed none)).vc.photosList = [] ↔
      (opened = .ok () → (committed .photos).rows = []) := by
  rw [start, FriendCollectionController.photosList_viewDidLoad rfl]
  cases opened with
  | error message => simp [Except.map]
  | ok u => simp [Except.map, MainRealm.over]

theorem respond_eq_some {outcome : Outcome} {data : Data} {error : Option String} :
    w.step F getImage (.respond outcome data error) = some w' ↔
      ∃ realm, w.realm.write outcome (fun file =>
          file.save .photos .committed (SwiftyJSONParserPhotos.parse F data)) = some realm ∧
        w' = { w with realm := realm } := by
  simp only [step, PhotosRequest.complete, received_data, Option.bind_eq_bind,
    Option.bind_eq_some_iff, Option.pure_def, Option.some.injEq]
  exact exists_congr fun _ => and_congr_right fun _ => eq_comm

/-- Once a save has changed what is in sight, none of the photos that could be
read before can be. -/
theorem not_live_of_write {outcome : Outcome} {photos : List PhotosVK} {realm realm' : MainRealm}
    (hclean : realm.visible = realm.committed) (houtcome : outcome ≠ .notOpened)
    (h : realm.write outcome (fun file => file.save .photos .committed photos) = some realm')
    {element : Nat} (hlive : (realm.visible .photos).Live element) :
    ¬(realm'.visible .photos).Live element := by
  rw [hclean] at hlive
  rw [MainRealm.visible_of_write houtcome h, Realm.save_committed]
  exact Table.not_live_replaceAll hlive photos

theorem mirrors_iff_noPhotos (hw : w.Snapshot photosList uncommitted)
    (hempty : uncommitted = none →
      (photosList = [] ↔ (opened = .ok () → (committed .photos).rows = [])))
    (e : PhotoEvent) : w.Mirrors F getImage e ↔ w.NoPhotos F opened committed uncommitted e := by
  cases e with
  | cell row =>
      constructor
      · intro hmirrors hnone hopen
        cases hrow : w.vc.photosList[row]? with
        | none => rfl
        | some element =>
            have hmem := hw.kept ▸ List.mem_of_getElem? hrow
            exact absurd (hmirrors element hrow) (hw.dead hnone hopen element hmem)
      · intro hasked element hrow
        refine hw.live (fun hnone => ?_) element (hw.kept ▸ List.mem_of_getElem? hrow)
        refine Bool.eq_false_iff.mpr fun hopen => ?_
        rw [hasked hnone hopen] at hrow
        cases hrow
  | respond outcome data error =>
      refine imp_congr_right fun hcommitted => ?_
      subst hcommitted
      cases hopen : w.realm.inTransaction with
      | true =>
          -- the save raises, and there is nothing left to compare
          refine iff_of_true (fun w' hw' => ?_) nofun
          obtain ⟨realm, hrealm, -⟩ := respond_eq_some.mp hw'
          rw [MainRealm.write_eq_none_of_inTransaction hopen (by decide)] at hrealm
          cases hrealm
      | false =>
          obtain ⟨hnone, hclean⟩ := hw.clean hopen
          have hlive : ∀ element ∈ w.vc.photosList, (w.realm.committed .photos).Live element :=
            fun element helement =>
              hclean ▸ hw.live (fun _ => hopen) element (hw.kept ▸ helement)
          have hparse : SwiftyJSONParserPhotos.parse F data = [] ↔
              (items? F data).getD [] = [] := by
            rw [SwiftyJSONParserPhotos.parse, parseItems_eq, List.map_eq_nil_iff]
          rw [imp_iff_right (Eq.refl false), ← hempty hnone, ← hparse, ← hw.kept,
            ← Table.map_read_replaceAll_iff hlive]
          constructor
          · intro hmirrors
            have hsaved := hmirrors _ (respond_eq_some.mpr ⟨_, if_neg (by simp [hopen]), rfl⟩)
            simpa only [Realm.save_committed] using hsaved
          · intro hsaved w' hw'
            obtain ⟨realm, hrealm, rfl⟩ := respond_eq_some.mp hw'
            obtain ⟨-, hrealm⟩ := Option.ite_none_left_eq_some.mp hrealm
            obtain rfl := Option.some.inj hrealm
            simpa only [Realm.save_committed] using hsaved

theorem snapshot_step {e : PhotoEvent} (hw : w.Snapshot photosList uncommitted)
    (hempty : uncommitted = none →
      (photosList = [] ↔ (opened = .ok () → (committed .photos).rows = [])))
    (hnone : w.NoPhotos F opened committed uncommitted e) (h : w.step F getImage e = some w') :
    w'.Snapshot photosList uncommitted := by
  cases e with
  | cell row =>
      obtain ⟨⟨image, vc, reloads⟩, hcell, hw'⟩ := Option.bind_eq_some_iff.mp h
      obtain rfl := Option.some.inj hw'
      have hkept := FriendCollectionController.photosList_cellForItemAt hcell
      exact ⟨hkept.trans hw.kept, hw.clean, hw.live, hw.dead⟩
  | respond outcome data error =>
      obtain ⟨realm, hrealm, rfl⟩ := respond_eq_some.mp h
      rcases MainRealm.write_cases hrealm with
        ⟨-, rfl⟩ | ⟨rfl, hclosed, hthrew⟩ | ⟨rfl, hclosed, rfl⟩
      · exact hw
      · obtain ⟨-, hclean⟩ := hw.clean hclosed
        have hopen : realm.inTransaction = true := by rw [hthrew]
        refine ⟨hw.kept, fun h => ?_, fun h => ?_, fun _ _ element helement => ?_⟩
        · exact absurd h (by simp [hopen])
        · exact absurd (h (hw.clean hclosed).1) (by simp [hopen])
        · have hlive := hw.live (fun _ => hclosed) element helement
          exact not_live_of_write hclean (by decide) hrealm hlive
      · obtain ⟨huncommitted, -⟩ := hw.clean hclosed
        -- the rows are gone, but the snapshot had none of them
        obtain rfl := (hempty huncommitted).mpr (hnone rfl hclosed).1
        exact ⟨hw.kept, fun _ => ⟨huncommitted, rfl⟩, nofun, nofun⟩

/-- **The photo screen mirrors the photo table.** In a run of the screen,
every cell reads a row of the table, and every saved response leaves the
screen with what was saved, exactly when the responses saved bring no photo
and find none on the screen, and no photo is asked for once a commit has
thrown. -/
theorem mirrors_iff (session : Session) (friendName : Option String) (opened : Except String Unit)
    (committed : Realm) (uncommitted : Option Realm) (es : List PhotoEvent) :
    Runs.Always (step F getImage) (Mirrors F getImage)
        (start session friendName opened (.over committed uncommitted)) es ↔
      Runs.Always (step F getImage) (NoPhotos F opened committed uncommitted)
        (start session friendName opened (.over committed uncommitted)) es := by
  have hempty : uncommitted = none →
      ((start session friendName opened (.over committed uncommitted)).vc.photosList = [] ↔
        (opened = .ok () → (committed .photos).rows = [])) := by
    rintro rfl
    exact start_photosList_eq_nil_iff
  exact Runs.always_iff_of_inv
    (fun _ e hw => mirrors_iff_noPhotos hw hempty e)
    (fun _ _ _ hw hnone h => snapshot_step hw hempty hnone h)
    (snapshot_start session friendName opened committed uncommitted)

def onePhoto : Realm
  | .photos => Table.empty.replaceAll [{ photo := "old.jpg" }]
  | _ => Table.empty

/-- The response has been saved, and the first cell asks for its photo: the
object it reads is deleted. -/
theorem photos_dead_after_save :
    ¬Runs.Always (step Foundation.twoPhotos fun _ => none)
      (Mirrors Foundation.twoPhotos fun _ => none)
      (start {} (some "Anna Ivanova") (.ok ()) (.over onePhoto none))
      [.respond .committed [1] none, .cell 0] := by
  intro h
  have hrest := (Runs.always_cons.mp h).2 _ rfl
  have hlive := (Runs.always_cons.mp hrest).1 0 rfl
  exact absurd hlive (by decide)

/-- The commit of the save throws, and the rows are gone from sight. -/
example :
    ¬Runs.Always (step Foundation.twoPhotos fun _ => none)
      (Mirrors Foundation.twoPhotos fun _ => none)
      (start {} (some "Anna Ivanova") (.ok ()) (.over onePhoto none))
      [.respond .notCommitted [1] none, .cell 0] := by
  intro h
  have hrest := (Runs.always_cons.mp h).2 _ rfl
  have hlive := (Runs.always_cons.mp hrest).1 0 rfl
  exact absurd hlive (by decide)

end PhotoScreen

end VkClient
