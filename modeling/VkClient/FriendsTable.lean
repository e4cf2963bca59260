import Mathlib.Data.List.Dedup
import Mathlib.Data.List.Sort
import VkClient.Runs
import VkClient.Services
import VkClient.TableView

/-!
# The friends table

`FriendsTableViewController` shows the friends in letter sections, each a
live Realm query, or, while its search controller is active, the one query
of the last search. `myFriendsCell` picks the list of queries the table is
drawn from; both row actions, swiping a row away and opening it, take their
friend from `friendsList` whatever `myFriendsCell` is.

So a row action hits the friend the row shows while search is inactive, and
during a search only where the letter sections happen to have the same
friend at the same index path (`rowActions_iff`).
-/

namespace VkClient

/-- The text functions of Swift and the string predicates of Realm that the
screen uses. A `Character` is the string of it. -/
structure TextOps where
  first : String → Option String
  lowercased : String → String
  le : String → String → Bool
  beginsWithCD : String → String → Bool
  containsC : String → String → Bool

def TextOps.ascii : TextOps where
  first s := s.toList.head?.map String.singleton
  lowercased := lower
  le s t := s ≤ t
  beginsWithCD s t := (lower t).toList.isPrefixOf (lower s).toList
  containsC s t := (lower t).toList <:+: (lower s).toList
where
  lower (s : String) : String := String.ofList (s.toList.map Char.toLower)

/-- A letter from A to Z is lowered by 32, and nothing else is. -/
theorem TextOps.toLower_cases (c : Char) :
    c.toLower = c ∨ 65 ≤ c.toNat ∧ c.toNat ≤ 90 ∧ c.toLower.toNat = c.toNat + 32 := by
  by_cases hupper : c.val ≥ 'A'.val ∧ c.val ≤ 'Z'.val
  · have hge : 65 ≤ c.val.toNat := UInt32.le_iff_toNat_le.mp hupper.1
    have hle : c.val.toNat ≤ 90 := UInt32.le_iff_toNat_le.mp hupper.2
    have hlower : c.toLower = _ := dif_pos hupper
    refine .inr ⟨hge, hle, ?_⟩
    rw [hlower]
    show (c.val + 32).toNat = c.val.toNat + 32
    rw [UInt32.toNat_add]
    refine Nat.mod_eq_of_lt ?_
    show c.val.toNat + 32 < 4294967296
    omega
  · exact .inl (dif_neg hupper)

theorem TextOps.toLower_toLower (c : Char) : c.toLower.toLower = c.toLower := by
  rcases toLower_cases c with h | ⟨hge, -, hnat⟩
  · rw [h, h]
  · rcases toLower_cases c.toLower with h | ⟨-, hle, -⟩
    · exact h
    · omega

/-- The live queries of the screen: `name BEGINSWITH[cd] letter` and
`name contains[c] text`. -/
inductive FriendsQuery where
  | beginsWith (letter : String)
  | contains (text : String)
deriving DecidableEq, Repr

def FriendsQuery.accepts (T : TextOps) : FriendsQuery → FriendsVK → Bool
  | .beginsWith letter, friend => T.beginsWithCD friend.name letter
  | .contains text, friend => T.containsC friend.name text

def FriendsQuery.results (T : TextOps) (table : Table FriendsVK) (q : FriendsQuery) :
    List (Row FriendsVK) :=
  table.rows.filter fun r => q.accepts T r.val

theorem mem_results {T : TextOps} {table : Table FriendsVK} {q : FriendsQuery}
    {r : Row FriendsVK} : r ∈ q.results T table ↔ r ∈ table.rows ∧ q.accepts T r.val = true :=
  List.mem_filter

/-! ## The controller -/

/-- `rowCounts` is what the table view remembers of its data source. -/
structure FriendsTableViewController where
  friendsList : List FriendsQuery := []
  searchMassive : List FriendsQuery := []
  isActive : Bool := false
  searchText : Option String := some ""
  rowCounts : RowCounts := []
deriving DecidableEq, Repr

namespace FriendsTableViewController

variable (T : TextOps) (table : Table FriendsVK) (vc : FriendsTableViewController)

def myFriendsCell : List FriendsQuery :=
  if vc.isActive then vc.searchMassive else vc.friendsList

/-- `numberOfSections` and `numberOfRowsInSection` for every section. -/
def numberOfRows : RowCounts := vc.myFriendsCell.map fun q => (q.results T table).length

def reloadData : FriendsTableViewController := { vc with rowCounts := vc.numberOfRows T table }

def friendsLetters : List String :=
  (table.rows.filterMap fun r => (T.first r.val.name).map T.lowercased).dedup.insertionSort
    fun a b => T.le a b = true

/-- One section for each letter; nothing changes where Realm does not open. -/
def prepareSections (realm : Except String (Table FriendsVK)) : FriendsTableViewController :=
  match realm with
  | .error _ => vc
  | .ok table =>
      ({ vc with friendsList := (friendsLetters T table).map .beginsWith }).reloadData T table

def updateSearchResults (realm : Except String (Table FriendsVK)) : FriendsTableViewController :=
  match vc.searchText with
  | none => vc
  | some text =>
      if text = "" then vc.reloadData T table
      else
        match realm with
        | .error _ => vc
        | .ok table => ({ vc with searchMassive := [.contains text] }).reloadData T table

/-- The row at an index path of a list of live queries; the subscripts trap
where the list or the query has no such index. -/
def elementAt (queries : List FriendsQuery) (indexPath : IndexPath) : Option (Row FriendsVK) := do
  let section' ← queries[indexPath.sect]?
  (section'.results T table)[indexPath.row]?

def cellForRowAt (indexPath : IndexPath) : Option (Row FriendsVK) :=
  elementAt T table vc.myFriendsCell indexPath

def commit (editingStyle : EditingStyle) (indexPath : IndexPath) (outcome : Outcome) :
    Option (Table FriendsVK) := do
  let name ← elementAt T table vc.friendsList indexPath
  return commitEditing editingStyle outcome table name.key

/-- `prepare(for:sender:)`: the name handed to the destination, if any, and
the session. -/
def prepare (session : Session) (identifier : String) (indexPathForSelectedRow : Option IndexPath) :
    Option (Option String × Session) :=
  match if identifier = "Show Friends" then indexPathForSelectedRow else none with
  | none => some (none, session)
  | some indexPath => do
      let element ← elementAt T table vc.friendsList indexPath
      return (some element.val.name, { session with userId := element.val.id })

theorem myFriendsCell_inactive {vc : FriendsTableViewController} (h : vc.isActive = false) :
    vc.myFriendsCell = vc.friendsList := by
  simp [myFriendsCell, h]

variable {T table vc}

theorem mem_friendsLetters {letter : String} :
    letter ∈ friendsLetters T table ↔
      ∃ r ∈ table.rows, ∃ c, T.first r.val.name = some c ∧ T.lowercased c = letter := by
  simp [friendsLetters, List.mem_insertionSort]

theorem mem_of_elementAt {queries : List FriendsQuery} {indexPath : IndexPath}
    {r : Row FriendsVK} (h : elementAt T table queries indexPath = some r) :
    r ∈ table.rows := by
  obtain ⟨q, -, hr⟩ := Option.bind_eq_some_iff.mp h
  exact (mem_results.mp (List.mem_of_getElem? hr)).1

theorem commit_delete_iff {indexPath : IndexPath} {table' : Table FriendsVK} :
    vc.commit T table .delete indexPath .committed = some table' ↔
      ∃ name, elementAt T table vc.friendsList indexPath = some name ∧
        table' = table.delete name.key := by
  unfold commit
  rw [Option.bind_eq_bind, Option.bind_eq_some_iff]
  refine exists_congr fun name => and_congr_right fun _ => ?_
  rw [Option.pure_def, Option.some.injEq]
  exact eq_comm

end FriendsTableViewController

/-! ## The screen and its events -/

inductive FriendsCommit where
  | save (friends : List FriendsVK)
  | swipe (indexPath : IndexPath)
deriving DecidableEq, Repr

/-- A search event sets the activity flag and the text and calls
`updateSearchResults`; selecting a row prepares the "Show Friends" segue. -/
inductive FriendsEvent where
  | commit (c : FriendsCommit)
  | search (isActive : Bool) (text : Option String)
  | select (indexPath : IndexPath)
deriving DecidableEq, Repr

structure FriendsScreen where
  table : Table FriendsVK
  vc : FriendsTableViewController
  session : Session

namespace FriendsScreen

open FriendsTableViewController

def viewDidLoad (T : TextOps) (session : Session) (table : Table FriendsVK) : FriendsScreen where
  table := table
  vc := prepareSections T {} (.ok table)
  session := session

/-- A commit that goes through; `none` where the swiped row does not exist. -/
def commitStep (T : TextOps) (w : FriendsScreen) : FriendsCommit → Option FriendsScreen
  | .save friends => some { w with table := w.table.replaceAll friends }
  | .swipe indexPath => do
      let table ← w.vc.commit T w.table .delete indexPath .committed
      return { w with table := table }

/-- A save is what the completion of `FriendRequest.loadData` commits. -/
theorem commitStep_loadData {T : TextOps} {w : FriendsScreen} {realm : Realm}
    (hrealm : realm .friends = w.table) (F : Foundation) (data : Data) (error : Option String) :
    w.commitStep T (.save (SwiftyJSONParserFriends.parse F data)) =
      some { w with
        table := FriendRequest.loadData F .committed (received data error) realm .friends } := by
  rw [FriendRequest.loadData, completion_committed, hrealm]
  rfl

def step (T : TextOps) (w : FriendsScreen) : FriendsEvent → Option FriendsScreen
  | .commit c => w.commitStep T c
  | .search isActive text =>
      some { w with
        vc := updateSearchResults T w.table
          { w.vc with isActive := isActive, searchText := text } (.ok w.table) }
  | .select indexPath => do
      let (_, session) ← w.vc.prepare T w.table w.session "Show Friends" (some indexPath)
      return { w with session := session }

/-- A commit changes the table and nothing else. -/
theorem frame_commitStep {T : TextOps} {w w' : FriendsScreen} {c : FriendsCommit}
    (h : w.commitStep T c = some w') : w' = { w with table := w'.table } := by
  cases c with
  | save friends =>
      obtain rfl := Option.some.inj h
      rfl
  | swipe indexPath =>
      obtain ⟨table, -, hw'⟩ := Option.bind_eq_some_iff.mp h
      obtain rfl := Option.some.inj hw'
      rfl

theorem vc_of_commitStep {T : TextOps} {w w' : FriendsScreen} {c : FriendsCommit}
    (h : w.commitStep T c = some w') : w'.vc = w.vc := by
  rw [frame_commitStep h]

/-- What a step can do: commit, refresh the search, or store the id of the
friend selected. -/
theorem step_cases {T : TextOps} {w w' : FriendsScreen} {e : FriendsEvent}
    (h : w.step T e = some w') :
    (∃ c, e = .commit c ∧ w.commitStep T c = some w') ∨
      (∃ isActive text, e = .search isActive text ∧
        w' = { w with
          vc := updateSearchResults T w.table
            { w.vc with isActive := isActive, searchText := text } (.ok w.table) }) ∨
      ∃ indexPath element, e = .select indexPath ∧
        elementAt T w.table w.vc.friendsList indexPath = some element ∧
        w' = { w with session := { w.session with userId := element.val.id } } := by
  cases e with
  | commit c => exact .inl ⟨c, rfl, h⟩
  | search isActive text => exact .inr (.inl ⟨isActive, text, rfl, (Option.some.inj h).symm⟩)
  | select indexPath =>
      rcases Option.bind_eq_some_iff.mp h with ⟨⟨name, session⟩, hprepare, hw'⟩
      rcases Option.bind_eq_some_iff.mp hprepare with ⟨element, helement, hsession⟩
      obtain ⟨rfl, rfl⟩ := Prod.mk.inj (Option.some.inj hsession)
      exact .inr (.inr ⟨indexPath, element, rfl, helement, (Option.some.inj hw').symm⟩)

/-! ## Row actions -/

/-- Both actions on the row at `indexPath` hit the friend `shown`: swiping
removes exactly this row of the table, selecting passes on its name and
stores its id. -/
def ActionsHit (T : TextOps) (w : FriendsScreen) (indexPath : IndexPath)
    (shown : Row FriendsVK) : Prop :=
  (∃ table, w.vc.commit T w.table .delete indexPath .committed = some table ∧
    ∀ r, r ∈ table.rows ↔ r ∈ w.table.rows ∧ r ≠ shown) ∧
  w.vc.prepare T w.table w.session "Show Friends" (some indexPath) =
    some (some shown.val.name, { w.session with userId := shown.val.id })

theorem actionsHit_iff_elementAt {T : TextOps} {w : FriendsScreen} {indexPath : IndexPath}
    {shown : Row FriendsVK} (hshown : shown ∈ w.table.rows) :
    w.ActionsHit T indexPath shown ↔
      elementAt T w.table w.vc.friendsList indexPath = some shown := by
  constructor
  · rintro ⟨⟨table, htable, hrows⟩, -⟩
    obtain ⟨name, hname, rfl⟩ := commit_delete_iff.mp htable
    -- the row shown is gone after the deletion, so it is the one deleted
    have hgone : shown ∉ (w.table.delete name.key).rows := fun h => ((hrows shown).mp h).2 rfl
    have hkey : shown.key = name.key := by
      by_contra hne
      exact hgone (Table.mem_delete.mpr ⟨hshown, hne⟩)
    rw [Table.eq_of_key hshown (mem_of_elementAt hname) hkey]
    exact hname
  · intro hname
    have hprepare : w.vc.prepare T w.table w.session "Show Friends" (some indexPath) =
        some (some shown.val.name, { w.session with userId := shown.val.id }) := by
      simp [prepare, hname]
    refine ⟨⟨_, commit_delete_iff.mpr ⟨shown, hname, rfl⟩, fun r => ?_⟩, hprepare⟩
    rw [Table.mem_delete]
    refine and_congr_right fun hr => not_congr ⟨fun hkey => ?_, fun h => h ▸ rfl⟩
    exact Table.eq_of_key hr hshown hkey

theorem actionsHit_iff {T : TextOps} {w : FriendsScreen} {indexPath : IndexPath}
    {shown : Row FriendsVK} (hcell : w.vc.cellForRowAt T w.table indexPath = some shown) :
    w.ActionsHit T indexPath shown ↔
      w.vc.isActive = false ∨
        elementAt T w.table w.vc.friendsList indexPath = some shown := by
  rw [actionsHit_iff_elementAt (mem_of_elementAt hcell)]
  refine (or_iff_right_of_imp fun hinactive => ?_).symm
  rw [cellForRowAt, myFriendsCell_inactive hinactive] at hcell
  exact hcell

/-- **Row actions.** In every state a run of the screen gets to, and for
every row the table shows there, the row's actions hit the friend it shows
exactly when search is inactive or the letter sections have that friend at
the same index path. The first case is one of the second: while search is
inactive it is the letter sections that the table shows. -/
theorem rowActions_iff (T : TextOps) (session : Session) (table : Table FriendsVK)
    (es : List FriendsEvent) :
    Runs.Throughout (step T)
      (fun w => ∀ indexPath shown, w.vc.cellForRowAt T w.table indexPath = some shown →
        (w.ActionsHit T indexPath shown ↔
          w.vc.isActive = false ∨
            elementAt T w.table w.vc.friendsList indexPath = some shown))
      (viewDidLoad T session table) es :=
  Runs.throughout_of_forall (fun _ _ _ hcell => actionsHit_iff hcell) _ _

def twoFriends : Table FriendsVK :=
  Table.empty.replaceAll [{ id := 1, name := "Anna Ivanova" }, { id := 2, name := "Boris Petrov" }]

/-- The search shows Boris in its only row; swiping that row deletes Anna. -/
theorem rowActions_miss_during_search :
    ∃ w shown, Runs.run (step .ascii) (viewDidLoad .ascii {} twoFriends)
        [.search true (some "boris")] = some w ∧
      w.vc.cellForRowAt .ascii w.table ⟨0, 0⟩ = some shown ∧
      shown.val = { id := 2, name := "Boris Petrov" } ∧
      (w.vc.commit .ascii w.table .delete ⟨0, 0⟩ .committed).map Table.values =
        some [{ id := 2, name := "Boris Petrov" }] ∧
      ¬w.ActionsHit .ascii ⟨0, 0⟩ shown := by
  refine ⟨_, ⟨1, { id := 2, name := "Boris Petrov" }⟩, rfl, by decide, rfl, by decide, ?_⟩
  rw [actionsHit_iff (by decide)]
  decide

end FriendsScreen

end VkClient
