import VkClient.Runs
import VkClient.Services
import VkClient.TableView

/-!
# The groups table

`SubscriptionTableViewController` draws its one section from
`myGroupsCell`: the live groups, or, while a search text is set, the
managed objects the last search found. The notifications it observes always
speak about the live groups, and it applies their change sets whichever of
the two lists it is showing.

A store change that meets a search therefore breaks the screen in one of
two ways. The search result keeps objects that the change deleted, and the
batch of the notification moves a row count that never followed the live
groups, or that has followed them already. `groups_invariant_iff` says
which runs are spared.
-/

namespace VkClient

/-- `searchAns` holds the handles of managed objects; `rowCount` is what the
table view remembers of its data source. -/
structure SubscriptionTableViewController where
  groupsList : Option Results := none
  searchAns : List Nat := []
  searching : Bool := false
  rowCount : Nat := 0
deriving DecidableEq, Repr

namespace SubscriptionTableViewController

variable (groups : Table GroupsVK) (vc : SubscriptionTableViewController)

def myGroups : List Nat := arrayOf groups vc.groupsList

def myGroupsCell : List Nat := if vc.searching then vc.searchAns else vc.myGroups groups

def numberOfRowsInSection : Nat := (vc.myGroupsCell groups).length

def reloadData : SubscriptionTableViewController :=
  { vc with rowCount := vc.numberOfRowsInSection groups }

/-- `observeChangesGroups`, up to the registration of the observer. -/
def observeChangesGroups (realm : Except String Unit) : SubscriptionTableViewController :=
  match realm with
  | .error _ => vc
  | .ok () => { vc with groupsList := some .objects }

def updates (changes : ChangeSet) : Batch := sectionBatch 0 changes

/-- The observer; `none` is the exception of a batch that does not add up. -/
def groupsChanged : CollectionChange → Option SubscriptionTableViewController
  | .initial => some (vc.reloadData groups)
  | .update changes =>
      if (updates changes).Balanced [vc.rowCount] [vc.numberOfRowsInSection groups] then
        some (vc.reloadData groups)
      else none
  | .error _ => some vc

/-- `searchBar(_:textDidChange:)`; `rangeOf name text` is whether
`name.range(of: text, options: .caseInsensitive)` finds a range. -/
def textDidChange (rangeOf : String → String → Bool) (searchText : String) :
    SubscriptionTableViewController :=
  if searchText ≠ "" then
    let found := (vc.myGroups groups).filter fun group =>
      (groups.read group).any fun g => rangeOf g.name searchText
    ({ vc with searching := true, searchAns := found }).reloadData groups
  else ({ vc with searching := false }).reloadData groups

def searchBarCancelButtonClicked : SubscriptionTableViewController :=
  ({ vc with searching := false }).reloadData groups

def commit (editingStyle : EditingStyle) (row : Nat) (outcome : Outcome) :
    Option (Table GroupsVK) := do
  let name ← (vc.myGroupsCell groups)[row]?
  return commitEditing editingStyle outcome groups name

/-- The group `tableView(_:cellForRowAt:)` puts in the cell; `none` is the
trap of the subscript or of reading a deleted object. -/
def cellForRowAt (row : Nat) : Option GroupsVK := do
  let element ← (vc.myGroupsCell groups)[row]?
  groups.read element

end SubscriptionTableViewController

/-! ## The screen and its events -/

/-- `seen` is the version of the groups the observer was last told about,
`none` until its initial call. -/
structure GroupsScreen where
  groups : Table GroupsVK
  seen : Option (List (Row GroupsVK))
  vc : SubscriptionTableViewController

/-- `save` is the moment the main thread's live groups move to the version a
background save has committed, and a swipe deletes the group shown at a row
in the groups themselves; `deliver` is the notification. -/
inductive GroupsEvent where
  | textDidChange (searchText : String)
  | cancel
  | swipe (row : Nat)
  | save (groups : List GroupsVK)
  | deliver
deriving DecidableEq, Repr

namespace GroupsScreen

open SubscriptionTableViewController

variable (rangeOf : String → String → Bool) (N : Notifier GroupsVK)

def viewDidLoad (realm : Except String Unit) (groups : Table GroupsVK) : GroupsScreen where
  groups := groups
  seen := none
  vc := (observeChangesGroups {} realm).reloadData groups

def notification (w : GroupsScreen) : Option CollectionChange := do
  let _ ← w.vc.groupsList
  return match w.seen with
    | none => .initial
    | some old => .update (N.changes old w.groups.rows)

def step (w : GroupsScreen) : GroupsEvent → Option GroupsScreen
  | .textDidChange searchText =>
      some { w with vc := w.vc.textDidChange w.groups rangeOf searchText }
  | .cancel => some { w with vc := w.vc.searchBarCancelButtonClicked w.groups }
  | .swipe row => do
      let groups ← w.vc.commit w.groups .delete row .committed
      return { w with groups := groups }
  | .save groups => some { w with groups := w.groups.replaceAll groups }
  | .deliver => do
      let changes ← w.notification N
      let vc ← w.vc.groupsChanged w.groups changes
      return { w with seen := some w.groups.rows, vc := vc }

/-- A save is what the completion of `GroupsRequest.loadData` commits. -/
theorem step_loadData {w : GroupsScreen} {realm : Realm} (hrealm : realm .groups = w.groups)
    (F : Foundation) (data : Data) (error : Option String) :
    w.step rangeOf N (.save (SwiftyJSONParserGroups.parse F data)) =
      some { w with
        groups := GroupsRequest.loadData F .committed (received data error) realm .groups } := by
  rw [GroupsRequest.loadData, completion_committed, hrealm]
  rfl

/-! ## The invariant -/

def BatchBalanced (w : GroupsScreen) (e : GroupsEvent) : Prop :=
  e = .deliver → ∀ changes, w.notification N = some (.update changes) →
    (updates changes).Balanced [w.vc.rowCount] [w.vc.numberOfRowsInSection w.groups]

def ObjectsLive (w : GroupsScreen) : Prop :=
  ∀ group ∈ w.vc.myGroupsCell w.groups, w.groups.Live group

/-- The event leaves a running search alone: a save finds it empty, no row of
its result is swiped away, and a notification brings as many groups as the
last one did. Outside a search a notification finds the table view at the
row count of the last one. -/
def Spares (w : GroupsScreen) : GroupsEvent → Prop
  | .textDidChange _ => True
  | .cancel => True
  | .swipe row => w.vc.searching = true → w.vc.searchAns[row]? = none
  | .save _ => w.vc.searching = true → w.vc.searchAns = []
  | .deliver => w.vc.groupsList = some .objects → ∀ old, w.seen = some old →
      if w.vc.searching then old.length = w.groups.rows.length else w.vc.rowCount = old.length

/-- A search that is running has been counted, and its result is live. -/
def SearchCounted (w : GroupsScreen) : Prop :=
  w.vc.searching = true →
    w.vc.rowCount = w.vc.searchAns.length ∧ ∀ group ∈ w.vc.searchAns, w.groups.Live group

variable {rangeOf N}

theorem myGroupsCell_searching {groups : Table GroupsVK} {vc : SubscriptionTableViewController}
    (h : vc.searching = true) : vc.myGroupsCell groups = vc.searchAns := by
  rw [myGroupsCell, if_pos h]

theorem myGroupsCell_not_searching {groups : Table GroupsVK} {vc : SubscriptionTableViewController}
    (h : vc.searching = false) : vc.myGroupsCell groups = vc.myGroups groups := by
  simp [myGroupsCell, h]

theorem isSome_cellForRowAt_iff {groups : Table GroupsVK} {vc : SubscriptionTableViewController}
    {row group : Nat} (h : (vc.myGroupsCell groups)[row]? = some group) :
    (vc.cellForRowAt groups row).isSome ↔ groups.Live group := by
  rw [cellForRowAt, h, ← Table.read_isSome_iff]
  rfl

theorem objectsLive_of_not_searching {w : GroupsScreen} (h : w.vc.searching = false) :
    w.ObjectsLive := by
  intro group hgroup
  rw [myGroupsCell_not_searching h] at hgroup
  exact live_of_mem_arrayOf hgroup

theorem objectsLive_iff_of_searching {w : GroupsScreen} (h : w.vc.searching = true) :
    w.ObjectsLive ↔ ∀ group ∈ w.vc.searchAns, w.groups.Live group := by
  rw [ObjectsLive, myGroupsCell_searching h]

theorem objectsLive_of_searchCounted {w : GroupsScreen} (hw : w.SearchCounted) :
    w.ObjectsLive := by
  cases hsearching : w.vc.searching with
  | false => exact objectsLive_of_not_searching hsearching
  | true => exact (objectsLive_iff_of_searching hsearching).mpr (hw hsearching).2

/-! ### One event -/

theorem searchCounted_textDidChange (w : GroupsScreen) (searchText : String) :
    SearchCounted { w with vc := w.vc.textDidChange w.groups rangeOf searchText } := by
  intro hsearching
  by_cases htext : searchText = ""
  · simp [textDidChange, htext, reloadData] at hsearching
  · simp only [textDidChange, ne_eq, htext, not_false_eq_true, if_true, reloadData,
      numberOfRowsInSection]
    refine ⟨rfl, fun group hgroup => ?_⟩
    exact live_of_mem_arrayOf (List.mem_of_mem_filter hgroup)

theorem searchCounted_cancel (w : GroupsScreen) :
    SearchCounted { w with vc := w.vc.searchBarCancelButtonClicked w.groups } :=
  fun hsearching => Bool.noConfusion hsearching

theorem batchBalanced_iff_spares {w : GroupsScreen} (hw : w.SearchCounted) :
    w.BatchBalanced N .deliver ↔ w.Spares .deliver := by
  cases hlist : w.vc.groupsList with
  | none => simp [BatchBalanced, notification, Spares, hlist]
  | some results =>
      cases hseen : w.seen with
      | none => simp [BatchBalanced, notification, Spares, hlist, hseen]
      | some old =>
          cases results
          have hbatch : w.BatchBalanced N .deliver ↔
              w.vc.rowCount + w.groups.rows.length =
                w.vc.numberOfRowsInSection w.groups + old.length := by
            simp [BatchBalanced, notification, hlist, hseen, updates, notified_balanced_iff]
          rw [hbatch, numberOfRowsInSection]
          simp only [Spares, hlist, hseen, Option.some.injEq, forall_eq', true_implies]
          cases hsearching : w.vc.searching with
          | false =>
              rw [myGroupsCell_not_searching hsearching, myGroups, hlist, arrayOf, List.length_map]
              simp only [Bool.false_eq_true, if_false]
              omega
          | true =>
              rw [myGroupsCell_searching hsearching, (hw hsearching).1]
              simp only [if_true]
              omega

theorem groupsChanged_cases {groups : Table GroupsVK} {vc vc' : SubscriptionTableViewController}
    {changes : CollectionChange} (h : vc.groupsChanged groups changes = some vc') :
    vc' = vc.reloadData groups ∨ vc' = vc := by
  cases changes with
  | initial => exact .inl (Option.some.inj h).symm
  | update changes =>
      simp only [groupsChanged] at h
      split at h
      · exact .inl (Option.some.inj h).symm
      · cases h
  | error message => exact .inr (Option.some.inj h).symm

theorem searchCounted_step {w w' : GroupsScreen} {e : GroupsEvent} (hw : w.SearchCounted)
    (hspares : w.Spares e) (h : step rangeOf N w e = some w') : w'.SearchCounted := by
  cases e with
  | textDidChange searchText =>
      obtain rfl := Option.some.inj h
      exact searchCounted_textDidChange w searchText
  | cancel =>
      obtain rfl := Option.some.inj h
      exact searchCounted_cancel w
  | swipe row =>
      rcases Option.bind_eq_some_iff.mp h with ⟨groups, hcommit, hw'⟩
      obtain rfl := Option.some.inj hw'
      intro hsearching
      rw [commit, myGroupsCell_searching hsearching, hspares hsearching] at hcommit
      cases hcommit
  | save groups =>
      obtain rfl := Option.some.inj h
      intro hsearching
      refine ⟨(hw hsearching).1, fun group hgroup => ?_⟩
      rw [hspares hsearching] at hgroup
      exact absurd hgroup List.not_mem_nil
  | deliver =>
      rcases Option.bind_eq_some_iff.mp h with ⟨changes, -, h⟩
      rcases Option.bind_eq_some_iff.mp h with ⟨vc, hvc, hw'⟩
      obtain rfl := Option.some.inj hw'
      intro hsearching
      rcases groupsChanged_cases hvc with rfl | rfl
      · refine ⟨?_, (hw hsearching).2⟩
        have hshown : w.vc.myGroupsCell w.groups = w.vc.searchAns :=
          myGroupsCell_searching hsearching
        exact congrArg List.length hshown
      · exact hw hsearching

theorem spares_of_objectsLive {w : GroupsScreen} {e : GroupsEvent} (hw : w.SearchCounted)
    (he : e ≠ .deliver) (hlive : ∀ w', step rangeOf N w e = some w' → w'.ObjectsLive) :
    w.Spares e := by
  cases e with
  | textDidChange searchText => trivial
  | cancel => trivial
  | swipe row =>
      intro hsearching
      cases hname : w.vc.searchAns[row]? with
      | none => rfl
      | some name =>
          have hstep : step rangeOf N w (.swipe row) =
              some { w with groups := w.groups.delete name } := by
            simp [step, commit, commitEditing, myGroupsCell_searching hsearching, hname]
          have hshown : name ∈ w.vc.myGroupsCell (w.groups.delete name) := by
            rw [myGroupsCell_searching hsearching]
            exact List.mem_of_getElem? hname
          exact absurd (hlive _ hstep name hshown) (Table.not_live_delete _ _)
  | save groups =>
      intro hsearching
      refine List.eq_nil_iff_forall_not_mem.mpr fun group hgroup => ?_
      have hshown : group ∈ w.vc.myGroupsCell (w.groups.replaceAll groups) := by
        rw [myGroupsCell_searching hsearching]
        exact hgroup
      exact Table.not_live_replaceAll ((hw hsearching).2 group hgroup) groups
        (hlive _ rfl group hshown)
  | deliver => exact absurd rfl he

theorem invariant_iff_spares {w : GroupsScreen} {e : GroupsEvent} (hw : w.SearchCounted) :
    (w.BatchBalanced N e ∧ ∀ w', step rangeOf N w e = some w' → w'.ObjectsLive) ↔ w.Spares e := by
  constructor
  · rintro ⟨hbatch, hlive⟩
    by_cases he : e = .deliver
    · subst he
      exact (batchBalanced_iff_spares hw).mp hbatch
    · exact spares_of_objectsLive hw he hlive
  · intro hspares
    refine ⟨fun he => ?_, fun w' h => ?_⟩
    · subst he
      exact (batchBalanced_iff_spares hw).mpr hspares rfl
    · exact objectsLive_of_searchCounted (searchCounted_step hw hspares h)

/-- **The groups table.** In a run of the screen, every batch adds up and
every object on the screen is live exactly when every event spares the
search it meets. -/
theorem groups_invariant_iff (realm : Except String Unit) (groups : Table GroupsVK)
    (es : List GroupsEvent) :
    Runs.Always (step rangeOf N) (BatchBalanced N) (viewDidLoad realm groups) es ∧
        Runs.Throughout (step rangeOf N) ObjectsLive (viewDidLoad realm groups) es ↔
      Runs.Always (step rangeOf N) Spares (viewDidLoad realm groups) es := by
  have hsearching : (viewDidLoad realm groups).vc.searching = false := by
    cases realm <;> rfl
  have hstart : (viewDidLoad realm groups).ObjectsLive := objectsLive_of_not_searching hsearching
  rw [Runs.throughout_iff_always, and_iff_right hstart, ← Runs.always_and]
  refine Runs.always_iff_of_inv (I := SearchCounted) (fun w e hw => invariant_iff_spares hw)
    (fun w e w' hw hspares h => searchCounted_step hw hspares h) fun h => ?_
  rw [hsearching] at h
  cases h

def twoGroups : Table GroupsVK :=
  Table.empty.replaceAll [{ id := 1, name := "Chess" }, { id := 2, name := "Sailing" }]

/-- The search shows one row. Swiping it away leaves the deleted object in
the search result, and the notification takes a row from the table view
that the data source still has. No notifier saves either half. -/
theorem groups_invariant_broken_by_swipe :
    ¬∃ N : Notifier GroupsVK, ∀ w,
      Runs.run (step (fun name text => name = text) N) (viewDidLoad (.ok ()) twoGroups)
          [.deliver, .textDidChange "Chess", .swipe 0] = some w →
        w.ObjectsLive ∨ w.BatchBalanced N .deliver := by
  rintro ⟨N, h⟩
  rcases h _ rfl with hlive | hbalanced
  · exact absurd (hlive 0 (by decide)) (by decide)
  · have hcounts := (notified_balanced_iff N).mp (hbalanced rfl _ rfl)
    exact absurd hcounts (by decide)

end GroupsScreen

end VkClient
