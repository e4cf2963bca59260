import VkClient.FriendsSections

/-!
# Searching friends

`updateSearchResults` makes a new result list for every text but the empty
one, for which it only reloads the table. `myFriendsCell` nevertheless takes
the results whenever the search controller is active. An active search with
nothing in its field therefore shows the friends of the last text that was
searched for, and none before the first.

What the screen shows is a function of the query as long as the field is
not empty; with an empty field it is the list of all friends exactly where
the last search had found them all (`search_iff`).
-/

namespace VkClient

namespace FriendsScreen

open FriendsTableViewController

/-! ## Queries -/

/-- The data source has the friend in some row. -/
def Shows (T : TextOps) (w : FriendsScreen) (r : Row FriendsVK) : Prop :=
  ∃ indexPath, w.vc.cellForRowAt T w.table indexPath = some r

/-- The text in the search field; a field without a text is an empty one. -/
def text (w : FriendsScreen) : String := w.vc.searchText.getD ""

/-- All friends while search is inactive or the field is empty, and the
friends whose name contains the text otherwise. -/
def ShowsQuery (T : TextOps) (w : FriendsScreen) : Prop :=
  ∀ r, w.Shows T r ↔ r ∈ w.table.rows ∧
    (w.vc.isActive = false ∨ w.text = "" ∨ T.containsC r.val.name w.text = true)

/-- The text an event searches for. -/
def searched : FriendsEvent → Option String
  | .search _ (some text) => if text = "" then none else some text
  | _ => none

def lastSearched (es : List FriendsEvent) : Option String := (es.filterMap searched).getLast?

/-- The query is not one for all friends in an active search, or the last
text searched for was in the name of every friend. -/
def Searchable (T : TextOps) (es : List FriendsEvent) (w : FriendsScreen) : Prop :=
  w.vc.isActive = false ∨ w.text ≠ "" ∨
    ∀ r ∈ w.table.rows, ∃ text, lastSearched es = some text ∧
      T.containsC r.val.name text = true

variable {T : TextOps}

theorem shows_iff {w : FriendsScreen} {r : Row FriendsVK} :
    w.Shows T r ↔ ∃ q ∈ w.vc.myFriendsCell, r ∈ q.results T w.table := by
  constructor
  · rintro ⟨indexPath, h⟩
    obtain ⟨q, hq, hr⟩ := Option.bind_eq_some_iff.mp h
    exact ⟨q, List.mem_of_getElem? hq, List.mem_of_getElem? hr⟩
  · rintro ⟨q, hq, hr⟩
    obtain ⟨i, hi⟩ := List.mem_iff_getElem?.mp hq
    obtain ⟨j, hj⟩ := List.mem_iff_getElem?.mp hr
    exact ⟨{ sect := i, row := j }, Option.bind_eq_some_iff.mpr ⟨q, hi, hj⟩⟩

/-! ## The result list -/

theorem searchText_updateSearchResults (vc : FriendsTableViewController)
    (table : Table FriendsVK) :
    (vc.updateSearchResults T table (.ok table)).searchText = vc.searchText := by
  unfold updateSearchResults
  cases htext : vc.searchText with
  | none => exact htext
  | some text =>
      by_cases hempty : text = ""
      · simp [hempty, reloadData, htext]
      · simp [hempty, reloadData]

theorem searchMassive_updateSearchResults (vc : FriendsTableViewController)
    (table : Table FriendsVK) :
    (vc.updateSearchResults T table (.ok table)).searchMassive =
      if vc.searchText.getD "" = "" then vc.searchMassive
      else [.contains (vc.searchText.getD "")] := by
  unfold updateSearchResults
  cases vc.searchText with
  | none => rfl
  | some text =>
      by_cases hempty : text = ""
      · simp [hempty, reloadData]
      · simp [hempty, reloadData]

theorem searchMassive_step {w w' : FriendsScreen} {e : FriendsEvent} (h : w.step T e = some w') :
    w'.vc.searchMassive =
      ((searched e).map fun text => [FriendsQuery.contains text]).getD w.vc.searchMassive := by
  rcases step_cases h with
    ⟨c, rfl, hcommit⟩ | ⟨isActive, text, rfl, rfl⟩ | ⟨indexPath, element, rfl, -, rfl⟩
  · rw [vc_of_commitStep hcommit]
    rfl
  · rw [searchMassive_updateSearchResults]
    cases text with
    | none => rfl
    | some text => by_cases hempty : text = "" <;> simp [searched, hempty]
  · rfl

/-- The result list is that of the last text searched for. -/
theorem searchMassive_run {session : Session} {table : Table FriendsVK} {es : List FriendsEvent}
    {w : FriendsScreen} (h : Runs.run (step T) (viewDidLoad T session table) es = some w) :
    w.vc.searchMassive = ((lastSearched es).map fun text => [FriendsQuery.contains text]).getD [] := by
  rw [Runs.run_last_write (f := fun w => w.vc.searchMassive) (fun _ _ _ => searchMassive_step) h,
    lastSearched, ← List.getLast?_map, List.map_filterMap]
  rfl

/-- The results are those of the text in the field, if there is one. -/
def Refreshed (w : FriendsScreen) : Prop :=
  w.text ≠ "" → w.vc.searchMassive = [.contains w.text]

theorem refreshed_step {w w' : FriendsScreen} {e : FriendsEvent} (hw : w.Refreshed)
    (h : w.step T e = some w') : w'.Refreshed := by
  rcases step_cases h with
    ⟨c, rfl, hcommit⟩ | ⟨isActive, searchText, rfl, rfl⟩ | ⟨indexPath, element, rfl, -, rfl⟩
  · rw [Refreshed, text, vc_of_commitStep hcommit]
    exact hw
  · intro hne
    rw [text, searchText_updateSearchResults] at hne ⊢
    rw [searchMassive_updateSearchResults]
    exact if_neg hne
  · exact hw

theorem refreshed_run {session : Session} {table : Table FriendsVK} {es : List FriendsEvent}
    {w : FriendsScreen} (h : Runs.run (step T) (viewDidLoad T session table) es = some w) :
    w.Refreshed :=
  Runs.run_inv (fun _ _ _ => refreshed_step) (fun hne => absurd rfl hne) h

/-! ## What is shown -/

theorem shows_inactive_iff {w : FriendsScreen} (hcovers : w.Covers T)
    (hinactive : w.vc.isActive = false) {r : Row FriendsVK} :
    w.Shows T r ↔ r ∈ w.table.rows := by
  rw [shows_iff, myFriendsCell_inactive hinactive]
  exact ⟨fun ⟨q, hq, hr⟩ => hcovers.2 q hq r hr, hcovers.1 r⟩

theorem shows_active_iff {w : FriendsScreen} (hactive : w.vc.isActive = true)
    {query : Option String}
    (hmassive : w.vc.searchMassive = (query.map fun text => [FriendsQuery.contains text]).getD [])
    {r : Row FriendsVK} :
    w.Shows T r ↔ r ∈ w.table.rows ∧
      ∃ text, query = some text ∧ T.containsC r.val.name text = true := by
  have hcell : w.vc.myFriendsCell = w.vc.searchMassive := if_pos hactive
  rw [shows_iff, hcell, hmassive]
  cases query with
  | none => simp
  | some text => simp [mem_results, FriendsQuery.accepts]

theorem showsQuery_iff {session : Session} {table : Table FriendsVK} {es : List FriendsEvent}
    {w : FriendsScreen} (h : Runs.run (step T) (viewDidLoad T session table) es = some w)
    (hcovers : w.Covers T) : w.ShowsQuery T ↔ Searchable T es w := by
  rw [ShowsQuery, Searchable]
  cases hactive : w.vc.isActive with
  | false => simp [shows_inactive_iff hcovers hactive]
  | true =>
      by_cases htext : w.text = ""
      · simp only [shows_active_iff hactive (searchMassive_run h), htext]
        simp
      · have hresults : w.vc.searchMassive =
            ((some w.text).map fun text => [FriendsQuery.contains text]).getD [] :=
          refreshed_run h htext
        simp [shows_active_iff hactive hresults, htext]

/-- **Search depends on the query only.** After every run that leaves the
letter sections covering the table, the screen shows the friends of its
query exactly when search is inactive, the field is not empty, or the last
text searched for was in the name of every friend. Two such runs to the
same table and the same query show the same friends. -/
theorem search_iff (T : TextOps) (session : Session) (table : Table FriendsVK) :
    (∀ es w, Runs.run (step T) (viewDidLoad T session table) es = some w → w.Covers T →
        (w.ShowsQuery T ↔ Searchable T es w)) ∧
      ∀ es es' w w', Runs.run (step T) (viewDidLoad T session table) es = some w →
        Runs.run (step T) (viewDidLoad T session table) es' = some w' →
        w.Covers T → w'.Covers T → Searchable T es w → Searchable T es' w' →
        w.table = w'.table → w.vc.isActive = w'.vc.isActive → w.text = w'.text →
        ∀ r, w.Shows T r ↔ w'.Shows T r := by
  refine ⟨fun es w h hcovers => showsQuery_iff h hcovers, ?_⟩
  intro es es' w w' h h' hcovers hcovers' hquery hquery' htable hactive htext r
  have hshows := (showsQuery_iff h hcovers).mpr hquery
  have hshows' := (showsQuery_iff h' hcovers').mpr hquery'
  rw [hshows r, hshows' r, htable, hactive, htext]

theorem search_boris :
    ∃ w, Runs.run (step .ascii) (viewDidLoad .ascii {} twoFriends)
        [.search true (some ""), .search true (some "boris")] = some w ∧
      (w.ShowsQuery .ascii ↔
        Searchable .ascii [.search true (some ""), .search true (some "boris")] w) := by
  refine ⟨_, rfl, (search_iff .ascii {} twoFriends).1 _ _ rfl ?_⟩
  unfold Covers
  decide

/-- An active search with an empty field shows nobody before the first text
is typed, and Boris after his name has been typed and cleared. -/
theorem search_depends_on_history :
    ∃ w w', Runs.run (step .ascii) (viewDidLoad .ascii {} twoFriends)
        [.search true (some "")] = some w ∧
      Runs.run (step .ascii) (viewDidLoad .ascii {} twoFriends)
        [.search true (some ""), .search true (some "boris"), .search true (some "")] = some w' ∧
      w.Covers .ascii ∧ w'.Covers .ascii ∧
      w.table = w'.table ∧ w.vc.isActive = w'.vc.isActive ∧ w.text = w'.text ∧
      ¬w.ShowsQuery .ascii ∧ ∃ r, w'.Shows .ascii r ∧ ¬w.Shows .ascii r := by
  let boris : Row FriendsVK := ⟨1, { id := 2, name := "Boris Petrov" }⟩
  have hnobody : ∀ w, Runs.run (step .ascii) (viewDidLoad .ascii {} twoFriends)
      [.search true (some "")] = some w → ¬w.Shows .ascii boris := by
    intro w hw hshown
    obtain rfl := Option.some.inj hw
    obtain ⟨q, hq, -⟩ := shows_iff.mp hshown
    exact List.not_mem_nil (show q ∈ [] from hq)
  refine ⟨_, _, rfl, rfl, by unfold Covers; decide, by unfold Covers; decide, rfl, rfl, rfl, ?_⟩
  refine ⟨fun hquery => ?_, boris, ⟨⟨0, 0⟩, by decide⟩, hnobody _ rfl⟩
  exact hnobody _ rfl ((hquery boris).mpr ⟨by decide, .inr (.inl rfl)⟩)

end FriendsScreen

end VkClient
