import VkClient.FriendsTable

/-!
# The letter sections

The letters of the sections are collected once, in `viewDidLoad`; only what
each section holds is live. The observers registered with the sections
write to the table view and leave `friendsList` alone, so every later state
is drawn from the letters of the first table (`exists_section_iff`).

Hence a friend saved later is on the screen only if an initial friend has
lent it a letter (`Lettered`), and the screen loses no friend in a run of
commits exactly when every friend saved in it has one (`coverage_iff`). On
the first launch the table is empty at `viewDidLoad`, there are no letters,
and the first download shows nothing.
-/

namespace VkClient

namespace FriendsScreen

open FriendsTableViewController

/-- Every row of the table is in some section, and every row of a section
is in the table. -/
def Covers (T : TextOps) (w : FriendsScreen) : Prop :=
  (∀ r ∈ w.table.rows, ∃ q ∈ w.vc.friendsList, r ∈ q.results T w.table) ∧
  ∀ q ∈ w.vc.friendsList, ∀ r ∈ q.results T w.table, r ∈ w.table.rows

/-- The friend's name begins, up to case and diacritics, with the first
character of the name of some friend in the table. -/
def Lettered (T : TextOps) (table : Table FriendsVK) (friend : FriendsVK) : Prop :=
  ∃ r ∈ table.rows, ∃ c, T.first r.val.name = some c ∧
    T.beginsWithCD friend.name (T.lowercased c) = true

variable {T : TextOps}

theorem rows_of_swipe {w w' : FriendsScreen} {indexPath : IndexPath}
    (h : w.commitStep T (.swipe indexPath) = some w') :
    ∀ r ∈ w'.table.rows, r ∈ w.table.rows := by
  obtain ⟨table, htable, hw'⟩ := Option.bind_eq_some_iff.mp h
  obtain ⟨name, -, rfl⟩ := commit_delete_iff.mp htable
  obtain rfl := Option.some.inj hw'
  exact fun r hr => (Table.mem_delete.mp hr).1

theorem exists_section_iff {table₀ table : Table FriendsVK} {r : Row FriendsVK}
    (hr : r ∈ table.rows) :
    (∃ q ∈ (friendsLetters T table₀).map FriendsQuery.beginsWith, r ∈ q.results T table) ↔
      Lettered T table₀ r.val := by
  constructor
  · rintro ⟨q, hq, hresult⟩
    obtain ⟨letter, hletter, rfl⟩ := List.mem_map.mp hq
    obtain ⟨r₀, hr₀, c, hc, rfl⟩ := mem_friendsLetters.mp hletter
    exact ⟨r₀, hr₀, c, hc, (mem_results.mp hresult).2⟩
  · rintro ⟨r₀, hr₀, c, hc, hbegins⟩
    exact ⟨.beginsWith (T.lowercased c),
      List.mem_map_of_mem (mem_friendsLetters.mpr ⟨r₀, hr₀, c, hc, rfl⟩),
      mem_results.mpr ⟨hr, hbegins⟩⟩

theorem covers_iff {table₀ : Table FriendsVK} {w : FriendsScreen}
    (hlist : w.vc.friendsList = (friendsLetters T table₀).map .beginsWith) :
    w.Covers T ↔ ∀ r ∈ w.table.rows, Lettered T table₀ r.val := by
  rw [Covers, hlist]
  refine (and_iff_left fun q _ r hr => (mem_results.mp hr).1).trans ?_
  exact forall₂_congr fun r hr => exists_section_iff hr

theorem covers_commitStep {table₀ : Table FriendsVK} {w : FriendsScreen} {c : FriendsCommit}
    (hlist : w.vc.friendsList = (friendsLetters T table₀).map .beginsWith)
    (hcovers : w.Covers T) :
    (∀ w', w.commitStep T c = some w' → w'.Covers T) ↔
      ∀ friends, c = .save friends → ∀ friend ∈ friends, Lettered T table₀ friend := by
  cases c with
  | save friends =>
      have hsave := covers_iff (w := { w with table := w.table.replaceAll friends }) hlist
      simp only [commitStep, Option.some.injEq, forall_eq', FriendsCommit.save.injEq, hsave]
      exact Table.forall_mem_replaceAll
  | swipe indexPath =>
      refine iff_of_true (fun w' hw' => ?_) (by simp)
      rw [covers_iff (by rw [vc_of_commitStep hw', hlist])]
      exact fun r hr => (covers_iff hlist).mp hcovers r (rows_of_swipe hw' r hr)

/-- **No friend is lost.** Where a name begins with its own lowercased first
character, the screen covers the table throughout a run of commits exactly
when every nameless friend of the first table and every friend saved in the
run begins with a letter of the first table. -/
theorem coverage_iff
    (hown : ∀ name c, T.first name = some c → T.beginsWithCD name (T.lowercased c) = true)
    (session : Session) (table : Table FriendsVK) (commits : List FriendsCommit) :
    Runs.Throughout (commitStep T) (Covers T) (viewDidLoad T session table) commits ↔
      (∀ r ∈ table.rows, T.first r.val.name = none → Lettered T table r.val) ∧
      Runs.Always (commitStep T)
        (fun _ c => ∀ friends, c = .save friends → ∀ friend ∈ friends, Lettered T table friend)
        (viewDidLoad T session table) commits := by
  have hlist : (viewDidLoad T session table).vc.friendsList =
      (friendsLetters T table).map .beginsWith := rfl
  have hstart : (viewDidLoad T session table).Covers T ↔
      ∀ r ∈ table.rows, T.first r.val.name = none → Lettered T table r.val := by
    refine (covers_iff hlist).trans (forall₂_congr fun r hr => ⟨fun h _ => h, fun h => ?_⟩)
    cases hfirst : T.first r.val.name with
    | none => exact h hfirst
    | some c => exact ⟨r, hr, c, hfirst, hown _ _ hfirst⟩
  rw [Runs.throughout_iff_always, hstart]
  refine and_congr_right fun hnamed => ?_
  -- the invariant: the letters are those of the first table, and they cover the table
  refine Runs.always_iff_of_inv (I := fun w =>
    w.vc.friendsList = (friendsLetters T table).map .beginsWith ∧ w.Covers T)
    (fun w c ⟨hw, hcovers⟩ => covers_commitStep hw hcovers) ?_ ⟨hlist, hstart.mpr hnamed⟩
  intro w c w' ⟨hw, hcovers⟩ hsaved hw'
  exact ⟨by rw [vc_of_commitStep hw', hw], (covers_commitStep hw hcovers).mpr hsaved w' hw'⟩

theorem ascii_beginsWith_own (name c : String) (h : TextOps.ascii.first name = some c) :
    TextOps.ascii.beginsWithCD name (TextOps.ascii.lowercased c) = true := by
  obtain ⟨x, hx, rfl⟩ := Option.map_eq_some_iff.mp h
  obtain ⟨xs, hxs⟩ := List.head?_eq_some_iff.mp hx
  simp only [TextOps.ascii, TextOps.ascii.lower, hxs, String.toList_ofList, String.toList_singleton,
    List.map_cons, List.map_nil, TextOps.toLower_toLower, List.isPrefixOf_cons_cons_self,
    List.isPrefixOf_nil_left]

theorem coverage_of_twoFriends :
    Runs.Throughout (commitStep .ascii) (Covers .ascii) (viewDidLoad .ascii {} twoFriends)
      [.save [{ id := 3, name := "Boris Orlov" }], .swipe ⟨0, 1⟩] := by
  have hnamed : ∀ r ∈ twoFriends.rows, TextOps.ascii.first r.val.name ≠ none := by decide
  refine (coverage_iff ascii_beginsWith_own {} twoFriends _).mpr
    ⟨fun r hr hnone => absurd hnone (hnamed r hr), Runs.always_of_forall_mem ?_⟩
  rintro c hc friends rfl friend hfriend
  obtain rfl : friends = [{ id := 3, name := "Boris Orlov" }] := by simpa using hc
  obtain rfl := List.mem_singleton.mp hfriend
  exact ⟨⟨1, { id := 2, name := "Boris Petrov" }⟩, by decide, "B", by decide, by decide⟩

/-- First launch: the table is empty at `viewDidLoad`, and the first download
shows nothing. -/
theorem coverage_lost_on_first_launch :
    ¬Runs.Throughout (commitStep .ascii) (Covers .ascii) (viewDidLoad .ascii {} .empty)
      [.save [{ id := 1, name := "Anna Ivanova" }]] := by
  intro h
  obtain ⟨hcovered, -⟩ := (Runs.throughout_cons.mp h).2 _ rfl |>.head
  obtain ⟨q, hq, -⟩ := hcovered ⟨0, { id := 1, name := "Anna Ivanova" }⟩ (by decide)
  exact List.not_mem_nil (show q ∈ [] from hq)

end FriendsScreen

end VkClient
