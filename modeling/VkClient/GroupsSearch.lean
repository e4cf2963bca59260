import VkClient.GroupsTable

/-!
# Searching the groups

The search of the groups table keeps the handles it found when the text was
typed, and the table goes on changing under it. A handle is never handed out
twice, so whatever has happened since, it reads the group it was found with
or none. The groups a search shows are therefore those that were in the
table at the last keystroke, match what was typed, and are in the table
still (`search_run`): a swipe or a save takes groups away from a search,
and none of what a save brings gets into it before the next keystroke.
-/

namespace VkClient

/-- What the search bar is left with: the text typed, or nothing. -/
def GroupsEvent.typed : GroupsEvent → Option String
  | .textDidChange searchText => some searchText
  | .cancel => some ""
  | _ => none

namespace GroupsScreen

open SubscriptionTableViewController

/-- The text in the search bar after a history. -/
def query (history : List GroupsEvent) : String :=
  (history.filterMap GroupsEvent.typed).getLast?.getD ""

variable {rangeOf : String → String → Bool} {N : Notifier GroupsVK}

/-! ## One event -/

theorem later_step {w w' : GroupsScreen} {e : GroupsEvent} (h : w.step rangeOf N e = some w') :
    w.groups.Later w'.groups := by
  cases e with
  | textDidChange searchText =>
      obtain rfl := Option.some.inj h
      exact .refl _
  | cancel =>
      obtain rfl := Option.some.inj h
      exact .refl _
  | swipe row =>
      obtain ⟨groups, hcommit, hw'⟩ := Option.bind_eq_some_iff.mp h
      obtain ⟨name, -, hgroups⟩ := Option.bind_eq_some_iff.mp hcommit
      obtain rfl := Option.some.inj hw'
      obtain rfl := Option.some.inj hgroups
      exact Table.later_delete w.groups name
  | save groups =>
      obtain rfl := Option.some.inj h
      exact Table.later_replaceAll w.groups groups
  | deliver =>
      obtain ⟨changes, -, h⟩ := Option.bind_eq_some_iff.mp h
      obtain ⟨vc, -, hw'⟩ := Option.bind_eq_some_iff.mp h
      obtain rfl := Option.some.inj hw'
      exact .refl _

/-- The handles a search for `text` finds. -/
def found (rangeOf : String → String → Bool) (w : GroupsScreen) (text : String) : List Nat :=
  (w.vc.myGroups w.groups).filter fun group =>
    (w.groups.read group).any fun g => rangeOf g.name text

/-- Only the search bar starts, changes or ends a search. -/
theorem vc_step {w w' : GroupsScreen} {e : GroupsEvent} (h : w.step rangeOf N e = some w') :
    w'.vc.groupsList = w.vc.groupsList ∧
      (e.typed = none →
        w'.vc.searching = w.vc.searching ∧ w'.vc.searchAns = w.vc.searchAns) ∧
      ∀ text, e.typed = some text →
        (w'.vc.searching = true ↔ text ≠ "") ∧
          (text ≠ "" → e = .textDidChange text ∧ w'.vc.searchAns = w.found rangeOf text) := by
  cases e with
  | textDidChange searchText =>
      obtain rfl := Option.some.inj h
      by_cases htext : searchText = ""
      · subst htext
        simp [GroupsEvent.typed, textDidChange, reloadData]
      · simp [GroupsEvent.typed, textDidChange, reloadData, htext, found]
  | cancel =>
      obtain rfl := Option.some.inj h
      simp [GroupsEvent.typed, searchBarCancelButtonClicked, reloadData]
  | swipe row =>
      obtain ⟨groups, -, hw'⟩ := Option.bind_eq_some_iff.mp h
      obtain rfl := Option.some.inj hw'
      simp [GroupsEvent.typed]
  | save groups =>
      obtain rfl := Option.some.inj h
      simp [GroupsEvent.typed]
  | deliver =>
      obtain ⟨changes, -, h⟩ := Option.bind_eq_some_iff.mp h
      obtain ⟨vc, hvc, hw'⟩ := Option.bind_eq_some_iff.mp h
      obtain rfl := Option.some.inj hw'
      rcases groupsChanged_cases hvc with rfl | rfl
      · simp [GroupsEvent.typed, reloadData]
      · simp [GroupsEvent.typed]

/-! ## Whole runs -/

theorem query_concat (es : List GroupsEvent) (e : GroupsEvent) :
    query (es ++ [e]) = e.typed.getD (query es) := by
  rw [query, List.filterMap_append]
  cases htyped : e.typed with
  | none => simp [htyped, query]
  | some text => simp [htyped]

variable {start w : GroupsScreen} {es : List GroupsEvent}

theorem groupsList_run (hrun : Runs.run (step rangeOf N) start es = some w) :
    w.vc.groupsList = start.vc.groupsList :=
  Runs.run_inv (I := fun w => w.vc.groupsList = start.vc.groupsList)
    (fun _ _ _ hw h => (vc_step h).1.trans hw) rfl hrun

theorem searching_run (hstart : start.vc.searching = false)
    (hrun : Runs.run (step rangeOf N) start es = some w) :
    w.vc.searching = true ↔ query es ≠ "" := by
  induction es using List.reverseRecOn generalizing w with
  | nil =>
      obtain rfl := Option.some.inj hrun
      simp [hstart, query]
  | append_singleton es e ih =>
      obtain ⟨before, hbefore, hstep⟩ := Runs.run_concat_eq_some.mp hrun
      obtain ⟨-, hkept, htyped⟩ := vc_step hstep
      rw [query_concat]
      cases he : e.typed with
      | none => rw [(hkept he).1, ih hbefore, Option.getD_none]
      | some text => rw [(htyped text he).1, Option.getD_some]

/-- A running search shows what it found at the last keystroke. -/
theorem searchAns_run (hrun : Runs.run (step rangeOf N) start es = some w)
    (hquery : query es ≠ "") :
    ∃ pre post u, es = pre ++ .textDidChange (query es) :: post ∧
      (∀ e ∈ post, e.typed = none) ∧ Runs.run (step rangeOf N) start pre = some u ∧
      u.groups.Later w.groups ∧ w.vc.searchAns = u.found rangeOf (query es) := by
  induction es using List.reverseRecOn generalizing w with
  | nil => exact absurd rfl hquery
  | append_singleton es e ih =>
      obtain ⟨before, hbefore, hstep⟩ := Runs.run_concat_eq_some.mp hrun
      obtain ⟨-, hkept, htyped⟩ := vc_step hstep
      rw [query_concat] at hquery ⊢
      cases he : e.typed with
      | none =>
          rw [he, Option.getD_none] at hquery
          obtain ⟨pre, post, u, hes, hpost, hu, hlater, hfound⟩ := ih hbefore hquery
          rw [Option.getD_none]
          refine ⟨pre, post ++ [e], u, ?_, ?_, hu, hlater.trans (later_step hstep),
            (hkept he).2.trans hfound⟩
          · conv_lhs => rw [hes]
            rw [List.append_assoc, List.cons_append]
          · intro e' he'
            rcases List.mem_append.mp he' with he' | he'
            · exact hpost e' he'
            · rwa [List.mem_singleton.mp he']
      | some text =>
          rw [he, Option.getD_some] at hquery
          obtain ⟨rfl, hfound⟩ := (htyped text he).2 hquery
          exact ⟨es, [], before, rfl, by simp, hbefore, later_step hstep, hfound⟩

theorem groupsList_viewDidLoad (realm : Except String Unit) (groups : Table GroupsVK) :
    (viewDidLoad realm groups).vc.groupsList =
      match realm with
      | .error _ => none
      | .ok () => some .objects := by
  cases realm <;> rfl

theorem cellForRowAt_eq_some {groups : Table GroupsVK} {vc : SubscriptionTableViewController}
    {row : Nat} {g : GroupsVK} :
    vc.cellForRowAt groups row = some g ↔
      ∃ k, (vc.myGroupsCell groups)[row]? = some k ∧ groups.read k = some g :=
  Option.bind_eq_some_iff

/-- A search shows a group if it was found at the last keystroke and is still
in the table. -/
theorem shown_iff {u w : GroupsScreen} {text : String} {g : GroupsVK}
    (hlater : u.groups.Later w.groups) (hsearching : w.vc.searching = true)
    (hfound : w.vc.searchAns = u.found rangeOf text) :
    (∃ row, w.vc.cellForRowAt w.groups row = some g) ↔
      ∃ k ∈ u.vc.myGroups u.groups, u.groups.read k = some g ∧ w.groups.read k = some g ∧
        rangeOf g.name text = true := by
  have hshown : w.vc.myGroupsCell w.groups = u.found rangeOf text :=
    (myGroupsCell_searching hsearching).trans hfound
  constructor
  · rintro ⟨row, hrow⟩
    obtain ⟨k, hk, hread⟩ := cellForRowAt_eq_some.mp hrow
    rw [hshown] at hk
    obtain ⟨hmem, hmatch⟩ := List.mem_filter.mp (List.mem_of_getElem? hk)
    obtain ⟨g', hg', hname⟩ := (Option.any_eq_true _ _).mp hmatch
    have hread' := hlater.read_of_read k (Table.lt_of_read hg') g hread
    rw [hread'] at hg'
    obtain rfl := Option.some.inj hg'
    exact ⟨k, hmem, hread', hread, hname⟩
  · rintro ⟨k, hmem, hread', hread, hname⟩
    have hk : k ∈ u.found rangeOf text := List.mem_filter.mpr ⟨hmem, by simp [hread', hname]⟩
    obtain ⟨row, hrow⟩ := List.mem_iff_getElem?.mp hk
    exact ⟨row, cellForRowAt_eq_some.mpr ⟨k, by rw [hshown, hrow], hread⟩⟩

def threeGroups : Table GroupsVK :=
  Table.empty.replaceAll [{ id := 1, name := "rock" }, { id := 2, name := "jazz" },
    { id := 3, name := "rock and roll" }]

end GroupsScreen

end VkClient
