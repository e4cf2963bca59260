import VkClient.FriendsTable

/-!
# Batch updates of the friends table

`observeChangesFriends` registers one observer for each letter section. A
commit moves the queries of all sections to the new version first; then the
observers of the sections it changed are called, each wrapping the change
set of its own section in its own `beginUpdates`/`endUpdates` pair. The
table view checks every section at every `endUpdates`, so the first
observer's batch already has to account for what the commit did to all the
others.

`batchUpdates_iff` draws the line: the batches of a run of commits all go
through exactly when no commit changes the number of rows of a section other
than the one whose observer is called first. A save that empties two
sections is on the wrong side of it in every order
(`not_allBalanced_of_two_sections`).
-/

namespace VkClient

namespace FriendsScreen

open FriendsTableViewController

variable (T : TextOps) (N : Notifier FriendsVK)

def resultsIn (w : FriendsScreen) (s : Nat) : List (Row FriendsVK) :=
  (w.vc.friendsList[s]?.map fun q => q.results T w.table).getD []

def observerCalls (w w' : FriendsScreen) (order : List Nat) : List (Nat × ChangeSet) :=
  order.map fun s => (s, N.changes (w.resultsIn T s) (w'.resultsIn T s))

/-- The batch `observeChangesFriends` makes of an update of one section. -/
def updates (section' : Nat) (changes : ChangeSet) : Batch := sectionBatch section' changes

/-- The observers are called at most once each, and all whose results the
commit changed are called. -/
def Deliverable (w w' : FriendsScreen) (order : List Nat) : Prop :=
  order.Nodup ∧ (∀ s ∈ order, s < w.vc.friendsList.length) ∧
    ∀ s < w.vc.friendsList.length, w.resultsIn T s ≠ w'.resultsIn T s → s ∈ order

instance (w w' : FriendsScreen) (order : List Nat) : Decidable (w.Deliverable T w' order) :=
  inferInstanceAs (Decidable (_ ∧ _ ∧ _))

/-- The check at every `endUpdates` of the observers: `w'` is the screen
after the commit, whose table view still remembers the rows of `w`. -/
def BatchesBalanced (w w' : FriendsScreen) (order : List Nat) : Prop :=
  AllBalanced (w'.vc.numberOfRows T w'.table) w.vc.rowCounts
    ((observerCalls T N w w' order).map fun call => updates call.1 call.2)

instance (w w' : FriendsScreen) (order : List Nat) :
    Decidable (w.BatchesBalanced T N w' order) :=
  decidableAllBalanced ..

structure NotifiedCommit where
  commit : FriendsCommit
  order : List Nat
deriving DecidableEq, Repr

/-- A commit with its notifications. The run ends where the swiped row does
not exist, the order is none in which the observers can be called, or a
batch raises. -/
def notifiedStep (w : FriendsScreen) (e : NotifiedCommit) : Option FriendsScreen := do
  let w' ← w.commitStep T e.commit
  if w.Deliverable T w' e.order ∧ w.BatchesBalanced T N w' e.order then
    some { w' with vc := w'.vc.reloadData T w'.table }
  else none

/-- If the observers can be called in this order, all their batches add up. -/
def BatchesConsistent (w : FriendsScreen) (e : NotifiedCommit) : Prop :=
  ∀ w', w.commitStep T e.commit = some w' → w.Deliverable T w' e.order →
    w.BatchesBalanced T N w' e.order

/-- The commit changes the number of rows of no section but the one whose
observer is called first. -/
def OnlyFirstResized (w : FriendsScreen) (e : NotifiedCommit) : Prop :=
  ∀ w', w.commitStep T e.commit = some w' → w.Deliverable T w' e.order →
    ∀ first ∈ e.order.head?, ∀ s < w.vc.friendsList.length, s ≠ first →
      (w.resultsIn T s).length = (w'.resultsIn T s).length

def UpToDate (w : FriendsScreen) : Prop :=
  w.vc.isActive = false ∧ w.vc.rowCounts = w.vc.numberOfRows T w.table

variable {T N}

theorem length_numberOfRows {w : FriendsScreen} (h : w.vc.isActive = false) :
    (w.vc.numberOfRows T w.table).length = w.vc.friendsList.length := by
  rw [numberOfRows, List.length_map, myFriendsCell_inactive h]

theorem rowsIn_numberOfRows {w : FriendsScreen} (h : w.vc.isActive = false) (s : Nat) :
    RowCounts.rowsIn (w.vc.numberOfRows T w.table) s = (w.resultsIn T s).length := by
  unfold RowCounts.rowsIn numberOfRows resultsIn
  rw [myFriendsCell_inactive h, List.getD_eq_getElem?_getD, List.getElem?_map]
  cases w.vc.friendsList[s]? <;> rfl

theorem batchesBalanced_iff {w w' : FriendsScreen} {order : List Nat} (hw : w.UpToDate T)
    (hvc : w'.vc = w.vc) (horder : w.Deliverable T w' order) :
    w.BatchesBalanced T N w' order ↔
      ∀ first ∈ order.head?, ∀ s < w.vc.friendsList.length, s ≠ first →
        (w.resultsIn T s).length = (w'.resultsIn T s).length := by
  obtain ⟨hinactive, hcounts⟩ := hw
  obtain ⟨hnodup, hlt, -⟩ := horder
  have hinactive' : w'.vc.isActive = false := by rw [hvc, hinactive]
  have hlength : (w'.vc.numberOfRows T w'.table).length = w.vc.friendsList.length := by
    rw [length_numberOfRows hinactive', hvc]
  have hfst : (observerCalls T N w w' order).map Prod.fst = order := by
    simp [observerCalls, Function.comp_def]
  have hcalls : ∀ call ∈ observerCalls T N w w' order,
      call.1 < (w'.vc.numberOfRows T w'.table).length ∧
        Accounts (w.vc.numberOfRows T w.table) (w'.vc.numberOfRows T w'.table) call.1 call.2 := by
    intro call hcall
    obtain ⟨s, hs, rfl⟩ := List.mem_map.mp hcall
    refine ⟨by rw [hlength]; exact hlt s hs, ?_⟩
    rw [Accounts, rowsIn_numberOfRows hinactive, rowsIn_numberOfRows hinactive']
    exact N.balanced _ _
  unfold BatchesBalanced updates
  rw [hcounts, allBalanced_iff (by rw [hfst]; exact hnodup)
    (fun call h => (hcalls call h).1) (fun call h => (hcalls call h).2), hlength]
  simp only [rowsIn_numberOfRows hinactive, rowsIn_numberOfRows hinactive']
  cases order with
  | nil => simp [observerCalls]
  | cons first rest => simp [observerCalls]

theorem batchesConsistent_iff {w : FriendsScreen} {e : NotifiedCommit} (hw : w.UpToDate T) :
    w.BatchesConsistent T N e ↔ w.OnlyFirstResized T e :=
  forall₃_congr fun _ hw' horder => batchesBalanced_iff hw (vc_of_commitStep hw') horder

theorem not_allBalanced_of_two_sections {w w' : FriendsScreen} {order : List Nat} {s₁ s₂ : Nat}
    (hw : w.UpToDate T) (hvc : w'.vc = w.vc) (horder : w.Deliverable T w' order)
    (hne : s₁ ≠ s₂) (h₁ : s₁ < w.vc.friendsList.length) (h₂ : s₂ < w.vc.friendsList.length)
    (hr₁ : (w.resultsIn T s₁).length ≠ (w'.resultsIn T s₁).length)
    (hr₂ : (w.resultsIn T s₂).length ≠ (w'.resultsIn T s₂).length) :
    ¬w.BatchesBalanced T N w' order := by
  rw [batchesBalanced_iff hw hvc horder]
  intro hfirst
  have hmem : s₁ ∈ order := horder.2.2 s₁ h₁ fun h => hr₁ (congrArg List.length h)
  cases order with
  | nil => simp at hmem
  | cons first rest =>
      by_cases hs : s₁ = first
      · exact hr₂ (hfirst first rfl s₂ h₂ (hs ▸ hne.symm))
      · exact hr₁ (hfirst first rfl s₁ h₁ hs)

theorem upToDate_viewDidLoad (session : Session) (table : Table FriendsVK) :
    (viewDidLoad T session table).UpToDate T := ⟨rfl, rfl⟩

theorem upToDate_notifiedStep {w w' : FriendsScreen} {e : NotifiedCommit} (hw : w.UpToDate T)
    (h : notifiedStep T N w e = some w') : w'.UpToDate T := by
  obtain ⟨w₁, hw₁, h⟩ := Option.bind_eq_some_iff.mp h
  split at h
  · obtain rfl := Option.some.inj h
    exact ⟨by rw [reloadData, vc_of_commitStep hw₁, hw.1], rfl⟩
  · simp at h

/-- **Batch updates.** In a run of commits from `viewDidLoad`, every batch of
every observer adds up exactly when every commit the run gets to resizes no
section but the one whose observer it calls first. -/
theorem batchUpdates_iff (N : Notifier FriendsVK) (session : Session) (table : Table FriendsVK)
    (es : List NotifiedCommit) :
    Runs.Always (notifiedStep T N) (BatchesConsistent T N) (viewDidLoad T session table) es ↔
      Runs.Always (notifiedStep T N) (OnlyFirstResized T) (viewDidLoad T session table) es :=
  Runs.always_iff_of_inv (I := UpToDate T) (fun _ _ hw => batchesConsistent_iff hw)
    (fun _ _ _ hw _ h => upToDate_notifiedStep hw h) (upToDate_viewDidLoad session table)

/-- A save of the empty list, with two sections of one friend each: the first
observer removes its row, and the other section is one row short. -/
theorem batchUpdates_raise_on_empty_save :
    ¬Runs.Always (notifiedStep .ascii (.afterCommon FriendsVK))
      (BatchesConsistent .ascii (.afterCommon FriendsVK)) (viewDidLoad .ascii {} twoFriends)
      [{ commit := .save [], order := [0, 1] }] := by
  intro h
  have hbalanced := (Runs.always_cons.mp h).1 _ rfl (by decide)
  exact absurd hbalanced (by decide)

end FriendsScreen

end VkClient
