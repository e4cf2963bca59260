import VkClient.FriendsTable
import VkClient.GroupsTable

/-!
# Writes on the main thread

The two swipe deletes and `PhotosRequest.save` run on the main thread and
write through the one Realm instance the main thread has, which the live
results of the controllers keep alive. Each write begins, mutates and
commits, and if the commit throws, prints the error and goes on. Nothing
cancels the transaction, so the instance stays in it: the controllers see
rows that were never committed, and the next write of any screen begins a
transaction inside a transaction, which raises.

A run of writes is free of this exactly if no commit of it throws
(`leavesNoTrace_iff`).
-/

namespace VkClient

/-- The main thread's Realm instance: `committed` is the file, `visible` is
what the instance shows. -/
structure MainRealm where
  committed : Realm
  visible : Realm
  inTransaction : Bool := false

namespace MainRealm

/-- The `do`/`catch` around `beginWrite`, a change and `commitWrite`; `none`
is the exception `beginWrite` raises inside a transaction. -/
def write (realm : MainRealm) (outcome : Outcome) (change : Realm → Realm) : Option MainRealm :=
  match outcome with
  | .notOpened => some realm
  | .notCommitted =>
      if realm.inTransaction then none
      else some { realm with visible := change realm.committed, inTransaction := true }
  | .committed =>
      if realm.inTransaction then none
      else some { realm with
        committed := change realm.committed
        visible := change realm.committed }

/-- Not in a transaction, and showing what is committed. -/
def Clean (realm : MainRealm) : Prop :=
  realm.inTransaction = false ∧ realm.visible = realm.committed

end MainRealm

/-! ## The screens that write -/

structure MainThread where
  realm : MainRealm
  friends : FriendsTableViewController
  groups : SubscriptionTableViewController

inductive MainWrite where
  | swipeFriend (indexPath : IndexPath) (outcome : Outcome)
  | swipeGroup (row : Nat) (outcome : Outcome)
  | savePhotos (photos : List PhotosVK) (outcome : Outcome)
deriving DecidableEq, Repr

def MainWrite.outcome : MainWrite → Outcome
  | .swipeFriend _ outcome => outcome
  | .swipeGroup _ outcome => outcome
  | .savePhotos _ outcome => outcome

namespace MainThread

open FriendsTableViewController

variable (T : TextOps) (m : MainThread)

/-- What the write does in its transaction; `none` is the trap of looking up
a row that is not there. -/
def change : MainWrite → Option (Realm → Realm)
  | .swipeFriend indexPath _ => do
      let name ← elementAt T (m.realm.visible .friends) m.friends.friendsList indexPath
      return fun realm => Function.update realm .friends ((realm .friends).delete name.key)
  | .swipeGroup row _ => do
      let name ← (m.groups.myGroupsCell (m.realm.visible .groups))[row]?
      return fun realm => Function.update realm .groups ((realm .groups).delete name)
  | .savePhotos photos _ => some fun realm => realm.save .photos .committed photos

def step (write : MainWrite) : Option MainThread := do
  let change ← m.change T write
  let realm ← m.realm.write write.outcome change
  return { m with realm := realm }

/-- The write begins outside of a transaction and leaves none open, and if
its commit throws, the rows in sight are the committed ones. -/
def LeavesNoTrace (write : MainWrite) : Prop :=
  (∀ change, m.change T write = some change → write.outcome ≠ .notOpened →
    m.realm.inTransaction = false) ∧
  ∀ m', m.step T write = some m' → m'.realm.inTransaction = false ∧
    (write.outcome = .notCommitted → m'.realm.visible = m'.realm.committed)

/-- The commit of the write does not throw, or the write traps before it. -/
def CommitHolds (write : MainWrite) : Prop :=
  write.outcome = .notCommitted → m.change T write = none

variable {T m}

theorem step_eq_some {write : MainWrite} {m' : MainThread} :
    m.step T write = some m' ↔
      ∃ change, m.change T write = some change ∧
        ∃ realm, m.realm.write write.outcome change = some realm ∧
          m' = { m with realm := realm } := by
  simp only [step, Option.bind_eq_bind, Option.bind_eq_some_iff, Option.pure_def,
    Option.some.injEq]
  exact exists_congr fun _ => and_congr_right fun _ => exists_congr fun _ =>
    and_congr_right fun _ => eq_comm

end MainThread

namespace MainRealm

variable {realm realm' : MainRealm} {change : Realm → Realm}

/-- What a write can do: nothing, a change in a transaction it leaves open, or
a change it commits. -/
theorem write_cases {outcome : Outcome} (h : realm.write outcome change = some realm') :
    (outcome = .notOpened ∧ realm' = realm) ∨
    (outcome = .notCommitted ∧ realm.inTransaction = false ∧
      realm' = { realm with visible := change realm.committed, inTransaction := true }) ∨
    (outcome = .committed ∧ realm.inTransaction = false ∧
      realm' = { realm with
        committed := change realm.committed
        visible := change realm.committed }) := by
  cases outcome with
  | notOpened => exact .inl ⟨rfl, (Option.some.inj h).symm⟩
  | notCommitted =>
      obtain ⟨hopen, h⟩ := Option.ite_none_left_eq_some.mp h
      exact .inr (.inl ⟨rfl, Bool.eq_false_iff.mpr hopen, (Option.some.inj h).symm⟩)
  | committed =>
      obtain ⟨hopen, h⟩ := Option.ite_none_left_eq_some.mp h
      exact .inr (.inr ⟨rfl, Bool.eq_false_iff.mpr hopen, (Option.some.inj h).symm⟩)

/-- A write that begins shows its change, whether it commits it or not. -/
theorem visible_of_write {outcome : Outcome} (houtcome : outcome ≠ .notOpened)
    (h : realm.write outcome change = some realm') : realm'.visible = change realm.committed := by
  rcases write_cases h with ⟨rfl, -⟩ | ⟨-, -, rfl⟩ | ⟨-, -, rfl⟩
  · exact absurd rfl houtcome
  · rfl
  · rfl

/-- A write changes the file only where it commits. -/
theorem committed_of_write {outcome : Outcome} (h : realm.write outcome change = some realm') :
    realm'.committed = if outcome = .committed then change realm.committed else realm.committed := by
  rcases write_cases h with ⟨rfl, rfl⟩ | ⟨rfl, -, rfl⟩ | ⟨rfl, -, rfl⟩ <;> rfl

theorem clean_of_write {outcome : Outcome} (hclean : realm.Clean)
    (houtcome : outcome ≠ .notCommitted) (h : realm.write outcome change = some realm') :
    realm'.Clean := by
  rcases write_cases h with ⟨-, rfl⟩ | ⟨rfl, -⟩ | ⟨-, -, rfl⟩
  · exact hclean
  · exact absurd rfl houtcome
  · exact ⟨hclean.1, rfl⟩

/-- After a commit that throws, the next write that gets to its begin
raises. -/
theorem write_eq_none_of_inTransaction {outcome : Outcome} (hopen : realm.inTransaction = true)
    (houtcome : outcome ≠ .notOpened) : realm.write outcome change = none := by
  cases outcome with
  | notOpened => exact absurd rfl houtcome
  | notCommitted => exact if_pos hopen
  | committed => exact if_pos hopen

end MainRealm

namespace MainThread

variable {T : TextOps} {m m' : MainThread}

theorem leavesNoTrace_iff_commitHolds {write : MainWrite} (hm : m.realm.Clean) :
    m.LeavesNoTrace T write ↔ m.CommitHolds T write := by
  constructor
  · rintro ⟨-, hafter⟩ hthrows
    cases hchange : m.change T write with
    | none => rfl
    | some change =>
        have hwrite : m.realm.write write.outcome change =
            some { m.realm with visible := change m.realm.committed, inTransaction := true } := by
          rw [hthrows, MainRealm.write, hm.1]
          rfl
        have hstep := step_eq_some.mpr ⟨change, hchange, _, hwrite, rfl⟩
        exact Bool.noConfusion (hafter _ hstep).1
  · intro hholds
    refine ⟨fun _ _ _ => hm.1, fun m' hm' => ?_⟩
    obtain ⟨change, hchange, realm, hrealm, rfl⟩ := step_eq_some.mp hm'
    have houtcome : write.outcome ≠ .notCommitted := fun hthrows => by
      simp [hholds hthrows] at hchange
    have hclean := MainRealm.clean_of_write hm houtcome hrealm
    exact ⟨hclean.1, fun _ => hclean.2⟩

theorem clean_step {write : MainWrite} (hm : m.realm.Clean) (hholds : m.CommitHolds T write)
    (h : m.step T write = some m') : m'.realm.Clean := by
  obtain ⟨change, hchange, realm, hrealm, rfl⟩ := step_eq_some.mp h
  refine MainRealm.clean_of_write hm (fun hthrows => ?_) hrealm
  simp [hholds hthrows] at hchange

/-- **A failed commit leaves a trace.** From a committed state on, the writes
of a run leave no trace of a failed commit exactly if no commit of the run
throws. -/
theorem leavesNoTrace_iff (T : TextOps) (realm : Realm) (friends : FriendsTableViewController)
    (groups : SubscriptionTableViewController) (writes : List MainWrite) :
    Runs.Always (step T) (LeavesNoTrace T) ⟨⟨realm, realm, false⟩, friends, groups⟩ writes ↔
      Runs.Always (step T) (CommitHolds T) ⟨⟨realm, realm, false⟩, friends, groups⟩ writes :=
  Runs.always_iff_of_inv (I := fun m => m.realm.Clean)
    (fun _ _ hm => leavesNoTrace_iff_commitHolds hm)
    (fun _ _ _ hm hholds h => clean_step hm hholds h) ⟨rfl, rfl⟩

/-- A save of the photos whose commit throws leaves the transaction open, and
a later one, with nothing wrong about it, raises. -/
theorem leavesTrace_of_failed_save :
    ¬Runs.Always (step .ascii) (LeavesNoTrace .ascii)
        ⟨⟨fun _ => Table.empty, fun _ => Table.empty, false⟩, {}, {}⟩
        [.savePhotos [⟨"a"⟩] .notCommitted, .savePhotos [⟨"a"⟩] .committed] ∧
      Runs.run (step .ascii) ⟨⟨fun _ => Table.empty, fun _ => Table.empty, false⟩, {}, {}⟩
        [.savePhotos [⟨"a"⟩] .notCommitted, .savePhotos [⟨"a"⟩] .committed] = none := by
  refine ⟨fun h => ?_, rfl⟩
  have hfailed := (Runs.always_cons.mp h).1.2 _ rfl
  exact Bool.noConfusion hfailed.1

end MainThread

end VkClient
