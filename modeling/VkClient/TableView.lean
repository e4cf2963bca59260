import VkClient.ObjectTable

/-!
# Row counts of a table view

A table view remembers how many rows each section had when it last asked
its data source. At the end of a batch of row updates it asks again, for
every section, and raises where the remembered count, the batch and the
answer do not add up (`Batch.Balanced`).

A data source backed by live collections is updated by its observers: each
is told the change set of its own collection and turns it into one batch
(`sectionBatch`), while all collections have moved to the new version
already. `allBalanced_iff` is the law of that arrangement: when every
observer brings the balanced change set of its own section, the batches go
through exactly when no section but the first one called has changed its
number of rows.
-/

namespace VkClient

structure IndexPath where
  row : Nat
  sect : Nat
deriving DecidableEq, Repr

/-! ## Change notifications -/

/-- The rows of one collection that a new version removed, added and
modified. Deletions index the old version, insertions the new one. -/
structure ChangeSet where
  deletions : List Nat
  insertions : List Nat
  modifications : List Nat
deriving DecidableEq, Repr

inductive CollectionChange where
  | initial
  | update (changes : ChangeSet)
  | error (message : String)
deriving DecidableEq, Repr

/-- A way to compute change sets. Whatever is reported as modified or moved,
the old rows, the insertions and the deletions account for the new rows. -/
structure Notifier (α : Type*) where
  changes : List (Row α) → List (Row α) → ChangeSet
  balanced : ∀ old new : List (Row α),
    old.length + (changes old new).insertions.length
      = new.length + (changes old new).deletions.length

def commonRows {α : Type*} [DecidableEq α] : List (Row α) → List (Row α) → Nat
  | r :: old, r' :: new => if r = r' then commonRows old new + 1 else 0
  | _, _ => 0

theorem commonRows_le {α : Type*} [DecidableEq α] (old new : List (Row α)) :
    commonRows old new ≤ old.length ∧ commonRows old new ≤ new.length := by
  induction old generalizing new with
  | nil => simp [commonRows]
  | cons r old ih =>
      cases new with
      | nil => simp [commonRows]
      | cons r' new =>
          have hrest := ih new
          unfold commonRows
          split <;> simp only [List.length_cons] <;> omega

/-- A notifier that keeps the common beginning of the two versions and
reports what follows as deleted and inserted. Realm keeps more: where a row
in the middle is gone it reports that row alone. -/
def Notifier.afterCommon (α : Type*) [DecidableEq α] : Notifier α where
  changes old new :=
    { deletions := List.range' (commonRows old new) (old.length - commonRows old new)
      insertions := List.range' (commonRows old new) (new.length - commonRows old new)
      modifications := [] }
  balanced old new := by
    have hle := commonRows_le old new
    simp only [List.length_range']
    omega

/-! ## Batches -/

/-- What one `beginUpdates`/`endUpdates` pair encloses. -/
structure Batch where
  insertRows : List IndexPath
  deleteRows : List IndexPath
  reloadRows : List IndexPath
deriving DecidableEq, Repr

/-- The batch an observer of section `s` makes of its change set. -/
def sectionBatch (s : Nat) (c : ChangeSet) : Batch where
  insertRows := c.insertions.map (⟨·, s⟩)
  deleteRows := c.deletions.map (⟨·, s⟩)
  reloadRows := c.modifications.map (⟨·, s⟩)

def Batch.insertionsIn (b : Batch) (s : Nat) : Nat := b.insertRows.countP (·.sect == s)

def Batch.deletionsIn (b : Batch) (s : Nat) : Nat := b.deleteRows.countP (·.sect == s)

abbrev RowCounts := List Nat

def RowCounts.rowsIn (counts : RowCounts) (s : Nat) : Nat := counts.getD s 0

/-- The check at `endUpdates`: in every section the rows the table view had,
plus the insertions, minus the deletions, are the rows the data source has. -/
def Batch.Balanced (had now : RowCounts) (b : Batch) : Prop :=
  ∀ s < now.length,
    (had.rowsIn s : Int) + b.insertionsIn s - b.deletionsIn s = now.rowsIn s

instance (had now : RowCounts) (b : Batch) : Decidable (b.Balanced had now) :=
  inferInstanceAs (Decidable (∀ s < now.length, _ = _))

/-- Every batch passes its check in turn. The data source has moved to `now`
before the first one, so from the second one on the table view had `now`. -/
def AllBalanced (now : RowCounts) : RowCounts → List Batch → Prop
  | _, [] => True
  | had, b :: bs => b.Balanced had now ∧ AllBalanced now now bs

instance decidableAllBalanced (now : RowCounts) :
    ∀ (had : RowCounts) (bs : List Batch), Decidable (AllBalanced now had bs)
  | _, [] => inferInstanceAs (Decidable True)
  | had, b :: bs =>
      have := decidableAllBalanced now now bs
      inferInstanceAs (Decidable (b.Balanced had now ∧ AllBalanced now now bs))

/-! ## The batches of section observers -/

@[simp] theorem insertionsIn_sectionBatch (s s' : Nat) (c : ChangeSet) :
    (sectionBatch s c).insertionsIn s' = if s' = s then c.insertions.length else 0 := by
  by_cases h : s' = s
  · simp [Batch.insertionsIn, sectionBatch, List.countP_map, Function.comp_def, h]
  · simp [Batch.insertionsIn, sectionBatch, List.countP_map, Function.comp_def, h, Ne.symm h]

@[simp] theorem deletionsIn_sectionBatch (s s' : Nat) (c : ChangeSet) :
    (sectionBatch s c).deletionsIn s' = if s' = s then c.deletions.length else 0 := by
  by_cases h : s' = s
  · simp [Batch.deletionsIn, sectionBatch, List.countP_map, Function.comp_def, h]
  · simp [Batch.deletionsIn, sectionBatch, List.countP_map, Function.comp_def, h, Ne.symm h]

def Accounts (had now : RowCounts) (s : Nat) (c : ChangeSet) : Prop :=
  had.rowsIn s + c.insertions.length = now.rowsIn s + c.deletions.length

theorem sectionBatch_balanced_iff {had now : RowCounts} {s : Nat} {c : ChangeSet}
    (hacc : Accounts had now s c) :
    (sectionBatch s c).Balanced had now ↔
      ∀ s' < now.length, s' ≠ s → had.rowsIn s' = now.rowsIn s' := by
  unfold Accounts at hacc
  refine forall₂_congr fun s' _ => ?_
  simp only [insertionsIn_sectionBatch, deletionsIn_sectionBatch]
  by_cases hs : s' = s
  · subst hs
    simp only [if_true, ne_eq, not_true, false_implies, iff_true]
    omega
  · simp only [ne_eq, hs, not_false_eq_true, forall_const, if_false]
    omega

/-- A table view of one section, updated with the change set of a collection
it need not be showing: its batch goes through exactly when the rows shown
and the rows of the collection grew by the same number. -/
theorem notified_balanced_iff {α : Type*} (N : Notifier α) {old new : List (Row α)}
    {had now : Nat} :
    (sectionBatch 0 (N.changes old new)).Balanced [had] [now] ↔
      had + new.length = now + old.length := by
  have hbalanced := N.balanced old new
  unfold Batch.Balanced
  simp only [List.length_singleton, Nat.lt_one_iff, forall_eq, insertionsIn_sectionBatch,
    deletionsIn_sectionBatch, if_true, RowCounts.rowsIn, List.getD_cons_zero]
  omega

theorem allBalanced_self {now : RowCounts} {calls : List (Nat × ChangeSet)}
    (hacc : ∀ call ∈ calls, Accounts now now call.1 call.2) :
    AllBalanced now now (calls.map fun call => sectionBatch call.1 call.2) := by
  induction calls with
  | nil => trivial
  | cons call calls ih =>
      have hcall := hacc call List.mem_cons_self
      refine ⟨(sectionBatch_balanced_iff hcall).mpr fun _ _ _ => rfl, ih fun call' hcall' => ?_⟩
      exact hacc call' (List.mem_cons_of_mem _ hcall')

/-- The observers of distinct sections, called one after the other, all get
through exactly when only the section called first changed its count. -/
theorem allBalanced_iff {had now : RowCounts} {calls : List (Nat × ChangeSet)}
    (hnodup : (calls.map Prod.fst).Nodup) (hlt : ∀ call ∈ calls, call.1 < now.length)
    (hacc : ∀ call ∈ calls, Accounts had now call.1 call.2) :
    AllBalanced now had (calls.map fun call => sectionBatch call.1 call.2) ↔
      ∀ first ∈ calls.head?, ∀ s < now.length, s ≠ first.1 → had.rowsIn s = now.rowsIn s := by
  cases calls with
  | nil => simp [AllBalanced]
  | cons first rest =>
      simp only [List.map_cons, AllBalanced, List.head?_cons, Option.mem_some_iff, forall_eq']
      rw [sectionBatch_balanced_iff (hacc first List.mem_cons_self)]
      refine and_iff_left_of_imp fun hsame => ?_
      -- past the first call every section still to come kept its count
      rcases List.nodup_cons.mp hnodup with ⟨hfirst, -⟩
      have hrest : ∀ call ∈ rest, Accounts now now call.1 call.2 := by
        intro call hcall
        have hne : call.1 ≠ first.1 := fun h => hfirst (h ▸ List.mem_map_of_mem hcall)
        have hkept := hsame call.1 (hlt call (List.mem_cons_of_mem _ hcall)) hne
        have hchange := hacc call (List.mem_cons_of_mem _ hcall)
        unfold Accounts at hchange ⊢
        omega
      exact allBalanced_self hrest

end VkClient
