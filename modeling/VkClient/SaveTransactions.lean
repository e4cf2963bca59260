import VkClient.Runs
import VkClient.Services

/-!
# Saves and swipes as transactions

A save opens Realm, asks for the objects it is going to delete, and only
then begins to write. What it asked for may come from an old version, and
any number of other saves, of the same type or of another, run on other
threads meanwhile. It does no harm: the objects are live `Results`, which
move to the latest version when the transaction begins, and there is one
transaction at a time.

The model has every save and swipe in steps, in any interleaving. A commit
does to the committed version what the whole save or swipe would do at once
(`latest_of_commit`), so a run comes to its committed tasks one after another
(`saves_serial`), and the history of each table is what its own commits say
(`saves_atomic`).
-/

namespace VkClient

/-! ## Tasks and their steps -/

/-- One run of a `save`, or of a `tableView(_:commit:forRowAt:)` for the
managed object `name`. -/
inductive Task where
  | save (e : Entity) (objects : List e.Object)
  | swipe (e : Entity) (name : Nat)

def Task.entity : Task → Entity
  | .save e _ => e
  | .swipe e _ => e

/-- How far a task has come. A task whose commit threw stays in its
transaction. -/
inductive Stage where
  | opened
  | obtained (old : Results)
  | begun (old : Option Results)
  | deleted
  | added
  | failed
deriving DecidableEq, Repr

/-- `realm.delete(_:)`, of the results the task has obtained or of the
object it was given. -/
def Task.delete (old : Option Results) (realm : Realm) : Task → Realm
  | .save e _ => Function.update realm e ((realm e).deleteAll (arrayOf (realm e) old))
  | .swipe e name => Function.update realm e ((realm e).delete name)

/-- `realm.add(_:)`. -/
def Task.add (realm : Realm) : Task → Realm
  | .save e objects => Function.update realm e ((realm e).add objects)
  | .swipe _ _ => realm

/-- The stage before `beginWrite`, and the results the task has then. -/
def Task.begin? : Task → Stage → Option (Option Results)
  | .save _ _, .obtained old => some (some old)
  | .swipe _ _, .opened => some none
  | _, _ => none

/-- The stage before `commitWrite`. -/
def Task.last : Task → Stage
  | .save _ _ => .added
  | .swipe _ _ => .deleted

/-- The task done at once, on the committed version. -/
def Task.apply (realm : Realm) : Task → Realm
  | .save e objects => realm.save e .committed objects
  | .swipe e name => Function.update realm e (commitEditing .delete .committed (realm e) name)

/-! ## The store -/

/-- `version` is what the task's Realm instance sees. -/
structure Writer where
  task : Task
  version : Realm
  stage : Stage

/-- What a commit did to a table: the list of a save, or the row a swipe
took away. -/
inductive Commit (α : Type) where
  | saved (objects : List α)
  | removed (row : α)

/-- The committed versions, newest apart; who is in a write transaction; the
tasks on their way; and for each table its commits, newest first. -/
structure Store where
  latest : Realm
  older : List Realm := []
  lock : Option Nat := none
  writers : Nat → Option Writer := fun _ => none
  log : (e : Entity) → List (Commit e.Object) := fun _ => []

def Task.record (realm : Realm) (log : (e : Entity) → List (Commit e.Object)) :
    Task → (e : Entity) → List (Commit e.Object)
  | .save e objects => Function.update log e (.saved objects :: log e)
  | .swipe e name =>
      match (realm e).read name with
      | none => log
      | some row => Function.update log e (.removed row :: log e)

/-- The steps of the task `p`. A Realm instance opens at some committed
version; `release` is the deallocation of an instance whose commit threw. -/
inductive StoreEvent where
  | openRealm (p : Nat) (task : Task) (version : Nat)
  | obtain (p : Nat)
  | beginWrite (p : Nat)
  | delete (p : Nat)
  | add (p : Nat)
  | commit (p : Nat)
  | fail (p : Nat)
  | release (p : Nat)

namespace Store

variable (s : Store)

def setWriter (p : Nat) (writer : Option Writer) : Store :=
  { s with writers := Function.update s.writers p writer }

/-- `none` is a step that is not the task's next one, or a `beginWrite` that
has to wait. -/
def step (s : Store) : StoreEvent → Option Store
  | .openRealm p task version => do
      let version ← (s.latest :: s.older)[version]?
      if (s.writers p).isNone then
        return s.setWriter p (some { task := task, version := version, stage := .opened })
      else none
  | .obtain p => do
      let w ← s.writers p
      match w.task, w.stage with
      | .save _ _, .opened => some (s.setWriter p (some { w with stage := .obtained .objects }))
      | _, _ => none
  | .beginWrite p => do
      let w ← s.writers p
      let old ← w.task.begin? w.stage
      if s.lock = none then
        return { s with lock := some p }.setWriter p
          (some { w with version := s.latest, stage := .begun old })
      else none
  | .delete p => do
      let w ← s.writers p
      match w.stage with
      | .begun old =>
          some (s.setWriter p
            (some { w with version := w.task.delete old w.version, stage := .deleted }))
      | _ => none
  | .add p => do
      let w ← s.writers p
      match w.task, w.stage with
      | .save _ _, .deleted =>
          some (s.setWriter p (some { w with version := w.task.add w.version, stage := .added }))
      | _, _ => none
  | .commit p => do
      let w ← s.writers p
      if w.stage = w.task.last then
        return { s with
          latest := w.version
          older := s.latest :: s.older
          lock := none
          log := w.task.record s.latest s.log }.setWriter p none
      else none
  | .fail p => do
      let w ← s.writers p
      if w.stage = w.task.last then
        return s.setWriter p (some { w with stage := .failed })
      else none
  | .release p => do
      let w ← s.writers p
      if w.stage = .failed then return { s with lock := none }.setWriter p none
      else none

end Store

/-! ## The steps of a task make up the task -/

theorem Task.add_delete (e : Entity) (objects : List e.Object) (realm : Realm) :
    (Task.save e objects).add ((Task.save e objects).delete (some .objects) realm) =
      (Task.save e objects).apply realm := by
  simp only [add, delete, apply, arrayOf, Function.update_self, Function.update_idem,
    Table.add_deleteAll_keys]
  rfl

theorem Task.begin?_save {e : Entity} {objects : List e.Object} {stage : Stage}
    {old : Option Results} (h : (Task.save e objects).begin? stage = some old) :
    old = some .objects := by
  cases stage with
  | obtained results =>
      cases results
      exact (Option.some.inj h).symm
  | _ => cases h

/-- The results of a save are live: once its transaction has begun, they are
the objects of the latest version, whatever version they come from. -/
theorem Task.delete_begun {task : Task} {old : Option Results} {version latest : Realm}
    (hversion : version = latest) (hold : ∀ e objects, task = .save e objects → old = some .objects) :
    task.delete old version = task.delete (some .objects) latest := by
  cases task with
  | save e objects => rw [hold e objects rfl, hversion]
  | swipe e name => rw [hversion]; rfl

theorem Task.apply_of_ne {task : Task} {e : Entity} (he : e ≠ task.entity) (realm : Realm) :
    task.apply realm e = realm e := by
  cases task with
  | save e' objects => exact Realm.save_of_ne he .committed objects realm
  | swipe e' name => exact Function.update_of_ne he ..

/-- What the Realm instance of a task shows, by its stage: from the begin of
its transaction on, the task holds the lock, and its instance is the latest
version with the steps done so far. -/
def Writer.Ok (latest : Realm) (lock : Option Nat) (p : Nat) (w : Writer) : Prop :=
  match w.stage with
  | .opened => True
  | .obtained _ => True
  | .begun old => lock = some p ∧ w.version = latest ∧
      (∀ e objects, w.task = .save e objects → old = some .objects)
  | .deleted => lock = some p ∧ w.version = w.task.delete (some .objects) latest
  | .added => lock = some p ∧ w.version = w.task.apply latest
  | .failed => lock = some p

/-- Only the holder of the lock depends on the latest version. -/
theorem Writer.Ok.of_not_holder {latest latest' : Realm} {lock lock' : Option Nat} {p : Nat}
    {w : Writer} (h : w.Ok latest lock p) (hlock : lock ≠ some p) : w.Ok latest' lock' p := by
  obtain ⟨task, version, stage⟩ := w
  cases stage with
  | opened => trivial
  | obtained old => trivial
  | begun old => exact absurd h.1 hlock
  | deleted => exact absurd h.1 hlock
  | added => exact absurd h.1 hlock
  | failed => exact absurd h hlock

/-- A task about to commit holds the lock, and its instance shows what the
whole task makes of the latest version. -/
theorem Writer.Ok.of_last {latest : Realm} {lock : Option Nat} {p : Nat} {w : Writer}
    (h : w.Ok latest lock p) (hlast : w.stage = w.task.last) :
    lock = some p ∧ w.version = w.task.apply latest := by
  obtain ⟨task, version, stage⟩ := w
  cases task with
  | save e objects =>
      obtain rfl : stage = .added := hlast
      exact h
  | swipe e name =>
      obtain rfl : stage = .deleted := hlast
      exact h

/-! ## The history of a table -/

namespace Commit

variable {α : Type}

/-- The list of the most recent save, or the initial contents. -/
def lastSaved (initial : List α) : List (Commit α) → List α
  | [] => initial
  | .saved objects :: _ => objects
  | .removed _ :: log => lastSaved initial log

def removedSince : List (Commit α) → List α
  | [] => []
  | .saved _ :: _ => []
  | .removed row :: log => row :: removedSince log

/-- The values of a table and the rows removed since make up the list of its
most recent save. -/
def Accounted (initial values : List α) (log : List (Commit α)) : Prop :=
  (values ++ removedSince log).Perm (lastSaved initial log)

end Commit

open Commit

theorem Task.accounted_apply {initial realm : Realm} {log : (e : Entity) → List (Commit e.Object)}
    (h : ∀ e, Accounted (initial e).values (realm e).values (log e)) (task : Task) :
    ∀ e, Accounted (initial e).values (task.apply realm e).values (task.record realm log e) := by
  intro e
  cases task with
  | save e' objects =>
      by_cases he : e = e'
      · subst he
        rw [Task.apply, Task.record, Realm.save_committed, Function.update_self,
          Table.values_replaceAll]
        simp [Accounted, lastSaved, removedSince]
      · rw [Task.apply, Task.record, Realm.save_of_ne he, Function.update_of_ne he]
        exact h e
  | swipe e' name =>
      by_cases he : e = e'
      · subst he
        rw [Task.apply, Task.record, Function.update_self]
        cases hread : (realm e).read name with
        | none =>
            have hsame := Table.values_delete_of_read_eq_none hread
            exact (hsame.append_right _).trans (h e)
        | some row =>
            -- the row moves from the table to the rows removed
            have hrow := Table.values_delete_of_read hread
            simp only [Function.update_self]
            exact List.perm_middle.trans ((hrow.append_right _).trans (h e))
      · rw [Task.apply, Task.record, Function.update_of_ne he]
        cases hread : (realm e').read name with
        | none => exact h e
        | some row =>
            simp only [Function.update_of_ne he]
            exact h e

namespace Store

def Inv (s : Store) : Prop := ∀ p w, s.writers p = some w → w.Ok s.latest s.lock p

variable {s s' : Store} {p : Nat}

theorem inv_setWriter {writer : Option Writer} (hs : s.Inv)
    (hself : ∀ w, writer = some w → w.Ok s'.latest s'.lock p)
    (hwriters : s'.writers = Function.update s.writers p writer)
    (hothers : s'.latest = s.latest ∧ s'.lock = s.lock ∨ ∀ q, q ≠ p → s.lock ≠ some q) :
    s'.Inv := by
  intro q w hw
  rw [hwriters] at hw
  by_cases hq : q = p
  · subst hq
    rw [Function.update_self] at hw
    exact hself w hw
  · rw [Function.update_of_ne hq] at hw
    rcases hothers with ⟨hlatest, hlock⟩ | hlock
    · rw [hlatest, hlock]
      exact hs q w hw
    · exact (hs q w hw).of_not_holder (hlock q hq)

/-- A step of one task that takes place in its own instance. -/
theorem inv_setWriter_some {w : Writer} (hs : s.Inv) (hok : w.Ok s.latest s.lock p) :
    (s.setWriter p (some w)).Inv := by
  refine inv_setWriter hs (fun w' hw' => ?_) rfl (.inl ⟨rfl, rfl⟩)
  obtain rfl := Option.some.inj hw'
  exact hok

theorem not_held_of_ne {lock : Option Nat} (h : lock = some p) : ∀ q, q ≠ p → lock ≠ some q := by
  rintro q hq rfl
  exact hq (Option.some.inj h)

theorem commit_eq_some :
    s.step (.commit p) = some s' ↔
      ∃ w, s.writers p = some w ∧ w.stage = w.task.last ∧
        s' = { s with
          latest := w.version
          older := s.latest :: s.older
          lock := none
          log := w.task.record s.latest s.log }.setWriter p none := by
  simp only [step, Option.bind_eq_bind, Option.bind_eq_some_iff, Option.ite_none_right_eq_some,
    Option.pure_def, Option.some.injEq]
  refine exists_congr fun w => and_congr_right fun _ => and_congr_right fun _ => eq_comm

/-- Every step keeps the invariant, and only a commit changes the latest
version and the history. -/
theorem step_spec {ev : StoreEvent} (hs : s.Inv) (h : s.step ev = some s') :
    s'.Inv ∧ ((∀ p, ev ≠ .commit p) → s'.latest = s.latest ∧ s'.log = s.log) := by
  cases ev with
  | openRealm p task version =>
      obtain ⟨seen, -, h⟩ := Option.bind_eq_some_iff.mp h
      obtain ⟨-, h⟩ := Option.ite_none_right_eq_some.mp h
      obtain rfl := Option.some.inj h
      exact ⟨inv_setWriter_some hs trivial, fun _ => ⟨rfl, rfl⟩⟩
  | obtain p =>
      obtain ⟨w, hw, h⟩ := Option.bind_eq_some_iff.mp h
      split at h
      · obtain rfl := Option.some.inj h
        exact ⟨inv_setWriter_some hs trivial, fun _ => ⟨rfl, rfl⟩⟩
      · cases h
  | beginWrite p =>
      obtain ⟨w, hw, h⟩ := Option.bind_eq_some_iff.mp h
      obtain ⟨old, hold, h⟩ := Option.bind_eq_some_iff.mp h
      obtain ⟨hfree, h⟩ := Option.ite_none_right_eq_some.mp h
      obtain rfl := Option.some.inj h
      refine ⟨inv_setWriter hs (fun w' hw' => ?_) rfl (.inr fun q _ => by simp [hfree]),
        fun _ => ⟨rfl, rfl⟩⟩
      obtain rfl := Option.some.inj hw'
      refine ⟨rfl, rfl, fun e objects htask => ?_⟩
      exact Task.begin?_save (htask ▸ hold)
  | delete p =>
      obtain ⟨w, hw, h⟩ := Option.bind_eq_some_iff.mp h
      split at h
      · rename_i old hstage
        obtain rfl := Option.some.inj h
        have hok := hs p w hw
        rw [Writer.Ok, hstage] at hok
        obtain ⟨hlock, hversion, hold⟩ := hok
        exact ⟨inv_setWriter_some hs ⟨hlock, Task.delete_begun hversion hold⟩, fun _ => ⟨rfl, rfl⟩⟩
      · cases h
  | add p =>
      obtain ⟨w, hw, h⟩ := Option.bind_eq_some_iff.mp h
      split at h
      · rename_i e objects htask hstage
        obtain rfl := Option.some.inj h
        have hok := hs p w hw
        rw [Writer.Ok, hstage, htask] at hok
        obtain ⟨hlock, hversion⟩ := hok
        have hadded : w.task.add w.version = w.task.apply s.latest := by
          rw [htask, hversion, Task.add_delete]
        exact ⟨inv_setWriter_some hs ⟨hlock, hadded⟩, fun _ => ⟨rfl, rfl⟩⟩
      · cases h
  | commit p =>
      obtain ⟨w, hw, hlast, rfl⟩ := commit_eq_some.mp h
      obtain ⟨hlock, -⟩ := (hs p w hw).of_last hlast
      exact ⟨inv_setWriter hs (fun w' hw' => by cases hw') rfl (.inr (not_held_of_ne hlock)),
        fun hev => absurd rfl (hev p)⟩
  | fail p =>
      obtain ⟨w, hw, h⟩ := Option.bind_eq_some_iff.mp h
      obtain ⟨hlast, h⟩ := Option.ite_none_right_eq_some.mp h
      obtain rfl := Option.some.inj h
      obtain ⟨hlock, -⟩ := (hs p w hw).of_last hlast
      exact ⟨inv_setWriter_some hs hlock, fun _ => ⟨rfl, rfl⟩⟩
  | release p =>
      obtain ⟨w, hw, h⟩ := Option.bind_eq_some_iff.mp h
      obtain ⟨hfailed, h⟩ := Option.ite_none_right_eq_some.mp h
      obtain rfl := Option.some.inj h
      have hlock := hs p w hw
      rw [Writer.Ok, hfailed] at hlock
      exact ⟨inv_setWriter hs (fun w' hw' => by cases hw') rfl (.inr (not_held_of_ne hlock)),
        fun _ => ⟨rfl, rfl⟩⟩

theorem inv_start (realm : Realm) : Inv { latest := realm } := by
  intro p w hw
  cases hw

theorem inv_run {realm : Realm} {es : List StoreEvent}
    (h : Runs.run step { latest := realm } es = some s) : s.Inv :=
  Runs.run_inv (fun _ _ _ hs hstep => (step_spec hs hstep).1) (inv_start realm) h

/-- A commit is the whole task done at once on the latest version. -/
theorem latest_of_commit (hs : s.Inv) (h : s.step (.commit p) = some s') :
    ∃ w, s.writers p = some w ∧ s'.latest = w.task.apply s.latest ∧
      s'.log = w.task.record s.latest s.log := by
  obtain ⟨w, hw, hlast, rfl⟩ := commit_eq_some.mp h
  exact ⟨w, hw, ((hs p w hw).of_last hlast).2, rfl⟩

/-- What a step does to the latest version and the history: the whole task of
a commit, and otherwise nothing. -/
theorem step_cases {ev : StoreEvent} (hs : s.Inv) (h : s.step ev = some s') :
    (∃ p w, ev = .commit p ∧ s.writers p = some w ∧ s'.latest = w.task.apply s.latest ∧
      s'.log = w.task.record s.latest s.log) ∨
    (∀ p, ev ≠ .commit p) ∧ s'.latest = s.latest ∧ s'.log = s.log := by
  by_cases hcommit : ∃ p, ev = .commit p
  · obtain ⟨p, rfl⟩ := hcommit
    obtain ⟨w, hw, hlatest, hlog⟩ := latest_of_commit hs h
    exact .inl ⟨p, w, rfl, hw, hlatest, hlog⟩
  · have hother : ∀ p, ev ≠ .commit p := fun p hp => hcommit ⟨p, hp⟩
    exact .inr ⟨hother, (step_spec hs h).2 hother⟩

/-! ## The commits of a run -/

/-- The task that an event commits. -/
def commits (s : Store) : StoreEvent → Option Task
  | .commit p => (s.writers p).map Writer.task
  | _ => none

/-- The tasks that a run commits, in turn. -/
def committed : Store → List StoreEvent → List Task
  | _, [] => []
  | s, ev :: es =>
      match s.step ev with
      | none => []
      | some s' => (s.commits ev).toList ++ committed s' es

/-- The version and the history, with one more task done at once. -/
def record (h : Realm × ((e : Entity) → List (Commit e.Object))) (task : Task) :
    Realm × ((e : Entity) → List (Commit e.Object)) :=
  (task.apply h.1, task.record h.1 h.2)

theorem commits_eq_none {ev : StoreEvent} (h : ∀ p, ev ≠ .commit p) : s.commits ev = none := by
  cases ev with
  | commit p => exact absurd rfl (h p)
  | _ => rfl

theorem record_step {ev : StoreEvent} (hs : s.Inv) (h : s.step ev = some s') :
    (s'.latest, s'.log) = (s.commits ev).toList.foldl record (s.latest, s.log) := by
  rcases step_cases hs h with ⟨p, w, rfl, hw, hlatest, hlog⟩ | ⟨hother, hlatest, hlog⟩
  · rw [commits, hw, hlatest, hlog]
    rfl
  · rw [commits_eq_none hother, hlatest, hlog]
    rfl

theorem record_run {es : List StoreEvent} (hs : s.Inv) (h : Runs.run step s es = some s') :
    (s'.latest, s'.log) = (committed s es).foldl record (s.latest, s.log) := by
  induction es generalizing s with
  | nil =>
      obtain rfl := Option.some.inj h
      rfl
  | cons ev es ih =>
      obtain ⟨s₁, hstep, hrun⟩ := Runs.run_cons_eq_some.mp h
      rw [committed, hstep, List.foldl_append, ← record_step hs hstep]
      exact ih (step_spec hs hstep).1 hrun

/-- **Saves are serial.** However the steps interleave, the committed version
and the history of every table are what the tasks that have committed make of
the initial contents, each done at once and in the order of their commits. -/
theorem saves_serial {initial : Realm} {es : List StoreEvent}
    (h : Runs.run step { latest := initial } es = some s) :
    (s.latest, s.log) =
      (committed { latest := initial } es).foldl record (initial, fun _ => []) :=
  record_run (inv_start initial) h

/-- The save that opens first, and asks for its old objects first, commits last. -/
def overlappingSaves : List StoreEvent :=
  [.openRealm 0 (.save .photos [⟨"a"⟩, ⟨"b"⟩]) 0, .obtain 0,
    .openRealm 1 (.save .photos [⟨"c"⟩]) 0, .obtain 1, .beginWrite 1, .delete 1, .add 1,
    .commit 1, .beginWrite 0, .delete 0, .add 0, .commit 0]

theorem saves_serial_overlap :
    ∃ s, Runs.run step { latest := fun _ => Table.empty } overlappingSaves = some s ∧
      (s.latest, s.log) = [Task.save .photos [⟨"c"⟩], .save .photos [⟨"a"⟩, ⟨"b"⟩]].foldl record
        (fun _ => Table.empty, fun _ => []) := by
  have hrun : Runs.run step { latest := fun _ => Table.empty } overlappingSaves = some _ := rfl
  exact ⟨_, hrun, saves_serial hrun⟩

/-! ## The versions of a table -/

theorem accounted_step {initial : Realm} {ev : StoreEvent} (hs : s.Inv)
    (hacc : ∀ e, Accounted (initial e).values (s.latest e).values (s.log e))
    (h : s.step ev = some s') :
    ∀ e, Accounted (initial e).values (s'.latest e).values (s'.log e) := by
  rcases step_cases hs h with ⟨p, w, -, -, hlatest, hlog⟩ | ⟨-, hlatest, hlog⟩
  · rw [hlatest, hlog]
    exact w.task.accounted_apply hacc
  · rw [hlatest, hlog]
    exact hacc

/-- The event does not commit a task on the table of `e`. -/
def Elsewhere (s : Store) (ev : StoreEvent) (e : Entity) : Prop :=
  ∀ p w, ev = .commit p → s.writers p = some w → e ≠ w.task.entity

theorem latest_of_elsewhere {ev : StoreEvent} {e : Entity} (hs : s.Inv)
    (he : s.Elsewhere ev e) (h : s.step ev = some s') : s'.latest e = s.latest e := by
  rcases step_cases hs h with ⟨p, w, rfl, hw, hlatest, -⟩ | ⟨-, hlatest, -⟩
  · rw [hlatest]
    exact Task.apply_of_ne (he p w rfl hw) s.latest
  · rw [hlatest]

/-- **Saves are atomic.** However the steps of saves and swipes interleave,
every committed version of every table is the list of the most recent save
of its type, or the initial contents, minus the rows swipes have removed
since; and nothing but a commit of a task on a table changes the table. -/
theorem saves_atomic (initial : Realm) (es : List StoreEvent) :
    Runs.Throughout step
        (fun s => ∀ e, Accounted (initial e).values (s.latest e).values (s.log e))
        { latest := initial } es ∧
      Runs.Always step
        (fun s ev => ∀ s' e, s.step ev = some s' → s.Elsewhere ev e → s'.latest e = s.latest e)
        { latest := initial } es := by
  constructor
  · intro pre s _ hs
    refine (Runs.run_inv (I := fun s => s.Inv ∧
      ∀ e, Accounted (initial e).values (s.latest e).values (s.log e)) ?_ ?_ hs).2
    · rintro s ev s' ⟨hinv, hacc⟩ h
      exact ⟨(step_spec hinv h).1, accounted_step hinv hacc h⟩
    · refine ⟨inv_start initial, fun e => ?_⟩
      simp [Accounted, lastSaved, removedSince]
  · intro pre ev s _ hs s' e h he
    exact latest_of_elsewhere (inv_run hs) he h

example :
    (Runs.run step { latest := fun _ => Table.empty } overlappingSaves).map
      (fun s => (s.latest .photos).values) = some [⟨"a"⟩, ⟨"b"⟩] := by
  decide

end Store

end VkClient
