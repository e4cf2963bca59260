import Mathlib.Data.List.Induction

/-!
# The sign-in record

`goNext` stores the uid of whoever signs in under the key "1" of the node
`id`, and `viewDidLoad` of the friends screen observes that node and reads
it as a list of strings. Between the two, Firebase delivers a node whose
keys are small integers as an array with `NSNull` where a key is missing.
The key "0" is missing always, so the cast to `[String]` fails for every
record there can be (`record_never_read`).

The record is also written before the sign-in is known to have worked: a
failed attempt puts the empty string in place of the uid.
-/

namespace VkClient

/-! ## Firebase nodes -/

/-- The children of a node, by their keys; only strings are ever stored. -/
abbrev ChildrenNode := List (String × String)

/-- `snapshot.value`: a missing element of an array is `NSNull`. -/
inductive SnapshotValue where
  | null
  | array (values : List (Option String))
  | dictionary (values : ChildrenNode)
deriving DecidableEq, Repr

/-- `updateImmediateChild`. -/
def ChildrenNode.updateChild (node : ChildrenNode) (key value : String) : ChildrenNode :=
  (key, value) :: node.filter fun child => child.1 ≠ key

/-- `updateChildValues` merges the keys it is given into the node. -/
def ChildrenNode.updateChildValues (node values : ChildrenNode) : ChildrenNode :=
  values.foldl (fun node child => node.updateChild child.1 child.2) node

/-- `FUtilities.intForString`, for keys of ASCII characters: digits only, and
`NSScanner` stops at the greatest `NSInteger`. -/
def intForString (key : String) : Option Nat :=
  if key ≠ "" ∧ key.toList.all Char.isDigit then
    some (min (key.toList.foldl (fun n c => 10 * n + (c.toNat - 48)) 0) 0x7FFFFFFFFFFFFFFF)
  else none

/-- Leading zeroes that are not exactly "0" make a string of a key. -/
def integerKey (key : String) : Option Nat :=
  if key.toList.head? = some '0' ∧ 1 < key.length then none else intForString key

/-- `FChildrenNode.val`. -/
def ChildrenNode.val (node : ChildrenNode) : SnapshotValue :=
  if node = [] then .null
  else
    match node.mapM fun child => integerKey child.1 with
    | none => .dictionary node
    | some keys =>
        let maxKey := keys.foldl max 0
        if maxKey < 2 * node.length then
          .array ((List.range (maxKey + 1)).map fun i => node.lookup (toString i))
        else .dictionary node

/-- The cast `as? [String]`. -/
def SnapshotValue.asStrings : SnapshotValue → Option (List String)
  | .null => none
  | .array values => values.mapM id
  | .dictionary _ => none

theorem lookup_filter_of_ne {node : ChildrenNode} {key key' : String} (h : key' ≠ key) :
    (node.filter fun child => child.1 ≠ key).lookup key' = node.lookup key' := by
  induction node with
  | nil => rfl
  | cons child node ih =>
      obtain ⟨childKey, value⟩ := child
      by_cases hchild : childKey = key
      · subst hchild
        have hne : (key' == childKey) = false := by simpa using h
        rw [List.filter_cons_of_neg (by simp), ih, List.lookup_cons, hne]
      · rw [List.filter_cons_of_pos (by simpa using hchild), List.lookup_cons, List.lookup_cons, ih]

theorem ChildrenNode.lookup_updateChild_of_ne {node : ChildrenNode} {key key' value : String}
    (h : key' ≠ key) : (node.updateChild key value).lookup key' = node.lookup key' := by
  have hne : (key' == key) = false := by simpa using h
  rw [updateChild, List.lookup_cons, hne]
  exact lookup_filter_of_ne h

theorem mapM_id_eq_none {values : List (Option String)} (h : none ∈ values) :
    values.mapM id = none := by
  induction values with
  | nil => cases h
  | cons value values ih =>
      rw [List.mapM_cons]
      cases value with
      | none => rfl
      | some value =>
          have hrest : none ∈ values := by simpa using h
          rw [ih hrest]
          rfl

/-- A node without a child "0" is never read as a list of strings: delivered
as an array, it has `NSNull` at 0. -/
theorem ChildrenNode.asStrings_val {node : ChildrenNode} (h : node.lookup "0" = none) :
    node.val.asStrings = none := by
  unfold val
  by_cases hnode : node = []
  · rw [if_pos hnode]
    rfl
  · rw [if_neg hnode]
    cases node.mapM fun child => integerKey child.1 with
    | none => rfl
    | some keys =>
        by_cases hmax : keys.foldl max 0 < 2 * node.length
        · simp only [if_pos hmax]
          refine mapM_id_eq_none (List.mem_map.mpr ⟨0, ?_, h⟩)
          exact List.mem_range.mpr (Nat.succ_pos _)
        · simp only [if_neg hmax]
          rfl

/-! ## Signing in -/

/-- Firebase: the node `id` of the database. -/
structure Database where
  id : ChildrenNode := []
deriving DecidableEq, Repr

/-- The outcome of `signIn`: the uid of the user, which is not empty, or no
user. -/
abbrev SignIn := Option {uid : String // uid ≠ ""}

/-- `goNext`: the database afterwards, and whether the segue "next" is
performed. -/
def LoginFormController.goNext (email pass : Option String)
    (signIn : String → String → SignIn) (db : Database) : Database × Bool :=
  match email, pass with
  | some email, some pass =>
      let result := signIn email pass
      let id := (result.map Subtype.val).getD ""
      ({ db with id := db.id.updateChildValues [("1", id)] }, result.isSome)
  | _, _ => (db, false)

/-- An attempt with the fields filled in, and how it comes out. -/
structure Attempt where
  email : String
  pass : String
  result : SignIn
deriving DecidableEq

namespace Database

def attempt (db : Database) (a : Attempt) : Database :=
  (LoginFormController.goNext (some a.email) (some a.pass) (fun _ _ => a.result) db).1

/-- The empty database after the attempts. -/
def after (attempts : List Attempt) : Database := attempts.foldl attempt {}

/-- What the observer in `FriendsTableViewController.viewDidLoad` gets out of
the node `id`. -/
def observed (db : Database) : Option (List String) := db.id.val.asStrings

/-- The uid of the most recent attempt that succeeded. -/
def lastUid (attempts : List Attempt) : Option String :=
  ((attempts.filterMap Attempt.result).getLast?).map Subtype.val

/-- The observer finds the uid of whoever signed in last, and a failed
attempt changes nothing. -/
def RecordAgrees (attempts : List Attempt) : Prop :=
  (∀ uid, lastUid attempts = some uid → ∃ ids, (after attempts).observed = some ids ∧ uid ∈ ids) ∧
  ∀ pre a, pre ++ [a] <+: attempts → a.result = none → after (pre ++ [a]) = after pre

theorem lookup_zero_attempt {db : Database} (h : db.id.lookup "0" = none) (a : Attempt) :
    (db.attempt a).id.lookup "0" = none :=
  (ChildrenNode.lookup_updateChild_of_ne (show "0" ≠ "1" by decide)).trans h

theorem lookup_zero_after (attempts : List Attempt) :
    (after attempts).id.lookup "0" = none := by
  induction attempts using List.reverseRecOn with
  | nil => rfl
  | append_singleton attempts a ih =>
      rw [after, List.foldl_append]
      exact lookup_zero_attempt ih a

theorem observed_after (attempts : List Attempt) : (after attempts).observed = none :=
  ChildrenNode.asStrings_val (lookup_zero_after attempts)

/-- **The record is never read.** After every sequence of attempts of which
one has succeeded, the observer is left without the uid. -/
theorem record_never_read (attempts : List Attempt)
    (h : ∃ a ∈ attempts, a.result.isSome = true) : ¬RecordAgrees attempts := by
  rintro ⟨hread, -⟩
  obtain ⟨a, ha, hsome⟩ := h
  obtain ⟨user, huser⟩ := Option.isSome_iff_exists.mp hsome
  have husers : attempts.filterMap Attempt.result ≠ [] :=
    List.ne_nil_of_mem (List.mem_filterMap.mpr ⟨a, ha, huser⟩)
  have hlast := List.getLast?_eq_some_getLast husers
  obtain ⟨ids, hids, -⟩ := hread _ (by rw [lastUid, hlast, Option.map_some])
  rw [observed_after] at hids
  cases hids

theorem record_never_read_one : ¬RecordAgrees [⟨"user", "123456", some ⟨"u1", by decide⟩⟩] :=
  record_never_read _ ⟨_, List.mem_cons_self, rfl⟩

/-- One sign-in: the observer is delivered an array that begins with
`NSNull`; a failed attempt after it overwrites the uid. -/
theorem record_unread_after_signIn :
    (after [⟨"user", "123456", some ⟨"u1", by decide⟩⟩]).id.val =
        .array [none, some "u1"] ∧
      (after [⟨"user", "123456", some ⟨"u1", by decide⟩⟩,
        ⟨"user", "1", none⟩]).id = [("1", "")] ∧
      ¬RecordAgrees [⟨"user", "123456", some ⟨"u1", by decide⟩⟩] := by
  refine ⟨by decide, by decide, fun h => ?_⟩
  obtain ⟨ids, hids, -⟩ := h.1 "u1" rfl
  rw [observed_after] at hids
  cases hids

end Database

end VkClient
