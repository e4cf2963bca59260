import VkClient.LLRBRemoval
import VkClient.Runs
import VkClient.TreeBuilder

/-!
# Immutable sorted dictionaries

Firebase keeps the children of a node in a dictionary sorted by key. A small
one is an array that is searched from its beginning. The insertion that
would make it longer than 25 entries builds a red-black tree of all of
them, and a tree stays a tree from then on.

Which of the two a dictionary is depends on its history, so nothing of it
may show: both do to the entries what `SortedEntries` says (`insertKey_spec`,
`removeKey_spec`, `get_eq_find`), and `dictionary_run` reads every lookup
after a run off the run itself. What does show is the key of an entry that
is replaced by an equal one: the array takes the new key and the tree keeps
the old one.
-/

namespace VkClient

open SortedEntries

/-- `FArraySortedDictionary`, with its two arrays as one, or
`FTreeSortedDictionary`. -/
inductive FImmutableSortedDictionary (κ α : Type*) where
  | array (entries : List (κ × α))
  | tree (root : FLLRBNode κ α)
deriving DecidableEq, Repr

/-- `SORTED_DICTIONARY_ARRAY_TO_RB_TREE_SIZE_THRESHOLD`. -/
def arrayToRBTreeSizeThreshold : Nat := 25

/-- The pairs of a dictionary, in the order it is enumerated in. -/
abbrev NSDictionary (κ α : Type*) := List (κ × α)

/-- `dict[key] = value`. -/
def NSDictionary.setObject {κ α : Type*} [DecidableEq κ] (dict : NSDictionary κ α) (key : κ)
    (value : α) : NSDictionary κ α :=
  (key, value) :: dict.filter fun pair => pair.1 ≠ key

variable {κ α : Type*}

section Definitions

variable (cmp : κ → κ → Ordering)

/-! ## From a dictionary -/

/-- The sorted keys of a dictionary with their values, or the exception for
keys with the same ordering. -/
def sortedKeyList (dictionary : NSDictionary κ α) : Option (List (κ × α)) :=
  let keys := arrange cmp dictionary
  if keys.IsChain fun a b => cmp a.1 b.1 = .lt then some keys else none

def FArraySortedDictionary.fromDictionary (dictionary : NSDictionary κ α) :
    Option (FImmutableSortedDictionary κ α) :=
  (sortedKeyList cmp dictionary).map .array

def FTreeSortedDictionary.fromDictionary (dictionary : NSDictionary κ α) :
    Option (FImmutableSortedDictionary κ α) := do
  let keys ← sortedKeyList cmp dictionary
  let root ← rootFrom12List keys (base1_2List_new keys.length)
  return .tree root

/-! ## The array -/

namespace FArraySortedDictionary

def findInsertPositionForKey (key : κ) : List (κ × α) → Nat
  | [] => 0
  | entry :: entries =>
      if cmp entry.1 key = .lt then findInsertPositionForKey key entries + 1 else 0

/-- `NSNotFound` is `none`. -/
def findKey (key : κ) : List (κ × α) → Option Nat
  | [] => none
  | entry :: entries =>
      match cmp key entry.1 with
      | .eq => some 0
      | .lt => none
      | .gt => (findKey key entries).map (· + 1)

def insertKey [DecidableEq κ] (entries : List (κ × α)) (key : κ) (value : α) :
    Option (FImmutableSortedDictionary κ α) :=
  match findKey cmp key entries with
  | none =>
      if arrayToRBTreeSizeThreshold ≤ entries.length then
        FTreeSortedDictionary.fromDictionary cmp (NSDictionary.setObject entries key value)
      else
        let newPos := findInsertPositionForKey cmp key entries
        some (.array (entries.insertIdx newPos (key, value)))
  | some pos => some (.array (entries.set pos (key, value)))

def removeKey (entries : List (κ × α)) (key : κ) : List (κ × α) :=
  match findKey cmp key entries with
  | none => entries
  | some pos => entries.eraseIdx pos

def get (entries : List (κ × α)) (key : κ) : Option α :=
  match findKey cmp key entries with
  | none => none
  | some pos => entries[pos]?.map Prod.snd

end FArraySortedDictionary

/-! ## The tree -/

namespace FTreeSortedDictionary

def get (key : κ) : FLLRBNode κ α → Option α
  | .empty => none
  | .value k v _ l r =>
      match cmp key k with
      | .eq => some v
      | .lt => get key l
      | .gt => get key r

def insertKey (root : FLLRBNode κ α) (key : κ) (value : α) : FLLRBNode κ α :=
  (root.insertKey cmp key value).withColor .black

def removeKey (root : FLLRBNode κ α) (key : κ) : FLLRBNode κ α :=
  if (get cmp key root).isSome then (root.remove cmp key).withColor .black else root

end FTreeSortedDictionary

/-! ## The dictionary -/

namespace FImmutableSortedDictionary

def fromDictionary (dictionary : NSDictionary κ α) : Option (FImmutableSortedDictionary κ α) :=
  if dictionary.length ≤ arrayToRBTreeSizeThreshold then
    FArraySortedDictionary.fromDictionary cmp dictionary
  else FTreeSortedDictionary.fromDictionary cmp dictionary

/-- An exception is `none`. -/
def insertKey [DecidableEq κ] (d : FImmutableSortedDictionary κ α) (key : κ) (value : α) :
    Option (FImmutableSortedDictionary κ α) :=
  match d with
  | array entries => FArraySortedDictionary.insertKey cmp entries key value
  | tree root => some (tree (FTreeSortedDictionary.insertKey cmp root key value))

def removeKey (d : FImmutableSortedDictionary κ α) (key : κ) : FImmutableSortedDictionary κ α :=
  match d with
  | array entries => array (FArraySortedDictionary.removeKey cmp entries key)
  | tree root => tree (FTreeSortedDictionary.removeKey cmp root key)

def get (d : FImmutableSortedDictionary κ α) (key : κ) : Option α :=
  match d with
  | array entries => FArraySortedDictionary.get cmp entries key
  | tree root => FTreeSortedDictionary.get cmp key root

def count : FImmutableSortedDictionary κ α → Nat
  | array entries => entries.length
  | tree root => root.count

/-- The entries in the order of `enumerateKeysAndObjects`. -/
def entries : FImmutableSortedDictionary κ α → List (κ × α)
  | array entries => entries
  | tree root => root.entries

/-- The key of an entry that is replaced by one with an equal key. -/
def replacedKey : FImmutableSortedDictionary κ α → κ → κ → κ
  | array _ => fun _ key => key
  | tree _ => fun key _ => key

inductive Event (κ α : Type*) where
  | insertKey (key : κ) (value : α)
  | removeKey (key : κ)
deriving DecidableEq, Repr

def step [DecidableEq κ] (d : FImmutableSortedDictionary κ α) :
    Event κ α → Option (FImmutableSortedDictionary κ α)
  | .insertKey key value => d.insertKey cmp key value
  | .removeKey key => some (d.removeKey cmp key)

/-- What an event assigns to a key. -/
def Event.write (key : κ) : Event κ α → Option (Option α)
  | .insertKey key' value => if cmp key key' = .eq then some (some value) else none
  | .removeKey key' => if cmp key key' = .eq then some none else none

/-- What building and a run can lead to. -/
def Reachable [DecidableEq κ] (d : FImmutableSortedDictionary κ α) : Prop :=
  ∃ dictionary d₀ events, fromDictionary cmp dictionary = some d₀ ∧
    Runs.run (step cmp) d₀ events = some d

/-- The header's invariants of a tree. -/
def Balanced (root : FLLRBNode κ α) : Prop := ∃ blackDepth, FLLRBNode.LL .black blackDepth root

structure Sound (d : FImmutableSortedDictionary κ α) : Prop where
  sorted : Sorted cmp d.entries
  small : ∀ entries, d = array entries → entries.length ≤ arrayToRBTreeSizeThreshold
  balanced : ∀ root, d = tree root → Balanced root

end FImmutableSortedDictionary

end Definitions

section Correctness

variable {cmp : κ → κ → Ordering}

namespace FImmutableSortedDictionary

theorem Sound.ofArray {entries : List (κ × α)} (hsorted : Sorted cmp entries)
    (hsmall : entries.length ≤ arrayToRBTreeSizeThreshold) : (array entries).Sound cmp where
  sorted := hsorted
  small := fun _ h => by cases h; exact hsmall
  balanced := fun _ h => nomatch h

theorem Sound.ofTree {root : FLLRBNode κ α} (hsorted : Sorted cmp root.entries)
    (hbalanced : Balanced root) : (tree root).Sound cmp where
  sorted := hsorted
  small := fun _ h => nomatch h
  balanced := fun _ h => by cases h; exact hbalanced

end FImmutableSortedDictionary

variable [Std.TransCmp cmp]

/-! ## The sorted keys -/

theorem isChain_iff_sorted {entries : List (κ × α)} :
    (entries.IsChain fun a b => cmp a.1 b.1 = .lt) ↔ Sorted cmp entries := by
  let R : κ × α → κ × α → Prop := fun a b => cmp a.1 b.1 = .lt
  have : Trans R R R := ⟨fun hab hbc => Std.TransCmp.lt_trans hab hbc⟩
  exact List.isChain_iff_pairwise

theorem sortedKeyList_of_distinct {dictionary : NSDictionary κ α} (h : Distinct cmp dictionary) :
    sortedKeyList cmp dictionary = some (arrange cmp dictionary) :=
  if_pos (isChain_iff_sorted.mpr (sorted_arrange h))

/-- The exception, for two keys that are the same to the comparator. -/
theorem sortedKeyList_of_not_distinct {dictionary : NSDictionary κ α}
    (h : ¬Distinct cmp dictionary) : sortedKeyList cmp dictionary = none :=
  if_neg fun hchain => h (sorted_arrange_iff.mp (isChain_iff_sorted.mp hchain))

/-! ## What the array does to its entries -/

namespace FArraySortedDictionary

variable {key : κ} {value : α} {entries : List (κ × α)} {pos : Nat}

/-- The search may stop at the first greater key. -/
theorem findKey_eq_none (hsorted : Sorted cmp entries) (h : findKey cmp key entries = none) :
    ∀ e ∈ entries, cmp key e.1 ≠ .eq := by
  induction entries with
  | nil => exact fun e he => absurd he List.not_mem_nil
  | cons entry entries ih =>
      obtain ⟨hentry, hrest⟩ := List.pairwise_cons.mp hsorted
      rw [findKey] at h
      cases hcmp : cmp key entry.1 with
      | eq => simp [hcmp] at h
      | lt =>
          have hafter := lt_of_mem_after hentry (by simp [hcmp] : cmp key entry.1 ≠ .gt)
          intro e he
          rcases List.mem_cons.mp he with rfl | he
          · simp [hcmp]
          · simp [hafter e he]
      | gt =>
          have hnone : findKey cmp key entries = none := by simpa [hcmp] using h
          intro e he
          rcases List.mem_cons.mp he with rfl | he
          · simp [hcmp]
          · exact ih hrest hnone e he

omit [Std.TransCmp cmp] in
/-- Where the search finds the key, and what it has passed. -/
theorem findKey_eq_some (h : findKey cmp key entries = some pos) :
    ∃ before entry after, entries = before ++ entry :: after ∧ before.length = pos ∧
      cmp key entry.1 = .eq ∧ ∀ e ∈ before, cmp key e.1 = .gt := by
  induction entries generalizing pos with
  | nil => simp [findKey] at h
  | cons entry entries ih =>
      rw [findKey] at h
      cases hcmp : cmp key entry.1 with
      | eq =>
          obtain rfl : 0 = pos := by simpa [hcmp] using h
          exact ⟨[], entry, entries, rfl, rfl, hcmp, fun e he => absurd he List.not_mem_nil⟩
      | lt => simp [hcmp] at h
      | gt =>
          obtain ⟨pos', hpos', rfl⟩ : ∃ pos', findKey cmp key entries = some pos' ∧
              pos' + 1 = pos := by simpa [hcmp] using h
          obtain ⟨before, found, after, rfl, rfl, heq, hbefore⟩ := ih hpos'
          exact ⟨entry :: before, found, after, rfl, rfl, heq,
            List.forall_mem_cons.mpr ⟨hcmp, hbefore⟩⟩

theorem insertIdx_findInsertPosition (pick : κ → κ → κ)
    (h : ∀ e ∈ entries, cmp key e.1 ≠ .eq) :
    entries.insertIdx (findInsertPositionForKey cmp key entries) (key, value) =
      insertWith cmp pick key value entries := by
  induction entries with
  | nil => rfl
  | cons entry entries ih =>
      obtain ⟨hentry, hrest⟩ := List.forall_mem_cons.mp h
      rw [findInsertPositionForKey, insertWith]
      cases hcmp : cmp key entry.1 with
      | eq => exact absurd hcmp hentry
      | lt =>
          rw [if_neg (by simp [Std.OrientedCmp.gt_of_lt hcmp])]
          rfl
      | gt =>
          rw [if_pos (Std.OrientedCmp.lt_of_gt hcmp), List.insertIdx_succ_cons, ih hrest]

omit [Std.TransCmp cmp] in
theorem set_findKey (value : α) (h : findKey cmp key entries = some pos) :
    entries.set pos (key, value) = insertWith cmp (fun _ new => new) key value entries := by
  obtain ⟨before, entry, after, rfl, rfl, heq, hbefore⟩ := findKey_eq_some h
  rw [insertWith_append_of_gt hbefore, insertWith, heq]
  simp

theorem removeKey_eq_erase (hsorted : Sorted cmp entries) :
    removeKey cmp entries key = erase cmp key entries := by
  rw [removeKey]
  cases hfind : findKey cmp key entries with
  | none => exact (erase_eq_self (findKey_eq_none hsorted hfind)).symm
  | some pos =>
      obtain ⟨before, entry, after, rfl, rfl, heq, hbefore⟩ := findKey_eq_some hfind
      obtain ⟨-, -, -, hafter⟩ := sorted_append_cons.mp hsorted
      have hlt := lt_of_mem_after hafter (by simp [heq] : cmp key entry.1 ≠ .gt)
      have hkeep : erase cmp key before = before := erase_eq_self fun e he => by simp [hbefore e he]
      have hkeep' : erase cmp key after = after := erase_eq_self fun e he => by simp [hlt e he]
      rw [erase_append, erase_cons_of_eq heq, hkeep, hkeep']
      simp [List.eraseIdx_append_of_length_le]

theorem get_eq_find (hsorted : Sorted cmp entries) :
    get cmp entries key = find cmp key entries := by
  rw [get]
  cases hfind : findKey cmp key entries with
  | none => exact (find_eq_none (findKey_eq_none hsorted hfind)).symm
  | some pos =>
      obtain ⟨before, entry, after, rfl, rfl, heq, hbefore⟩ := findKey_eq_some hfind
      rw [find_append_of_gt hbefore, find_cons_of_eq heq]
      simp

end FArraySortedDictionary

/-! ## What the tree does to its entries -/

namespace FTreeSortedDictionary

variable {key : κ} {value : α} {root : FLLRBNode κ α}

theorem get_eq_find (hsorted : Sorted cmp root.entries) :
    get cmp key root = find cmp key root.entries := by
  induction root with
  | empty => rfl
  | value k v c l r ihl ihr =>
      obtain ⟨hl, hr, hlt, hgt⟩ := sorted_append_cons.mp hsorted
      rw [get, FLLRBNode.entries]
      cases hcmp : cmp key k with
      | eq =>
          have hleft := gt_of_mem_before hlt (by simp [hcmp] : cmp key k ≠ .lt)
          rw [find_append_of_gt hleft, find_cons_of_eq hcmp]
      | lt =>
          have hright := lt_of_mem_after hgt (by simp [hcmp] : cmp key k ≠ .gt)
          rw [find_append_of_lt (List.forall_mem_cons.mpr ⟨hcmp, hright⟩)]
          exact ihl hl
      | gt =>
          have hleft := gt_of_mem_before hlt (by simp [hcmp] : cmp key k ≠ .lt)
          have hne : cmp key k ≠ .eq := by simp [hcmp]
          rw [find_append_of_gt hleft, find_cons_of_ne hne]
          exact ihr hr

theorem insertKey_spec (key : κ) (value : α) (hbalanced : FImmutableSortedDictionary.Balanced root)
    (hsorted : Sorted cmp root.entries) :
    FImmutableSortedDictionary.Balanced (insertKey cmp root key value) ∧
      (insertKey cmp root key value).entries =
        insertWith cmp (fun old _ => old) key value root.entries := by
  obtain ⟨n, hLL⟩ := hbalanced
  refine ⟨(FLLRBNode.grown_insertKey cmp key value hLL).blackened, ?_⟩
  rw [insertKey, FLLRBNode.entries_withColor, FLLRBNode.entries_insertKey hsorted]

theorem removeKey_spec (key : κ) (hbalanced : FImmutableSortedDictionary.Balanced root)
    (hsorted : Sorted cmp root.entries) :
    FImmutableSortedDictionary.Balanced (removeKey cmp root key) ∧
      (removeKey cmp root key).entries = erase cmp key root.entries := by
  rw [removeKey]
  by_cases h : (get cmp key root).isSome = true
  · rw [if_pos h]
    obtain ⟨n, hLL⟩ := hbalanced
    exact FLLRBNode.remove_blackened hLL hsorted
  · rw [if_neg h]
    rw [get_eq_find hsorted, Option.not_isSome_iff_eq_none, find_eq_none_iff] at h
    exact ⟨hbalanced, (erase_eq_self h).symm⟩

theorem fromDictionary_spec {dictionary : NSDictionary κ α} (h : Distinct cmp dictionary) :
    ∃ root, fromDictionary cmp dictionary = some (.tree root) ∧
      FImmutableSortedDictionary.Balanced root ∧ root.entries = arrange cmp dictionary := by
  obtain ⟨root, n, hroot, hLL, hentries⟩ := rootFrom12List_spec (arrange cmp dictionary)
  refine ⟨root, ?_, ⟨n, hLL⟩, hentries⟩
  simp [fromDictionary, sortedKeyList_of_distinct h, hroot]

end FTreeSortedDictionary

/-! ## Insertion into an array -/

namespace FArraySortedDictionary

variable [DecidableEq κ] {key : κ} {value : α} {entries : List (κ × α)}

theorem insertKey_of_found {pos : Nat} (hsorted : Sorted cmp entries)
    (hsmall : entries.length ≤ arrayToRBTreeSizeThreshold)
    (hfind : findKey cmp key entries = some pos) :
    ∃ d, insertKey cmp entries key value = some d ∧ d.Sound cmp ∧
      d.entries = insertWith cmp (fun _ new => new) key value entries := by
  have hset := set_findKey value hfind
  refine ⟨.array (entries.set pos (key, value)), ?_, .ofArray ?_ ?_, hset⟩
  · simp only [insertKey, hfind]
  · rw [hset]
    exact sorted_insertWith (fun _ _ h => h) hsorted
  · rw [List.length_set]
    exact hsmall

/-- A new key in an array with room for it. -/
theorem insertKey_of_new (hsorted : Sorted cmp entries)
    (hroom : entries.length < arrayToRBTreeSizeThreshold)
    (hfind : findKey cmp key entries = none) :
    ∃ d, insertKey cmp entries key value = some d ∧ d.Sound cmp ∧
      d.entries = insertWith cmp (fun _ new => new) key value entries := by
  have hnew := findKey_eq_none hsorted hfind
  have hinsert : entries.insertIdx (findInsertPositionForKey cmp key entries) (key, value) =
      insertWith cmp (fun _ new => new) key value entries := insertIdx_findInsertPosition _ hnew
  refine ⟨.array (entries.insertIdx (findInsertPositionForKey cmp key entries) (key, value)),
    ?_, .ofArray ?_ ?_, hinsert⟩
  · simp only [insertKey, hfind, if_neg (Nat.not_le_of_lt hroom)]
  · rw [hinsert]
    exact sorted_insertWith (fun _ _ h => h) hsorted
  · rw [hinsert, (insertWith_perm hnew).length_eq]
    exact hroom

/-- A new key in a full array: a tree of all the entries is built. -/
theorem insertKey_of_full (hsorted : Sorted cmp entries)
    (hfull : arrayToRBTreeSizeThreshold ≤ entries.length)
    (hfind : findKey cmp key entries = none) :
    ∃ d, insertKey cmp entries key value = some d ∧ d.Sound cmp ∧
      d.entries = insertWith cmp (fun _ new => new) key value entries := by
  have hnew := findKey_eq_none hsorted hfind
  have hset : NSDictionary.setObject entries key value = (key, value) :: entries := by
    refine congrArg _ (List.filter_eq_self.mpr fun e he => ?_)
    have hne : e.1 ≠ key := fun heq => hnew e he (heq ▸ Std.ReflCmp.compare_self)
    simpa using hne
  have hperm : (insertWith cmp (fun _ new => new) key value entries).Perm
      ((key, value) :: entries) := insertWith_perm hnew
  have hinserted : Sorted cmp (insertWith cmp (fun _ new => new) key value entries) :=
    sorted_insertWith (fun _ _ h => h) hsorted
  have hdistinct : Distinct cmp ((key, value) :: entries) := hinserted.distinct.perm hperm
  obtain ⟨root, hroot, hbalanced, hentries⟩ :=
    FTreeSortedDictionary.fromDictionary_spec hdistinct
  have harrange : root.entries = insertWith cmp (fun _ new => new) key value entries := by
    rw [hentries]
    exact eq_of_sorted_of_perm (sorted_arrange hdistinct) hinserted
      ((List.mergeSort_perm ..).trans hperm.symm)
  refine ⟨.tree root, ?_, .ofTree ?_ hbalanced, harrange⟩
  · simp only [insertKey, hfind, if_pos hfull, hset, hroot]
  · rw [harrange]
    exact hinserted

theorem insertKey_spec (hsorted : Sorted cmp entries)
    (hsmall : entries.length ≤ arrayToRBTreeSizeThreshold) :
    ∃ d, insertKey cmp entries key value = some d ∧ d.Sound cmp ∧
      d.entries = insertWith cmp (fun _ new => new) key value entries := by
  cases hfind : findKey cmp key entries with
  | some pos => exact insertKey_of_found hsorted hsmall hfind
  | none =>
      by_cases hroom : entries.length < arrayToRBTreeSizeThreshold
      · exact insertKey_of_new hsorted hroom hfind
      · exact insertKey_of_full hsorted (Nat.le_of_not_lt hroom) hfind

end FArraySortedDictionary

/-! ## What a dictionary does to its entries -/

namespace FImmutableSortedDictionary

variable {d : FImmutableSortedDictionary κ α} {key : κ} {value : α}

theorem cmp_replacedKey (d : FImmutableSortedDictionary κ α) (old new : κ)
    (h : cmp new old = .eq) : cmp (d.replacedKey old new) old = .eq := by
  cases d with
  | array entries => exact h
  | tree root => exact Std.ReflCmp.compare_self

theorem get_eq_find (h : d.Sound cmp) : d.get cmp key = find cmp key d.entries := by
  cases d with
  | array entries => exact FArraySortedDictionary.get_eq_find h.sorted
  | tree root => exact FTreeSortedDictionary.get_eq_find h.sorted

theorem removeKey_spec (key : κ) (h : d.Sound cmp) :
    (d.removeKey cmp key).Sound cmp ∧ (d.removeKey cmp key).entries = erase cmp key d.entries := by
  cases d with
  | array entries =>
      have herase : FArraySortedDictionary.removeKey cmp entries key = erase cmp key entries :=
        FArraySortedDictionary.removeKey_eq_erase h.sorted
      refine ⟨.ofArray ?_ ?_, herase⟩
      · rw [herase]
        exact sorted_erase h.sorted
      · rw [herase]
        exact (List.length_filter_le ..).trans (h.small entries rfl)
  | tree root =>
      obtain ⟨hbalanced, herase⟩ :=
        FTreeSortedDictionary.removeKey_spec key (h.balanced root rfl) h.sorted
      refine ⟨.ofTree ?_ hbalanced, herase⟩
      rw [herase]
      exact sorted_erase h.sorted

/-- No insertion raises the exception of the builder: the array has been
searched for an equal key before. -/
theorem insertKey_spec [DecidableEq κ] (key : κ) (value : α) (h : d.Sound cmp) :
    ∃ d', d.insertKey cmp key value = some d' ∧ d'.Sound cmp ∧
      d'.entries = insertWith cmp d.replacedKey key value d.entries := by
  cases d with
  | tree root =>
      obtain ⟨hbalanced, hinsert⟩ :=
        FTreeSortedDictionary.insertKey_spec key value (h.balanced root rfl) h.sorted
      refine ⟨_, rfl, .ofTree ?_ hbalanced, hinsert⟩
      rw [hinsert]
      exact sorted_insertWith (cmp_replacedKey (tree root)) h.sorted
  | array entries => exact FArraySortedDictionary.insertKey_spec h.sorted (h.small entries rfl)

/-! ## Building -/

theorem fromDictionary_of_not_distinct {dictionary : NSDictionary κ α}
    (h : ¬Distinct cmp dictionary) : fromDictionary cmp dictionary = none := by
  simp [fromDictionary, FArraySortedDictionary.fromDictionary,
    FTreeSortedDictionary.fromDictionary, sortedKeyList_of_not_distinct h]

theorem fromDictionary_of_distinct {dictionary : NSDictionary κ α}
    (h : Distinct cmp dictionary) :
    ∃ d, fromDictionary cmp dictionary = some d ∧ d.Sound cmp ∧
      d.entries = arrange cmp dictionary := by
  by_cases hsmall : dictionary.length ≤ arrayToRBTreeSizeThreshold
  · have hlength : (arrange cmp dictionary).length = dictionary.length :=
      (List.mergeSort_perm ..).length_eq
    refine ⟨array (arrange cmp dictionary), ?_, .ofArray (sorted_arrange h) ?_, rfl⟩
    · rw [fromDictionary, if_pos hsmall, FArraySortedDictionary.fromDictionary,
        sortedKeyList_of_distinct h]
      rfl
    · rw [hlength]
      exact hsmall
  · obtain ⟨root, hroot, hbalanced, hentries⟩ := FTreeSortedDictionary.fromDictionary_spec h
    refine ⟨tree root, (if_neg hsmall).trans hroot, .ofTree ?_ hbalanced, hentries⟩
    rw [hentries]
    exact sorted_arrange h

theorem fromDictionary_perm {dictionary dictionary' : NSDictionary κ α}
    (h : Distinct cmp dictionary) (hperm : dictionary.Perm dictionary') :
    fromDictionary cmp dictionary' = fromDictionary cmp dictionary := by
  rw [fromDictionary, fromDictionary, hperm.length_eq, FArraySortedDictionary.fromDictionary,
    FArraySortedDictionary.fromDictionary, FTreeSortedDictionary.fromDictionary,
    FTreeSortedDictionary.fromDictionary, sortedKeyList_of_distinct h,
    sortedKeyList_of_distinct (h.perm hperm), arrange_perm h hperm]

theorem get_of_entries_eq {dictionary : NSDictionary κ α} (h : Distinct cmp dictionary)
    (hsound : d.Sound cmp) (hentries : d.entries = arrange cmp dictionary) (key : κ) :
    d.get cmp key = find cmp key dictionary := by
  rw [get_eq_find hsound, hentries]
  exact find_perm h (List.mergeSort_perm ..).symm

/-- **Building a dictionary.** Keys that are the same to the comparator are
refused. Any others, in whatever order they are enumerated, give one sound
dictionary, which looks up what was given. -/
theorem fromDictionary_built (dictionary : NSDictionary κ α) :
    (¬Distinct cmp dictionary → fromDictionary cmp dictionary = none) ∧
      (Distinct cmp dictionary → ∃ d, d.Sound cmp ∧
        (∀ key, d.get cmp key = find cmp key dictionary) ∧
        ∀ dictionary', dictionary.Perm dictionary' →
          fromDictionary cmp dictionary' = some d) := by
  refine ⟨fromDictionary_of_not_distinct, fun h => ?_⟩
  obtain ⟨d, hd, hsound, hentries⟩ := fromDictionary_of_distinct h
  exact ⟨d, hsound, get_of_entries_eq h hsound hentries,
    fun dictionary' hperm => (fromDictionary_perm h hperm).trans hd⟩

theorem fromDictionary_built_numbers :
    (¬Distinct compare [(2, "b"), (1, "a"), (2, "c")] →
        fromDictionary compare [(2, "b"), (1, "a"), (2, "c")] = none) ∧
      ∃ d : FImmutableSortedDictionary Nat String, d.Sound compare ∧
        (∀ key, d.get compare key = find compare key [(2, "b"), (1, "a")]) ∧
        ∀ dictionary', [(2, "b"), (1, "a")].Perm dictionary' →
          fromDictionary compare dictionary' = some d :=
  ⟨(fromDictionary_built [(2, "b"), (1, "a"), (2, "c")]).1,
    (fromDictionary_built [(2, "b"), (1, "a")]).2 (by decide)⟩

/-! ## A run -/

theorem step_spec [DecidableEq κ] (h : d.Sound cmp) (e : Event κ α) :
    ∃ d', d.step cmp e = some d' ∧ d'.Sound cmp ∧
      ∀ key, d'.get cmp key = (e.write cmp key).getD (d.get cmp key) := by
  cases e with
  | insertKey key value =>
      obtain ⟨d', hd', hsound, hentries⟩ := insertKey_spec key value h
      refine ⟨d', hd', hsound, fun key' => ?_⟩
      rw [get_eq_find hsound, get_eq_find h, hentries, find_insertWith (cmp_replacedKey d),
        Event.write]
      split_ifs <;> rfl
  | removeKey key =>
      obtain ⟨hsound, hentries⟩ := removeKey_spec key h
      refine ⟨_, rfl, hsound, fun key' => ?_⟩
      rw [get_eq_find hsound, get_eq_find h, hentries, find_erase, Event.write]
      split_ifs <;> rfl

theorem count_eq (d : FImmutableSortedDictionary κ α) : d.count = d.entries.length := by
  cases d with
  | array entries => rfl
  | tree root => exact root.count_eq

/-- The depth of a tree is logarithmic in its entries. -/
theorem Balanced.depth_le {root : FLLRBNode κ α} (h : Balanced root) :
    root.depth ≤ 2 * Nat.log 2 (root.count + 1) := by
  obtain ⟨n, hLL⟩ := h
  have hdepth := FLLRBNode.depth_le_of_LL hLL
  have hlog : n ≤ Nat.log 2 (root.count + 1) :=
    Nat.le_log_of_pow_le Nat.one_lt_two (FLLRBNode.pow_le_count hLL)
  simp only [reduceCtorEq, if_false] at hdepth
  omega

theorem exists_step_sound [DecidableEq κ] (d : FImmutableSortedDictionary κ α) (e : Event κ α)
    (h : d.Sound cmp) : ∃ d', d.step cmp e = some d' ∧ d'.Sound cmp :=
  (step_spec h e).imp fun _ hd' => ⟨hd'.1, hd'.2.1⟩

theorem sound_of_fromDictionary {dictionary : NSDictionary κ α}
    (h : fromDictionary cmp dictionary = some d) :
    Distinct cmp dictionary ∧ d.Sound cmp ∧ d.entries = arrange cmp dictionary := by
  have hdistinct : Distinct cmp dictionary := by
    by_contra hties
    rw [fromDictionary_of_not_distinct hties] at h
    cases h
  obtain ⟨d', hd', hsound, hentries⟩ := fromDictionary_of_distinct hdistinct
  obtain rfl : d' = d := Option.some.inj (hd'.symm.trans h)
  exact ⟨hdistinct, hsound, hentries⟩

theorem Reachable.sound [DecidableEq κ] (h : Reachable cmp d) : d.Sound cmp := by
  obtain ⟨dictionary, d₀, events, hbuilt, hrun⟩ := h
  obtain ⟨d', hrun', hsound⟩ :=
    Runs.exists_run exists_step_sound events (sound_of_fromDictionary hbuilt).2.1
  obtain rfl : d' = d := Option.some.inj (hrun'.symm.trans hrun)
  exact hsound

/-- **A run of a dictionary.** Whatever is inserted and removed, no
exception is raised, the keys stay sorted, an array stays small and a tree
passes its own checks and stays shallow; and a key is looked up to what was
assigned to an equal key last. -/
theorem dictionary_run [DecidableEq κ] {dictionary : NSDictionary κ α}
    {d : FImmutableSortedDictionary κ α} (h : fromDictionary cmp dictionary = some d)
    (events : List (Event κ α)) :
    ∃ d', Runs.run (step cmp) d events = some d' ∧ Sorted cmp d'.entries ∧
      (∀ entries, d' = array entries → entries.length ≤ arrayToRBTreeSizeThreshold) ∧
      (∀ root, d' = tree root → root.checkMaxDepth = some true ∧
        root.depth ≤ 2 * Nat.log 2 (root.count + 1)) ∧
      ∀ key, d'.get cmp key =
        (events.filterMap (Event.write cmp key)).getLast?.getD (find cmp key dictionary) := by
  obtain ⟨hdistinct, hsound, hentries⟩ := sound_of_fromDictionary h
  obtain ⟨d', hrun, hsound'⟩ := Runs.exists_run exists_step_sound events hsound
  refine ⟨d', hrun, hsound'.sorted, hsound'.small, fun root hroot => ?_, fun key => ?_⟩
  · have hbalanced := hsound'.balanced root hroot
    exact ⟨FLLRBNode.checkMaxDepth_of_LL hbalanced.choose_spec, hbalanced.depth_le⟩
  · rw [← get_of_entries_eq hdistinct hsound hentries]
    have hwrite : ∀ (d : FImmutableSortedDictionary κ α) e d', d.Sound cmp →
        d.step cmp e = some d' →
          d'.Sound cmp ∧ d'.get cmp key = (e.write cmp key).getD (d.get cmp key) := by
      intro d e d' hs hd'
      obtain ⟨d'', hd'', hsound'', hget''⟩ := step_spec hs e
      obtain rfl := Option.some.inj (hd''.symm.trans hd')
      exact ⟨hsound'', hget'' key⟩
    exact Runs.run_last_write_of_inv (f := fun d => d.get cmp key) hwrite hsound hrun

theorem dictionary_run_numbers :
    ∃ d, Runs.run (step compare) (array [(1, "a"), (2, "b")])
        [.insertKey 2 "c", .removeKey 1] = some d ∧
      d.get compare 2 = some "c" ∧ d.get compare 1 = none := by
  have hbuilt : fromDictionary compare [(2, "b"), (1, "a")] =
      some (array [(1, "a"), (2, "b")]) := by
    simp [fromDictionary, FArraySortedDictionary.fromDictionary, sortedKeyList, arrange,
      List.mergeSort, List.merge, arrayToRBTreeSizeThreshold]
    decide
  obtain ⟨d, hrun, -, -, -, hget⟩ := dictionary_run hbuilt [.insertKey 2 "c", .removeKey 1]
  exact ⟨d, hrun, hget 2, hget 1⟩

end FImmutableSortedDictionary

end Correctness

end VkClient
