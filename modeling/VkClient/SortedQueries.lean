import VkClient.SortedDictionary

/-!
# Neighbours and equality in a sorted dictionary

`getPredecessorKey` walks down the tree and remembers where it last turned
right, or steps back once in the array; an absent key is an exception in
both. `isEqual` counts the entries of both dictionaries and looks those of
the one up in the other.

Neither shows which representation it was asked of: the predecessor is the
greatest key below (`getPredecessorKey_spec`), and dictionaries are equal if
and only if they cannot be told apart by lookups (`isEqual_iff`).
-/

namespace VkClient

open SortedEntries

variable {κ α : Type*}

section Definitions

variable (cmp : κ → κ → Ordering)

/-- `none` is the exception. -/
def FArraySortedDictionary.getPredecessorKey (entries : List (κ × α)) (key : κ) :
    Option (Option κ) :=
  (findKey cmp key entries).map fun pos =>
    if pos = 0 then none else entries[pos - 1]?.map Prod.fst

/-- The loop, with `rightParent`; below a left child it goes right as far as
it gets, as `maxKey` does. -/
def FTreeSortedDictionary.predecessorFrom (key : κ) :
    FLLRBNode κ α → Option κ → Option (Option κ)
  | .empty, _ => none
  | .value k _ _ l r, rightParent =>
      match cmp key k with
      | .eq => some (if l.isEmpty then rightParent else l.maxKey)
      | .lt => predecessorFrom key l rightParent
      | .gt => predecessorFrom key r (some k)

namespace FImmutableSortedDictionary

def getPredecessorKey (d : FImmutableSortedDictionary κ α) (key : κ) : Option (Option κ) :=
  match d with
  | array entries => FArraySortedDictionary.getPredecessorKey cmp entries key
  | tree root => FTreeSortedDictionary.predecessorFrom cmp key root none

/-- `isEqual`, which stops at the first entry that differs. -/
def isEqual [DecidableEq α] (d other : FImmutableSortedDictionary κ α) : Bool :=
  if d.count ≠ other.count then false
  else d.entries.all fun entry => other.get cmp entry.1 = some entry.2

end FImmutableSortedDictionary

/-- The last of the entries below a key. -/
def lastBelow (key : κ) (entries : List (κ × α)) : Option κ :=
  (entries.filter fun entry => cmp entry.1 key = .lt).getLast?.map Prod.fst

end Definitions

variable {cmp : κ → κ → Ordering} [Std.TransCmp cmp]

/-! ## The predecessor -/

section Predecessor

variable {key : κ} {entry : κ × α} {before after : List (κ × α)}

/-- Only what comes before an entry that is not below the key counts. -/
theorem lastBelow_append_of_not_gt (hbefore : ∀ e ∈ before, cmp e.1 entry.1 = .lt)
    (hafter : ∀ e ∈ after, cmp entry.1 e.1 = .lt) (h : cmp key entry.1 ≠ .gt) :
    lastBelow cmp key (before ++ entry :: after) = lastBelow cmp key before := by
  have hcut : ∀ e ∈ entry :: after, ¬cmp e.1 key = .lt := by
    intro e he hlt
    rcases List.mem_cons.mp he with rfl | he
    · exact h (Std.OrientedCmp.gt_of_lt hlt)
    · have hgt := lt_of_mem_after hafter h e he
      rw [Std.OrientedCmp.gt_of_lt hgt] at hlt
      cases hlt
  have hnil : (entry :: after).filter (fun e => cmp e.1 key = .lt) = [] :=
    List.filter_eq_nil_iff.mpr fun e he => by simpa using hcut e he
  rw [lastBelow, List.filter_append, hnil, List.append_nil, lastBelow]

/-- An entry below the key takes the place of everything before it. -/
theorem lastBelow_append_of_gt (h : cmp key entry.1 = .gt) :
    lastBelow cmp key (before ++ entry :: after) =
      (lastBelow cmp key after).or (some entry.1) := by
  have hlt := Std.OrientedCmp.lt_of_gt h
  rw [lastBelow, List.filter_append, List.filter_cons_of_pos (by simpa using hlt),
    List.getLast?_append, List.getLast?_cons, lastBelow]
  cases (after.filter fun e => cmp e.1 key = .lt).getLast? <;> rfl

theorem lastBelow_of_eq (hbefore : ∀ e ∈ before, cmp e.1 entry.1 = .lt)
    (hafter : ∀ e ∈ after, cmp entry.1 e.1 = .lt) (h : cmp key entry.1 = .eq) :
    lastBelow cmp key (before ++ entry :: after) = before.getLast?.map Prod.fst := by
  have hne : cmp key entry.1 ≠ .gt := by simp [h]
  have hall : before.filter (fun e => cmp e.1 key = .lt) = before :=
    List.filter_eq_self.mpr fun e he => by
      simpa using Std.TransCmp.lt_of_lt_of_eq (hbefore e he) (Std.OrientedCmp.eq_symm h)
  rw [lastBelow_append_of_not_gt hbefore hafter hne, lastBelow, hall]

end Predecessor

namespace FTreeSortedDictionary

variable {key : κ}

theorem predecessorFrom_of_find {root : FLLRBNode κ α} (hsorted : Sorted cmp root.entries)
    (rightParent : Option κ) (h : find cmp key root.entries ≠ none) :
    predecessorFrom cmp key root rightParent =
      some ((lastBelow cmp key root.entries).or rightParent) := by
  induction root generalizing rightParent with
  | empty => exact absurd rfl h
  | value k v c l r ihl ihr =>
      obtain ⟨hl, hr, hlt, hgt⟩ := sorted_append_cons.mp hsorted
      rw [FLLRBNode.entries] at h ⊢
      rw [predecessorFrom]
      cases hcmp : cmp key k with
      | eq =>
          rw [lastBelow_of_eq hlt hgt hcmp, ← FLLRBNode.maxKey_eq]
          cases l with
          | empty => rfl
          | value lk lv lc ll lr =>
              have hmax : (FLLRBNode.value lk lv lc ll lr).maxKey ≠ none := by
                simp [FLLRBNode.maxKey_eq, FLLRBNode.entries]
              obtain ⟨k', hk'⟩ := Option.ne_none_iff_exists'.mp hmax
              simp [hk', FLLRBNode.isEmpty]
      | lt =>
          have hne : cmp key k ≠ .gt := by simp [hcmp]
          have hright : ∀ e ∈ (k, v) :: r.entries, cmp key e.1 = .lt :=
            List.forall_mem_cons.mpr ⟨hcmp, lt_of_mem_after hgt hne⟩
          rw [find_append_of_lt hright] at h
          rw [lastBelow_append_of_not_gt hlt hgt hne]
          exact ihl hl rightParent h
      | gt =>
          have hne : cmp key k ≠ .eq := by simp [hcmp]
          have hleft := gt_of_mem_before hlt (by simp [hcmp] : cmp key k ≠ .lt)
          rw [find_append_of_gt hleft, find_cons_of_ne hne] at h
          rw [lastBelow_append_of_gt hcmp]
          refine (ihr hr (some k) h).trans ?_
          cases lastBelow cmp key r.entries <;> rfl

theorem predecessorFrom_of_absent {root : FLLRBNode κ α} (hsorted : Sorted cmp root.entries)
    (rightParent : Option κ) (h : find cmp key root.entries = none) :
    predecessorFrom cmp key root rightParent = none := by
  induction root generalizing rightParent with
  | empty => rfl
  | value k v c l r ihl ihr =>
      obtain ⟨hl, hr, -, -⟩ := sorted_append_cons.mp hsorted
      obtain ⟨hleft, hk, hright⟩ : (∀ e ∈ l.entries, cmp key e.1 ≠ .eq) ∧ cmp key k ≠ .eq ∧
          ∀ e ∈ r.entries, cmp key e.1 ≠ .eq := by
        have hall := find_eq_none_iff.mp h
        exact ⟨fun e he => hall e (List.mem_append_left _ he),
          hall (k, v) (List.mem_append_right _ List.mem_cons_self),
          fun e he => hall e (List.mem_append_right _ (List.mem_cons_of_mem _ he))⟩
      rw [predecessorFrom]
      cases hcmp : cmp key k with
      | eq => exact absurd hcmp hk
      | lt => exact ihl hl _ (find_eq_none hleft)
      | gt => exact ihr hr _ (find_eq_none hright)

end FTreeSortedDictionary

theorem FArraySortedDictionary.getPredecessorKey_of_some {entries : List (κ × α)} {key : κ}
    {pos : Nat} (hsorted : Sorted cmp entries) (h : findKey cmp key entries = some pos) :
    getPredecessorKey cmp entries key = some (lastBelow cmp key entries) := by
  obtain ⟨before, entry, after, rfl, rfl, heq, -⟩ := findKey_eq_some h
  obtain ⟨-, -, hlt, hgt⟩ := sorted_append_cons.mp hsorted
  rw [lastBelow_of_eq hlt hgt heq, getPredecessorKey, h, Option.map_some]
  cases before using List.reverseRecOn with
  | nil => rfl
  | append_singleton before last => simp

namespace FImmutableSortedDictionary

variable {d other : FImmutableSortedDictionary κ α}

theorem getPredecessorKey_of_absent {key : κ} (h : d.Sound cmp)
    (hfind : find cmp key d.entries = none) : d.getPredecessorKey cmp key = none := by
  cases d with
  | tree root => exact FTreeSortedDictionary.predecessorFrom_of_absent h.sorted none hfind
  | array entries =>
      cases hkey : FArraySortedDictionary.findKey cmp key entries with
      | none => simp [getPredecessorKey, FArraySortedDictionary.getPredecessorKey, hkey]
      | some pos =>
          obtain ⟨before, entry, after, rfl, -, heq, -⟩ :=
            FArraySortedDictionary.findKey_eq_some hkey
          refine absurd heq (find_eq_none_iff.mp hfind entry ?_)
          exact List.mem_append_right _ List.mem_cons_self

theorem getPredecessorKey_of_find {key : κ} (h : d.Sound cmp)
    (hfind : find cmp key d.entries ≠ none) :
    d.getPredecessorKey cmp key = some (lastBelow cmp key d.entries) := by
  cases d with
  | tree root =>
      refine (FTreeSortedDictionary.predecessorFrom_of_find h.sorted none hfind).trans ?_
      simp [entries]
  | array entries =>
      cases hkey : FArraySortedDictionary.findKey cmp key entries with
      | none =>
          exact absurd (find_eq_none (FArraySortedDictionary.findKey_eq_none h.sorted hkey)) hfind
      | some pos => exact FArraySortedDictionary.getPredecessorKey_of_some h.sorted hkey

/-- **The key before.** Of an absent key it is an exception, and of a
present one the greatest key below it, if there is one; in an array and in a
tree. -/
theorem getPredecessorKey_spec [DecidableEq κ] (h : Reachable cmp d) (key : κ) :
    d.getPredecessorKey cmp key =
      if (d.get cmp key).isSome then some (lastBelow cmp key d.entries) else none := by
  rw [get_eq_find h.sound]
  cases hfind : find cmp key d.entries with
  | none => exact getPredecessorKey_of_absent h.sound hfind
  | some value => exact getPredecessorKey_of_find h.sound (by simp [hfind])

theorem reachable_numbers : Reachable compare (array [(1, "a"), (2, "b")]) := by
  refine ⟨[], array [], [.insertKey 2 "b", .insertKey 1 "a"], ?_, by decide⟩
  simp [fromDictionary, FArraySortedDictionary.fromDictionary, sortedKeyList, arrange]

theorem getPredecessorKey_spec_numbers :
    (array [(1, "a"), (2, "b")]).getPredecessorKey compare 2 = some (some 1) ∧
      (array [(1, "a"), (2, "b")]).getPredecessorKey compare 3 = none :=
  ⟨(getPredecessorKey_spec reachable_numbers 2).trans (by decide),
    (getPredecessorKey_spec reachable_numbers 3).trans (by decide)⟩

/-! ## Equality -/

/-- **Equality.** Whatever the two are stored in, they are equal if and only
if every lookup comes out the same. -/
theorem isEqual_iff [DecidableEq κ] [DecidableEq α] (h : Reachable cmp d)
    (h' : Reachable cmp other) :
    d.isEqual cmp other = true ↔ ∀ key, d.get cmp key = other.get cmp key := by
  simp only [get_eq_find h.sound, get_eq_find h'.sound]
  rw [find_ext_iff h.sound.sorted.distinct h'.sound.sorted.distinct, isEqual, count_eq, count_eq]
  by_cases hcount : d.entries.length = other.entries.length
  · simp [hcount, get_eq_find h'.sound]
  · simp [hcount]

theorem isEqual_iff_numbers :
    (array [(1, "a"), (2, "b")]).isEqual compare (array [(1, "a"), (2, "b")]) = true :=
  (isEqual_iff reachable_numbers reachable_numbers).mpr fun _ => rfl

end FImmutableSortedDictionary

end VkClient
