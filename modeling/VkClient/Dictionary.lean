import Mathlib.Data.List.Nodup
import Mathlib.Logic.Function.Basic

/-!
# Dictionaries built by assignments

A dictionary is a partial function on its keys, and `d[key] = value` is
`Function.update`. A list of pairs assigned one by one to the empty
dictionary gives every key the value of its last pair
(`ofPairs_eq_some_iff`), so the order of the pairs counts only where a key
occurs twice (`ofPairs_perm`).
-/

namespace VkClient

namespace Dictionary

variable {κ α : Type*} [DecidableEq κ]

/-- The assignments, from left to right. -/
def assign (d : κ → Option α) (pairs : List (κ × α)) : κ → Option α :=
  pairs.foldl (fun d pair => Function.update d pair.1 (some pair.2)) d

def ofPairs (pairs : List (κ × α)) : κ → Option α := assign (fun _ => none) pairs

theorem assign_of_not_mem {pairs : List (κ × α)} {key : κ} (h : key ∉ pairs.map Prod.fst)
    (d : κ → Option α) : assign d pairs key = d key := by
  induction pairs generalizing d with
  | nil => rfl
  | cons pair pairs ih =>
      obtain ⟨hne, hrest⟩ := List.ne_and_not_mem_of_not_mem_cons h
      exact (ih hrest _).trans (Function.update_of_ne hne ..)

theorem ofPairs_of_last (before : List (κ × α)) {after : List (κ × α)} {key : κ} (value : α)
    (h : key ∉ after.map Prod.fst) : ofPairs (before ++ (key, value) :: after) key = some value := by
  rw [ofPairs, assign, List.foldl_append, List.foldl_cons]
  exact (assign_of_not_mem h _).trans (Function.update_self ..)

theorem exists_last {pairs : List (κ × α)} {key : κ} (h : key ∈ pairs.map Prod.fst) :
    ∃ before value after, pairs = before ++ (key, value) :: after ∧ key ∉ after.map Prod.fst := by
  induction pairs with
  | nil => exact absurd h List.not_mem_nil
  | cons pair pairs ih =>
      by_cases hrest : key ∈ pairs.map Prod.fst
      · obtain ⟨before, value, after, rfl, hlast⟩ := ih hrest
        exact ⟨pair :: before, value, after, rfl, hlast⟩
      · obtain rfl := (List.mem_cons.mp h).resolve_right hrest
        exact ⟨[], pair.2, pairs, rfl, hrest⟩

theorem isSome_ofPairs_iff {pairs : List (κ × α)} {key : κ} :
    (ofPairs pairs key).isSome = true ↔ key ∈ pairs.map Prod.fst := by
  by_cases h : key ∈ pairs.map Prod.fst
  · obtain ⟨before, value, after, rfl, hlast⟩ := exists_last h
    rw [ofPairs_of_last before value hlast]
    exact iff_of_true rfl h
  · rw [ofPairs, assign_of_not_mem h]
    exact iff_of_false Bool.false_ne_true h

/-- Every key has the value of its last pair. -/
theorem ofPairs_eq_some_iff {pairs : List (κ × α)} {key : κ} {value : α} :
    ofPairs pairs key = some value ↔
      ∃ before after, pairs = before ++ (key, value) :: after ∧ key ∉ after.map Prod.fst := by
  constructor
  · intro h
    have hkey := isSome_ofPairs_iff.mp (Option.isSome_of_eq_some h)
    obtain ⟨before, last, after, rfl, hlast⟩ := exists_last hkey
    obtain rfl := Option.some.inj ((ofPairs_of_last before last hlast).symm.trans h)
    exact ⟨before, after, rfl, hlast⟩
  · rintro ⟨before, after, rfl, hlast⟩
    exact ofPairs_of_last before value hlast

/-- Without repeated keys the pairs of the dictionary are those of the list. -/
theorem ofPairs_eq_some_iff_mem {pairs : List (κ × α)} (h : (pairs.map Prod.fst).Nodup)
    {key : κ} {value : α} : ofPairs pairs key = some value ↔ (key, value) ∈ pairs := by
  rw [ofPairs_eq_some_iff]
  constructor
  · rintro ⟨before, after, rfl, -⟩
    simp
  · intro hmem
    obtain ⟨before, after, rfl⟩ := List.append_of_mem hmem
    refine ⟨before, after, rfl, ?_⟩
    rw [List.map_append, List.map_cons] at h
    exact (List.nodup_cons.mp (List.nodup_append.mp h).2.1).1

theorem ofPairs_perm {pairs pairs' : List (κ × α)} (h : (pairs.map Prod.fst).Nodup)
    (hperm : pairs'.Perm pairs) : ofPairs pairs' = ofPairs pairs := by
  have h' : (pairs'.map Prod.fst).Nodup := (hperm.map Prod.fst).nodup_iff.mpr h
  funext key
  refine Option.ext fun value => ?_
  rw [ofPairs_eq_some_iff_mem h', ofPairs_eq_some_iff_mem h, hperm.mem_iff]

end Dictionary

end VkClient
