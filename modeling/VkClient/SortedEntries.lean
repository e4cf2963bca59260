import Mathlib.Data.List.Sort
import Mathlib.Data.Option.Basic

/-!
# Entries in the order of a comparator

A dictionary whose keys are ordered by a comparator is, whatever it is
stored in, a list of entries with increasing keys. This is the theory of
such lists: looking a key up, putting an entry in its place, taking the
entry of a key out.

The comparator may call two different keys the same, so an entry put in the
place of another one may keep the old key or bring its own; `insertWith`
leaves the choice open. The split rules (`insertWith_append_of_lt` and its
companions) say which side of an entry an operation goes to, and are what a
search tree's operations are compared with.

Entries in any order have an increasing arrangement if and only if no two of
them are the same to the comparator; it is then the only one, `arrange`.
-/

namespace VkClient

namespace SortedEntries

variable {κ α : Type*} (cmp : κ → κ → Ordering)

/-- The keys increase strictly. -/
abbrev Sorted (entries : List (κ × α)) : Prop :=
  entries.Pairwise fun a b => cmp a.1 b.1 = .lt

def find (key : κ) (entries : List (κ × α)) : Option α :=
  (entries.find? fun entry => cmp key entry.1 == .eq).map Prod.snd

/-- Put the value in the place of the key; where an entry has that place
already, `pick` makes the new key of the old one and the given one. -/
def insertWith (pick : κ → κ → κ) (key : κ) (value : α) : List (κ × α) → List (κ × α)
  | [] => [(key, value)]
  | entry :: entries =>
      match cmp key entry.1 with
      | .lt => (key, value) :: entry :: entries
      | .eq => (pick entry.1 key, value) :: entries
      | .gt => entry :: insertWith pick key value entries

def erase (key : κ) (entries : List (κ × α)) : List (κ × α) :=
  entries.filter fun entry => cmp key entry.1 != .eq

/-- No two entries are the same to the comparator. -/
abbrev Distinct (entries : List (κ × α)) : Prop :=
  entries.Pairwise fun a b => cmp a.1 b.1 ≠ .eq

def arrange (entries : List (κ × α)) : List (κ × α) :=
  entries.mergeSort fun a b => (cmp a.1 b.1).isLE

variable {cmp} {pick : κ → κ → κ} {key key' : κ} {value : α} {entry : κ × α}
  {entries before after : List (κ × α)}

/-! ## One side of an entry -/

theorem insertWith_append_of_lt (h : cmp key entry.1 = .lt) :
    insertWith cmp pick key value (before ++ entry :: after) =
      insertWith cmp pick key value before ++ entry :: after := by
  induction before with
  | nil => simp [insertWith, h]
  | cons first before ih =>
      rw [List.cons_append, insertWith, insertWith]
      cases cmp key first.1 with
      | lt => rfl
      | eq => rfl
      | gt => exact congrArg _ ih

theorem insertWith_append_of_gt (h : ∀ e ∈ before, cmp key e.1 = .gt) :
    insertWith cmp pick key value (before ++ after) =
      before ++ insertWith cmp pick key value after := by
  induction before with
  | nil => rfl
  | cons first before ih =>
      obtain ⟨hfirst, hrest⟩ := List.forall_mem_cons.mp h
      rw [List.cons_append, insertWith, hfirst]
      exact congrArg _ (ih hrest)

theorem find_append : find cmp key (before ++ after) =
    (find cmp key before).or (find cmp key after) := by
  rw [find, find, find, List.find?_append, Option.map_or]

theorem find_cons_of_eq (h : cmp key entry.1 = .eq) :
    find cmp key (entry :: entries) = some entry.2 := by
  simp [find, h]

theorem find_cons_of_ne (h : cmp key entry.1 ≠ .eq) :
    find cmp key (entry :: entries) = find cmp key entries := by
  simp [find, h]

theorem find_eq_none_iff : find cmp key entries = none ↔ ∀ e ∈ entries, cmp key e.1 ≠ .eq := by
  simp [find]

theorem find_eq_none (h : ∀ e ∈ entries, cmp key e.1 ≠ .eq) : find cmp key entries = none :=
  find_eq_none_iff.mpr h

theorem find_append_of_gt (h : ∀ e ∈ before, cmp key e.1 = .gt) :
    find cmp key (before ++ after) = find cmp key after := by
  have hnone : find cmp key before = none := find_eq_none fun e he => by simp [h e he]
  rw [find_append, hnone, Option.none_or]

theorem find_append_of_lt (h : ∀ e ∈ after, cmp key e.1 = .lt) :
    find cmp key (before ++ after) = find cmp key before := by
  have hnone : find cmp key after = none := find_eq_none fun e he => by simp [h e he]
  rw [find_append, hnone, Option.or_none]

theorem erase_append : erase cmp key (before ++ after) =
    erase cmp key before ++ erase cmp key after :=
  List.filter_append ..

theorem erase_eq_self (h : ∀ e ∈ entries, cmp key e.1 ≠ .eq) : erase cmp key entries = entries :=
  List.filter_eq_self.mpr fun e he => by simpa using h e he

theorem erase_cons_of_eq (h : cmp key entry.1 = .eq) :
    erase cmp key (entry :: entries) = erase cmp key entries := by
  simp [erase, h]

theorem erase_cons_of_ne (h : cmp key entry.1 ≠ .eq) :
    erase cmp key (entry :: entries) = entry :: erase cmp key entries := by
  simp [erase, h]

theorem length_erase_lt (h : find cmp key entries ≠ none) :
    (erase cmp key entries).length < entries.length := by
  refine Nat.lt_of_le_of_ne (List.length_filter_le ..) fun heq => h (find_eq_none fun e he => ?_)
  have hkept := List.length_filter_eq_length_iff.mp heq e he
  simpa using hkept

/-! ## Sorted entries -/

theorem mem_insertWith {e : κ × α} (h : e ∈ insertWith cmp pick key value entries) :
    e ∈ entries ∨ e.1 = key ∨ ∃ e' ∈ entries, cmp key e'.1 = .eq ∧ e.1 = pick e'.1 key := by
  induction entries with
  | nil =>
      obtain rfl := List.mem_singleton.mp h
      exact .inr (.inl rfl)
  | cons entry entries ih =>
      rw [insertWith] at h
      cases hcmp : cmp key entry.1 with
      | lt =>
          rw [hcmp] at h
          rcases List.mem_cons.mp h with rfl | h
          · exact .inr (.inl rfl)
          · exact .inl h
      | eq =>
          rw [hcmp] at h
          rcases List.mem_cons.mp h with rfl | h
          · exact .inr (.inr ⟨entry, List.mem_cons_self, hcmp, rfl⟩)
          · exact .inl (List.mem_cons_of_mem _ h)
      | gt =>
          rw [hcmp] at h
          rcases List.mem_cons.mp h with rfl | h
          · exact .inl List.mem_cons_self
          · rcases ih h with h | h | ⟨e', he', heq⟩
            · exact .inl (List.mem_cons_of_mem _ h)
            · exact .inr (.inl h)
            · exact .inr (.inr ⟨e', List.mem_cons_of_mem _ he', heq⟩)

theorem insertWith_perm (h : ∀ e ∈ entries, cmp key e.1 ≠ .eq) :
    (insertWith cmp pick key value entries).Perm ((key, value) :: entries) := by
  induction entries with
  | nil => exact .refl _
  | cons entry entries ih =>
      obtain ⟨hentry, hrest⟩ := List.forall_mem_cons.mp h
      rw [insertWith]
      cases hcmp : cmp key entry.1 with
      | lt => exact .refl _
      | eq => exact absurd hcmp hentry
      | gt => exact ((ih hrest).cons entry).trans (.swap ..)

theorem Sorted.distinct (h : Sorted cmp entries) : Distinct cmp entries :=
  h.imp fun hlt => by simp [hlt]

theorem sorted_erase (hsorted : Sorted cmp entries) : Sorted cmp (erase cmp key entries) :=
  hsorted.sublist List.filter_sublist

section Order

variable [Std.TransCmp cmp]

theorem sorted_append_cons :
    Sorted cmp (before ++ entry :: after) ↔
      Sorted cmp before ∧ Sorted cmp after ∧ (∀ e ∈ before, cmp e.1 entry.1 = .lt) ∧
        ∀ e ∈ after, cmp entry.1 e.1 = .lt := by
  simp only [List.pairwise_append, List.pairwise_cons, List.forall_mem_cons]
  constructor
  · rintro ⟨hbefore, ⟨hentry, hafter⟩, hacross⟩
    exact ⟨hbefore, hafter, fun e he => (hacross e he).1, hentry⟩
  · rintro ⟨hbefore, hafter, hlt, hentry⟩
    refine ⟨hbefore, ⟨hentry, hafter⟩, fun e he => ⟨hlt e he, fun e' he' => ?_⟩⟩
    exact Std.TransCmp.lt_trans (hlt e he) (hentry e' he')

/-- What is not below the entry is above everything before it. -/
theorem gt_of_mem_before (hbefore : ∀ e ∈ before, cmp e.1 entry.1 = .lt)
    (h : cmp key entry.1 ≠ .lt) : ∀ e ∈ before, cmp key e.1 = .gt := by
  intro e he
  refine Std.OrientedCmp.gt_of_lt ?_
  refine Std.TransCmp.lt_of_lt_of_isLE (hbefore e he) ?_
  refine Std.OrientedCmp.isLE_of_isGE ?_
  cases hcmp : cmp key entry.1 with
  | lt => exact absurd hcmp h
  | eq => rfl
  | gt => rfl

/-- What is not above the entry is below everything after it. -/
theorem lt_of_mem_after (hafter : ∀ e ∈ after, cmp entry.1 e.1 = .lt)
    (h : cmp key entry.1 ≠ .gt) : ∀ e ∈ after, cmp key e.1 = .lt := by
  intro e he
  refine Std.TransCmp.lt_of_isLE_of_lt ?_ (hafter e he)
  cases hcmp : cmp key entry.1 with
  | lt => rfl
  | eq => rfl
  | gt => exact absurd hcmp h

theorem sorted_insertWith (hpick : ∀ old new, cmp new old = .eq → cmp (pick old new) old = .eq)
    (hsorted : Sorted cmp entries) : Sorted cmp (insertWith cmp pick key value entries) := by
  induction entries with
  | nil => exact List.pairwise_singleton ..
  | cons entry entries ih =>
      obtain ⟨hentry, hrest⟩ := List.pairwise_cons.mp hsorted
      rw [insertWith]
      cases hcmp : cmp key entry.1 with
      | lt =>
          refine List.pairwise_cons.mpr ⟨List.forall_mem_cons.mpr ⟨hcmp, ?_⟩, hsorted⟩
          exact fun e he => Std.TransCmp.lt_trans hcmp (hentry e he)
      | eq =>
          refine List.pairwise_cons.mpr ⟨fun e he => ?_, hrest⟩
          exact Std.TransCmp.lt_of_eq_of_lt (hpick _ _ hcmp) (hentry e he)
      | gt =>
          refine List.pairwise_cons.mpr ⟨fun e he => ?_, ih hrest⟩
          have hkey := Std.OrientedCmp.lt_of_gt hcmp
          rcases mem_insertWith he with he | he | ⟨e', he', heq, hpicked⟩
          · exact hentry e he
          · rw [he]
            exact hkey
          · rw [hpicked]
            refine Std.TransCmp.lt_of_lt_of_eq (hentry e' he') ?_
            exact Std.OrientedCmp.eq_symm (hpick _ _ heq)

/-! ## Looking up after an operation -/

theorem find_insertWith (hpick : ∀ old new, cmp new old = .eq → cmp (pick old new) old = .eq) :
    find cmp key' (insertWith cmp pick key value entries) =
      if cmp key' key = .eq then some value else find cmp key' entries := by
  induction entries with
  | nil =>
      by_cases h : cmp key' key = .eq
      · rw [insertWith, find_cons_of_eq h, if_pos h]
      · rw [insertWith, find_cons_of_ne h, if_neg h]
  | cons entry entries ih =>
      rw [insertWith]
      cases hcmp : cmp key entry.1 with
      | lt =>
          by_cases h : cmp key' key = .eq
          · exact (find_cons_of_eq h).trans (if_pos h).symm
          · exact (find_cons_of_ne h).trans (if_neg h).symm
      | eq =>
          have hpicked : cmp (pick entry.1 key) key = .eq :=
            Std.TransCmp.eq_trans (hpick _ _ hcmp) (Std.OrientedCmp.eq_symm hcmp)
          by_cases h : cmp key' key = .eq
          · rw [if_pos h]
            refine find_cons_of_eq (Std.TransCmp.eq_trans h ?_)
            exact Std.OrientedCmp.eq_symm hpicked
          · have hentry : cmp key' entry.1 ≠ .eq := fun he =>
              h (Std.TransCmp.eq_trans he (Std.OrientedCmp.eq_symm hcmp))
            rw [if_neg h, find_cons_of_ne hentry]
            exact find_cons_of_ne fun he => h (Std.TransCmp.eq_trans he hpicked)
      | gt =>
          by_cases hentry : cmp key' entry.1 = .eq
          · have h : cmp key' key ≠ .eq := fun h => by
              have hkey := Std.TransCmp.eq_trans (Std.OrientedCmp.eq_symm h) hentry
              rw [hcmp] at hkey
              cases hkey
            rw [if_neg h]
            exact (find_cons_of_eq hentry).trans (find_cons_of_eq hentry).symm
          · exact (find_cons_of_ne hentry).trans
              (ih.trans (by rw [find_cons_of_ne hentry]))

theorem find_erase : find cmp key' (erase cmp key entries) =
    if cmp key' key = .eq then none else find cmp key' entries := by
  induction entries with
  | nil => cases cmp key' key <;> rfl
  | cons entry entries ih =>
      by_cases hkey : cmp key entry.1 = .eq
      · rw [erase_cons_of_eq hkey, ih]
        by_cases h : cmp key' key = .eq
        · rw [if_pos h, if_pos h]
        · have hentry : cmp key' entry.1 ≠ .eq := fun he =>
            h (Std.TransCmp.eq_trans he (Std.OrientedCmp.eq_symm hkey))
          rw [if_neg h, if_neg h, find_cons_of_ne hentry]
      · rw [erase_cons_of_ne hkey]
        by_cases hentry : cmp key' entry.1 = .eq
        · have h : cmp key' key ≠ .eq := fun h =>
            hkey (Std.TransCmp.eq_trans (Std.OrientedCmp.eq_symm h) hentry)
          rw [if_neg h, find_cons_of_eq hentry, find_cons_of_eq hentry]
        · rw [find_cons_of_ne hentry, find_cons_of_ne hentry, ih]

/-! ## Entries in any order -/

theorem Distinct.perm {entries' : List (κ × α)} (h : Distinct cmp entries)
    (hperm : entries.Perm entries') : Distinct cmp entries' :=
  (hperm.pairwise_iff fun hne heq => hne (Std.OrientedCmp.eq_symm heq)).mp h

theorem find_eq_some_iff (h : Distinct cmp entries) :
    find cmp key entries = some value ↔ ∃ e ∈ entries, cmp key e.1 = .eq ∧ e.2 = value := by
  induction entries with
  | nil => simp [find]
  | cons entry entries ih =>
      obtain ⟨hentry, hrest⟩ := List.pairwise_cons.mp h
      rw [List.exists_mem_cons_iff]
      by_cases hcmp : cmp key entry.1 = .eq
      · rw [find_cons_of_eq hcmp, Option.some.injEq]
        constructor
        · rintro rfl
          exact .inl ⟨hcmp, rfl⟩
        · rintro (⟨-, rfl⟩ | ⟨e, he, heq, -⟩)
          · rfl
          · exact absurd (Std.TransCmp.eq_trans (Std.OrientedCmp.eq_symm hcmp) heq) (hentry e he)
      · rw [find_cons_of_ne hcmp, ih hrest]
        exact ⟨.inr, fun h => h.resolve_left fun h => hcmp h.1⟩

theorem find_perm {entries' : List (κ × α)} (h : Distinct cmp entries)
    (hperm : entries.Perm entries') : find cmp key entries' = find cmp key entries := by
  refine Option.ext fun value => ?_
  rw [find_eq_some_iff h, find_eq_some_iff (h.perm hperm)]
  exact exists_congr fun e => and_congr_left fun _ => hperm.mem_iff.symm

theorem find_of_mem (h : Distinct cmp entries) (hmem : entry ∈ entries) :
    find cmp entry.1 entries = some entry.2 :=
  (find_eq_some_iff h).mpr ⟨entry, hmem, Std.ReflCmp.compare_self, rfl⟩

theorem find_congr (h : cmp key key' = .eq) : find cmp key entries = find cmp key' entries := by
  have hsame : ∀ e : κ × α, (cmp key e.1 == .eq) = (cmp key' e.1 == .eq) := by
    intro e
    rw [Std.TransCmp.congr_left h]
  rw [find, find, funext hsame]

/-- Entries that are all found in others are no more than these. -/
theorem length_le_of_found {entries' : List (κ × α)} (hdistinct : Distinct cmp entries)
    (h : ∀ e ∈ entries, find cmp e.1 entries' ≠ none) : entries.length ≤ entries'.length := by
  induction entries generalizing entries' with
  | nil => exact Nat.zero_le _
  | cons entry entries ih =>
      obtain ⟨hentry, hrest⟩ := List.pairwise_cons.mp hdistinct
      obtain ⟨hfound, hothers⟩ := List.forall_mem_cons.mp h
      have hstill : ∀ e ∈ entries, find cmp e.1 (erase cmp entry.1 entries') ≠ none := by
        intro e he
        have hne : cmp e.1 entry.1 ≠ .eq := fun heq => hentry e he (Std.OrientedCmp.eq_symm heq)
        rw [find_erase, if_neg hne]
        exact hothers e he
      exact (Nat.succ_le_succ (ih hrest hstill)).trans (length_erase_lt hfound)

/-- Entries agree on every key when there are as many of them and the others
have all of them. -/
theorem find_ext_iff {entries' : List (κ × α)} (h : Distinct cmp entries)
    (h' : Distinct cmp entries') :
    (∀ key, find cmp key entries = find cmp key entries') ↔
      entries.length = entries'.length ∧ ∀ e ∈ entries, find cmp e.1 entries' = some e.2 := by
  constructor
  · intro heq
    have hfound : ∀ e ∈ entries, find cmp e.1 entries' = some e.2 := fun e he =>
      (heq e.1).symm.trans (find_of_mem h he)
    have hfound' : ∀ e ∈ entries', find cmp e.1 entries = some e.2 := fun e he =>
      (heq e.1).trans (find_of_mem h' he)
    refine ⟨Nat.le_antisymm (length_le_of_found h fun e he => ?_)
      (length_le_of_found h' fun e he => ?_), hfound⟩
    · simp [hfound e he]
    · simp [hfound' e he]
  · rintro ⟨hlength, hfound⟩ key
    cases hfind : find cmp key entries with
    | some value =>
        obtain ⟨e, he, heq, rfl⟩ := (find_eq_some_iff h).mp hfind
        rw [find_congr heq]
        exact (hfound e he).symm
    | none =>
        -- a key that only the others have would leave them too few entries
        by_contra hother
        have hfits : entries.length ≤ (erase cmp key entries').length := by
          refine length_le_of_found h fun e he => ?_
          have hne : cmp e.1 key ≠ .eq := fun heq =>
            find_eq_none_iff.mp hfind e he (Std.OrientedCmp.eq_symm heq)
          rw [find_erase, if_neg hne, hfound e he]
          exact Option.some_ne_none _
        have hfewer := length_erase_lt (Ne.symm hother)
        omega

/-- The entries in order, where there is an order of them. -/
theorem sorted_arrange (h : Distinct cmp entries) : Sorted cmp (arrange cmp entries) := by
  have htotal : ∀ a b : κ × α, ((cmp a.1 b.1).isLE || (cmp b.1 a.1).isLE) = true := by
    intro a b
    have hswap : cmp b.1 a.1 = (cmp a.1 b.1).swap := Std.OrientedCmp.eq_swap
    rw [hswap]
    cases cmp a.1 b.1 <;> rfl
  have harranged : (arrange cmp entries).Pairwise fun a b => (cmp a.1 b.1).isLE = true :=
    List.pairwise_mergeSort (fun _ _ _ => Std.TransCmp.isLE_trans) htotal entries
  have hdistinct : Distinct cmp (arrange cmp entries) := h.perm (List.mergeSort_perm ..).symm
  refine (harranged.and hdistinct).imp fun {a b} => ?_
  rintro ⟨hle, hne⟩
  cases hcmp : cmp a.1 b.1 with
  | lt => rfl
  | eq => exact absurd hcmp hne
  | gt => simp [hcmp] at hle

theorem sorted_arrange_iff : Sorted cmp (arrange cmp entries) ↔ Distinct cmp entries :=
  ⟨fun h => h.distinct.perm (List.mergeSort_perm ..), sorted_arrange⟩

/-- There is one increasing arrangement at most. -/
theorem eq_of_sorted_of_perm {entries' : List (κ × α)} (h : Sorted cmp entries)
    (h' : Sorted cmp entries') (hperm : entries.Perm entries') : entries = entries' := by
  refine List.Perm.eq_of_pairwise (fun a b _ _ hab hba => ?_) h h' hperm
  rw [Std.OrientedCmp.gt_of_lt hba] at hab
  cases hab

theorem arrange_perm {entries' : List (κ × α)} (h : Distinct cmp entries)
    (hperm : entries.Perm entries') : arrange cmp entries' = arrange cmp entries := by
  refine eq_of_sorted_of_perm (sorted_arrange (h.perm hperm)) (sorted_arrange h) ?_
  exact (List.mergeSort_perm ..).trans (hperm.symm.trans (List.mergeSort_perm ..).symm)

/-! ## A comparator that tells keys apart -/

/-- The entry of a key, in the place of an older one. -/
abbrev insert (cmp : κ → κ → Ordering) (key : κ) (value : α) (entries : List (κ × α)) :
    List (κ × α) :=
  insertWith cmp (fun _ new => new) key value entries

theorem sorted_insert (h : Sorted cmp entries) : Sorted cmp (insert cmp key value entries) :=
  sorted_insertWith (fun _ _ heq => heq) h

omit [Std.TransCmp cmp] in
theorem mem_insert {e : κ × α} (h : e ∈ insert cmp key value entries) :
    e = (key, value) ∨ e ∈ entries := by
  induction entries with
  | nil => exact .inl (List.mem_singleton.mp h)
  | cons entry entries ih =>
      rw [insert, insertWith] at h
      cases hcmp : cmp key entry.1 with
      | lt =>
          rw [hcmp] at h
          exact List.mem_cons.mp h
      | eq =>
          rw [hcmp] at h
          exact (List.mem_cons.mp h).imp_right (List.mem_cons_of_mem _)
      | gt =>
          rw [hcmp] at h
          rcases List.mem_cons.mp h with rfl | h
          · exact .inr List.mem_cons_self
          · exact (ih h).imp_right (List.mem_cons_of_mem _)

omit [Std.TransCmp cmp] in
theorem insert_ne_nil : insert cmp key value entries ≠ [] := by
  cases entries with
  | nil => exact List.cons_ne_nil _ _
  | cons entry entries =>
      rw [insert, insertWith]
      cases cmp key entry.1 <;> exact List.cons_ne_nil _ _

variable [Std.LawfulEqCmp cmp]

theorem find_insert [DecidableEq κ] : find cmp key' (insert cmp key value entries) =
    if key' = key then some value else find cmp key' entries := by
  rw [insert, find_insertWith fun _ _ heq => heq]
  simp only [Std.LawfulEqCmp.compare_eq_iff_eq]

theorem find_erase_key [DecidableEq κ] : find cmp key' (erase cmp key entries) =
    if key' = key then none else find cmp key' entries := by
  rw [find_erase]
  simp only [Std.LawfulEqCmp.compare_eq_iff_eq]

theorem find_eq_some_iff_mem (h : Sorted cmp entries) :
    find cmp key entries = some value ↔ (key, value) ∈ entries := by
  rw [find_eq_some_iff h.distinct]
  constructor
  · rintro ⟨e, he, heq, rfl⟩
    rw [Std.LawfulEqCmp.eq_of_compare heq]
    exact he
  · intro hmem
    exact ⟨_, hmem, Std.ReflCmp.compare_self, rfl⟩

end Order

end SortedEntries

end VkClient
