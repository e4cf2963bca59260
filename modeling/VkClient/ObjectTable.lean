import Mathlib.Data.List.Nodup
import Mathlib.Data.List.Perm.Basic

/-!
# Tables of managed objects

An object store keeps the objects of one type in a table of rows. A row has
an identity, its `key`, which outlives no deletion: keys are handed out in
increasing order and never again, so a handle on a deleted row stays dead
however the table grows afterwards. `Table` carries that discipline in its
fields, and every operation below preserves it by construction.

Deleting one row moves the last row into its place, so the order of the
rows is the store's business; what the operations promise is the rows they
leave (`mem_delete`, `rows_replaceAll`).
-/

namespace VkClient

structure Row (α : Type*) where
  key : Nat
  val : α
deriving DecidableEq, Repr

/-- The rows of one object type, under keys already handed out. -/
structure Table (α : Type*) where
  rows : List (Row α)
  nextKey : Nat
  key_lt : ∀ r ∈ rows, r.key < nextKey
  nodup : (rows.map Row.key).Nodup
deriving DecidableEq

/-! ## Rows under fresh keys -/

def freshRows {α : Type*} (k : Nat) : List α → List (Row α)
  | [] => []
  | x :: xs => ⟨k, x⟩ :: freshRows (k + 1) xs

section Fresh

variable {α : Type*}

@[simp] theorem map_val_freshRows (k : Nat) (xs : List α) :
    (freshRows k xs).map Row.val = xs := by
  induction xs generalizing k with
  | nil => rfl
  | cons x xs ih => simp [freshRows, ih]

@[simp] theorem length_freshRows (k : Nat) (xs : List α) :
    (freshRows k xs).length = xs.length := by
  induction xs generalizing k with
  | nil => rfl
  | cons x xs ih => simp [freshRows, ih]

theorem key_of_mem_freshRows {k : Nat} {xs : List α} {r : Row α} (hr : r ∈ freshRows k xs) :
    k ≤ r.key ∧ r.key < k + xs.length := by
  induction xs generalizing k with
  | nil => exact absurd hr List.not_mem_nil
  | cons x xs ih =>
      rw [List.length_cons]
      rcases List.mem_cons.mp hr with rfl | hr
      · show k ≤ k ∧ k < k + (xs.length + 1)
        omega
      · have hkey := ih hr
        omega

theorem nodup_freshRows (k : Nat) (xs : List α) : ((freshRows k xs).map Row.key).Nodup := by
  induction xs generalizing k with
  | nil => exact List.nodup_nil
  | cons x xs ih =>
      refine List.nodup_cons.mpr ⟨fun hk => ?_, ih (k + 1)⟩
      rcases List.mem_map.mp hk with ⟨r, hr, hrk⟩
      have hkey := (key_of_mem_freshRows hr).1
      have hrk' : r.key = k := hrk
      omega

end Fresh

/-! ## Removing by moving the last row over -/

/-- Remove the first element `p` holds of, putting the last one in its place. -/
def moveLastOver {α : Type*} (p : α → Bool) : List α → List α
  | [] => []
  | x :: xs =>
      if p x then
        match xs.getLast? with
        | none => []
        | some l => l :: xs.dropLast
      else x :: moveLastOver p xs

theorem moveLastOver_perm {α : Type*} (p : α → Bool) (xs : List α) :
    (moveLastOver p xs).Perm (xs.eraseP p) := by
  induction xs with
  | nil => exact .refl _
  | cons x xs ih =>
      by_cases hx : p x
      · rw [moveLastOver, if_pos hx, List.eraseP_cons_of_pos hx]
        cases hlast : xs.getLast? with
        | none =>
            obtain rfl := List.getLast?_eq_none_iff.mp hlast
            exact .refl _
        | some l =>
            have hsplit : xs = xs.dropLast ++ [l] := (List.dropLast_append_getLast? l hlast).symm
            calc
              (l :: xs.dropLast).Perm (xs.dropLast ++ [l]) := (List.perm_append_singleton ..).symm
              _ = xs := hsplit.symm
      · rw [moveLastOver, if_neg hx, List.eraseP_cons_of_neg hx]
        exact ih.cons x

namespace Table

variable {α : Type*}

def empty : Table α := ⟨[], 0, by simp, by simp⟩

def values (t : Table α) : List α := t.rows.map Row.val

/-- A handle on the row `k` can still be read. -/
def Live (t : Table α) (k : Nat) : Prop := k ∈ t.rows.map Row.key

instance (t : Table α) (k : Nat) : Decidable (t.Live k) :=
  inferInstanceAs (Decidable (k ∈ t.rows.map Row.key))

def read (t : Table α) (k : Nat) : Option α :=
  (t.rows.find? fun r => r.key == k).map Row.val

/-- Store `xs` in place of everything the table held. -/
def replaceAll (t : Table α) (xs : List α) : Table α where
  rows := freshRows t.nextKey xs
  nextKey := t.nextKey + xs.length
  key_lt _ hr := (key_of_mem_freshRows hr).2
  nodup := nodup_freshRows _ _

/-- Delete the row behind a handle. A row that another commit has taken away
is passed over; for an object that was deleted through this very handle
`RLMDeleteObjectFromRealm` raises, and the table is left as it is. -/
def delete (t : Table α) (k : Nat) : Table α where
  rows := moveLastOver (fun r => r.key == k) t.rows
  nextKey := t.nextKey
  key_lt _ hr :=
    t.key_lt _ (List.mem_of_mem_eraseP ((moveLastOver_perm _ _).mem_iff.mp hr))
  nodup :=
    (((moveLastOver_perm _ _).map Row.key).nodup_iff).mpr
      ((List.eraseP_sublist.map Row.key).nodup t.nodup)

theorem eq_of_key {t : Table α} {r r' : Row α} (hr : r ∈ t.rows) (hr' : r' ∈ t.rows)
    (hkey : r.key = r'.key) : r = r' :=
  List.inj_on_of_nodup_map t.nodup hr hr' hkey

theorem read_isSome_iff {t : Table α} {k : Nat} : (t.read k).isSome ↔ t.Live k := by
  simp [read, Live]

/-! ## Replacing the contents -/

@[simp] theorem rows_replaceAll (t : Table α) (xs : List α) :
    (t.replaceAll xs).rows = freshRows t.nextKey xs := rfl

@[simp] theorem values_replaceAll (t : Table α) (xs : List α) :
    (t.replaceAll xs).values = xs := map_val_freshRows _ _

theorem forall_mem_replaceAll {t : Table α} {xs : List α} {P : α → Prop} :
    (∀ r ∈ (t.replaceAll xs).rows, P r.val) ↔ ∀ x ∈ xs, P x := by
  rw [← List.forall_mem_map (f := Row.val) (P := P), ← Table.values, values_replaceAll]

/-- No handle taken before a replacement survives it. -/
theorem not_live_replaceAll {t : Table α} {k : Nat} (hk : t.Live k) (xs : List α) :
    ¬(t.replaceAll xs).Live k := by
  intro hlive
  rcases List.mem_map.mp hk with ⟨r, hr, rfl⟩
  rcases List.mem_map.mp hlive with ⟨r', hr', hkey⟩
  have hold := t.key_lt r hr
  have hnew := (key_of_mem_freshRows hr').1
  omega

theorem read_replaceAll_of_live {t : Table α} {k : Nat} (hk : t.Live k) (xs : List α) :
    (t.replaceAll xs).read k = none := by
  have hdead := not_live_replaceAll hk xs
  rw [← read_isSome_iff] at hdead
  exact Option.not_isSome_iff_eq_none.mp hdead

/-- Handles taken before a replacement read its contents only where both
are empty. -/
theorem map_read_replaceAll_iff {t : Table α} {ks : List Nat} (hks : ∀ k ∈ ks, t.Live k)
    {xs : List α} : ks.map (t.replaceAll xs).read = xs.map some ↔ ks = [] ∧ xs = [] := by
  constructor
  · intro h
    have hlen : ks.length = xs.length := by simpa using congrArg List.length h
    cases ks with
    | nil => exact ⟨rfl, List.length_eq_zero_iff.mp hlen.symm⟩
    | cons k ks =>
        cases xs with
        | nil => cases hlen
        | cons x xs =>
            have hhead := (List.cons.inj h).1
            rw [read_replaceAll_of_live (hks k List.mem_cons_self)] at hhead
            cases hhead
  · rintro ⟨rfl, rfl⟩
    rfl

theorem replaceAll_eq_self_iff {t : Table α} {xs : List α} :
    t.replaceAll xs = t ↔ t.rows = [] ∧ xs = [] := by
  constructor
  · intro h
    have hxs : xs = [] := by
      have hnext : t.nextKey + xs.length = t.nextKey := congrArg nextKey h
      exact List.length_eq_zero_iff.mp (by omega)
    subst hxs
    exact ⟨(congrArg rows h).symm, rfl⟩
  · rintro ⟨hrows, rfl⟩
    cases t
    simp_all [replaceAll, freshRows]

/-! ## Deleting one row -/

/-- Among rows with distinct keys, erasing the first row of one key is
filtering that key out. -/
theorem eraseP_eq_filter {rows : List (Row α)} {k : Nat} (hnodup : (rows.map Row.key).Nodup) :
    (rows.eraseP fun r => r.key == k) = rows.filter fun r => !(r.key == k) := by
  induction rows with
  | nil => rfl
  | cons r rows ih =>
      rcases List.nodup_cons.mp hnodup with ⟨hr, hnodup⟩
      by_cases hk : r.key = k
      · subst hk
        rw [List.eraseP_cons_of_pos (by simp), List.filter_cons_of_neg (by simp)]
        refine (List.filter_eq_self.mpr fun r' hr' => ?_).symm
        have hne : r'.key ≠ r.key := fun h => hr (h ▸ List.mem_map_of_mem hr')
        simpa using hne
      · have hp : (r.key == k) = false := by simpa using hk
        rw [List.eraseP_cons_of_neg (by simp [hp]), List.filter_cons_of_pos (by simp [hp]),
          ih hnodup]

theorem rows_delete_perm (t : Table α) (k : Nat) :
    (t.delete k).rows.Perm (t.rows.filter fun r => !(r.key == k)) := by
  rw [← eraseP_eq_filter t.nodup]
  exact moveLastOver_perm _ _

theorem mem_delete {t : Table α} {k : Nat} {r : Row α} :
    r ∈ (t.delete k).rows ↔ r ∈ t.rows ∧ r.key ≠ k := by
  rw [(rows_delete_perm t k).mem_iff, List.mem_filter]
  simp

theorem not_live_delete (t : Table α) (k : Nat) : ¬(t.delete k).Live k := by
  intro hlive
  rcases List.mem_map.mp hlive with ⟨r, hr, hkey⟩
  exact (mem_delete.mp hr).2 hkey

theorem values_delete_of_read {t : Table α} {k : Nat} {x : α} (h : t.read k = some x) :
    (x :: (t.delete k).values).Perm t.values := by
  obtain ⟨r, hfind, rfl⟩ := Option.map_eq_some_iff.mp h
  obtain ⟨hkey, before, after, hrows, hbefore⟩ := List.find?_eq_some_iff_append.mp hfind
  have herase : (t.rows.eraseP fun r => r.key == k) = before ++ after := by
    rw [hrows, List.eraseP_append_right _ (by simpa using hbefore),
      List.eraseP_cons_of_pos (by simpa using hkey)]
  have hdelete : (t.delete k).rows.Perm (before ++ after) := by
    rw [← herase]
    exact moveLastOver_perm _ _
  calc
    (r.val :: (t.delete k).values).Perm ((r :: (before ++ after)).map Row.val) :=
      (hdelete.map Row.val).cons _
    List.Perm _ (t.rows.map Row.val) := by
      rw [hrows]
      exact List.perm_middle.symm.map Row.val

theorem values_delete_of_read_eq_none {t : Table α} {k : Nat} (h : t.read k = none) :
    (t.delete k).values.Perm t.values := by
  have hnone : ∀ r ∈ t.rows, ¬(r.key == k) = true := by
    simpa [read] using h
  have hdelete := moveLastOver_perm (fun r => r.key == k) t.rows
  rw [List.eraseP_of_forall_not hnone] at hdelete
  exact hdelete.map Row.val

/-! ## Handles over time -/

theorem read_eq_some_iff {t : Table α} {k : Nat} {x : α} :
    t.read k = some x ↔ ⟨k, x⟩ ∈ t.rows := by
  constructor
  · intro h
    obtain ⟨r, hfind, rfl⟩ := Option.map_eq_some_iff.mp h
    have hkey : r.key = k := by simpa using List.find?_some hfind
    rw [← hkey]
    exact List.mem_of_find?_eq_some hfind
  · intro hmem
    cases hfind : t.rows.find? fun r => r.key == k with
    | none =>
        have hne := List.find?_eq_none.mp hfind _ hmem
        simp at hne
    | some r =>
        have hkey : r.key = k := by simpa using List.find?_some hfind
        rw [read, hfind, eq_of_key (List.mem_of_find?_eq_some hfind) hmem hkey]
        rfl

theorem lt_of_read {t : Table α} {k : Nat} {x : α} (h : t.read k = some x) : k < t.nextKey :=
  t.key_lt _ (read_eq_some_iff.mp h)

/-- Reading the rows of a table by their handles gives its values. -/
theorem bind_read_keys (t : Table α) (row : Nat) :
    ((t.rows.map Row.key)[row]?).bind t.read = t.values[row]? := by
  rw [values, List.getElem?_map, List.getElem?_map]
  cases hrow : t.rows[row]? with
  | none => rfl
  | some r => exact read_eq_some_iff.mpr (List.mem_of_getElem? hrow)

/-- The table `t'` has come out of `t`: a handle taken on `t` reads what it
read then, or nothing any more. -/
structure Later (t t' : Table α) : Prop where
  nextKey_le : t.nextKey ≤ t'.nextKey
  read_of_read : ∀ k < t.nextKey, ∀ x, t'.read k = some x → t.read k = some x

theorem Later.refl (t : Table α) : t.Later t := ⟨Nat.le_refl _, fun _ _ _ h => h⟩

theorem Later.trans {t t' t'' : Table α} (h : t.Later t') (h' : t'.Later t'') : t.Later t'' where
  nextKey_le := Nat.le_trans h.nextKey_le h'.nextKey_le
  read_of_read k hk x hx :=
    h.read_of_read k hk x (h'.read_of_read k (Nat.lt_of_lt_of_le hk h.nextKey_le) x hx)

theorem later_replaceAll (t : Table α) (xs : List α) : t.Later (t.replaceAll xs) where
  nextKey_le := Nat.le_add_right _ _
  read_of_read k hk x hx := by
    have hfresh := (key_of_mem_freshRows (read_eq_some_iff.mp hx)).1
    have hle : t.nextKey ≤ k := hfresh
    omega

theorem later_delete (t : Table α) (k : Nat) : t.Later (t.delete k) where
  nextKey_le := Nat.le_refl _
  read_of_read k' _ x hx := by
    have hmem := (mem_delete.mp (read_eq_some_iff.mp hx)).1
    exact read_eq_some_iff.mpr hmem

/-! ## Deleting and adding many rows -/

def deleteAll (t : Table α) (ks : List Nat) : Table α := ks.foldl delete t

/-- Add rows under fresh keys. -/
def add (t : Table α) (xs : List α) : Table α where
  rows := t.rows ++ freshRows t.nextKey xs
  nextKey := t.nextKey + xs.length
  key_lt r hr := by
    rcases List.mem_append.mp hr with hr | hr
    · exact Nat.lt_add_right _ (t.key_lt r hr)
    · exact (key_of_mem_freshRows hr).2
  nodup := by
    rw [List.map_append]
    refine List.Nodup.append t.nodup (nodup_freshRows _ _) fun k hk hk' => ?_
    obtain ⟨r, hr, rfl⟩ := List.mem_map.mp hk
    obtain ⟨r', hr', hkey⟩ := List.mem_map.mp hk'
    have hold := t.key_lt r hr
    have hnew := (key_of_mem_freshRows hr').1
    omega

theorem ext_rows {t t' : Table α} (hrows : t.rows = t'.rows) (hnext : t.nextKey = t'.nextKey) :
    t = t' := by
  cases t
  cases t'
  simp_all

theorem mem_deleteAll {t : Table α} {ks : List Nat} {r : Row α} :
    r ∈ (t.deleteAll ks).rows ↔ r ∈ t.rows ∧ r.key ∉ ks := by
  induction ks generalizing t with
  | nil => simp [deleteAll]
  | cons k ks ih =>
      have hrest := ih (t := t.delete k)
      rw [mem_delete] at hrest
      rw [List.mem_cons, not_or, ← and_assoc]
      exact hrest

theorem nextKey_deleteAll (t : Table α) (ks : List Nat) :
    (t.deleteAll ks).nextKey = t.nextKey := by
  induction ks generalizing t with
  | nil => rfl
  | cons k ks ih => exact ih (t.delete k)

/-- Deleting all the rows there are, then adding, is replacing. -/
theorem add_deleteAll_keys (t : Table α) (xs : List α) :
    (t.deleteAll (t.rows.map Row.key)).add xs = t.replaceAll xs := by
  have hrows : (t.deleteAll (t.rows.map Row.key)).rows = [] := by
    refine List.eq_nil_iff_forall_not_mem.mpr fun r hr => ?_
    obtain ⟨hr, hkey⟩ := mem_deleteAll.mp hr
    exact hkey (List.mem_map_of_mem hr)
  have hnext := nextKey_deleteAll t (t.rows.map Row.key)
  refine ext_rows ?_ ?_
  · simp only [add, hrows, hnext, rows_replaceAll, List.nil_append]
  · simp only [add, hnext, replaceAll]

end Table

end VkClient
