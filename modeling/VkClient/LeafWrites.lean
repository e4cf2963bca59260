import Mathlib.Data.List.Infix
import Mathlib.Data.List.Pairwise
import Mathlib.Logic.Basic

/-!
# Writes to the leaves of a tree

A tree whose leaves carry values is read here as the values at its paths. A
write at a path replaces all there is below it, and something written below
a leaf takes the leaf's place: the leaf is gone. A write of nothing takes
away what is below its path and leaves everything else, a leaf above it
included.

Writes at paths of which neither is below the other can be made in either
order (`write_write_of_beside`). A write is forgotten under a later one above
it (`write_write_of_above`), and a write below an earlier one can be made on
what that one writes (`write_write_of_below`), but only where no leaf stands
above: a write of nothing does not bring back the leaf that an earlier write
took the place of.

`writeAll_put` is the case of many writes, kept at paths of which none is
below another.
-/

namespace VkClient

namespace LeafWrites

variable {κ ν : Type*}

/-- The value at each path where there is a leaf. -/
abbrev Leaves (κ ν : Type*) := List κ → Option ν

/-- Neither path is below the other. -/
def Beside (p q : List κ) : Prop := ¬p <+: q ∧ ¬q <+: p

/-- What is below a path. -/
def below (L : Leaves κ ν) (p : List κ) : Leaves κ ν := fun q => L (p ++ q)

/-- There is no leaf strictly above the path. -/
def NoLeafAbove (L : Leaves κ ν) (p : List κ) : Prop := ∀ q, q <+: p → q ≠ p → L q = none

/-- The leaves of no tree. -/
def nothing : Leaves κ ν := fun _ => none

open scoped Classical in
/-- The leaves after `V` is written at `p`. -/
noncomputable def write (p : List κ) (V : Leaves κ ν) (L : Leaves κ ν) : Leaves κ ν := fun q =>
  if p <+: q then V (q.drop p.length)
  else if q <+: p then if V = nothing then L q else none
  else L q

/-! ## Where a path is -/

variable {p q r : List κ} {V W L : Leaves κ ν}

theorem Beside.symm (h : Beside p q) : Beside q p := ⟨h.2, h.1⟩

theorem Beside.append_right (h : Beside p q) (r : List κ) : Beside p (q ++ r) := by
  refine ⟨fun hpre => ?_, fun hpre => h.2 ((List.prefix_append q r).trans hpre)⟩
  rcases List.prefix_or_prefix_of_prefix hpre (List.prefix_append q r) with hpq | hqp
  · exact h.1 hpq
  · exact h.2 hqp

theorem beside_append_iff : Beside (r ++ p) (r ++ q) ↔ Beside p q := by
  simp only [Beside, List.prefix_append_right_inj]

/-- A path is below another, or strictly above it, or beside it. -/
theorem below_or_above_or_beside (p q : List κ) :
    (∃ r, q = p ++ r) ∨ (q <+: p ∧ q ≠ p) ∨ Beside p q := by
  by_cases hbelow : p <+: q
  · obtain ⟨r, rfl⟩ := hbelow
    exact .inl ⟨r, rfl⟩
  · by_cases habove : q <+: p
    · refine .inr (.inl ⟨habove, ?_⟩)
      rintro rfl
      exact hbelow List.prefix_rfl
    · exact .inr (.inr ⟨hbelow, habove⟩)

theorem not_prefix_of_above (h : q <+: p) (hne : q ≠ p) : ¬p <+: q :=
  fun hp => hne (h.eq_of_length_le hp.length_le)

/-! ## One write -/

@[simp] theorem below_apply : below L p q = L (p ++ q) := rfl

theorem write_append : write p V L (p ++ q) = V q := by
  rw [write, if_pos (List.prefix_append p q), List.drop_left]

@[simp] theorem below_write : below (write p V L) p = V := by
  funext q
  exact write_append

open scoped Classical in
theorem write_above (h : q <+: p) (hne : q ≠ p) :
    write p V L q = if V = nothing then L q else none := by
  rw [write, if_neg (not_prefix_of_above h hne), if_pos h]

theorem write_beside (h : Beside p q) : write p V L q = L q := by
  rw [write, if_neg h.1, if_neg h.2]

theorem write_nil : write [] V L = V := by
  funext q
  exact write_append (p := [])

theorem NoLeafAbove.write (h : NoLeafAbove L q) (hp : Beside p q ∨ q <+: p) :
    NoLeafAbove (write p V L) q := by
  intro x hx hne
  rcases below_or_above_or_beside p x with ⟨r, rfl⟩ | ⟨hxp, hxp'⟩ | hbeside
  · have hpq : p <+: q := (List.prefix_append p r).trans hx
    rcases hp with hbeside | hqp
    · exact absurd hpq hbeside.1
    · have hlen := hqp.length_le
      refine absurd (hx.eq_of_length_le ?_) hne
      rw [List.length_append]
      omega
  · rw [write_above hxp hxp']
    split
    · exact h x hx hne
    · rfl
  · rw [write_beside hbeside]
    exact h x hx hne

/-- A write strictly below a path, on what is there. -/
theorem below_write_append :
    below (write (p ++ r) V L) p = write r V (below L p) := by
  funext q
  rcases below_or_above_or_beside r q with ⟨s, rfl⟩ | ⟨hq, hne⟩ | hbeside
  · rw [write_append, below_apply, ← List.append_assoc, write_append]
  · have hne' : p ++ q ≠ p ++ r := fun h => hne (List.append_cancel_left h)
    rw [write_above hq hne, below_apply,
      write_above ((List.prefix_append_right_inj p).mpr hq) hne', below_apply]
  · rw [write_beside hbeside, below_apply, write_beside (beside_append_iff.mpr hbeside),
      below_apply]

theorem below_write_of_beside (h : Beside q p) : below (write q V L) p = below L p := by
  funext x
  exact write_beside (h.append_right x)

/-! ## Two writes -/

theorem write_write_of_beside (h : Beside p q) :
    write p V (write q W L) = write q W (write p V L) := by
  funext x
  rcases below_or_above_or_beside p x with ⟨r, rfl⟩ | ⟨hxp, hxp'⟩ | hxp
  · rw [write_append, write_beside (h.symm.append_right r), write_append]
  · rcases below_or_above_or_beside q x with ⟨r, rfl⟩ | ⟨hxq, hxq'⟩ | hxq
    · exact absurd ((List.prefix_append q r).trans hxp) h.2
    · rw [write_above hxp hxp', write_above hxq hxq', write_above hxq hxq', write_above hxp hxp']
      split <;> split <;> rfl
    · rw [write_above hxp hxp', write_beside hxq, write_beside hxq, write_above hxp hxp']
  · rcases below_or_above_or_beside q x with ⟨r, rfl⟩ | ⟨hxq, hxq'⟩ | hxq
    · rw [write_beside hxp, write_append, write_append]
    · rw [write_beside hxp, write_above hxq hxq', write_above hxq hxq', write_beside hxp]
    · rw [write_beside hxp, write_beside hxq, write_beside hxq, write_beside hxp]

/-- A write is forgotten under a later one above it. -/
theorem write_write_of_above (h : NoLeafAbove L p) :
    write p W (write (p ++ r) V L) = write p W L := by
  funext x
  rcases below_or_above_or_beside p x with ⟨s, rfl⟩ | ⟨hx, hne⟩ | hx
  · rw [write_append, write_append]
  · have hx' : x <+: p ++ r := hx.trans (List.prefix_append p r)
    have hne' : x ≠ p ++ r := by
      rintro rfl
      have hlen := hx.length_le
      rw [List.length_append] at hlen
      obtain rfl : r = [] := List.length_eq_zero_iff.mp (by omega)
      exact hne (List.append_nil p)
    rw [write_above hx hne, write_above hx hne, write_above hx' hne', h x hx hne, ite_self]
  · rw [write_beside hx, write_beside hx, write_beside (hx.symm.append_right r).symm]

/-- A write below an earlier one is made on what that one writes. -/
theorem write_write_of_below (h : NoLeafAbove L p) :
    write (p ++ r) W (write p V L) = write p (write r W V) L := by
  funext x
  rcases below_or_above_or_beside p x with ⟨s, rfl⟩ | ⟨hx, hne⟩ | hx
  · have hbelow : below (write (p ++ r) W (write p V L)) p = write r W V := by
      rw [below_write_append, below_write]
    exact (congrFun hbelow s).trans write_append.symm
  · have habove : NoLeafAbove (write p V L) p := h.write (.inr List.prefix_rfl)
    have hx' : x <+: p ++ r := hx.trans (List.prefix_append p r)
    have hnone : write p V L x = none := habove x hx hne
    rw [write_above hx hne, h x hx hne, ite_self]
    rcases below_or_above_or_beside (p ++ r) x with ⟨s, rfl⟩ | ⟨hx', hne'⟩ | hbeside
    · exact absurd ((List.prefix_append p (r ++ s)).trans (List.append_assoc p r s ▸ List.prefix_rfl))
        (not_prefix_of_above hx hne)
    · rw [write_above hx' hne', hnone, ite_self]
    · exact absurd hx' hbeside.2
  · rw [write_beside hx, write_beside (hx.symm.append_right r).symm, write_beside hx]

/-! ## Many writes -/

/-- What is written, and where. -/
abbrev Entries (κ ν : Type*) := List (List κ × Leaves κ ν)

noncomputable def writeAll (entries : Entries κ ν) (L : Leaves κ ν) : Leaves κ ν :=
  entries.foldl (fun L entry => write entry.1 entry.2 L) L

abbrev AllBeside (entries : Entries κ ν) : Prop :=
  entries.Pairwise fun a b => Beside a.1 b.1

variable {entries under rest : Entries κ ν}

theorem writeAll_append :
    writeAll (entries ++ rest) L = writeAll rest (writeAll entries L) := by
  rw [writeAll, List.foldl_append]
  rfl

theorem writeAll_perm (h : AllBeside entries) (hperm : entries.Perm rest) :
    writeAll entries L = writeAll rest L := by
  have hsymm : Std.Symm fun a b : List κ × Leaves κ ν => Beside a.1 b.1 := ⟨fun _ _ => Beside.symm⟩
  refine hperm.foldl_eq' (fun a ha b hb M => ?_) L
  by_cases hab : a = b
  · rw [hab]
  · exact (write_write_of_beside (h.forall ha hb hab)).symm

theorem NoLeafAbove.writeAll (h : NoLeafAbove L p)
    (hentries : ∀ e ∈ entries, Beside e.1 p ∨ p <+: e.1) :
    NoLeafAbove (writeAll entries L) p := by
  induction entries generalizing L with
  | nil => exact h
  | cons e entries ih =>
      refine ih (h.write (hentries e List.mem_cons_self)) fun e' he' => ?_
      exact hentries e' (List.mem_cons_of_mem e he')

/-- The first of the writes can be made last. -/
theorem writeAll_cons (h : ∀ e ∈ entries, Beside p e.1) :
    writeAll ((p, V) :: entries) L = write p V (writeAll entries L) := by
  induction entries generalizing L with
  | nil => rfl
  | cons e entries ih =>
      have hrest := @ih (write e.1 e.2 L) fun e' he' => h e' (List.mem_cons_of_mem e he')
      rw [← show writeAll (e :: entries) L = writeAll entries (write e.1 e.2 L) from rfl] at hrest
      rw [← hrest]
      exact congrArg (writeAll entries) (write_write_of_beside (h e List.mem_cons_self)).symm

/-- A write at or below one of the paths is made on what is written there. -/
theorem write_writeAll_of_below (h : ∀ e ∈ rest, Beside p e.1) (hleaf : NoLeafAbove L p) :
    write (p ++ r) W (writeAll ((p, V) :: rest) L) = writeAll ((p, write r W V) :: rest) L := by
  have habove : NoLeafAbove (writeAll rest L) p := hleaf.writeAll fun e he => .inl (h e he).symm
  rw [writeAll_cons h, writeAll_cons h, write_write_of_below habove]

theorem write_writeAll_of_under (hunder : ∀ e ∈ under, p <+: e.1) (hleaf : NoLeafAbove L p) :
    write p V (writeAll under L) = write p V L := by
  induction under using List.reverseRecOn with
  | nil => rfl
  | append_singleton under e ih =>
      have hunder' : ∀ e' ∈ under, p <+: e'.1 := fun e' he' =>
        hunder e' (List.mem_append_left _ he')
      obtain ⟨r, hr⟩ := hunder e (List.mem_append_right _ (List.mem_singleton_self e))
      have habove : NoLeafAbove (writeAll under L) p :=
        hleaf.writeAll fun e' he' => .inr (hunder' e' he')
      rw [writeAll_append, ← ih hunder']
      show write p V (write e.1 e.2 (writeAll under L)) = _
      rw [← hr, write_write_of_above habove]

/-- A write above some of the paths, and beside the others, takes their
place. -/
theorem write_writeAll_of_above (hbeside : AllBeside (under ++ rest))
    (hunder : ∀ e ∈ under, p <+: e.1) (hrest : ∀ e ∈ rest, Beside p e.1)
    (hleaf : NoLeafAbove L p) :
    write p V (writeAll (under ++ rest) L) = writeAll ((p, V) :: rest) L := by
  have habove : NoLeafAbove (writeAll rest L) p :=
    hleaf.writeAll fun e he => .inl (hrest e he).symm
  rw [writeAll_perm hbeside List.perm_append_comm, writeAll_append,
    write_writeAll_of_under hunder habove, writeAll_cons hrest]

/-! ## Many writes, read below a path -/

theorem below_append : below L (p ++ q) = below (below L p) q := by
  funext x
  rw [below_apply, below_apply, below_apply, List.append_assoc]

theorem below_writeAll_of_beside (h : ∀ e ∈ entries, Beside p e.1) :
    below (writeAll entries L) p = below L p := by
  induction entries generalizing L with
  | nil => rfl
  | cons e entries ih =>
      refine (ih fun e' he' => h e' (List.mem_cons_of_mem e he')).trans ?_
      exact below_write_of_beside (h e List.mem_cons_self).symm

theorem below_writeAll_of_under (entries : Entries κ ν) :
    below (writeAll (entries.map fun e => (p ++ e.1, e.2)) L) p =
      writeAll entries (below L p) := by
  induction entries generalizing L with
  | nil => rfl
  | cons e entries ih =>
      refine ih.trans ?_
      show writeAll entries (below (write (p ++ e.1) e.2 L) p) =
        writeAll entries (write e.1 e.2 (below L p))
      rw [below_write_append]

end LeafWrites

end VkClient
