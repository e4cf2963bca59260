import VkClient.SnapshotNode

/-!
# Trees of values

An `FImmutableTree` has a value at some of its paths. The trees that writes
are kept in have values at their ends only (`Layered`): below a value there
is nothing. Such a tree is its values (`Layered.ext`), and `forEach` lists
them, at paths of which none is below another.
-/

namespace VkClient

namespace FUtilities

/-- `compare:`, for keys that are written the same when they are the same. -/
def stringComparator (a b : PathKey) : Ordering := compare a.1 b.1

instance : Std.TransCmp stringComparator where
  eq_swap {a b} := by
    show compare a.1 b.1 = (compare b.1 a.1).swap
    exact Std.OrientedCmp.eq_swap
  isLE_trans {a b c} hab hbc := by
    show (compare a.1 c.1).isLE = true
    exact Std.TransCmp.isLE_trans hab hbc

instance : Std.LawfulEqCmp stringComparator where
  compare_self {a} := by
    show compare a.1 a.1 = .eq
    exact Std.ReflCmp.compare_self
  eq_of_compare {a b} h := Subtype.ext (Std.LawfulEqOrd.eq_of_compare h)

end FUtilities

inductive FImmutableTree (α : Type*) where
  | tree (value : Option α) (cs : List (PathKey × FImmutableTree α))

namespace FImmutableTree

open SortedEntries FUtilities

variable {α : Type*}

def empty : FImmutableTree α := .tree none []

def ofValue (value : α) : FImmutableTree α := .tree (some value) []

def value : FImmutableTree α → Option α
  | .tree value _ => value

def children : FImmutableTree α → List (PathKey × FImmutableTree α)
  | .tree _ cs => cs

def isEmpty (t : FImmutableTree α) : Bool := t.value.isNone && t.children.isEmpty

/-- The child at a key, where there is none the empty tree. -/
def child (t : FImmutableTree α) (key : PathKey) : FImmutableTree α :=
  (find stringComparator key t.children).getD empty

/-- The shortest path to a value on the way, and the value. -/
def findRootMostValueAndPath (t : FImmutableTree α) : FPath → Option (FPath × α)
  | [] => t.value.map fun value => ([], value)
  | front :: rest =>
      match t.value with
      | some value => some ([], value)
      | none =>
          match find stringComparator front t.children with
          | none => none
          | some child =>
              (child.findRootMostValueAndPath rest).map fun found => (front :: found.1, found.2)

def subtreeAtPath (t : FImmutableTree α) : FPath → FImmutableTree α
  | [] => t
  | front :: rest =>
      match find stringComparator front t.children with
      | none => empty
      | some child => child.subtreeAtPath rest

def valueAtPath (t : FImmutableTree α) : FPath → Option α
  | [] => t.value
  | front :: rest =>
      match find stringComparator front t.children with
      | none => none
      | some child => child.valueAtPath rest

def setValue (t : FImmutableTree α) (newValue : α) : FPath → FImmutableTree α
  | [] => .tree (some newValue) t.children
  | front :: rest =>
      let newChild := (t.child front).setValue newValue rest
      .tree t.value (insert stringComparator front newChild t.children)

def setTree (t newTree : FImmutableTree α) : FPath → FImmutableTree α
  | [] => newTree
  | front :: rest =>
      let newChild := (t.child front).setTree newTree rest
      .tree t.value
        (if newChild.isEmpty then erase stringComparator front t.children
          else insert stringComparator front newChild t.children)

mutual

def forEachPathSoFar (pathSoFar : FPath) : FImmutableTree α → List (FPath × α)
  | .tree value cs => forEachChildren pathSoFar cs ++ value.toList.map fun value => (pathSoFar, value)

def forEachChildren (pathSoFar : FPath) : List (PathKey × FImmutableTree α) → List (FPath × α)
  | [] => []
  | (childKey, childTree) :: cs =>
      forEachPathSoFar (pathSoFar ++ [childKey]) childTree ++ forEachChildren pathSoFar cs

end

/-- The values with their paths, depth first. -/
def forEach (t : FImmutableTree α) : List (FPath × α) := t.forEachPathSoFar []

/-- Values are at the ends, and no child is empty. -/
inductive Layered : FImmutableTree α → Prop
  | value (value : α) : Layered (.tree (some value) [])
  | children {cs : List (PathKey × FImmutableTree α)}
      (sorted : Sorted stringComparator cs)
      (nonempty : ∀ e ∈ cs, e.2.isEmpty = false)
      (layered : ∀ e ∈ cs, Layered e.2) :
      Layered (.tree none cs)

variable {t t' newTree : FImmutableTree α} {v w : α} {front key : PathKey}
  {p q r path rest : FPath}

/-! ## One key of a path -/

theorem eq_empty_of_isEmpty (h : t.isEmpty = true) : t = empty := by
  obtain ⟨value, cs⟩ := t
  cases value with
  | some value => cases h
  | none => cases cs with
    | nil => rfl
    | cons e cs => cases h

theorem child_empty : (empty : FImmutableTree α).child key = empty := rfl

theorem valueAtPath_empty : (empty : FImmutableTree α).valueAtPath path = none := by
  cases path <;> rfl

theorem valueAtPath_cons : t.valueAtPath (front :: rest) = (t.child front).valueAtPath rest := by
  rw [valueAtPath, child]
  cases find stringComparator front t.children with
  | none => exact valueAtPath_empty.symm
  | some child => rfl

theorem subtreeAtPath_empty : (empty : FImmutableTree α).subtreeAtPath path = empty := by
  cases path <;> rfl

theorem subtreeAtPath_cons :
    t.subtreeAtPath (front :: rest) = (t.child front).subtreeAtPath rest := by
  rw [subtreeAtPath, child]
  cases find stringComparator front t.children with
  | none => exact subtreeAtPath_empty.symm
  | some child => rfl

theorem child_setTree :
    (t.setTree newTree (front :: rest)).child key =
      if key = front then (t.child front).setTree newTree rest else t.child key := by
  rw [setTree, child, children]
  cases hempty : ((t.child front).setTree newTree rest).isEmpty with
  | true =>
      rw [if_pos rfl, find_erase_key, eq_empty_of_isEmpty hempty]
      split <;> rfl
  | false =>
      rw [if_neg Bool.false_ne_true, find_insert]
      split <;> rfl

theorem child_setValue :
    (t.setValue v (front :: rest)).child key =
      if key = front then (t.child front).setValue v rest else t.child key := by
  rw [setValue, child, children, find_insert]
  split <;> rfl

/-! ## Values -/

theorem valueAtPath_append :
    t.valueAtPath (p ++ q) = (t.subtreeAtPath p).valueAtPath q := by
  induction p generalizing t with
  | nil => rfl
  | cons front rest ih => rw [List.cons_append, valueAtPath_cons, subtreeAtPath_cons, ih]

theorem valueAtPath_setTree_append :
    (t.setTree newTree p).valueAtPath (p ++ q) = newTree.valueAtPath q := by
  induction p generalizing t with
  | nil => rfl
  | cons front rest ih => rw [List.cons_append, valueAtPath_cons, child_setTree, if_pos rfl, ih]

theorem valueAtPath_setTree_of_not_below (h : ¬p <+: q) :
    (t.setTree newTree p).valueAtPath q = t.valueAtPath q := by
  induction p generalizing t q with
  | nil => exact absurd List.nil_prefix h
  | cons front rest ih =>
      cases q with
      | nil => rfl
      | cons key q =>
          rw [valueAtPath_cons, valueAtPath_cons, child_setTree]
          split
          · rename_i heq
            subst heq
            exact ih fun hrest => h (List.cons_prefix_cons.mpr ⟨rfl, hrest⟩)
          · rfl

theorem valueAtPath_setValue :
    (t.setValue v p).valueAtPath q = if q = p then some v else t.valueAtPath q := by
  induction p generalizing t q with
  | nil =>
      cases q with
      | nil => rfl
      | cons key q => rfl
  | cons front rest ih =>
      cases q with
      | nil => rfl
      | cons key q =>
          rw [valueAtPath_cons, valueAtPath_cons, child_setValue]
          by_cases hkey : key = front
          · subst hkey
            rw [if_pos rfl, ih]
            simp only [List.cons.injEq, true_and]
          · rw [if_neg hkey, if_neg (by simp [hkey])]

/-! ## The first value on the way -/

theorem findRootMostValueAndPath_empty :
    (empty : FImmutableTree α).findRootMostValueAndPath path = none := by
  cases path <;> rfl

theorem findRootMostValueAndPath_cons (h : t.value = none) :
    t.findRootMostValueAndPath (front :: rest) =
      ((t.child front).findRootMostValueAndPath rest).map fun found =>
        (front :: found.1, found.2) := by
  rw [findRootMostValueAndPath, h, child]
  cases find stringComparator front t.children with
  | none =>
      show none = (empty.findRootMostValueAndPath rest).map _
      rw [findRootMostValueAndPath_empty]
      rfl
  | some child => rfl

theorem findRootMostValueAndPath_of_value (h : t.value = some v) :
    t.findRootMostValueAndPath path = some ([], v) := by
  cases path with
  | nil => rw [findRootMostValueAndPath, h, Option.map_some]
  | cons front rest => rw [findRootMostValueAndPath, h]

theorem eq_some_of_findRootMostValueAndPath
    (h : t.findRootMostValueAndPath path = some (r, v)) :
    r <+: path ∧ t.valueAtPath r = some v := by
  induction path generalizing t r with
  | nil =>
      obtain ⟨value, hvalue, heq⟩ := Option.map_eq_some_iff.mp h
      obtain ⟨rfl, rfl⟩ := Prod.mk.inj heq
      exact ⟨List.prefix_rfl, hvalue⟩
  | cons front rest ih =>
      cases hvalue : t.value with
      | some value =>
          rw [findRootMostValueAndPath_of_value hvalue] at h
          obtain ⟨rfl, rfl⟩ := Prod.mk.inj (Option.some.inj h)
          exact ⟨List.nil_prefix, hvalue⟩
      | none =>
          rw [findRootMostValueAndPath_cons hvalue] at h
          obtain ⟨⟨r', value⟩, hfound, heq⟩ := Option.map_eq_some_iff.mp h
          obtain ⟨rfl, rfl⟩ := Prod.mk.inj heq
          obtain ⟨hpre, hr⟩ := ih hfound
          exact ⟨List.cons_prefix_cons.mpr ⟨rfl, hpre⟩, valueAtPath_cons.trans hr⟩

theorem findRootMostValueAndPath_eq_none_iff :
    t.findRootMostValueAndPath path = none ↔ ∀ q, q <+: path → t.valueAtPath q = none := by
  induction path generalizing t with
  | nil =>
      rw [findRootMostValueAndPath, Option.map_eq_none_iff]
      constructor
      · intro hnone q hq
        rw [List.prefix_nil.mp hq]
        exact hnone
      · intro hnone
        exact hnone [] List.prefix_rfl
  | cons front rest ih =>
      cases hvalue : t.value with
      | some value =>
          rw [findRootMostValueAndPath_of_value hvalue]
          refine iff_of_false (Option.some_ne_none _) fun hnone => ?_
          exact Option.some_ne_none value (hvalue.symm.trans (hnone [] List.nil_prefix))
      | none =>
          rw [findRootMostValueAndPath_cons hvalue, Option.map_eq_none_iff, ih]
          constructor
          · intro hnone q hq
            cases q with
            | nil => exact hvalue
            | cons key q =>
                obtain ⟨rfl, hrest⟩ := List.cons_prefix_cons.mp hq
                rw [valueAtPath_cons]
                exact hnone q hrest
          · intro hnone q hq
            rw [← valueAtPath_cons]
            exact hnone (front :: q) (List.cons_prefix_cons.mpr ⟨rfl, hq⟩)

/-! ## Layered trees -/

theorem Layered.empty : Layered (empty : FImmutableTree α) :=
  .children List.Pairwise.nil nofun nofun

theorem Layered.sorted (h : t.Layered) : Sorted stringComparator t.children := by
  cases h with
  | value => exact List.Pairwise.nil
  | children sorted => exact sorted

theorem Layered.child (h : t.Layered) : (t.child key).Layered := by
  cases h with
  | value => exact .empty
  | children sorted nonempty layered =>
      rename_i cs
      show ((find stringComparator key cs).getD FImmutableTree.empty).Layered
      cases hfind : find stringComparator key cs with
      | none => exact .empty
      | some child => exact layered _ ((find_eq_some_iff_mem sorted).mp hfind)

theorem Layered.subtreeAtPath (h : t.Layered) : (t.subtreeAtPath p).Layered := by
  induction p generalizing t with
  | nil => exact h
  | cons front rest ih =>
      rw [subtreeAtPath_cons]
      exact ih h.child

/-- Below a value there is nothing. -/
theorem Layered.eq_ofValue (h : t.Layered) (hvalue : t.value = some v) : t = ofValue v := by
  cases h with
  | value w =>
      obtain rfl := Option.some.inj hvalue
      rfl
  | children => cases hvalue

theorem Layered.subtreeAtPath_eq_ofValue (h : t.Layered) (hv : t.valueAtPath p = some v) :
    t.subtreeAtPath p = ofValue v := by
  refine h.subtreeAtPath.eq_ofValue ?_
  have hvalue := valueAtPath_append (t := t) (p := p) (q := [])
  rw [List.append_nil, hv] at hvalue
  exact hvalue.symm

theorem valueAtPath_ofValue : (ofValue v).valueAtPath path = if path = [] then some v else none := by
  cases path <;> rfl

/-- Two values are at one path, or at paths of which none is below the
other. -/
theorem Layered.beside (h : t.Layered) (hp : t.valueAtPath p = some v)
    (hq : t.valueAtPath q = some w) (hne : p ≠ q) : LeafWrites.Beside p q := by
  have hbelow : ∀ {p q : FPath} {v w : α}, t.valueAtPath p = some v → t.valueAtPath q = some w →
      p <+: q → p = q := by
    rintro p q v w hp hq ⟨r, rfl⟩
    rw [valueAtPath_append, h.subtreeAtPath_eq_ofValue hp, valueAtPath_ofValue] at hq
    split at hq
    · rename_i hr
      rw [hr, List.append_nil]
    · cases hq
  exact ⟨fun hpq => hne (hbelow hp hq hpq), fun hqp => hne (hbelow hq hp hqp).symm⟩

theorem Layered.findRootMostValueAndPath (h : t.Layered) (hr : t.valueAtPath r = some v)
    (hpre : r <+: path) : t.findRootMostValueAndPath path = some (r, v) := by
  cases hfound : t.findRootMostValueAndPath path with
  | none =>
      rw [findRootMostValueAndPath_eq_none_iff.mp hfound r hpre] at hr
      cases hr
  | some found =>
      obtain ⟨q, w⟩ := found
      obtain ⟨hq, hw⟩ := eq_some_of_findRootMostValueAndPath hfound
      have hqr : q = r := by
        by_contra hne
        have hbeside := h.beside hw hr hne
        rcases List.prefix_or_prefix_of_prefix hq hpre with hpre | hpre
        · exact hbeside.1 hpre
        · exact hbeside.2 hpre
      subst hqr
      rw [hr, Option.some.injEq] at hw
      rw [hw]

theorem Layered.exists_value (h : t.Layered) (hempty : t.isEmpty = false) :
    ∃ p v, t.valueAtPath p = some v := by
  induction h with
  | value v => exact ⟨[], v, rfl⟩
  | children sorted nonempty layered ih =>
      rename_i cs
      cases cs with
      | nil => cases hempty
      | cons e cs =>
          obtain ⟨p, v, hp⟩ := ih e List.mem_cons_self (nonempty e List.mem_cons_self)
          refine ⟨e.1 :: p, v, ?_⟩
          have hchild : (tree none (e :: cs)).child e.1 = e.2 := by
            show (find stringComparator e.1 (e :: cs)).getD FImmutableTree.empty = e.2
            rw [(find_eq_some_iff_mem sorted).mpr List.mem_cons_self]
            rfl
          rw [valueAtPath_cons, hchild, hp]

theorem Layered.mem_children_iff (h : t.Layered) {c : FImmutableTree α} :
    (key, c) ∈ t.children ↔ t.child key = c ∧ c.isEmpty = false := by
  rw [← find_eq_some_iff_mem h.sorted, FImmutableTree.child]
  cases hfind : find stringComparator key t.children with
  | none =>
      refine iff_of_false nofun ?_
      rintro ⟨rfl, hempty⟩
      cases hempty
  | some c' =>
      rw [Option.some.injEq]
      refine (and_iff_left_of_imp ?_).symm
      rintro rfl
      have hmem := (find_eq_some_iff_mem h.sorted).mp hfind
      cases h with
      | value => cases hmem
      | children _ nonempty => exact nonempty _ hmem

/-- A layered tree is its values. -/
theorem Layered.ext (h : t.Layered) (h' : t'.Layered)
    (heq : ∀ p, t.valueAtPath p = t'.valueAtPath p) : t = t' := by
  induction h generalizing t' with
  | value v => exact (h'.eq_ofValue (heq []).symm).symm
  | children sorted nonempty layered ih =>
      rename_i cs
      have ht : (tree none cs).Layered := .children sorted nonempty layered
      have hvalue : t'.value = none := (heq []).symm
      have hchild : ∀ key, (tree none cs).child key = t'.child key := by
        intro key
        have hvalues : ∀ p, ((tree none cs).child key).valueAtPath p =
            (t'.child key).valueAtPath p := by
          intro p
          rw [← valueAtPath_cons, ← valueAtPath_cons, heq]
        cases hempty : ((tree none cs).child key).isEmpty with
        | false => exact ih _ (ht.mem_children_iff.mpr ⟨rfl, hempty⟩) h'.child hvalues
        | true =>
            -- the other child has no value either
            rw [eq_empty_of_isEmpty hempty] at hvalues ⊢
            refine (eq_empty_of_isEmpty ?_).symm
            by_contra hother
            obtain ⟨p, v, hp⟩ := h'.child.exists_value (Bool.eq_false_iff.mpr hother)
            rw [← hvalues, valueAtPath_empty] at hp
            cases hp
      have hperm : cs.Perm t'.children := by
        have hnodup : ∀ {l : List (PathKey × FImmutableTree α)}, Sorted stringComparator l →
            l.Nodup := by
          intro l hl
          refine hl.imp ?_
          rintro a _ hlt rfl
          have hself : stringComparator a.1 a.1 = .eq := Std.ReflCmp.compare_self
          rw [hself] at hlt
          cases hlt
        refine (List.perm_ext_iff_of_nodup (hnodup sorted) (hnodup h'.sorted)).mpr ?_
        rintro ⟨key, c⟩
        rw [h'.mem_children_iff, ← hchild key]
        exact ht.mem_children_iff
      obtain ⟨value', cs'⟩ := t'
      obtain rfl : value' = none := hvalue
      rw [show cs = cs' from eq_of_sorted_of_perm sorted h'.sorted hperm]

/-! ## The values in turn -/

theorem forEachChildren_eq (pathSoFar : FPath) (cs : List (PathKey × FImmutableTree α)) :
    forEachChildren pathSoFar cs =
      cs.flatMap fun c => c.2.forEachPathSoFar (pathSoFar ++ [c.1]) := by
  induction cs with
  | nil => rw [forEachChildren, List.flatMap_nil]
  | cons c cs ih => rw [forEachChildren, ih, List.flatMap_cons]

theorem forEachPathSoFar_none (pathSoFar : FPath) (cs : List (PathKey × FImmutableTree α)) :
    (tree none cs).forEachPathSoFar pathSoFar = forEachChildren pathSoFar cs := by
  rw [forEachPathSoFar, Option.toList_none, List.map_nil, List.append_nil]

theorem forEachPathSoFar_ofValue (pathSoFar : FPath) (v : α) :
    (ofValue v).forEachPathSoFar pathSoFar = [(pathSoFar, v)] := by
  rw [ofValue, forEachPathSoFar, forEachChildren]
  rfl

theorem Layered.mem_forEachPathSoFar (h : t.Layered) (pathSoFar : FPath) {e : FPath × α} :
    e ∈ t.forEachPathSoFar pathSoFar ↔
      ∃ q, e.1 = pathSoFar ++ q ∧ t.valueAtPath q = some e.2 := by
  induction h generalizing pathSoFar with
  | value v =>
      show e ∈ (ofValue v).forEachPathSoFar pathSoFar ↔ _
      rw [forEachPathSoFar_ofValue, List.mem_singleton]
      constructor
      · rintro rfl
        exact ⟨[], (List.append_nil _).symm, rfl⟩
      · rintro ⟨q, hq, hv⟩
        rw [show tree (some v) [] = ofValue v from rfl, valueAtPath_ofValue] at hv
        split at hv
        · rename_i hnil
          rw [hnil, List.append_nil] at hq
          exact Prod.ext hq (Option.some.inj hv).symm
        · cases hv
  | children sorted nonempty layered ih =>
      rename_i cs
      have ht : (tree none cs).Layered := .children sorted nonempty layered
      rw [forEachPathSoFar_none, forEachChildren_eq, List.mem_flatMap]
      constructor
      · rintro ⟨c, hc, he⟩
        obtain ⟨q, hq, hv⟩ := (ih c hc (pathSoFar ++ [c.1])).mp he
        refine ⟨c.1 :: q, ?_, ?_⟩
        · rw [hq, List.append_assoc, List.singleton_append]
        · rw [valueAtPath_cons, (ht.mem_children_iff.mp hc).1, hv]
      · rintro ⟨q, hq, hv⟩
        cases q with
        | nil => cases hv
        | cons key q =>
            rw [valueAtPath_cons] at hv
            have hempty : ((tree none cs).child key).isEmpty = false := by
              refine Bool.eq_false_iff.mpr fun hempty => ?_
              rw [eq_empty_of_isEmpty hempty, valueAtPath_empty] at hv
              cases hv
            have hc := ht.mem_children_iff.mpr ⟨rfl, hempty⟩
            refine ⟨_, hc, (ih _ hc (pathSoFar ++ [key])).mpr ⟨q, ?_, hv⟩⟩
            rw [hq, List.append_assoc, List.singleton_append]

theorem Layered.mem_forEach (h : t.Layered) {e : FPath × α} :
    e ∈ t.forEach ↔ t.valueAtPath e.1 = some e.2 := by
  rw [forEach, h.mem_forEachPathSoFar]
  constructor
  · rintro ⟨q, hq, hv⟩
    rw [hq]
    exact hv
  · intro hv
    exact ⟨e.1, rfl, hv⟩

/-- No value comes below another. -/
theorem Layered.forEach_beside (h : t.Layered) (pathSoFar : FPath) :
    (t.forEachPathSoFar pathSoFar).Pairwise fun a b => LeafWrites.Beside a.1 b.1 := by
  induction h generalizing pathSoFar with
  | value v =>
      show ((ofValue v).forEachPathSoFar pathSoFar).Pairwise _
      rw [forEachPathSoFar_ofValue]
      exact List.pairwise_singleton ..
  | children sorted nonempty layered ih =>
      rw [forEachPathSoFar_none, forEachChildren_eq, List.pairwise_flatMap]
      refine ⟨fun c hc => ih c hc (pathSoFar ++ [c.1]), ?_⟩
      refine (List.pairwise_iff_forall_sublist.mpr fun {c c'} hsub => ?_)
      have hlt := List.pairwise_iff_forall_sublist.mp sorted hsub
      have hkeys : c.1 ≠ c'.1 := by
        intro heq
        have hself : stringComparator c.1 c.1 = .eq := Std.ReflCmp.compare_self
        rw [← heq, hself] at hlt
        cases hlt
      intro e he e' he'
      have hc := hsub.subset List.mem_cons_self
      have hc' := hsub.subset (List.mem_cons_of_mem _ List.mem_cons_self)
      obtain ⟨q, hq, -⟩ := ((layered c hc).mem_forEachPathSoFar _).mp he
      obtain ⟨q', hq', -⟩ := ((layered c' hc').mem_forEachPathSoFar _).mp he'
      rw [hq, hq', List.append_assoc, List.append_assoc, LeafWrites.beside_append_iff]
      constructor
      · intro hpre
        exact hkeys (List.cons_prefix_cons.mp hpre).1
      · intro hpre
        exact hkeys (List.cons_prefix_cons.mp hpre).1.symm

theorem Layered.nodup_forEach (h : t.Layered) : t.forEach.Nodup := by
  refine (h.forEach_beside []).imp ?_
  rintro a _ hbeside rfl
  exact hbeside.1 List.prefix_rfl

/-- The values are listed by any list that has each of them once. -/
theorem Layered.forEach_perm (h : t.Layered) {values : List (FPath × α)} (hnodup : values.Nodup)
    (hmem : ∀ e, e ∈ values ↔ t.valueAtPath e.1 = some e.2) : t.forEach.Perm values := by
  refine (List.perm_ext_iff_of_nodup h.nodup_forEach hnodup).mpr fun e => ?_
  rw [h.mem_forEach, hmem]

/-! ## Changes of a layered tree -/

theorem Layered.insert {cs : List (PathKey × FImmutableTree α)} {c : FImmutableTree α}
    (h : (tree none cs).Layered) (hc : c.Layered) (hempty : c.isEmpty = false) :
    (tree none (SortedEntries.insert stringComparator key c cs)).Layered := by
  cases h with
  | children sorted nonempty layered =>
      refine .children (sorted_insert sorted) (fun e he => ?_) fun e he => ?_
      · rcases mem_insert he with rfl | he
        · exact hempty
        · exact nonempty e he
      · rcases mem_insert he with rfl | he
        · exact hc
        · exact layered e he

theorem Layered.erase {cs : List (PathKey × FImmutableTree α)} (h : (tree none cs).Layered) :
    (tree none (SortedEntries.erase stringComparator key cs)).Layered := by
  cases h with
  | children sorted nonempty layered =>
      exact .children (sorted_erase sorted) (fun e he => nonempty e (List.mem_of_mem_filter he))
        fun e he => layered e (List.mem_of_mem_filter he)

theorem isEmpty_eq_false_of_value (h : t.valueAtPath p = some v) : t.isEmpty = false := by
  refine Bool.eq_false_iff.mpr fun hempty => ?_
  rw [eq_empty_of_isEmpty hempty, valueAtPath_empty] at h
  cases h

theorem Layered.setValue (h : t.Layered) (hw : t.valueAtPath p = some w) :
    (t.setValue v p).Layered := by
  induction p generalizing t with
  | nil =>
      rw [h.eq_ofValue hw]
      exact .value v
  | cons front rest ih =>
      rw [valueAtPath_cons] at hw
      cases h with
      | value u =>
          rw [show (tree (some u) []).child front = FImmutableTree.empty from rfl,
            valueAtPath_empty] at hw
          cases hw
      | children sorted nonempty layered =>
          rename_i cs
          have ht : (tree none cs).Layered := .children sorted nonempty layered
          refine ht.insert (ih ht.child hw) ?_
          have hset := valueAtPath_setValue (t := (tree none cs).child front) (v := v) (p := rest)
            (q := rest)
          rw [if_pos rfl] at hset
          exact isEmpty_eq_false_of_value hset

theorem isEmpty_setTree_empty (h : newTree.isEmpty = true) :
    ((FImmutableTree.empty : FImmutableTree α).setTree newTree p).isEmpty = true := by
  induction p with
  | nil => exact h
  | cons front rest ih =>
      rw [setTree, child_empty, if_pos ih]
      rfl

/-- A tree is put below no value, unless it is empty. -/
theorem Layered.setTree (h : t.Layered) (hnew : newTree.Layered)
    (hfree : newTree.isEmpty = true ∨ t.findRootMostValueAndPath p = none) :
    (t.setTree newTree p).Layered := by
  induction p generalizing t with
  | nil => exact hnew
  | cons front rest ih =>
      cases h with
      | value u =>
          rcases hfree with hempty | hnone
          · have hmade := isEmpty_setTree_empty (p := rest) hempty
            rw [FImmutableTree.setTree]
            show (tree (some u) (if (FImmutableTree.empty.setTree newTree rest).isEmpty then _
              else _)).Layered
            rw [if_pos hmade]
            exact .value u
          · cases hnone
      | children sorted nonempty layered =>
          rename_i cs
          have ht : (tree none cs).Layered := .children sorted nonempty layered
          have hfree' : newTree.isEmpty = true ∨
              ((tree none cs).child front).findRootMostValueAndPath rest = none := by
            refine hfree.imp_right fun hnone => ?_
            rw [findRootMostValueAndPath_cons rfl] at hnone
            exact Option.map_eq_none_iff.mp hnone
          have hchild := ih ht.child hfree'
          rw [FImmutableTree.setTree]
          show (tree none (if _ then _ else _)).Layered
          split
          · exact ht.erase
          · rename_i hempty
            exact ht.insert hchild (Bool.eq_false_iff.mpr hempty)

end FImmutableTree

end VkClient
