import VkClient.KeyComparator
import VkClient.LeafWrites

/-!
# Nodes and their paths

A node of the database is a leaf with a value, or it has children, in the
order of their keys; either can have a priority. `updateChild` puts a node at
a path, making what is missing on the way and leaving out what becomes empty,
so that no node has an empty child.

`updateChild_spec` says what that does to every path, in the words of
`LeafWrites`: a path that goes through a leaf takes the leaf's place, unless
there is nothing to put.
-/

namespace VkClient

/-- A minus sign with zeroes: what `compareKey` takes for zeroes. -/
def MinusZero (units : List UInt16) : Prop :=
  2 ≤ units.length ∧ units = 0x2D :: List.replicate (units.length - 1) 0x30

instance (units : List UInt16) : Decidable (MinusZero units) :=
  inferInstanceAs (Decidable (_ ∧ _))

/-- The keys of a path that the comparators tell apart. -/
abbrev PathKey := {units : List UInt16 // ¬MinusZero units}

abbrev FPath := List PathKey

namespace PathKey

/-- ".priority" -/
def priority : PathKey := ⟨[0x2E, 0x70, 0x72, 0x69, 0x6F, 0x72, 0x69, 0x74, 0x79], by decide⟩

/-- "a" and "b" -/
def a : PathKey := ⟨[0x61], by decide⟩

def b : PathKey := ⟨[0x62], by decide⟩

end PathKey

namespace FUtilities

def keyComparator (a b : PathKey) : Ordering := compareKey (.name a.1) (.name b.1)

theorem minusZero_of_spellsZero {a : List UInt16} {b : FKey} (h : SpellsZero (.name a) b) :
    MinusZero a := by
  obtain ⟨n, hpos, -, ha, -⟩ := h
  obtain rfl := FKey.name.inj ha
  simp [MinusZero]
  omega

instance : Std.TransCmp keyComparator where
  eq_swap {a b} := by
    show compareKey (.name a.1) (.name b.1) = (compareKey (.name b.1) (.name a.1)).swap
    exact Std.OrientedCmp.eq_swap
  isLE_trans {a b c} hab hbc := by
    show (compareKey (.name a.1) (.name c.1)).isLE = true
    exact Std.TransCmp.isLE_trans hab hbc

instance : Std.LawfulEqCmp keyComparator where
  compare_self {a} := by
    show compareKey (.name a.1) (.name a.1) = .eq
    exact Std.ReflCmp.compare_self
  eq_of_compare {a b} h := by
    rcases eq_or_spellsZero h with heq | hzero | hzero
    · exact Subtype.ext (FKey.name.inj heq)
    · exact absurd (minusZero_of_spellsZero hzero) a.2
    · exact absurd (minusZero_of_spellsZero hzero) b.2

end FUtilities

/-- A priority is a value, if there is one. -/
inductive FNode (ν : Type*) where
  | leaf (value : ν) (priorityNode : Option ν)
  | children (priorityNode : Option ν) (cs : List (PathKey × FNode ν))

namespace FNode

open SortedEntries FUtilities

variable {ν : Type*}

def emptyNode : FNode ν := .children none []

def isEmpty : FNode ν → Bool
  | .leaf _ _ => false
  | .children _ cs => cs.isEmpty

/-- The node of a priority. -/
def ofPriority : Option ν → FNode ν
  | none => emptyNode
  | some value => .leaf value none

/-- The priority that a node makes: `validatePriorityNode` lets through
leaves and the empty node. -/
def asPriority : FNode ν → Option ν
  | .leaf value _ => some value
  | .children _ _ => none

def getPriority : FNode ν → FNode ν
  | .leaf _ priorityNode => ofPriority priorityNode
  | .children priorityNode _ => ofPriority priorityNode

def updatePriority (node : FNode ν) (priority : FNode ν) : FNode ν :=
  match node with
  | .leaf value _ => .leaf value priority.asPriority
  | .children _ cs => if cs.isEmpty then emptyNode else .children priority.asPriority cs

def getImmediateChild (node : FNode ν) (childName : PathKey) : FNode ν :=
  if childName = .priority then node.getPriority
  else
    match node with
    | .leaf _ _ => emptyNode
    | .children _ cs => (find keyComparator childName cs).getD emptyNode

/-- `FChildrenNode.updateImmediateChild`, of the children and the priority. -/
def updateChildren (priorityNode : Option ν) (cs : List (PathKey × FNode ν))
    (childName : PathKey) (newChildNode : FNode ν) : FNode ν :=
  let newChildren :=
    if newChildNode.isEmpty then erase keyComparator childName cs
    else insert keyComparator childName newChildNode cs
  if newChildren.isEmpty then emptyNode else .children priorityNode newChildren

def updateImmediateChild (node : FNode ν) (childName : PathKey) (newChildNode : FNode ν) :
    FNode ν :=
  if childName = .priority then node.updatePriority newChildNode
  else
    match node with
    | .leaf _ priorityNode =>
        if newChildNode.isEmpty then node
        else (updateChildren none [] childName newChildNode).updatePriority (ofPriority priorityNode)
    | .children priorityNode cs => updateChildren priorityNode cs childName newChildNode

def getChild (node : FNode ν) : FPath → FNode ν
  | [] => node
  | front :: rest =>
      match node with
      | .leaf _ priorityNode => if front = .priority then ofPriority priorityNode else emptyNode
      | .children _ _ => (node.getImmediateChild front).getChild rest

def updateChild (node : FNode ν) : FPath → FNode ν → FNode ν
  | [], newChildNode => newChildNode
  | front :: rest, newChildNode =>
      match node with
      | .leaf _ _ =>
          if newChildNode.isEmpty ∧ front ≠ .priority then node
          else node.updateImmediateChild front (emptyNode.updateChild rest newChildNode)
      | .children _ _ =>
          node.updateImmediateChild front
            ((node.getImmediateChild front).updateChild rest newChildNode)

/-- The children are in order, none of them is empty, and a node without
children has no priority. -/
inductive Canonical : FNode ν → Prop
  | leaf (value : ν) (priorityNode : Option ν) : Canonical (.leaf value priorityNode)
  | children {priorityNode : Option ν} {cs : List (PathKey × FNode ν)}
      (sorted : Sorted keyComparator cs)
      (keys : ∀ e ∈ cs, e.1 ≠ .priority)
      (nonempty : ∀ e ∈ cs, e.2.isEmpty = false)
      (canonical : ∀ e ∈ cs, Canonical e.2)
      (priority : cs = [] → priorityNode = none) :
      Canonical (.children priorityNode cs)

/-- A path that names no priority. -/
def Plain (path : FPath) : Prop := PathKey.priority ∉ path

instance (path : FPath) : Decidable (Plain path) := inferInstanceAs (Decidable (_ ∉ path))

def value : FNode ν → Option ν
  | .leaf value _ => some value
  | .children _ _ => none

/-- The values of the leaves, priorities left out. -/
def leaves (node : FNode ν) : LeafWrites.Leaves PathKey ν := fun path =>
  if PathKey.priority ∈ path then none else (node.getChild path).value

variable {node newChildNode : FNode ν} {front key : PathKey} {path rest : FPath}

/-! ## The empty node -/

theorem Canonical.emptyNode : Canonical (emptyNode : FNode ν) :=
  .children List.Pairwise.nil nofun nofun nofun fun _ => rfl

theorem Canonical.eq_emptyNode (h : node.Canonical) (hempty : node.isEmpty = true) :
    node = FNode.emptyNode := by
  cases h with
  | leaf => cases hempty
  | children _ _ _ _ priority =>
      obtain rfl := List.isEmpty_iff.mp hempty
      rw [priority rfl]
      rfl

theorem canonical_ofPriority (priorityNode : Option ν) : (ofPriority priorityNode).Canonical := by
  cases priorityNode with
  | none => exact .emptyNode
  | some value => exact .leaf value none

theorem getImmediateChild_emptyNode : (emptyNode : FNode ν).getImmediateChild key = emptyNode := by
  unfold getImmediateChild
  split <;> rfl

theorem getChild_emptyNode : (emptyNode : FNode ν).getChild path = emptyNode := by
  induction path with
  | nil => rfl
  | cons front rest ih =>
      show (emptyNode.getImmediateChild front).getChild rest = _
      rw [getImmediateChild_emptyNode, ih]

theorem isEmpty_updateChild_emptyNode (h : newChildNode.isEmpty = true) :
    ((emptyNode : FNode ν).updateChild path newChildNode).isEmpty = true := by
  induction path with
  | nil => exact h
  | cons front rest ih =>
      show (emptyNode.updateImmediateChild front
        ((emptyNode.getImmediateChild front).updateChild rest newChildNode)).isEmpty = true
      rw [getImmediateChild_emptyNode]
      show (if front = .priority then _ else updateChildren none [] front _).isEmpty = true
      split
      · rfl
      · rw [updateChildren, if_pos ih]
        rfl

/-! ## One key of a path -/

theorem getChild_cons (h : front ≠ .priority) :
    node.getChild (front :: rest) = (node.getImmediateChild front).getChild rest := by
  cases node with
  | leaf value priorityNode =>
      rw [getChild, if_neg h, getImmediateChild, if_neg h, getChild_emptyNode]
  | children priorityNode cs => rfl

theorem updateChild_cons (h : front ≠ .priority) :
    node.updateChild (front :: rest) newChildNode =
      node.updateImmediateChild front
        ((node.getImmediateChild front).updateChild rest newChildNode) := by
  cases node with
  | leaf value priorityNode =>
      have himmediate : (FNode.leaf value priorityNode).getImmediateChild front = emptyNode :=
        if_neg h
      rw [updateChild, himmediate]
      split
      · rename_i hnew
        have hempty : ((emptyNode : FNode ν).updateChild rest newChildNode).isEmpty = true :=
          isEmpty_updateChild_emptyNode hnew.1
        rw [updateImmediateChild, if_neg h]
        exact (if_pos hempty).symm
      · rfl
  | children priorityNode cs => rfl

theorem Canonical.getImmediateChild (h : node.Canonical) :
    (node.getImmediateChild key).Canonical := by
  unfold FNode.getImmediateChild
  split
  · cases node with
    | leaf value priorityNode => exact canonical_ofPriority priorityNode
    | children priorityNode cs => exact canonical_ofPriority priorityNode
  · cases node with
    | leaf value priorityNode => exact .emptyNode
    | children priorityNode cs =>
        cases h with
        | children sorted _ _ canonical _ =>
            show ((find keyComparator key cs).getD FNode.emptyNode).Canonical
            cases hfind : find keyComparator key cs with
            | none => exact .emptyNode
            | some child => exact canonical _ ((find_eq_some_iff_mem sorted).mp hfind)

theorem Canonical.updatePriority (h : node.Canonical) (priority : FNode ν) :
    (node.updatePriority priority).Canonical := by
  cases h with
  | leaf value => exact .leaf value _
  | children sorted keys nonempty canonical _ =>
      rename_i cs _
      show Canonical (if cs.isEmpty then FNode.emptyNode else .children priority.asPriority cs)
      split
      · exact .emptyNode
      · rename_i hcs
        exact .children sorted keys nonempty canonical fun hnil =>
          absurd (List.isEmpty_iff.mpr hnil) hcs

theorem canonical_updateChildren {priorityNode : Option ν} {cs : List (PathKey × FNode ν)}
    (h : (FNode.children priorityNode cs).Canonical) (hfront : front ≠ .priority)
    (hnew : newChildNode.Canonical) :
    (updateChildren priorityNode cs front newChildNode).Canonical := by
  cases h with
  | children sorted keys nonempty canonical _ =>
      unfold updateChildren
      cases hempty : newChildNode.isEmpty with
      | true =>
          simp only [if_true]
          have hmem : ∀ e ∈ SortedEntries.erase keyComparator front cs, e ∈ cs :=
            fun e he => List.mem_of_mem_filter he
          split
          · exact .emptyNode
          · rename_i hchildren
            exact .children (sorted_erase sorted) (fun e he => keys e (hmem e he))
              (fun e he => nonempty e (hmem e he)) (fun e he => canonical e (hmem e he))
              fun hnil => absurd (List.isEmpty_iff.mpr hnil) hchildren
      | false =>
          have hne : insert keyComparator front newChildNode cs ≠ [] := insert_ne_nil
          simp only [Bool.false_eq_true, if_false, List.isEmpty_iff, hne]
          refine .children (sorted_insert sorted) (fun e he => ?_) (fun e he => ?_)
            (fun e he => ?_) fun hnil => absurd hnil hne
          · rcases mem_insert he with rfl | he
            · exact hfront
            · exact keys e he
          · rcases mem_insert he with rfl | he
            · exact hempty
            · exact nonempty e he
          · rcases mem_insert he with rfl | he
            · exact hnew
            · exact canonical e he

/-- The children of a leaf that gets a child. -/
theorem updateChildren_nil (hempty : newChildNode.isEmpty = false) :
    updateChildren none [] front newChildNode = .children none [(front, newChildNode)] := by
  simp [updateChildren, hempty, insertWith]

theorem Canonical.updateImmediateChild (h : node.Canonical) (hnew : newChildNode.Canonical) :
    (node.updateImmediateChild front newChildNode).Canonical := by
  unfold FNode.updateImmediateChild
  split
  · exact h.updatePriority newChildNode
  · rename_i hfront
    cases node with
    | leaf value priorityNode =>
        show Canonical (if newChildNode.isEmpty = true then FNode.leaf value priorityNode else _)
        split
        · exact h
        · exact (canonical_updateChildren .emptyNode hfront hnew).updatePriority _
    | children priorityNode cs => exact canonical_updateChildren h hfront hnew

theorem getImmediateChild_leaf {value : ν} {priorityNode : Option ν} (h : key ≠ .priority) :
    (leaf value priorityNode).getImmediateChild key = emptyNode :=
  if_neg h

theorem getImmediateChild_children {priorityNode : Option ν} {cs : List (PathKey × FNode ν)}
    (h : key ≠ .priority) :
    (children priorityNode cs).getImmediateChild key =
      (find keyComparator key cs).getD emptyNode :=
  if_neg h

theorem getImmediateChild_updateChildren {priorityNode : Option ν}
    {cs : List (PathKey × FNode ν)} (hnew : newChildNode.Canonical) (hkey : key ≠ .priority) :
    (updateChildren priorityNode cs front newChildNode).getImmediateChild key =
      if key = front then newChildNode else (find keyComparator key cs).getD emptyNode := by
  have hfind : ∀ newChildren : List (PathKey × FNode ν),
      (if newChildren.isEmpty then emptyNode
        else children priorityNode newChildren).getImmediateChild key =
      (find keyComparator key newChildren).getD emptyNode := by
    intro newChildren
    cases newChildren with
    | nil => exact getImmediateChild_emptyNode
    | cons e newChildren => exact getImmediateChild_children hkey
  rw [updateChildren, hfind]
  cases hempty : newChildNode.isEmpty with
  | true =>
      rw [if_pos rfl, find_erase_key, hnew.eq_emptyNode hempty]
      split <;> rfl
  | false =>
      rw [if_neg Bool.false_ne_true, find_insert]
      split <;> rfl

/-- What a child is after a child is put. -/
theorem getImmediateChild_updateImmediateChild (hnew : newChildNode.Canonical)
    (hfront : front ≠ .priority) (hkey : key ≠ .priority) :
    (node.updateImmediateChild front newChildNode).getImmediateChild key =
      if key = front then newChildNode else node.getImmediateChild key := by
  unfold updateImmediateChild
  rw [if_neg hfront]
  cases node with
  | leaf value priorityNode =>
      simp only [getImmediateChild_leaf hkey]
      cases hempty : newChildNode.isEmpty with
      | true =>
          rw [if_pos rfl, getImmediateChild_leaf hkey, hnew.eq_emptyNode hempty, ite_self]
      | false =>
          rw [if_neg Bool.false_ne_true, updateChildren_nil hempty]
          show (children _ [(front, newChildNode)]).getImmediateChild key = _
          rw [getImmediateChild_children hkey]
          show (find keyComparator key (insert keyComparator front newChildNode [])).getD _ = _
          rw [find_insert]
          split <;> rfl
  | children priorityNode cs =>
      rw [getImmediateChild_children hkey]
      exact getImmediateChild_updateChildren hnew hkey

/-! ## Paths -/

theorem Canonical.getChild (h : node.Canonical) : (node.getChild path).Canonical := by
  induction path generalizing node with
  | nil => exact h
  | cons front rest ih =>
      cases node with
      | leaf value priorityNode =>
          rw [FNode.getChild]
          split
          · exact canonical_ofPriority priorityNode
          · exact .emptyNode
      | children priorityNode cs => exact ih h.getImmediateChild

theorem Canonical.updateChild (h : node.Canonical) (hnew : newChildNode.Canonical) :
    (node.updateChild path newChildNode).Canonical := by
  induction path generalizing node with
  | nil => exact hnew
  | cons front rest ih =>
      cases node with
      | leaf value priorityNode =>
          rw [FNode.updateChild]
          split
          · exact h
          · exact h.updateImmediateChild (ih .emptyNode)
      | children priorityNode cs => exact h.updateImmediateChild (ih h.getImmediateChild)

theorem Plain.head (h : Plain (front :: rest)) : front ≠ .priority :=
  fun heq => h (heq ▸ List.mem_cons_self)

theorem Plain.tail (h : Plain (front :: rest)) : Plain rest :=
  fun hmem => h (List.mem_cons_of_mem front hmem)

theorem Plain.of_append {p q : FPath} (h : Plain (p ++ q)) : Plain p ∧ Plain q :=
  ⟨fun hmem => h (List.mem_append_left q hmem), fun hmem => h (List.mem_append_right p hmem)⟩

theorem getChild_append {p q : FPath} (h : Plain p) :
    node.getChild (p ++ q) = (node.getChild p).getChild q := by
  induction p generalizing node with
  | nil => rfl
  | cons front rest ih =>
      rw [List.cons_append, getChild_cons h.head, getChild_cons h.head, ih h.tail]

/-- What is at or above the path of an update. -/
theorem getChild_updateChild_append {p q : FPath} (h : node.Canonical)
    (hnew : newChildNode.Canonical) (hp : Plain p) :
    (node.updateChild (p ++ q) newChildNode).getChild p =
      (node.getChild p).updateChild q newChildNode := by
  induction p generalizing node with
  | nil => rfl
  | cons front rest ih =>
      have hfront := hp.head
      have hchild : ((node.getImmediateChild front).updateChild (rest ++ q) newChildNode).Canonical :=
        h.getImmediateChild.updateChild hnew
      rw [List.cons_append, updateChild_cons hfront, getChild_cons hfront, getChild_cons hfront,
        getImmediateChild_updateImmediateChild hchild hfront hfront, if_pos rfl]
      exact ih h.getImmediateChild hp.tail

/-- What is beside the path of an update. -/
theorem getChild_updateChild_of_beside {p q : FPath} (h : node.Canonical)
    (hnew : newChildNode.Canonical) (hp : Plain p) (hq : Plain q) (hbeside : LeafWrites.Beside p q) :
    (node.updateChild p newChildNode).getChild q = node.getChild q := by
  induction p generalizing node q with
  | nil => exact absurd List.nil_prefix hbeside.1
  | cons front rest ih =>
      cases q with
      | nil => exact absurd List.nil_prefix hbeside.2
      | cons key q =>
          have hchild : ((node.getImmediateChild front).updateChild rest newChildNode).Canonical :=
            h.getImmediateChild.updateChild hnew
          rw [updateChild_cons hp.head, getChild_cons hq.head, getChild_cons hq.head,
            getImmediateChild_updateImmediateChild hchild hp.head hq.head]
          split
          · rename_i heq
            subst heq
            refine ih h.getImmediateChild hp.tail hq.tail ?_
            exact LeafWrites.beside_append_iff (r := [key]).mp hbeside
          · rfl

/-! ## The leaves -/

open LeafWrites (Leaves nothing write below Beside)

theorem leaves_of_plain (h : Plain path) : node.leaves path = (node.getChild path).value :=
  if_neg h

theorem leaves_of_not_plain (h : ¬Plain path) : node.leaves path = none :=
  if_pos (not_not.mp h)

theorem leaves_emptyNode : (emptyNode : FNode ν).leaves = nothing := by
  funext path
  rw [leaves, getChild_emptyNode]
  exact ite_self none

theorem leaves_getChild {p : FPath} (h : Plain p) : (node.getChild p).leaves = below node.leaves p := by
  funext q
  rw [LeafWrites.below_apply]
  by_cases hq : Plain q
  · have hpq : Plain (p ++ q) := fun hmem => (List.mem_append.mp hmem).elim h hq
    rw [leaves_of_plain hq, leaves_of_plain hpq, getChild_append h]
  · rw [leaves_of_not_plain hq, leaves_of_not_plain fun hpq => hq hpq.of_append.2]

theorem leaves_append {p q : FPath} (h : Plain p) :
    node.leaves (p ++ q) = (node.getChild p).leaves q :=
  (congrFun (leaves_getChild h) q).symm

/-- A node that is not empty has a leaf somewhere. -/
theorem Canonical.exists_leaf (h : node.Canonical) (hempty : node.isEmpty = false) :
    ∃ path, node.leaves path ≠ none := by
  induction h with
  | leaf value priorityNode => exact ⟨[], Option.some_ne_none value⟩
  | children sorted keys nonempty canonical _ ih =>
      rename_i priorityNode cs _
      cases cs with
      | nil => cases hempty
      | cons e cs =>
          have hkey := keys e List.mem_cons_self
          obtain ⟨path, hpath⟩ := ih e List.mem_cons_self (nonempty e List.mem_cons_self)
          have hchild : (FNode.children priorityNode (e :: cs)).getChild [e.1] = e.2 := by
            rw [getChild_cons hkey, getImmediateChild_children hkey,
              (find_eq_some_iff_mem sorted).mpr List.mem_cons_self]
            rfl
          refine ⟨[e.1] ++ path, ?_⟩
          have hplain : Plain [e.1] := fun hmem => hkey (List.mem_singleton.mp hmem).symm
          rw [leaves_append hplain, hchild]
          exact hpath

theorem Canonical.leaves_eq_nothing_iff (h : node.Canonical) :
    node.leaves = nothing ↔ node.isEmpty = true := by
  constructor
  · intro hleaves
    by_contra hempty
    obtain ⟨path, hpath⟩ := h.exists_leaf (Bool.eq_false_iff.mpr hempty)
    exact hpath (congrFun hleaves path)
  · intro hempty
    rw [h.eq_emptyNode hempty, leaves_emptyNode]

/-- A leaf gives way to a child that is not empty. -/
theorem value_updateChild (h : node.Canonical) (hnew : newChildNode.Canonical)
    (hpath : Plain (front :: rest)) :
    (node.updateChild (front :: rest) newChildNode).value =
      if newChildNode.isEmpty then node.value else none := by
  have hvalue : ∀ (priorityNode : Option ν) (cs : List (PathKey × FNode ν)) (child : FNode ν),
      (updateChildren priorityNode cs front child).value = none := by
    intro priorityNode cs child
    unfold updateChildren
    simp only
    split <;> split <;> rfl
  have hfront := hpath.head
  cases node with
  | leaf value priorityNode =>
      cases hempty : newChildNode.isEmpty with
      | true => rw [updateChild, if_pos ⟨hempty, hfront⟩, if_pos rfl]
      | false =>
          -- what is put is not empty, and neither is what is made for it
          have hchild : ((emptyNode : FNode ν).updateChild rest newChildNode).isEmpty = false := by
            refine Bool.eq_false_iff.mpr fun hmade => ?_
            have hcanonical : ((emptyNode : FNode ν).updateChild rest newChildNode).Canonical :=
              Canonical.emptyNode.updateChild hnew
            have hread := getChild_updateChild_append (q := []) Canonical.emptyNode hnew hpath.tail
            rw [List.append_nil, hcanonical.eq_emptyNode hmade, getChild_emptyNode] at hread
            rw [← show emptyNode = newChildNode from hread] at hempty
            cases hempty
          rw [updateChild, if_neg (by simp [hempty]), if_neg Bool.false_ne_true]
          unfold updateImmediateChild
          simp only [if_neg hfront, hchild, Bool.false_eq_true, if_false, updateChildren_nil hchild]
          rfl
  | children priorityNode cs =>
      have hnone : (children priorityNode cs : FNode ν).value = none := rfl
      rw [hnone, ite_self, updateChild_cons hfront]
      unfold updateImmediateChild
      rw [if_neg hfront]
      exact hvalue _ _ _

theorem leaves_updateChild {p : FPath} (h : node.Canonical) (hnew : newChildNode.Canonical)
    (hp : Plain p) :
    (node.updateChild p newChildNode).leaves = write p newChildNode.leaves node.leaves := by
  funext q
  rcases LeafWrites.below_or_above_or_beside p q with ⟨r, rfl⟩ | ⟨hq, hne⟩ | hq
  · have hread := getChild_updateChild_append (q := []) h hnew hp
    rw [List.append_nil] at hread
    rw [LeafWrites.write_append, leaves_append hp, hread]
    rfl
  · obtain ⟨r, rfl⟩ := hq
    obtain ⟨hq, hr⟩ := hp.of_append
    rw [LeafWrites.write_above (List.prefix_append q r) hne, leaves_of_plain hq,
      getChild_updateChild_append h hnew hq]
    cases r with
    | nil => exact absurd (List.append_nil q).symm hne
    | cons front rest =>
        rw [value_updateChild h.getChild hnew hr, ← leaves_of_plain hq]
        simp only [hnew.leaves_eq_nothing_iff]
  · rw [LeafWrites.write_beside hq]
    by_cases hplain : Plain q
    · rw [leaves_of_plain hplain, leaves_of_plain hplain,
        getChild_updateChild_of_beside h hnew hp hplain hq]
    · rw [leaves_of_not_plain hplain, leaves_of_not_plain hplain]

end FNode

end VkClient
