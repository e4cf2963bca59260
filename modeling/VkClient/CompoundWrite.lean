import Mathlib.Data.List.Perm.Basic
import VkClient.ImmutableTree

/-!
# Compound writes

An `FCompoundWrite` keeps several writes as one: a later write at or below an
earlier one is made on what that one writes, and a later write above earlier
ones takes their place. Applied to a node it makes what is left of the
writes, in the order of their keys.

That is not always what the writes make one after another: a write that takes
the place of a leaf of the node, and is then taken back by a write of nothing
above it, leaves nothing in the compound write, and the leaf stays.
`applyToNode_addWrite` says that the two agree where no leaf stands above a
write, and `applyToNode_childCompoundWrite` that the part of a compound write
below a path does to what is below the path what the whole does to the whole.
-/

namespace VkClient

structure FCompoundWrite (ν : Type*) where
  writeTree : FImmutableTree (FNode ν)

/-- The exception where `inner` is not below `outer` is not reached: the
callers take `outer` from the way to `inner`. -/
def FPath.relativePathFrom (outer inner : FPath) : FPath := inner.drop outer.length

namespace FCompoundWrite

open FImmutableTree hiding value children empty isEmpty

variable {ν : Type*}

def emptyWrite : FCompoundWrite ν := ⟨.empty⟩

def addWrite (w : FCompoundWrite ν) (node : FNode ν) (path : FPath) : FCompoundWrite ν :=
  if path.isEmpty then ⟨.ofValue node⟩
  else
    match w.writeTree.findRootMostValueAndPath path with
    | some (rootPath, value) =>
        let value := value.updateChild (FPath.relativePathFrom rootPath path) node
        ⟨w.writeTree.setValue value rootPath⟩
    | none => ⟨w.writeTree.setTree (.ofValue node) path⟩

def addCompoundWrite (w compoundWrite : FCompoundWrite ν) (path : FPath) : FCompoundWrite ν :=
  compoundWrite.writeTree.forEach.foldl
    (fun newWrite e => newWrite.addWrite e.2 (path ++ e.1)) w

def removeWriteAtPath (w : FCompoundWrite ν) (path : FPath) : FCompoundWrite ν :=
  if path.isEmpty then emptyWrite else ⟨w.writeTree.setTree .empty path⟩

def completeNodeAtPath (w : FCompoundWrite ν) (path : FPath) : Option (FNode ν) :=
  (w.writeTree.findRootMostValueAndPath path).map fun rootMost =>
    rootMost.2.getChild (FPath.relativePathFrom rootMost.1 path)

def hasCompleteWriteAtPath (w : FCompoundWrite ν) (path : FPath) : Bool :=
  (w.completeNodeAtPath path).isSome

def childCompoundWriteAtPath (w : FCompoundWrite ν) (path : FPath) : FCompoundWrite ν :=
  if path.isEmpty then w
  else
    match w.completeNodeAtPath path with
    | some shadowingNode => ⟨.ofValue shadowingNode⟩
    | none => ⟨w.writeTree.subtreeAtPath path⟩

mutual

def applySubtreeWrite (relativePath : FPath) (node : FNode ν) :
    FImmutableTree (FNode ν) → FNode ν
  | .tree (some value) _ => node.updateChild relativePath value
  | .tree none cs =>
      let (blockNode, priorityWrite) := applyChildren relativePath node none cs
      match priorityWrite with
      | none => blockNode
      | some priority =>
          -- a priority is written at the end, and only where there is something
          if (blockNode.getChild relativePath).isEmpty then blockNode
          else blockNode.updateChild (relativePath ++ [.priority]) priority

def applyChildren (relativePath : FPath) (blockNode : FNode ν) (priorityWrite : Option (FNode ν)) :
    List (PathKey × FImmutableTree (FNode ν)) → FNode ν × Option (FNode ν)
  | [] => (blockNode, priorityWrite)
  | (childKey, childTree) :: cs =>
      if childKey = .priority then applyChildren relativePath blockNode childTree.value cs
      else
        applyChildren relativePath
          (applySubtreeWrite (relativePath ++ [childKey]) blockNode childTree) priorityWrite cs

end

def applyToNode (w : FCompoundWrite ν) (node : FNode ν) : FNode ν :=
  applySubtreeWrite [] node w.writeTree

def isEmpty (w : FCompoundWrite ν) : Bool := w.writeTree.isEmpty

/-- The writes are at the ends of the tree, name no priority, and write
canonical nodes. -/
structure Sound (w : FCompoundWrite ν) : Prop where
  layered : w.writeTree.Layered
  plain : ∀ {path node}, w.writeTree.valueAtPath path = some node → FNode.Plain path
  canonical : ∀ {path node}, w.writeTree.valueAtPath path = some node → node.Canonical

variable {w w' : FCompoundWrite ν} {node base : FNode ν} {path p q r : FPath}

/-! ## What a write adds -/

theorem relativePathFrom_append : FPath.relativePathFrom p (p ++ q) = q := List.drop_left ..

theorem addWrite_of_value (hw : w.Sound) {value : FNode ν}
    (h : w.writeTree.valueAtPath r = some value) :
    w.addWrite node (r ++ q) = ⟨w.writeTree.setValue (value.updateChild q node) r⟩ := by
  have hroot := hw.layered.findRootMostValueAndPath h (List.prefix_append r q)
  rw [addWrite]
  split
  · rename_i hempty
    obtain ⟨rfl, rfl⟩ := List.append_eq_nil_iff.mp (List.isEmpty_iff.mp hempty)
    rw [hw.layered.eq_ofValue h]
    rfl
  · rw [hroot]
    simp only [relativePathFrom_append]

theorem addWrite_of_none (h : w.writeTree.findRootMostValueAndPath path = none) :
    w.addWrite node path = ⟨w.writeTree.setTree (.ofValue node) path⟩ := by
  rw [addWrite]
  split
  · rename_i hempty
    rw [List.isEmpty_iff.mp hempty]
    rfl
  · rw [h]

theorem Sound.emptyWrite : (emptyWrite : FCompoundWrite ν).Sound where
  layered := .empty
  plain h := by
    rw [show (FCompoundWrite.emptyWrite : FCompoundWrite ν).writeTree = .empty from rfl,
      valueAtPath_empty] at h
    cases h
  canonical h := by
    rw [show (FCompoundWrite.emptyWrite : FCompoundWrite ν).writeTree = .empty from rfl,
      valueAtPath_empty] at h
    cases h

/-- A path has a value on its way, or it has none. -/
theorem exists_value_or_none (w : FCompoundWrite ν) (path : FPath) :
    (∃ r q value, path = r ++ q ∧ w.writeTree.valueAtPath r = some value) ∨
      w.writeTree.findRootMostValueAndPath path = none := by
  cases h : w.writeTree.findRootMostValueAndPath path with
  | none => exact .inr rfl
  | some rootMost =>
      obtain ⟨⟨q, hq⟩, hvalue⟩ := eq_some_of_findRootMostValueAndPath h
      exact .inl ⟨rootMost.1, q, rootMost.2, hq.symm, hvalue⟩

theorem valueAtPath_setTree_ofValue (t : FImmutableTree (FNode ν)) :
    (t.setTree (.ofValue node) path).valueAtPath q =
      if q = path then some node else if path <+: q then none else t.valueAtPath q := by
  by_cases hpre : path <+: q
  · obtain ⟨s, rfl⟩ := hpre
    rw [valueAtPath_setTree_append, valueAtPath_ofValue]
    by_cases hs : s = []
    · rw [if_pos hs, hs, List.append_nil, if_pos rfl]
    · rw [if_neg hs, if_neg fun h => hs (List.append_right_eq_self.mp h),
        if_pos (List.prefix_append path s)]
  · rw [valueAtPath_setTree_of_not_below hpre, if_neg hpre, if_neg]
    rintro rfl
    exact hpre List.prefix_rfl

theorem Sound.addWrite (hw : w.Sound) (hnode : node.Canonical) (hpath : FNode.Plain path) :
    (w.addWrite node path).Sound := by
  rcases w.exists_value_or_none path with ⟨r, q, value, rfl, hvalue⟩ | hnone
  · rw [addWrite_of_value hw hvalue]
    refine ⟨hw.layered.setValue hvalue, fun h => ?_, fun h => ?_⟩
    · rw [valueAtPath_setValue] at h
      split at h
      · rename_i heq
        exact heq ▸ hw.plain hvalue
      · exact hw.plain h
    · rw [valueAtPath_setValue] at h
      split at h
      · obtain rfl := Option.some.inj h
        exact (hw.canonical hvalue).updateChild hnode
      · exact hw.canonical h
  · rw [addWrite_of_none hnone]
    refine ⟨hw.layered.setTree (.value node) (.inr hnone), fun h => ?_, fun h => ?_⟩
    · rw [valueAtPath_setTree_ofValue] at h
      split at h
      · rename_i heq
        exact heq ▸ hpath
      · split at h
        · cases h
        · exact hw.plain h
    · rw [valueAtPath_setTree_ofValue] at h
      split at h
      · obtain rfl := Option.some.inj h
        exact hnode
      · split at h
        · cases h
        · exact hw.canonical h

/-! ## Applying the writes -/

open LeafWrites (Beside NoLeafAbove write writeAll)

/-- What the values write, in turn. -/
def entriesOf (values : List (FPath × FNode ν)) : LeafWrites.Entries PathKey ν :=
  values.map fun e => (e.1, e.2.leaves)

/-- To apply a tree of writes is to write its values in turn. -/
def Applies (relativePath : FPath) (t : FImmutableTree (FNode ν)) : Prop :=
  ∀ base : FNode ν, base.Canonical →
    (applySubtreeWrite relativePath base t).Canonical ∧
      (applySubtreeWrite relativePath base t).leaves =
        writeAll (entriesOf (t.forEachPathSoFar relativePath)) base.leaves

theorem applyChildren_spec {relativePath : FPath} {cs : List (PathKey × FImmutableTree (FNode ν))}
    (hkeys : ∀ c ∈ cs, c.1 ≠ .priority)
    (hcs : ∀ c ∈ cs, Applies (relativePath ++ [c.1]) c.2) (hbase : base.Canonical) :
    ∃ blockNode, applyChildren relativePath base none cs = (blockNode, none) ∧
      blockNode.Canonical ∧
      blockNode.leaves = writeAll (entriesOf (forEachChildren relativePath cs)) base.leaves := by
  induction cs generalizing base with
  | nil =>
      refine ⟨base, by rw [applyChildren], hbase, ?_⟩
      rw [forEachChildren]
      rfl
  | cons c cs ih =>
      obtain ⟨hcanonical, hleaves⟩ := hcs c List.mem_cons_self base hbase
      obtain ⟨blockNode, happly, hblock, hrest⟩ :=
        ih (fun c' hc' => hkeys c' (List.mem_cons_of_mem c hc'))
          (fun c' hc' => hcs c' (List.mem_cons_of_mem c hc')) hcanonical
      refine ⟨blockNode, ?_, hblock, ?_⟩
      · rw [applyChildren, if_neg (hkeys c List.mem_cons_self), happly]
      · rw [hrest, hleaves, forEachChildren, entriesOf, entriesOf, entriesOf, List.map_append,
          LeafWrites.writeAll_append]

theorem applies_of_layered {t : FImmutableTree (FNode ν)} {relativePath : FPath} (h : t.Layered)
    (hplain : ∀ {path node}, t.valueAtPath path = some node → FNode.Plain (relativePath ++ path))
    (hcanonical : ∀ {path node}, t.valueAtPath path = some node → node.Canonical) :
    Applies relativePath t := by
  induction h generalizing relativePath with
  | value value =>
      intro base hbase
      have hv : (FImmutableTree.ofValue value).valueAtPath [] = some value := rfl
      have hpath := hplain hv
      rw [List.append_nil] at hpath
      have hnew := hcanonical hv
      show (applySubtreeWrite relativePath base (.ofValue value)).Canonical ∧
        (applySubtreeWrite relativePath base (.ofValue value)).leaves =
          writeAll (entriesOf ((FImmutableTree.ofValue value).forEachPathSoFar relativePath))
            base.leaves
      rw [forEachPathSoFar_ofValue, FImmutableTree.ofValue, applySubtreeWrite]
      exact ⟨hbase.updateChild hnew, FNode.leaves_updateChild hbase hnew hpath⟩
  | children sorted nonempty layered ih =>
      rename_i cs
      have ht : (tree none cs).Layered := .children sorted nonempty layered
      have hvalue : ∀ c ∈ cs, ∀ {path node}, c.2.valueAtPath path = some node →
          (tree none cs).valueAtPath (c.1 :: path) = some node := by
        intro c hc path node hpath
        rw [valueAtPath_cons, (ht.mem_children_iff.mp hc).1, hpath]
      have hkeys : ∀ c ∈ cs, c.1 ≠ .priority := by
        intro c hc heq
        obtain ⟨path, node, hpath⟩ := (layered c hc).exists_value (nonempty c hc)
        refine hplain (hvalue c hc hpath) (List.mem_append_right _ ?_)
        rw [heq]
        exact List.mem_cons_self
      have hcs : ∀ c ∈ cs, Applies (relativePath ++ [c.1]) c.2 := by
        intro c hc
        refine ih c hc (fun hpath => ?_) fun hpath => hcanonical (hvalue c hc hpath)
        rw [List.append_assoc]
        exact hplain (hvalue c hc hpath)
      intro base hbase
      obtain ⟨blockNode, happly, hblock, hleaves⟩ := applyChildren_spec hkeys hcs hbase
      rw [applySubtreeWrite, happly, forEachPathSoFar_none]
      exact ⟨hblock, hleaves⟩

/-- The values of a compound write, in turn. -/
def entries (w : FCompoundWrite ν) : LeafWrites.Entries PathKey ν := entriesOf w.writeTree.forEach

theorem Sound.applyToNode (hw : w.Sound) (hbase : base.Canonical) :
    (w.applyToNode base).Canonical ∧ (w.applyToNode base).leaves = writeAll w.entries base.leaves :=
  applies_of_layered hw.layered hw.plain hw.canonical base hbase

theorem Sound.entries_beside (hw : w.Sound) : LeafWrites.AllBeside w.entries :=
  List.pairwise_map.mpr (hw.layered.forEach_beside [])

/-! ## One more write -/

theorem entriesOf_append (values values' : List (FPath × FNode ν)) :
    entriesOf (values ++ values') = entriesOf values ++ entriesOf values' :=
  List.map_append

theorem entries_perm {values : List (FPath × FNode ν)} (hperm : w.writeTree.forEach.Perm values) :
    w.entries.Perm (entriesOf values) :=
  hperm.map _

theorem Sound.writeAll_entries (hw : w.Sound) {values : List (FPath × FNode ν)}
    (hperm : w.writeTree.forEach.Perm values) (L : LeafWrites.Leaves PathKey ν) :
    writeAll w.entries L = writeAll (entriesOf values) L :=
  LeafWrites.writeAll_perm hw.entries_beside (entries_perm hperm)

/-- The values, the one at `r` first. -/
theorem Sound.forEach_perm_of_value (hw : w.Sound) {value : FNode ν}
    (h : w.writeTree.valueAtPath r = some value) :
    w.writeTree.forEach.Perm ((r, value) :: w.writeTree.forEach.filter (·.1 ≠ r)) := by
  refine hw.layered.forEach_perm ?_ fun e => ?_
  · exact List.nodup_cons.mpr ⟨by simp, hw.layered.nodup_forEach.filter _⟩
  · rw [List.mem_cons, List.mem_filter, hw.layered.mem_forEach]
    constructor
    · rintro (rfl | ⟨he, -⟩)
      · exact h
      · exact he
    · intro he
      by_cases heq : e.1 = r
      · rw [heq, h, Option.some.injEq] at he
        exact .inl (Prod.ext heq he.symm)
      · exact .inr ⟨he, by simpa using heq⟩

/-- A write at or below a value changes that value. -/
theorem Sound.forEach_addWrite_of_value (hw : w.Sound) {value : FNode ν}
    (hnode : node.Canonical) (hpath : FNode.Plain (r ++ q))
    (h : w.writeTree.valueAtPath r = some value) :
    (w.addWrite node (r ++ q)).writeTree.forEach.Perm
      ((r, value.updateChild q node) :: w.writeTree.forEach.filter (·.1 ≠ r)) := by
  refine (hw.addWrite hnode hpath).layered.forEach_perm ?_ fun e => ?_
  · exact List.nodup_cons.mpr ⟨by simp, hw.layered.nodup_forEach.filter _⟩
  · rw [addWrite_of_value hw h, valueAtPath_setValue, List.mem_cons, List.mem_filter,
      hw.layered.mem_forEach]
    by_cases heq : e.1 = r
    · rw [if_pos heq, Option.some.injEq]
      constructor
      · rintro (rfl | ⟨-, hne⟩)
        · rfl
        · simp [heq] at hne
      · intro hvalue
        exact .inl (Prod.ext heq hvalue.symm)
    · rw [if_neg heq]
      constructor
      · rintro (rfl | ⟨he, -⟩)
        · exact absurd rfl heq
        · exact he
      · intro he
        exact .inr ⟨he, by simpa using heq⟩

/-- A write where there is no value yet takes the place of those below it. -/
theorem Sound.forEach_addWrite_of_none (hw : w.Sound) (hnode : node.Canonical)
    (hpath : FNode.Plain path) (h : w.writeTree.findRootMostValueAndPath path = none) :
    (w.addWrite node path).writeTree.forEach.Perm
      ((path, node) :: w.writeTree.forEach.filter fun e => ¬path <+: e.1) := by
  refine (hw.addWrite hnode hpath).layered.forEach_perm ?_ fun e => ?_
  · exact List.nodup_cons.mpr ⟨by simp, hw.layered.nodup_forEach.filter _⟩
  · rw [addWrite_of_none h, valueAtPath_setTree_ofValue, List.mem_cons, List.mem_filter,
      hw.layered.mem_forEach]
    by_cases heq : e.1 = path
    · rw [if_pos heq, Option.some.injEq]
      constructor
      · rintro (rfl | ⟨-, hne⟩)
        · rfl
        · simp [heq] at hne
      · intro hvalue
        exact .inl (Prod.ext heq hvalue.symm)
    · rw [if_neg heq]
      by_cases hbelow : path <+: e.1
      · rw [if_pos hbelow]
        refine iff_of_false ?_ nofun
        rintro (rfl | ⟨-, hnot⟩)
        · exact heq rfl
        · simp [hbelow] at hnot
      · rw [if_neg hbelow]
        constructor
        · rintro (rfl | ⟨he, -⟩)
          · exact absurd rfl heq
          · exact he
        · intro he
          exact .inr ⟨he, by simpa using hbelow⟩

theorem Sound.beside_of_value (hw : w.Sound) {value : FNode ν}
    (h : w.writeTree.valueAtPath r = some value) :
    ∀ e ∈ entriesOf (w.writeTree.forEach.filter (·.1 ≠ r)), Beside r e.1 := by
  intro e he
  obtain ⟨s, hs, rfl⟩ := List.mem_map.mp he
  obtain ⟨hs, hne⟩ := List.mem_filter.mp hs
  exact hw.layered.beside h (hw.layered.mem_forEach.mp hs) fun heq => by simp [heq] at hne

theorem Sound.beside_of_none (hw : w.Sound)
    (h : w.writeTree.findRootMostValueAndPath path = none) :
    ∀ e ∈ entriesOf (w.writeTree.forEach.filter fun e => ¬path <+: e.1), Beside path e.1 := by
  intro e he
  obtain ⟨s, hs, rfl⟩ := List.mem_map.mp he
  obtain ⟨hs, hnot⟩ := List.mem_filter.mp hs
  refine ⟨by simpa using hnot, fun habove => ?_⟩
  have hnone := findRootMostValueAndPath_eq_none_iff.mp h s.1 habove
  rw [hw.layered.mem_forEach.mp hs] at hnone
  cases hnone

/-- The values below a path, and the others. -/
theorem forEach_split (w : FCompoundWrite ν) (path : FPath) :
    w.writeTree.forEach.Perm
      ((w.writeTree.forEach.filter fun e => path <+: e.1) ++
        w.writeTree.forEach.filter fun e => ¬path <+: e.1) := by
  simpa using (List.filter_append_perm (fun e => path <+: e.1) w.writeTree.forEach).symm

/-- No leaf of the node stands above a write. -/
def Clear (w : FCompoundWrite ν) (base : FNode ν) : Prop :=
  ∀ path node, w.writeTree.valueAtPath path = some node → NoLeafAbove base.leaves path

/-- One more write is one more update. -/
theorem applyToNode_addWrite (hw : w.Sound) (hnode : node.Canonical) (hpath : FNode.Plain path)
    (hbase : base.Canonical) (hclear : w.Clear base) (hleaf : NoLeafAbove base.leaves path) :
    ((w.addWrite node path).applyToNode base).leaves =
      ((w.applyToNode base).updateChild path node).leaves := by
  obtain ⟨hcanonical, hleaves⟩ := hw.applyToNode hbase
  rw [FNode.leaves_updateChild hcanonical hnode hpath, hleaves,
    ((hw.addWrite hnode hpath).applyToNode hbase).2]
  rcases w.exists_value_or_none path with ⟨r, q, value, rfl, hvalue⟩ | hnone
  · have hplain := hpath.of_append
    rw [(hw.addWrite hnode hpath).writeAll_entries (hw.forEach_addWrite_of_value hnode hpath hvalue),
      hw.writeAll_entries (hw.forEach_perm_of_value hvalue)]
    show writeAll ((r, (value.updateChild q node).leaves) :: entriesOf _) base.leaves =
      write (r ++ q) node.leaves (writeAll ((r, value.leaves) :: entriesOf _) base.leaves)
    rw [FNode.leaves_updateChild (hw.canonical hvalue) hnode hplain.2,
      LeafWrites.write_writeAll_of_below (hw.beside_of_value hvalue) (hclear r value hvalue)]
  · have hsplit := w.forEach_split path
    rw [(hw.addWrite hnode hpath).writeAll_entries (hw.forEach_addWrite_of_none hnode hpath hnone),
      hw.writeAll_entries hsplit, entriesOf_append]
    have hbeside : LeafWrites.AllBeside
        (entriesOf (w.writeTree.forEach.filter fun e => path <+: e.1) ++
          entriesOf (w.writeTree.forEach.filter fun e => ¬path <+: e.1)) := by
      rw [← entriesOf_append]
      exact hw.entries_beside.perm (entries_perm hsplit) fun h => h.symm
    have hunder : ∀ e ∈ entriesOf (w.writeTree.forEach.filter fun e => path <+: e.1),
        path <+: e.1 := by
      intro e he
      obtain ⟨s, hs, rfl⟩ := List.mem_map.mp he
      simpa using (List.mem_filter.mp hs).2
    exact (LeafWrites.write_writeAll_of_above hbeside hunder (hw.beside_of_none hnone) hleaf).symm

/-! ## All the writes -/

/-- More writes, kept with those there are. -/
def addAll (w : FCompoundWrite ν) (writes : List (FPath × FNode ν)) : FCompoundWrite ν :=
  writes.foldl (fun w e => w.addWrite e.2 e.1) w

/-- The writes kept as one. -/
def addWrites (writes : List (FPath × FNode ν)) : FCompoundWrite ν := emptyWrite.addAll writes

/-- The writes made one after another. -/
def updateAll (writes : List (FPath × FNode ν)) (base : FNode ν) : FNode ν :=
  writes.foldl (fun node e => node.updateChild e.1 e.2) base

variable {writes : List (FPath × FNode ν)}

theorem Sound.valueAtPath_addWrite (hw : w.Sound) {value : FNode ν}
    (h : (w.addWrite node path).writeTree.valueAtPath p = some value) :
    p = path ∨ ∃ value, w.writeTree.valueAtPath p = some value := by
  rcases w.exists_value_or_none path with ⟨r, q, value', rfl, hvalue⟩ | hnone
  · rw [addWrite_of_value hw hvalue, valueAtPath_setValue] at h
    split at h
    · rename_i heq
      exact .inr ⟨value', heq ▸ hvalue⟩
    · exact .inr ⟨value, h⟩
  · rw [addWrite_of_none hnone, valueAtPath_setTree_ofValue] at h
    split at h
    · exact .inl ‹_›
    · split at h
      · cases h
      · exact .inr ⟨value, h⟩

theorem addAll_append (writes' : List (FPath × FNode ν)) :
    w.addAll (writes ++ writes') = (w.addAll writes).addAll writes' :=
  List.foldl_append

theorem addWrites_concat (e : FPath × FNode ν) :
    addWrites (writes ++ [e]) = (addWrites writes).addWrite e.2 e.1 :=
  List.foldl_concat ..

theorem updateAll_concat (e : FPath × FNode ν) :
    updateAll (writes ++ [e]) base = (updateAll writes base).updateChild e.1 e.2 :=
  List.foldl_concat ..

/-- The values of many writes are at the paths of some of them. -/
theorem sound_addWrites (h : ∀ e ∈ writes, FNode.Plain e.1 ∧ e.2.Canonical) :
    (addWrites writes).Sound ∧
      ∀ path node, (addWrites writes).writeTree.valueAtPath path = some node →
        ∃ e ∈ writes, e.1 = path := by
  induction writes using List.reverseRecOn with
  | nil =>
      refine ⟨.emptyWrite, fun path node hvalue => ?_⟩
      exact absurd (Sound.emptyWrite.layered.mem_forEach (e := (path, node)) |>.mpr hvalue) nofun
  | append_singleton writes e ih =>
      obtain ⟨hsound, hpaths⟩ := ih fun e' he' => h e' (List.mem_append_left _ he')
      obtain ⟨hplain, hcanonical⟩ := h e (List.mem_append_right _ (List.mem_singleton_self e))
      rw [addWrites_concat]
      refine ⟨hsound.addWrite hcanonical hplain, fun path node hvalue => ?_⟩
      rcases hsound.valueAtPath_addWrite hvalue with rfl | ⟨value, hvalue⟩
      · exact ⟨e, List.mem_append_right _ (List.mem_singleton_self e), rfl⟩
      · obtain ⟨e', he', heq⟩ := hpaths path value hvalue
        exact ⟨e', List.mem_append_left _ he', heq⟩

theorem canonical_updateAll (h : ∀ e ∈ writes, e.2.Canonical) (hbase : base.Canonical) :
    (updateAll writes base).Canonical := by
  induction writes using List.reverseRecOn with
  | nil => exact hbase
  | append_singleton writes e ih =>
      rw [updateAll_concat]
      refine (ih fun e' he' => h e' (List.mem_append_left _ he')).updateChild ?_
      exact h e (List.mem_append_right _ (List.mem_singleton_self e))

/-- Below a leaf the two differ: a write that is taken back is forgotten, and
the leaf with it only where the writes are made one after another. -/
example :
    let writes : List (FPath × FNode Nat) :=
      [([.a, .b], .leaf 1 none), ([.a], FNode.emptyNode)]
    ((addWrites writes).applyToNode (.leaf 7 none)).leaves [] = some 7 ∧
      (updateAll writes (.leaf 7 none)).leaves [] = none := by
  decide

/-! ## The writes below a path -/

theorem forEach_subtreeAtPath (hw : w.Sound) :
    (w.writeTree.forEach.filter fun e => path <+: e.1).Perm
      ((w.writeTree.subtreeAtPath path).forEach.map fun e => (path ++ e.1, e.2)) := by
  have hsub := hw.layered.subtreeAtPath (p := path)
  refine (List.perm_ext_iff_of_nodup (hw.layered.nodup_forEach.filter _) ?_).mpr fun e => ?_
  · refine hsub.nodup_forEach.map ?_
    rintro ⟨q, v⟩ ⟨q', v'⟩ heq
    obtain ⟨hpath, rfl⟩ := Prod.mk.inj heq
    have hq : q = q' := List.append_cancel_left hpath
    rw [hq]
  · rw [List.mem_filter, hw.layered.mem_forEach, List.mem_map]
    constructor
    · rintro ⟨hvalue, hbelow⟩
      obtain ⟨q, hq⟩ : path <+: e.1 := by simpa using hbelow
      rw [← hq, valueAtPath_append] at hvalue
      exact ⟨(q, e.2), hsub.mem_forEach.mpr hvalue, Prod.ext hq rfl⟩
    · rintro ⟨⟨q, v⟩, hq, rfl⟩
      refine ⟨?_, by simp⟩
      rw [valueAtPath_append]
      exact hsub.mem_forEach.mp hq

theorem entriesOf_map_append (values : List (FPath × FNode ν)) :
    entriesOf (values.map fun e => (path ++ e.1, e.2)) =
      (entriesOf values).map fun e => (path ++ e.1, e.2) := by
  rw [entriesOf, entriesOf, List.map_map, List.map_map]
  rfl

theorem Sound.subtreeAtPath (hw : w.Sound) :
    (⟨w.writeTree.subtreeAtPath path⟩ : FCompoundWrite ν).Sound where
  layered := hw.layered.subtreeAtPath
  plain h := (hw.plain (valueAtPath_append.trans h)).of_append.2
  canonical h := hw.canonical (valueAtPath_append.trans h)

/-- The two have the same values wherever it is not below the path. -/
def AgreeOutside (p : FPath) (w w' : FCompoundWrite ν) : Prop :=
  ∀ q, ¬p <+: q → w.writeTree.valueAtPath q = w'.writeTree.valueAtPath q

theorem AgreeOutside.symm (h : AgreeOutside p w w') : AgreeOutside p w' w :=
  fun q hq => (h q hq).symm

theorem Sound.ext (hw : w.Sound) (hw' : w'.Sound)
    (h : ∀ q, w.writeTree.valueAtPath q = w'.writeTree.valueAtPath q) : w = w' := by
  obtain ⟨t⟩ := w
  obtain ⟨t'⟩ := w'
  rw [show t = t' from hw.layered.ext hw'.layered h]

/-- The value on the way to a path is the only one. -/
theorem Sound.value_unique (hw : w.Sound) {value value' : FNode ν} {s : FPath}
    (h : w.writeTree.valueAtPath r = some value) (h' : w.writeTree.valueAtPath s = some value')
    (hr : r <+: path) (hs : s <+: path) : r = s ∧ value = value' := by
  have hfound := hw.layered.findRootMostValueAndPath h hr
  rw [hw.layered.findRootMostValueAndPath h' hs] at hfound
  obtain ⟨hpath, hvalue⟩ := Prod.mk.inj (Option.some.inj hfound)
  exact ⟨hpath.symm, hvalue.symm⟩

/-- One of the two has a value on the way to a write and the other has none:
then the value is below the path, and so is the write. -/
theorem AgreeOutside.addWrite_of_value_of_none (h : AgreeOutside p w w') (hw : w.Sound)
    {value : FNode ν} (hvalue : w.writeTree.valueAtPath r = some value)
    (hnone : w'.writeTree.findRootMostValueAndPath (r ++ q) = none) :
    AgreeOutside p (w.addWrite node (r ++ q)) (w'.addWrite node (r ++ q)) := by
  have hr : p <+: r := by
    by_contra hr
    have hvalue' := findRootMostValueAndPath_eq_none_iff.mp hnone r (List.prefix_append r q)
    rw [← h r hr, hvalue] at hvalue'
    cases hvalue'
  have hbelow : p <+: r ++ q := hr.trans (List.prefix_append r q)
  intro s hs
  rw [addWrite_of_value hw hvalue, addWrite_of_none hnone, valueAtPath_setValue,
    valueAtPath_setTree_ofValue, if_neg, if_neg, if_neg]
  · exact h s hs
  · exact fun hpre => hs (hbelow.trans hpre)
  · rintro rfl
    exact hs hbelow
  · rintro rfl
    exact hs hr

/-- A write keeps the agreement. -/
theorem AgreeOutside.addWrite (h : AgreeOutside p w w') (hw : w.Sound) (hw' : w'.Sound) :
    AgreeOutside p (w.addWrite node path) (w'.addWrite node path) := by
  rcases w.exists_value_or_none path with ⟨r, q, value, rfl, hvalue⟩ | hnone
  · rcases w'.exists_value_or_none (r ++ q) with ⟨r', q', value', hpath, hvalue'⟩ | hnone'
    · have hr' : r' <+: r ++ q := hpath ▸ List.prefix_append r' q'
      intro s hs
      by_cases hr : p <+: r
      · have hbelow' : p <+: r' := by
          by_contra hr'p
          have hvalue'' := (h r' hr'p).trans hvalue'
          obtain ⟨rfl, -⟩ := hw.value_unique hvalue hvalue'' (List.prefix_append r q) hr'
          exact hr'p hr
        rw [hpath, addWrite_of_value hw' hvalue', ← hpath, addWrite_of_value hw hvalue,
          valueAtPath_setValue, valueAtPath_setValue, if_neg, if_neg]
        · exact h s hs
        · rintro rfl
          exact hs hbelow'
        · rintro rfl
          exact hs hr
      · have hvalue'' := (h r hr).symm.trans hvalue
        rw [addWrite_of_value hw hvalue, addWrite_of_value hw' hvalue'', valueAtPath_setValue,
          valueAtPath_setValue, h s hs]
    · exact h.addWrite_of_value_of_none hw hvalue hnone'
  · rcases w'.exists_value_or_none path with ⟨r', q', value', rfl, hvalue'⟩ | hnone'
    · exact (h.symm.addWrite_of_value_of_none hw' hvalue' hnone).symm
    · intro s hs
      rw [addWrite_of_none hnone, addWrite_of_none hnone', valueAtPath_setTree_ofValue,
        valueAtPath_setTree_ofValue, h s hs]

/-- At and below its path a write is all there is, unless there is a value
above. -/
theorem Sound.valueAtPath_addWrite_below (hw : w.Sound) {s : FPath} (hpre : path <+: s)
    {value : FNode ν} : (w.addWrite node path).writeTree.valueAtPath s = some value ↔
      s = path ∧ value = node ∧
        ∀ r, r <+: path → r ≠ path → w.writeTree.valueAtPath r = none := by
  rcases w.exists_value_or_none path with ⟨r, q, value', rfl, hvalue⟩ | hnone
  · have hr : r <+: r ++ q := List.prefix_append r q
    rw [addWrite_of_value hw hvalue, valueAtPath_setValue]
    by_cases hs : s = r
    · subst hs
      obtain rfl : q = [] := List.append_right_eq_self.mp (hpre.sublist.antisymm hr.sublist)
      rw [if_pos rfl, Option.some.injEq, List.append_nil]
      constructor
      · rintro rfl
        refine ⟨rfl, rfl, fun r' hr' hne => ?_⟩
        cases hother : w.writeTree.valueAtPath r' with
        | none => rfl
        | some value'' => exact absurd (hw.value_unique hother hvalue hr' List.prefix_rfl).1 hne
      · rintro ⟨-, rfl, -⟩
        rfl
    · rw [if_neg hs]
      constructor
      · intro hother
        exact absurd (hw.value_unique hother hvalue List.prefix_rfl (hr.trans hpre)).1 hs
      · rintro ⟨rfl, -, habove⟩
        rw [habove r hr (Ne.symm hs)] at hvalue
        cases hvalue
  · have habove := findRootMostValueAndPath_eq_none_iff.mp hnone
    rw [addWrite_of_none hnone, valueAtPath_setTree_ofValue, if_pos hpre]
    by_cases hs : s = path
    · rw [if_pos hs, Option.some.injEq]
      constructor
      · rintro rfl
        exact ⟨hs, rfl, fun r hr _ => habove r hr⟩
      · rintro ⟨-, rfl, -⟩
        rfl
    · rw [if_neg hs]
      exact iff_of_false nofun fun h => hs h.1

/-- A write above the path makes the two the same. -/
theorem AgreeOutside.addWrite_eq (h : AgreeOutside p w w') (hw : w.Sound) (hw' : w'.Sound)
    (hnode : node.Canonical) (hpath : FNode.Plain path) (habove : path <+: p) :
    w.addWrite node path = w'.addWrite node path := by
  refine (hw.addWrite hnode hpath).ext (hw'.addWrite hnode hpath) fun s => ?_
  by_cases hs : path <+: s
  · refine Option.ext fun value => ?_
    rw [hw.valueAtPath_addWrite_below hs, hw'.valueAtPath_addWrite_below hs]
    refine and_congr_right fun _ => and_congr_right fun _ => forall₃_congr fun r hr hne => ?_
    rw [h r fun hpr => hne (hr.sublist.antisymm (habove.trans hpr).sublist)]
  · exact h.addWrite hw hw' s fun hps => hs (habove.trans hps)

theorem Sound.addAll (hw : w.Sound) (h : ∀ e ∈ writes, FNode.Plain e.1 ∧ e.2.Canonical) :
    (w.addAll writes).Sound := by
  induction writes generalizing w with
  | nil => exact hw
  | cons e writes ih =>
      obtain ⟨hplain, hcanonical⟩ := h e List.mem_cons_self
      exact ih (hw.addWrite hcanonical hplain) fun e' he' => h e' (List.mem_cons_of_mem e he')

theorem AgreeOutside.addAll (h : AgreeOutside p w w') (hw : w.Sound) (hw' : w'.Sound)
    (hwrites : ∀ e ∈ writes, FNode.Plain e.1 ∧ e.2.Canonical) :
    AgreeOutside p (w.addAll writes) (w'.addAll writes) := by
  induction writes generalizing w w' with
  | nil => exact h
  | cons e writes ih =>
      obtain ⟨hplain, hcanonical⟩ := hwrites e List.mem_cons_self
      exact ih (h.addWrite hw hw') (hw.addWrite hcanonical hplain)
        (hw'.addWrite hcanonical hplain) fun e' he' => hwrites e' (List.mem_cons_of_mem e he')

/-- Writes of which one is above the path make the two the same. -/
theorem AgreeOutside.addAll_eq (h : AgreeOutside p w w') (hw : w.Sound) (hw' : w'.Sound)
    (hwrites : ∀ e ∈ writes, FNode.Plain e.1 ∧ e.2.Canonical) (habove : ∃ e ∈ writes, e.1 <+: p) :
    w.addAll writes = w'.addAll writes := by
  induction writes generalizing w w' with
  | nil =>
      obtain ⟨e, he, -⟩ := habove
      cases he
  | cons e writes ih =>
      obtain ⟨hplain, hcanonical⟩ := hwrites e List.mem_cons_self
      have hrest : ∀ e' ∈ writes, FNode.Plain e'.1 ∧ e'.2.Canonical := fun e' he' =>
        hwrites e' (List.mem_cons_of_mem e he')
      by_cases he : e.1 <+: p
      · exact congrArg (FCompoundWrite.addAll · writes) (h.addWrite_eq hw hw' hcanonical hplain he)
      · refine ih (h.addWrite hw hw') (hw.addWrite hcanonical hplain)
          (hw'.addWrite hcanonical hplain) hrest ?_
        obtain ⟨e', he', hpre⟩ := habove
        rcases List.mem_cons.mp he' with rfl | he'
        · exact absurd hpre he
        · exact ⟨e', he', hpre⟩

/-- Writes at and below a path leave nothing elsewhere. -/
theorem agreeOutside_addWrites (hwrites : ∀ e ∈ writes, FNode.Plain e.1 ∧ e.2.Canonical)
    (hbelow : ∀ e ∈ writes, p <+: e.1) : AgreeOutside p (addWrites writes) emptyWrite := by
  intro q hq
  rw [show (emptyWrite : FCompoundWrite ν).writeTree = .empty from rfl, valueAtPath_empty]
  cases hvalue : (addWrites writes).writeTree.valueAtPath q with
  | none => rfl
  | some value =>
      obtain ⟨e, he, rfl⟩ := (sound_addWrites hwrites).2 q value hvalue
      exact absurd (hbelow e he) hq

/-! ## Removing writes -/

theorem removeWriteAtPath_eq : w.removeWriteAtPath path = ⟨w.writeTree.setTree .empty path⟩ := by
  rw [removeWriteAtPath]
  split
  · rename_i hempty
    rw [List.isEmpty_iff.mp hempty]
    rfl
  · rfl

theorem valueAtPath_removeWriteAtPath :
    (w.removeWriteAtPath path).writeTree.valueAtPath q =
      if path <+: q then none else w.writeTree.valueAtPath q := by
  rw [removeWriteAtPath_eq]
  split
  · rename_i hpre
    obtain ⟨s, rfl⟩ := hpre
    rw [valueAtPath_setTree_append, valueAtPath_empty]
  · exact valueAtPath_setTree_of_not_below ‹_›

theorem Sound.removeWriteAtPath (hw : w.Sound) : (w.removeWriteAtPath path).Sound := by
  have hvalue : ∀ {q : FPath} {node : FNode ν},
      (w.removeWriteAtPath path).writeTree.valueAtPath q = some node →
      w.writeTree.valueAtPath q = some node := by
    intro q node h
    rw [valueAtPath_removeWriteAtPath] at h
    split at h
    · cases h
    · exact h
  refine ⟨?_, fun h => hw.plain (hvalue h), fun h => hw.canonical (hvalue h)⟩
  rw [removeWriteAtPath_eq]
  exact hw.layered.setTree .empty (.inl rfl)

/-- Removing the paths of the writes leaves what the others leave. -/
theorem removeAll_spec (hw : w.Sound) (paths : List FPath) :
    (paths.foldl FCompoundWrite.removeWriteAtPath w).Sound ∧
      ∀ q, (paths.foldl FCompoundWrite.removeWriteAtPath w).writeTree.valueAtPath q =
        if ∃ path ∈ paths, path <+: q then none else w.writeTree.valueAtPath q := by
  induction paths generalizing w with
  | nil => exact ⟨hw, fun q => (if_neg (by simp)).symm⟩
  | cons path paths ih =>
      obtain ⟨hsound, hvalues⟩ := ih hw.removeWriteAtPath
      refine ⟨hsound, fun q => (hvalues q).trans ?_⟩
      rw [valueAtPath_removeWriteAtPath]
      by_cases hpath : path <+: q <;> by_cases hpaths : ∃ path ∈ paths, path <+: q <;>
        simp [hpath, hpaths]

end FCompoundWrite

end VkClient
