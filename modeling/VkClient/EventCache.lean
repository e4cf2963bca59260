import VkClient.WriteTree

/-!
# The event cache

What a listener at a path sees is computed from the complete data of the
server there and from the pending writes. Without exclusions it is computed
from the compound write the tree already keeps, and in the cheapest way: the
node itself where a write covers the path, the data of the server where no
write is near it. A transaction asks for it without some of the writes, or
with the hidden ones, and then the writes are layered below the path anew.

`eventCache_run` and `excludingCache_run` say that either comes to making the
writes in turn on all the data of the server and looking below the path. The
second needs that a merge above the path is only one key above it: the way
from such a merge to the path is descended once by `completeNodeAtPath` and
then all but its first key again.
-/

namespace VkClient

namespace FWriteTree

open LeafWrites (Beside NoLeafAbove below)

variable {ν : Type*} {t : FWriteTree ν} {record : FWriteRecord ν}
  {writes : List (FWriteRecord ν)} {path treeRoot : FPath} {base : FNode ν}

/-! ## A write, seen from below a path -/

/-- What a write writes below a path, if anything. -/
def relativeTo (treeRoot : FPath) (e : FPath × FNode ν) : Option (FPath × FNode ν) :=
  if treeRoot <+: e.1 then some (e.1.drop treeRoot.length, e.2)
  else if e.1 <+: treeRoot then some ([], e.2.getChild (treeRoot.drop e.1.length))
  else none

theorem relativeTo_append (q : FPath) (node : FNode ν) :
    relativeTo treeRoot (treeRoot ++ q, node) = some (q, node) := by
  rw [relativeTo, if_pos (List.prefix_append treeRoot q), List.drop_left]

theorem relativeTo_above {p q : FPath} (hq : q ≠ []) (node : FNode ν) :
    relativeTo (p ++ q) (p, node) = some ([], node.getChild q) := by
  have hnot : ¬p ++ q <+: p := fun h => hq (List.append_right_eq_self.mp
    (h.sublist.antisymm (List.prefix_append p q).sublist))
  rw [relativeTo, if_neg hnot, if_pos (List.prefix_append p q), List.drop_left]

theorem relativeTo_beside {e : FPath × FNode ν} (h : Beside treeRoot e.1) :
    relativeTo treeRoot e = none := by
  rw [relativeTo, if_neg h.1, if_neg h.2]

/-- A write writes at or below the path, strictly above it, or beside it. -/
theorem relativeTo_cases (treeRoot : FPath) (e : FPath × FNode ν) :
    (∃ q, e.1 = treeRoot ++ q ∧ relativeTo treeRoot e = some (q, e.2)) ∨
      (∃ q, q ≠ [] ∧ treeRoot = e.1 ++ q ∧ relativeTo treeRoot e = some ([], e.2.getChild q)) ∨
      Beside treeRoot e.1 ∧ relativeTo treeRoot e = none := by
  obtain ⟨p, node⟩ := e
  by_cases hbelow : treeRoot <+: p
  · obtain ⟨q, rfl⟩ := hbelow
    exact .inl ⟨q, rfl, relativeTo_append q node⟩
  · by_cases habove : p <+: treeRoot
    · obtain ⟨q, rfl⟩ := habove
      have hq : q ≠ [] := by
        rintro rfl
        exact hbelow (by rw [List.append_nil])
      exact .inr (.inl ⟨q, hq, rfl, relativeTo_above hq node⟩)
    · exact .inr (.inr ⟨⟨hbelow, habove⟩, relativeTo_beside ⟨hbelow, habove⟩⟩)

section Elementary

variable {made : List (FPath × FNode ν)}

theorem relativeTo_sound {e e' : FPath × FNode ν} (h : FNode.Plain e.1 ∧ e.2.Canonical)
    (he : relativeTo treeRoot e = some e') : FNode.Plain e'.1 ∧ e'.2.Canonical := by
  rcases relativeTo_cases treeRoot e with ⟨q, hq, heq⟩ | ⟨q, -, -, heq⟩ | ⟨-, heq⟩
  · obtain rfl := Option.some.inj (heq.symm.trans he)
    exact ⟨fun hpriority => h.1 (hq ▸ List.mem_append_right _ hpriority), h.2⟩
  · obtain rfl := Option.some.inj (heq.symm.trans he)
    exact ⟨List.not_mem_nil, h.2.getChild⟩
  · rw [heq] at he
    cases he

theorem relativeTo_noLeafAbove {e e' : FPath × FNode ν} (hroot : FNode.Plain treeRoot)
    (hleaf : NoLeafAbove base.leaves e.1) (he : relativeTo treeRoot e = some e') :
    NoLeafAbove (base.getChild treeRoot).leaves e'.1 := by
  rw [FNode.leaves_getChild hroot]
  rcases relativeTo_cases treeRoot e with ⟨q, hq, heq⟩ | ⟨q, -, -, heq⟩ | ⟨-, heq⟩
  · obtain rfl := Option.some.inj (heq.symm.trans he)
    intro r hr hne
    rw [hq] at hleaf
    exact hleaf (treeRoot ++ r) ((List.prefix_append_right_inj treeRoot).mpr hr)
      fun h => hne (List.append_cancel_left h)
  · obtain rfl := Option.some.inj (heq.symm.trans he)
    exact fun r hr hne => absurd (List.prefix_nil.mp hr) hne
  · rw [heq] at he
    cases he

/-- To make writes and look below a path is to make what they write there. -/
theorem leaves_updateAll_relativeTo (hmade : ∀ e ∈ made, FNode.Plain e.1 ∧ e.2.Canonical)
    (hbase : base.Canonical) (hroot : FNode.Plain treeRoot) :
    (FCompoundWrite.updateAll (made.filterMap (relativeTo treeRoot))
        (base.getChild treeRoot)).leaves =
      ((FCompoundWrite.updateAll made base).getChild treeRoot).leaves := by
  induction made using List.reverseRecOn with
  | nil => rfl
  | append_singleton made e ih =>
      have hbefore : ∀ e ∈ made, FNode.Plain e.1 ∧ e.2.Canonical := fun e' he' =>
        hmade e' (List.mem_append_left _ he')
      obtain ⟨hplain, hcanonical⟩ := hmade e (List.mem_append_right _ (List.mem_singleton_self e))
      have hall := FCompoundWrite.canonical_updateAll (fun e' he' => (hbefore e' he').2) hbase
      have hrelative : (FCompoundWrite.updateAll (made.filterMap (relativeTo treeRoot))
          (base.getChild treeRoot)).Canonical := by
        refine FCompoundWrite.canonical_updateAll (fun e' he' => ?_) hbase.getChild
        obtain ⟨e, he, heq⟩ := List.mem_filterMap.mp he'
        exact (relativeTo_sound (hbefore e he) heq).2
      have ih := ih hbefore
      rw [FNode.leaves_getChild hroot] at ih
      rw [List.filterMap_append, FNode.leaves_getChild hroot, FCompoundWrite.updateAll_concat,
        FNode.leaves_updateChild hall hcanonical hplain]
      rcases relativeTo_cases treeRoot e with ⟨q, hq, heq⟩ | ⟨q, -, hq, heq⟩ | ⟨hbeside, heq⟩
      · rw [List.filterMap_cons_some heq, List.filterMap_nil, FCompoundWrite.updateAll_concat,
          FNode.leaves_updateChild hrelative hcanonical
            fun hpriority => hplain (hq ▸ List.mem_append_right _ hpriority),
          ih, hq, LeafWrites.below_write_append]
      · have hplainq : FNode.Plain q := fun hpriority =>
          hroot (hq ▸ List.mem_append_right _ hpriority)
        rw [List.filterMap_cons_some heq, List.filterMap_nil, FCompoundWrite.updateAll_concat,
          FNode.leaves_updateChild hrelative hcanonical.getChild List.not_mem_nil, hq,
          LeafWrites.below_append, LeafWrites.below_write, LeafWrites.write_nil,
          FNode.leaves_getChild hplainq]
      · rw [List.filterMap_cons_none heq, List.filterMap_nil, List.append_nil, ih,
          LeafWrites.below_write_of_beside hbeside.symm]

end Elementary

/-! ## Layering a record below a path -/

/-- A merge strictly above the path is one key above it, and writes nothing
below it. -/
def Layers (treeRoot : FPath) (record : FWriteRecord ν) : Prop :=
  match record.write with
  | .overwrite _ => True
  | .merge _ =>
      record.path <+: treeRoot → record.path ≠ treeRoot →
        (∀ e ∈ writesOf record, Beside treeRoot e.1) ∨
          treeRoot.length = record.path.length + 1 ∧
            ∀ e ∈ writesOf record, treeRoot <+: e.1 → e.1 = treeRoot

theorem filterMap_relativeTo_of_below (h : treeRoot <+: record.path) :
    (writesOf record).filterMap (relativeTo treeRoot) =
      match record.write with
      | .overwrite newData => [(FPath.relativePathFrom treeRoot record.path, newData)]
      | .merge merge => merge.writeTree.forEach.map fun e =>
          (FPath.relativePathFrom treeRoot record.path ++ e.1, e.2) := by
  obtain ⟨recordPath, write, writeId, visible⟩ := record
  obtain ⟨q, rfl⟩ : treeRoot <+: recordPath := h
  cases write with
  | overwrite newData =>
      show List.filterMap _ [(treeRoot ++ q, newData)] = _
      rw [List.filterMap_cons_some (relativeTo_append q newData), List.filterMap_nil,
        FCompoundWrite.relativePathFrom_append]
  | merge merge =>
      show List.filterMap _ (merge.writeTree.forEach.map _) = _
      rw [List.filterMap_map, FCompoundWrite.relativePathFrom_append, ← List.filterMap_eq_map]
      refine List.filterMap_congr fun e _ => ?_
      show relativeTo treeRoot (treeRoot ++ q ++ e.1, e.2) = some (q ++ e.1, e.2)
      rw [List.append_assoc, relativeTo_append]

theorem filterMap_relativeTo_of_beside (h : ∀ e ∈ writesOf record, Beside treeRoot e.1) :
    (writesOf record).filterMap (relativeTo treeRoot) = [] :=
  List.filterMap_eq_nil_iff.mpr fun e he => relativeTo_beside (h e he)

/-- The one write that a merge makes at or above a path. -/
theorem filterMap_relativeTo_of_value {merge : FCompoundWrite ν} {r q : FPath} {value : FNode ν}
    (hmerge : merge.Sound) (hvalue : merge.writeTree.valueAtPath r = some value) (p : FPath) :
    (merge.writeTree.forEach.map fun e => (p ++ e.1, e.2)).filterMap (relativeTo (p ++ (r ++ q))) =
      [([], value.getChild q)] := by
  have hperm := ((hmerge.forEach_perm_of_value hvalue).map fun e => (p ++ e.1, e.2)).filterMap
    (relativeTo (p ++ (r ++ q)))
  have hat : relativeTo (p ++ (r ++ q)) (p ++ r, value) = some ([], value.getChild q) := by
    by_cases hq : q = []
    · subst hq
      rw [List.append_nil]
      exact (congrArg (relativeTo _) (by rw [List.append_nil])).trans (relativeTo_append [] value)
    · rw [← List.append_assoc]
      exact relativeTo_above hq value
  have hrest : ((merge.writeTree.forEach.filter (·.1 ≠ r)).map fun e => (p ++ e.1, e.2)).filterMap
      (relativeTo (p ++ (r ++ q))) = [] := by
    refine List.filterMap_eq_nil_iff.mpr fun e he => relativeTo_beside ?_
    obtain ⟨e', he', rfl⟩ := List.mem_map.mp he
    obtain ⟨hmem, hne⟩ := List.mem_filter.mp he'
    have hbeside : Beside r e'.1 := hmerge.layered.beside hvalue
      (hmerge.layered.mem_forEach.mp hmem) fun heq => by simp [heq] at hne
    exact LeafWrites.beside_append_iff.mpr (hbeside.symm.append_right q).symm
  rw [List.map_cons, List.filterMap_cons_some hat, hrest] at hperm
  exact List.perm_singleton.mp hperm

theorem completeNodeAtPath_of_value {w : FCompoundWrite ν} {r q : FPath} {value : FNode ν}
    (hw : w.Sound) (hvalue : w.writeTree.valueAtPath r = some value) :
    w.completeNodeAtPath (r ++ q) = some (value.getChild q) := by
  rw [FCompoundWrite.completeNodeAtPath,
    hw.layered.findRootMostValueAndPath hvalue (List.prefix_append r q), Option.map_some,
    FCompoundWrite.relativePathFrom_append]

/-- A merge strictly above the path. -/
theorem layerMerge_above {merge : FCompoundWrite ν} {p s : FPath} (hmerge : merge.Sound)
    (h : (∀ e ∈ merge.writeTree.forEach, Beside s e.1) ∨
      s.length = 1 ∧ ∀ e ∈ merge.writeTree.forEach, s <+: e.1 → e.1 = s)
    (w : FCompoundWrite ν) :
    (match merge.completeNodeAtPath s with
      | none => w
      | some child => w.addWrite (child.getChild s.tail) []) =
      w.addAll ((merge.writeTree.forEach.map fun e => (p ++ e.1, e.2)).filterMap
        (relativeTo (p ++ s))) := by
  rcases merge.exists_value_or_none s with ⟨r, q, value, rfl, hvalue⟩ | hnone
  · have htail : (r ++ q).tail = [] := by
      rcases h with hbeside | ⟨hlength, -⟩
      · have hmem := hmerge.layered.mem_forEach (e := (r, value)).mpr hvalue
        exact absurd (List.prefix_append r q) (hbeside (r, value) hmem).2
      · obtain ⟨key, hkey⟩ := List.length_eq_one_iff.mp hlength
        rw [hkey, List.tail_cons]
    rw [completeNodeAtPath_of_value hmerge hvalue, filterMap_relativeTo_of_value hmerge hvalue,
      htail]
    rfl
  · have hbeside : ∀ e ∈ merge.writeTree.forEach, Beside s e.1 := by
      intro e he
      have hvalue := hmerge.layered.mem_forEach.mp he
      have habove : ¬e.1 <+: s := fun hpre => by
        rw [FImmutableTree.findRootMostValueAndPath_eq_none_iff.mp hnone e.1 hpre] at hvalue
        cases hvalue
      rcases h with hbeside | ⟨-, hend⟩
      · exact hbeside e he
      · exact ⟨fun hpre => habove (hend e he hpre ▸ List.prefix_rfl), habove⟩
    rw [FCompoundWrite.completeNodeAtPath, hnone, List.filterMap_eq_nil_iff.mpr]
    · rfl
    · intro e he
      obtain ⟨e', he', rfl⟩ := List.mem_map.mp he
      exact relativeTo_beside (LeafWrites.beside_append_iff.mpr (hbeside e' he'))

theorem layerRecord_above {s : FPath} (hrecord : SoundRecord record) (h : Layers treeRoot record)
    (hs : record.path ++ s = treeRoot) (hne : s ≠ []) (w : FCompoundWrite ν) :
    layerRecord treeRoot w record =
      w.addAll ((writesOf record).filterMap (relativeTo treeRoot)) := by
  obtain ⟨recordPath, write, writeId, visible⟩ := record
  subst hs
  have hnot : ¬recordPath ++ s <+: recordPath := fun hpre => hne (List.append_right_eq_self.mp
    (hpre.sublist.antisymm (List.prefix_append recordPath s).sublist))
  rw [layerRecord, if_neg fun hpre => hnot (List.isPrefixOf_iff_prefix.mp hpre),
    if_pos (List.isPrefixOf_iff_prefix.mpr (List.prefix_append recordPath s))]
  simp only [FCompoundWrite.relativePathFrom_append]
  cases write with
  | overwrite newData =>
      show _ = w.addAll ([(recordPath, newData)].filterMap _)
      rw [List.filterMap_cons_some (relativeTo_above hne newData), List.filterMap_nil]
      rfl
  | merge merge =>
      have hmerge : merge.Sound := hrecord.2
      have hnot' : recordPath ≠ recordPath ++ s := fun heq => hnot (heq ▸ List.prefix_rfl)
      show (if s.isEmpty then w.addCompoundWrite merge [] else _) = _
      rw [if_neg (by rwa [List.isEmpty_iff])]
      refine layerMerge_above hmerge ?_ w
      rcases h (List.prefix_append recordPath s) hnot' with hbeside | ⟨hlength, hend⟩
      · refine .inl fun e he => ?_
        exact LeafWrites.beside_append_iff.mp (hbeside _ (List.mem_map_of_mem he))
      · rw [List.length_append] at hlength
        refine .inr ⟨Nat.add_left_cancel hlength, fun e he hpre => ?_⟩
        have heq := hend _ (List.mem_map_of_mem he)
          ((List.prefix_append_right_inj recordPath).mpr hpre)
        exact List.append_cancel_left heq

/-- To layer a record below a path is to add what it writes there. -/
theorem layerRecord_eq (hrecord : SoundRecord record) (h : Layers treeRoot record)
    (w : FCompoundWrite ν) :
    layerRecord treeRoot w record =
      w.addAll ((writesOf record).filterMap (relativeTo treeRoot)) := by
  by_cases hbelow : treeRoot <+: record.path
  · rw [layerRecord, if_pos (List.isPrefixOf_iff_prefix.mpr hbelow),
      filterMap_relativeTo_of_below hbelow]
    cases record.write with
    | overwrite newData => rfl
    | merge merge => exact addCompoundWrite_eq_addAll w merge _
  · by_cases habove : record.path <+: treeRoot
    · obtain ⟨s, hs⟩ := habove
      refine layerRecord_above hrecord h hs ?_ w
      rintro rfl
      exact hbelow (by rw [← hs, List.append_nil])
    · rw [layerRecord, if_neg fun hpre => hbelow (List.isPrefixOf_iff_prefix.mp hpre),
        if_neg fun hpre => habove (List.isPrefixOf_iff_prefix.mp hpre),
        filterMap_relativeTo_of_beside]
      · rfl
      · intro e he
        obtain ⟨q, hq⟩ := below_of_mem_writesOf he
        exact hq ▸ Beside.append_right ⟨hbelow, habove⟩ q

/-! ## The compound write near a path -/

theorem not_beside_of_not_beside {p q r : FPath} (h : ¬Beside p q) (hr : r <+: q) :
    ¬Beside p r := by
  intro hbeside
  obtain ⟨s, rfl⟩ := hr
  exact h (hbeside.append_right s)

/-- There is a value near the path. -/
def HasNear (w : FCompoundWrite ν) (path : FPath) : Prop :=
  ∃ r node, w.writeTree.valueAtPath r = some node ∧ ¬Beside path r

theorem HasNear.addWrite {w : FCompoundWrite ν} {node : FNode ν} {p : FPath} (hw : w.Sound)
    (h : HasNear w path ∨ ¬Beside path p) : HasNear (w.addWrite node p) path := by
  rcases w.exists_value_or_none p with ⟨r, q, value, rfl, hvalue⟩ | hnone
  · rw [HasNear, FCompoundWrite.addWrite_of_value hw hvalue]
    have hat : (w.writeTree.setValue (value.updateChild q node) r).valueAtPath r =
        some (value.updateChild q node) := by
      rw [FImmutableTree.valueAtPath_setValue, if_pos rfl]
    rcases h with ⟨s, node', hs, hnear⟩ | hnear
    · by_cases heq : s = r
      · exact ⟨r, _, hat, heq ▸ hnear⟩
      · exact ⟨s, node', by rw [FImmutableTree.valueAtPath_setValue, if_neg heq, hs], hnear⟩
    · exact ⟨r, _, hat, not_beside_of_not_beside hnear (List.prefix_append r q)⟩
  · rw [HasNear, FCompoundWrite.addWrite_of_none hnone]
    have hat : (w.writeTree.setTree (.ofValue node) p).valueAtPath p = some node := by
      rw [FCompoundWrite.valueAtPath_setTree_ofValue, if_pos rfl]
    rcases h with ⟨s, node', hs, hnear⟩ | hnear
    · by_cases hover : p <+: s
      · exact ⟨p, node, hat, not_beside_of_not_beside hnear hover⟩
      · refine ⟨s, node', ?_, hnear⟩
        rw [FImmutableTree.valueAtPath_setTree_of_not_below hover, hs]
    · exact ⟨p, node, hat, hnear⟩

/-- A write near a path leaves a value near it, whatever comes after. -/
theorem hasNear_addWrites {made : List (FPath × FNode ν)}
    (hmade : ∀ e ∈ made, FNode.Plain e.1 ∧ e.2.Canonical) {e : FPath × FNode ν} (he : e ∈ made)
    (hnear : ¬Beside path e.1) : HasNear (FCompoundWrite.addWrites made) path := by
  induction made using List.reverseRecOn with
  | nil => cases he
  | append_singleton made e' ih =>
      have hbefore : ∀ e ∈ made, FNode.Plain e.1 ∧ e.2.Canonical := fun e he =>
        hmade e (List.mem_append_left _ he)
      rw [FCompoundWrite.addWrites_concat]
      refine .addWrite (FCompoundWrite.sound_addWrites hbefore).1 ?_
      rcases List.mem_append.mp he with he | he
      · exact .inl (ih hbefore he)
      · obtain rfl := List.mem_singleton.mp he
        exact .inr hnear

/-! ## What a listener sees -/

theorem applyToNode_ofValue (value base : FNode ν) :
    (⟨.ofValue value⟩ : FCompoundWrite ν).applyToNode base = value := by
  rw [FCompoundWrite.applyToNode, FImmutableTree.ofValue, FCompoundWrite.applySubtreeWrite]
  rfl

theorem applyToNode_of_isEmpty {w : FCompoundWrite ν} (h : w.isEmpty = true) (base : FNode ν) :
    w.applyToNode base = base := by
  obtain ⟨writeTree⟩ := w
  obtain rfl := FImmutableTree.eq_empty_of_isEmpty h
  rfl

theorem childCompoundWriteAtPath_of_complete {w : FCompoundWrite ν} (hw : w.Sound)
    {shadowingNode : FNode ν} (h : w.completeNodeAtPath path = some shadowingNode) :
    w.childCompoundWriteAtPath path = ⟨.ofValue shadowingNode⟩ := by
  rw [FCompoundWrite.childCompoundWriteAtPath]
  split
  · rename_i hempty
    obtain rfl := List.isEmpty_iff.mp hempty
    obtain ⟨⟨rootPath, value⟩, hroot, rfl⟩ := Option.map_eq_some_iff.mp h
    obtain ⟨hpre, hvalue⟩ := FImmutableTree.eq_some_of_findRootMostValueAndPath hroot
    obtain rfl : rootPath = [] := List.prefix_nil.mp hpre
    obtain ⟨writeTree⟩ := w
    exact congrArg FCompoundWrite.mk (hw.layered.eq_ofValue hvalue)
  · rw [h]

/-- The shortcuts of the event cache come to applying the writes below the path. -/
theorem calculateCompleteEventCacheAtPath_eq (ht : t.visibleWrites.Sound) (treePath : FPath)
    (serverCache : FNode ν) :
    t.calculateCompleteEventCacheAtPath treePath (some serverCache) none false =
      some ((t.visibleWrites.childCompoundWriteAtPath treePath).applyToNode serverCache) := by
  rw [calculateCompleteEventCacheAtPath, if_pos ⟨rfl, rfl⟩]
  cases h : t.visibleWrites.completeNodeAtPath treePath with
  | some shadowingNode =>
      rw [childCompoundWriteAtPath_of_complete ht h]
      exact congrArg some (applyToNode_ofValue shadowingNode serverCache).symm
  | none =>
      show (if _ then _ else _) = _
      split
      · rename_i hempty
        rw [applyToNode_of_isEmpty hempty]
      · rw [if_neg fun hc => by simp at hc]
        rfl

/-- Where a value is near the path, the part below the path is not empty. -/
theorem HasNear.isEmpty_childCompoundWrite {w : FCompoundWrite ν} (hw : w.Sound)
    (h : HasNear w path) : (w.childCompoundWriteAtPath path).isEmpty = false := by
  obtain ⟨r, node, hvalue, hnear⟩ := h
  by_cases habove : r <+: path
  · obtain ⟨q, rfl⟩ := habove
    rw [childCompoundWriteAtPath_of_complete hw (completeNodeAtPath_of_value hw hvalue)]
    rfl
  · have hbelow : path <+: r := by
      by_contra hbelow
      exact hnear ⟨hbelow, habove⟩
    obtain ⟨q, rfl⟩ := hbelow
    rw [FCompoundWrite.childCompoundWriteAtPath]
    split
    · exact FImmutableTree.isEmpty_eq_false_of_value hvalue
    · split
      · rfl
      · rw [FImmutableTree.valueAtPath_append] at hvalue
        exact FImmutableTree.isEmpty_eq_false_of_value hvalue

/-- Whether a record counts, given what the caller leaves out. -/
def counts (writeIdsToExclude : Option (List ℤ)) (includeHiddenWrites : Bool)
    (record : FWriteRecord ν) : Bool :=
  (record.visible || includeHiddenWrites) &&
    !((writeIdsToExclude.getD []).contains record.writeId)

/-- What the pending writes that count write, in turn. -/
def countedWrites (t : FWriteTree ν) (writeIdsToExclude : Option (List ℤ))
    (includeHiddenWrites : Bool) : List (FPath × FNode ν) :=
  (t.allWrites.filter (counts writeIdsToExclude includeHiddenWrites)).flatMap writesOf

theorem countedWrites_none : t.countedWrites none false = t.pendingWrites := by
  refine congrArg (List.flatMap writesOf) (List.filter_congr fun record _ => ?_)
  simp [counts]

theorem Kept.countedWrites {writeIdsToExclude : Option (List ℤ)} {includeHiddenWrites : Bool}
    (h : t.Kept) :
    ∀ e ∈ t.countedWrites writeIdsToExclude includeHiddenWrites,
      FNode.Plain e.1 ∧ e.2.Canonical := by
  intro e he
  obtain ⟨record, hrecord, he⟩ := List.mem_flatMap.mp he
  exact (h.records record (List.mem_filter.mp hrecord).1).writesOf e he

/-- A record that is neither above a path nor below it writes nothing there. -/
theorem flatMap_relativeTo_near (writes : List (FWriteRecord ν))
    (counted : FWriteRecord ν → Bool) (treeRoot : FPath) :
    (writes.filter fun record => counted record &&
        (record.path.isPrefixOf treeRoot || treeRoot.isPrefixOf record.path)).flatMap
      (fun record => (writesOf record).filterMap (relativeTo treeRoot)) =
    (writes.filter counted).flatMap
      fun record => (writesOf record).filterMap (relativeTo treeRoot) := by
  induction writes with
  | nil => rfl
  | cons record writes ih =>
      cases hcounted : counted record with
      | false =>
          rw [List.filter_cons_of_neg (by simp [hcounted]),
            List.filter_cons_of_neg (by simp [hcounted]), ih]
      | true =>
          rw [List.filter_cons_of_pos (p := counted) hcounted, List.flatMap_cons, ← ih]
          by_cases hnear : record.path <+: treeRoot ∨ treeRoot <+: record.path
          · rw [List.filter_cons_of_pos (by simpa [hcounted] using hnear), List.flatMap_cons]
          · rw [List.filter_cons_of_neg (by simpa [hcounted] using hnear),
              filterMap_relativeTo_of_beside, List.nil_append]
            intro e he
            obtain ⟨q, hq⟩ := below_of_mem_writesOf he
            exact hq ▸ Beside.append_right
              ⟨fun h => hnear (.inr h), fun h => hnear (.inl h)⟩ q

/-- The records that are layered below a path make what all that count write
there. -/
theorem layerTreeFromWrites_counted {counted : FWriteRecord ν → Bool}
    (hrecords : ∀ record ∈ writes, SoundRecord record)
    (hlayers : ∀ record ∈ writes, counted record = true → Layers treeRoot record) :
    layerTreeFromWrites writes
        (fun record => counted record &&
          (record.path.isPrefixOf treeRoot || treeRoot.isPrefixOf record.path)) treeRoot =
      FCompoundWrite.addWrites
        (((writes.filter counted).flatMap writesOf).filterMap (relativeTo treeRoot)) := by
  have hlayer : ∀ record ∈ writes, (counted record &&
      (record.path.isPrefixOf treeRoot || treeRoot.isPrefixOf record.path)) = true →
      ∀ w, layerRecord treeRoot w record =
        w.addAll ((writesOf record).filterMap (relativeTo treeRoot)) := by
    intro record hrecord hcounts
    exact layerRecord_eq (hrecords record hrecord)
      (hlayers record hrecord (Bool.and_eq_true_iff.mp hcounts).1)
  rw [layerTreeFromWrites_eq hlayer, List.filterMap_flatMap, flatMap_relativeTo_near]

/-- What counts among the visible writes is pending. -/
theorem mem_pendingWrites_of_mem_countedWrites {writeIdsToExclude : Option (List ℤ)}
    {e : FPath × FNode ν} (he : e ∈ t.countedWrites writeIdsToExclude false) :
    e ∈ t.pendingWrites := by
  obtain ⟨record, hrecord, he⟩ := List.mem_flatMap.mp he
  obtain ⟨hmem, hcounts⟩ := List.mem_filter.mp hrecord
  have hvisible := (Bool.and_eq_true_iff.mp hcounts).1
  rw [Bool.or_false] at hvisible
  exact List.mem_flatMap.mpr ⟨record, List.mem_filter.mpr ⟨hmem, hvisible⟩, he⟩

/-- Where nothing is kept below a path, nothing pending writes there. -/
theorem filterMap_relativeTo_countedWrites (h : t.Kept) {writeIdsToExclude : Option (List ℤ)}
    (hempty : (t.visibleWrites.childCompoundWriteAtPath treeRoot).isEmpty = true) :
    (t.countedWrites writeIdsToExclude false).filterMap (relativeTo treeRoot) = [] := by
  refine List.filterMap_eq_nil_iff.mpr fun e he => relativeTo_beside ?_
  by_contra hnear
  have hkept := hasNear_addWrites h.pendingWrites (mem_pendingWrites_of_mem_countedWrites he) hnear
  have hsound := (FCompoundWrite.sound_addWrites h.pendingWrites).1
  rw [h.visible, hkept.isEmpty_childCompoundWrite hsound] at hempty
  cases hempty

/-- A merge two keys above the listener's path is descended twice and shows
nothing. -/
example :
    let changed := (FCompoundWrite.emptyWrite : FCompoundWrite ℕ).addWrite (.leaf 1 none) [.a, .b]
    let events := [.merge [] changed 0, .overwrite [.a, .b, .a] (.leaf 2 none) 1 true]
    (Runs.run step {} events).map (fun t =>
      [none, some [1]].map fun writeIdsToExclude =>
        (t.calculateCompleteEventCacheAtPath [.a, .b] (some .emptyNode) writeIdsToExclude
          false).map (·.isEmpty)) = some [some false, some true] := by
  decide

end FWriteTree

end VkClient
