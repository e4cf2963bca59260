import VkClient.CompoundWrite
import VkClient.Runs

/-!
# Pending writes

An `FWriteTree` keeps the writes of the user that the server has not
acknowledged: all of them in a list, and the visible ones as one compound
write, which is what listeners see over the data of the server. A write that
is acknowledged is taken out of both. Taking it out of the compound write is
done in the cheapest way that will do: not at all where a later write covers
it, from scratch where another write overlaps it, and else by removing its
paths.

`visibleWrites_run` says that the cheap ways come to what the dear one does,
in runs that acknowledge the writes in their order. A merge that writes
deeper than one key can lie inside an acknowledged write and not be noticed,
a rebuilt compound write has the hidden writes in it too, and a write that is
taken back before an earlier one around it stays in that one.
-/

namespace VkClient

/-- A record has an overwrite or a merge. -/
inductive FWrite (ν : Type*) where
  | overwrite (newData : FNode ν)
  | merge (changedChildren : FCompoundWrite ν)

structure FWriteRecord (ν : Type*) where
  path : FPath
  write : FWrite ν
  writeId : ℤ
  visible : Bool

structure FWriteTree (ν : Type*) where
  visibleWrites : FCompoundWrite ν := .emptyWrite
  allWrites : List (FWriteRecord ν) := []
  lastWriteId : ℤ := -1

namespace FWriteTree

variable {ν : Type*}

def addOverwriteAtPath (t : FWriteTree ν) (path : FPath) (newData : FNode ν) (writeId : ℤ)
    (visible : Bool) : FWriteTree ν where
  visibleWrites := if visible then t.visibleWrites.addWrite newData path else t.visibleWrites
  allWrites := t.allWrites ++ [{ path, write := .overwrite newData, writeId, visible }]
  lastWriteId := writeId

def addMergeAtPath (t : FWriteTree ν) (path : FPath) (changedChildren : FCompoundWrite ν)
    (writeId : ℤ) : FWriteTree ν where
  visibleWrites := t.visibleWrites.addCompoundWrite changedChildren path
  allWrites := t.allWrites ++ [{ path, write := .merge changedChildren, writeId, visible := true }]
  lastWriteId := writeId

/-- `record:containsPath:`. -/
def containsPath (record : FWriteRecord ν) (path : FPath) : Bool :=
  match record.write with
  | .overwrite _ => record.path.isPrefixOf path
  | .merge merge => merge.writeTree.forEach.any fun e => (record.path ++ e.1).isPrefixOf path

/-- What a record adds to the writes below `treeRoot`. -/
def layerRecord (treeRoot : FPath) (compoundWrite : FCompoundWrite ν) (record : FWriteRecord ν) :
    FCompoundWrite ν :=
  if treeRoot.isPrefixOf record.path then
    let relativePath := FPath.relativePathFrom treeRoot record.path
    match record.write with
    | .overwrite overwrite => compoundWrite.addWrite overwrite relativePath
    | .merge merge => compoundWrite.addCompoundWrite merge relativePath
  else if record.path.isPrefixOf treeRoot then
    let relativePath := FPath.relativePathFrom record.path treeRoot
    match record.write with
    | .overwrite overwrite => compoundWrite.addWrite (overwrite.getChild relativePath) []
    | .merge merge =>
        if relativePath.isEmpty then compoundWrite.addCompoundWrite merge []
        else
          match merge.completeNodeAtPath relativePath with
          | none => compoundWrite
          | some child => compoundWrite.addWrite (child.getChild relativePath.tail) []
  else compoundWrite

def layerTreeFromWrites (writes : List (FWriteRecord ν)) (filter : FWriteRecord ν → Bool)
    (treeRoot : FPath) : FCompoundWrite ν :=
  writes.foldl
    (fun compoundWrite record =>
      if filter record then layerRecord treeRoot compoundWrite record else compoundWrite)
    .emptyWrite

/-- It keeps everything, whether it is visible or not. -/
def defaultFilter : FWriteRecord ν → Bool := fun _ => true

def resetTree (t : FWriteTree ν) : FWriteTree ν :=
  { t with
    visibleWrites := layerTreeFromWrites t.allWrites defaultFilter []
    lastWriteId := (t.allWrites.getLast?.map FWriteRecord.writeId).getD (-1) }

/-- The loop of `removeWriteId` over the other writes, from the last: whether
the removed write is still to be seen, and whether another one overlaps it. -/
def scanWrites (writeToRemove : FWriteRecord ν) (index : ℕ) :
    List (FWriteRecord ν × ℕ) → Bool → Bool × Bool
  | [], overlaps => (true, overlaps)
  | (currentWrite, i) :: writes, overlaps =>
      if currentWrite.visible then
        if index ≤ i ∧ containsPath currentWrite writeToRemove.path then (false, overlaps)
        else if writeToRemove.path.isPrefixOf currentWrite.path then
          scanWrites writeToRemove index writes true
        else scanWrites writeToRemove index writes overlaps
      else scanWrites writeToRemove index writes overlaps

/-- `removeWriteId`, of the write at an index: whether it may have been seen,
and what is left. -/
def removeWrite (t : FWriteTree ν) (index : ℕ) (writeToRemove : FWriteRecord ν) :
    Bool × FWriteTree ν :=
  let t := { t with allWrites := t.allWrites.eraseIdx index }
  let (removedWriteWasVisible, overlaps) :=
    if writeToRemove.visible then scanWrites writeToRemove index t.allWrites.zipIdx.reverse false
    else (false, false)
  if !removedWriteWasVisible then (false, t)
  else if overlaps then (true, t.resetTree)
  else
    match writeToRemove.write with
    | .overwrite _ =>
        (true, { t with visibleWrites := t.visibleWrites.removeWriteAtPath writeToRemove.path })
    | .merge merge =>
        let visibleWrites := merge.writeTree.forEach.foldl
          (fun visibleWrites e => visibleWrites.removeWriteAtPath (writeToRemove.path ++ e.1))
          t.visibleWrites
        (true, { t with visibleWrites })

def removeWriteId (t : FWriteTree ν) (writeId : ℤ) : Option (Bool × FWriteTree ν) :=
  (t.allWrites.findIdx? (·.writeId = writeId)).bind fun index =>
    t.allWrites[index]?.map (t.removeWrite index)

def removeAllWrites (t : FWriteTree ν) : FWriteTree ν :=
  { t with visibleWrites := .emptyWrite, allWrites := [] }

def calculateCompleteEventCacheAtPath (t : FWriteTree ν) (treePath : FPath)
    (completeServerCache : Option (FNode ν)) (writeIdsToExclude : Option (List ℤ))
    (includeHiddenWrites : Bool) : Option (FNode ν) :=
  let merge := t.visibleWrites.childCompoundWriteAtPath treePath
  if writeIdsToExclude.isNone ∧ includeHiddenWrites = false then
    match t.visibleWrites.completeNodeAtPath treePath with
    | some shadowingNode => some shadowingNode
    | none =>
        if merge.isEmpty then completeServerCache
        else if completeServerCache.isNone ∧ merge.hasCompleteWriteAtPath [] = false then none
        else some (merge.applyToNode (completeServerCache.getD .emptyNode))
  else if includeHiddenWrites = false ∧ merge.isEmpty then completeServerCache
  else if includeHiddenWrites = false ∧ completeServerCache.isNone ∧
      merge.hasCompleteWriteAtPath [] = false then none
  else
    let filter (record : FWriteRecord ν) : Bool :=
      (record.visible || includeHiddenWrites) &&
        !((writeIdsToExclude.getD []).contains record.writeId) &&
        (record.path.isPrefixOf treePath || treePath.isPrefixOf record.path)
    some ((layerTreeFromWrites t.allWrites filter treePath).applyToNode
      (completeServerCache.getD .emptyNode))

inductive Event (ν : Type*) where
  | overwrite (path : FPath) (newData : FNode ν) (writeId : ℤ) (visible : Bool)
  | merge (path : FPath) (changedChildren : FCompoundWrite ν) (writeId : ℤ)
  | remove (writeId : ℤ)
  | removeAll

/-- Writes come with growing ids, and only pending ones are removed. -/
def step (t : FWriteTree ν) : Event ν → Option (FWriteTree ν)
  | .overwrite path newData writeId visible =>
      if t.lastWriteId < writeId then some (t.addOverwriteAtPath path newData writeId visible)
      else none
  | .merge path changedChildren writeId =>
      if t.lastWriteId < writeId then some (t.addMergeAtPath path changedChildren writeId) else none
  | .remove writeId => (t.removeWriteId writeId).map Prod.snd
  | .removeAll => some t.removeAllWrites

/-! ## The writes of the records -/

/-- What a record writes, in turn. -/
def writesOf (record : FWriteRecord ν) : List (FPath × FNode ν) :=
  match record.write with
  | .overwrite newData => [(record.path, newData)]
  | .merge merge => merge.writeTree.forEach.map fun e => (record.path ++ e.1, e.2)

/-- What the writes that listeners see write, in turn. -/
def pendingWrites (t : FWriteTree ν) : List (FPath × FNode ν) :=
  (t.allWrites.filter (·.visible)).flatMap writesOf

variable {t t' : FWriteTree ν} {record removed : FWriteRecord ν} {writes : List (FWriteRecord ν)}
  {path : FPath}

theorem below_of_mem_writesOf {e : FPath × FNode ν} (h : e ∈ writesOf record) :
    record.path <+: e.1 := by
  unfold writesOf at h
  split at h
  · obtain rfl := List.mem_singleton.mp h
    exact List.prefix_rfl
  · obtain ⟨e', -, rfl⟩ := List.mem_map.mp h
    exact List.prefix_append record.path e'.1

theorem containsPath_iff :
    containsPath record path = true ↔ ∃ e ∈ writesOf record, e.1 <+: path := by
  unfold containsPath writesOf
  split
  · simp
  · rw [List.any_eq_true]
    constructor
    · rintro ⟨e, he, hpre⟩
      exact ⟨(record.path ++ e.1, e.2), List.mem_map.mpr ⟨e, he, rfl⟩,
        List.isPrefixOf_iff_prefix.mp hpre⟩
    · rintro ⟨e, hmem, hpre⟩
      obtain ⟨e', he', rfl⟩ := List.mem_map.mp hmem
      exact ⟨e', he', List.isPrefixOf_iff_prefix.mpr hpre⟩

theorem addCompoundWrite_eq_addAll (w merge : FCompoundWrite ν) (path : FPath) :
    w.addCompoundWrite merge path =
      w.addAll (merge.writeTree.forEach.map fun e => (path ++ e.1, e.2)) := by
  rw [FCompoundWrite.addCompoundWrite, FCompoundWrite.addAll, List.foldl_map]

theorem layerRecord_nil (w : FCompoundWrite ν) :
    layerRecord [] w record = w.addAll (writesOf record) := by
  unfold layerRecord writesOf
  rw [if_pos (by simp)]
  split
  · rfl
  · exact addCompoundWrite_eq_addAll w _ record.path

/-- What is layered record by record, layered write by write. -/
theorem layerTreeFromWrites_eq {filter : FWriteRecord ν → Bool} {treeRoot : FPath}
    {layered : FWriteRecord ν → List (FPath × FNode ν)}
    (h : ∀ record ∈ writes, filter record = true →
      ∀ w, layerRecord treeRoot w record = w.addAll (layered record)) :
    layerTreeFromWrites writes filter treeRoot =
      FCompoundWrite.addWrites ((writes.filter filter).flatMap layered) := by
  have hlayer : ∀ w : FCompoundWrite ν,
      writes.foldl (fun compoundWrite record =>
        if filter record then layerRecord treeRoot compoundWrite record else compoundWrite) w =
        w.addAll ((writes.filter filter).flatMap layered) := by
    induction writes with
    | nil => exact fun _ => rfl
    | cons record writes ih =>
        intro w
        rw [List.foldl_cons, ih fun record' hrecord' => h record' (List.mem_cons_of_mem _ hrecord'),
          List.filter_cons]
        split
        · rw [h record List.mem_cons_self ‹_›, List.flatMap_cons, FCompoundWrite.addAll_append]
        · rfl
  exact hlayer .emptyWrite

theorem layerTreeFromWrites_nil (filter : FWriteRecord ν → Bool) :
    layerTreeFromWrites writes filter [] =
      FCompoundWrite.addWrites ((writes.filter filter).flatMap writesOf) :=
  layerTreeFromWrites_eq fun _ _ _ => layerRecord_nil

/-- The loop over the other writes, where all of them are later ones: one that
has the path of the removed write ends it. -/
theorem scanWrites_of_contains {others : List (FWriteRecord ν × ℕ)} {overlaps : Bool}
    (h : ∃ other ∈ others, other.1.visible = true ∧ containsPath other.1 removed.path = true) :
    (scanWrites removed 0 others overlaps).1 = false := by
  induction others generalizing overlaps with
  | nil =>
      obtain ⟨other, hother, -⟩ := h
      cases hother
  | cons other others ih =>
      rw [scanWrites]
      by_cases hhere : other.1.visible = true ∧ containsPath other.1 removed.path = true
      · rw [if_pos hhere.1, if_pos ⟨Nat.zero_le _, hhere.2⟩]
      · have hrest : ∃ other ∈ others,
            other.1.visible = true ∧ containsPath other.1 removed.path = true := by
          obtain ⟨other', hother', hcontains⟩ := h
          rcases List.mem_cons.mp hother' with rfl | hother'
          · exact absurd hcontains hhere
          · exact ⟨other', hother', hcontains⟩
        split
        · rw [if_neg fun hc => hhere ⟨‹_›, hc.2⟩]
          split
          · exact ih hrest
          · exact ih hrest
        · exact ih hrest

/-- Where none has it, the loop looks for those that it has. -/
theorem scanWrites_of_not_contains {others : List (FWriteRecord ν × ℕ)} {overlaps : Bool}
    (h : ∀ other ∈ others, other.1.visible = true → containsPath other.1 removed.path = false) :
    scanWrites removed 0 others overlaps =
      (true, overlaps || others.any fun other =>
        other.1.visible && removed.path.isPrefixOf other.1.path) := by
  induction others generalizing overlaps with
  | nil => rw [scanWrites, List.any_nil, Bool.or_false]
  | cons other others ih =>
      have hrest : ∀ other ∈ others, other.1.visible = true →
          containsPath other.1 removed.path = false := fun other' hother' =>
        h other' (List.mem_cons_of_mem other hother')
      rw [scanWrites, List.any_cons]
      split
      · rename_i hvisible
        rw [if_neg (by simp [h other List.mem_cons_self hvisible])]
        split
        · rename_i hbelow
          rw [ih hrest, hvisible, hbelow]
          simp
        · rename_i hbelow
          rw [ih hrest, hvisible, Bool.eq_false_iff.mpr hbelow]
          simp
      · rename_i hvisible
        rw [ih hrest, Bool.eq_false_iff.mpr hvisible]
        simp

/-! ## Runs -/

/-- A record that names no priority, and that writes canonical nodes. -/
def SoundRecord (record : FWriteRecord ν) : Prop :=
  FNode.Plain record.path ∧
    match record.write with
    | .overwrite newData => newData.Canonical
    | .merge merge => merge.Sound

theorem SoundRecord.writesOf (h : SoundRecord record) :
    ∀ e ∈ FWriteTree.writesOf record, FNode.Plain e.1 ∧ e.2.Canonical := by
  intro e he
  obtain ⟨hpath, hwrite⟩ := h
  unfold FWriteTree.writesOf at he
  split at he
  · rename_i newData heq
    obtain rfl := List.mem_singleton.mp he
    rw [heq] at hwrite
    exact ⟨hpath, hwrite⟩
  · rename_i merge heq
    obtain ⟨e', he', rfl⟩ := List.mem_map.mp he
    rw [heq] at hwrite
    have hvalue := hwrite.layered.mem_forEach.mp he'
    refine ⟨fun hpriority => ?_, hwrite.canonical hvalue⟩
    rcases List.mem_append.mp hpriority with hpriority | hpriority
    · exact hpath hpriority
    · exact hwrite.plain hvalue hpriority

/-- A later write into a removed one is noticed by its path, or by one of the
paths it writes being above the removed one. -/
def Noticed (removed other : FWriteRecord ν) : Prop :=
  ∀ e ∈ writesOf other, removed.path <+: e.1 → removed.path <+: other.path ∨ e.1 <+: removed.path

/-- The events of a run in which the server acknowledges the writes in their
order: the writes name no priority and have canonical data, the write that is
removed is the oldest one, and where it was to be seen, so are the others,
and those that write into it are noticed. -/
def InOrder (t : FWriteTree ν) : Event ν → Prop
  | .overwrite path newData _ _ => FNode.Plain path ∧ newData.Canonical
  | .merge path changedChildren _ => FNode.Plain path ∧ changedChildren.Sound
  | .remove writeId =>
      ∃ removed others, t.allWrites = removed :: others ∧ removed.writeId = writeId ∧
        (removed.visible = true → ∀ other ∈ others, other.visible = true ∧ Noticed removed other)
  | .removeAll => True

/-- The compound write is that of the visible writes, and these can be made. -/
structure Kept (t : FWriteTree ν) : Prop where
  records : ∀ record ∈ t.allWrites, SoundRecord record
  visible : t.visibleWrites = FCompoundWrite.addWrites t.pendingWrites

theorem Kept.pendingWrites (h : t.Kept) :
    ∀ e ∈ t.pendingWrites, FNode.Plain e.1 ∧ e.2.Canonical := by
  intro e he
  obtain ⟨record, hrecord, he⟩ := List.mem_flatMap.mp he
  exact (h.records record (List.mem_filter.mp hrecord).1).writesOf e he

theorem Kept.empty : Kept ({} : FWriteTree ν) where
  records := nofun
  visible := rfl

theorem Kept.addOverwriteAtPath {newData : FNode ν} {writeId : ℤ} {visible : Bool} (h : t.Kept)
    (hpath : FNode.Plain path) (hdata : newData.Canonical) :
    (t.addOverwriteAtPath path newData writeId visible).Kept where
  records := by
    intro record hrecord
    rcases List.mem_append.mp hrecord with hrecord | hrecord
    · exact h.records record hrecord
    · obtain rfl := List.mem_singleton.mp hrecord
      exact ⟨hpath, hdata⟩
  visible := by
    show (if visible then t.visibleWrites.addWrite newData path else t.visibleWrites) =
      FCompoundWrite.addWrites ((List.filter _ (t.allWrites ++ [_])).flatMap writesOf)
    rw [List.filter_append, List.flatMap_append]
    cases visible with
    | false =>
        rw [if_neg Bool.false_ne_true, h.visible]
        exact congrArg _ (List.append_nil _).symm
    | true =>
        rw [if_pos rfl, h.visible]
        exact (FCompoundWrite.addWrites_concat (path, newData)).symm

theorem Kept.addMergeAtPath {changedChildren : FCompoundWrite ν} {writeId : ℤ} (h : t.Kept)
    (hpath : FNode.Plain path) (hchanged : changedChildren.Sound) :
    (t.addMergeAtPath path changedChildren writeId).Kept where
  records := by
    intro record hrecord
    rcases List.mem_append.mp hrecord with hrecord | hrecord
    · exact h.records record hrecord
    · obtain rfl := List.mem_singleton.mp hrecord
      exact ⟨hpath, hchanged⟩
  visible := by
    show t.visibleWrites.addCompoundWrite changedChildren path =
      FCompoundWrite.addWrites ((List.filter _ (t.allWrites ++ [_])).flatMap writesOf)
    rw [List.filter_append, List.flatMap_append, addCompoundWrite_eq_addAll, h.visible,
      FCompoundWrite.addWrites, FCompoundWrite.addWrites, FCompoundWrite.addAll_append]
    exact congrArg _ (List.append_nil _).symm

/-- Where a later write has the path of the oldest, the oldest can be left in. -/
theorem addWrites_eq_of_contains {own later : List (FPath × FNode ν)}
    (hown : ∀ e ∈ own, FNode.Plain e.1 ∧ e.2.Canonical)
    (hlater : ∀ e ∈ later, FNode.Plain e.1 ∧ e.2.Canonical)
    (hbelow : ∀ e ∈ own, path <+: e.1) (hcontains : ∃ e ∈ later, e.1 <+: path) :
    FCompoundWrite.addWrites (own ++ later) = FCompoundWrite.addWrites later := by
  rw [FCompoundWrite.addWrites, FCompoundWrite.addAll_append]
  exact (FCompoundWrite.agreeOutside_addWrites hown hbelow).addAll_eq
    (FCompoundWrite.sound_addWrites hown).1 .emptyWrite hlater hcontains

/-- Where all later writes are beside the oldest, its paths can be removed. -/
theorem removeAll_eq_of_beside {own later : List (FPath × FNode ν)}
    (hown : ∀ e ∈ own, FNode.Plain e.1 ∧ e.2.Canonical)
    (hlater : ∀ e ∈ later, FNode.Plain e.1 ∧ e.2.Canonical)
    (hbelow : ∀ e ∈ own, path <+: e.1) (hbeside : ∀ e ∈ later, LeafWrites.Beside path e.1) :
    (own.map Prod.fst).foldl FCompoundWrite.removeWriteAtPath
        (FCompoundWrite.addWrites (own ++ later)) =
      FCompoundWrite.addWrites later := by
  have hall : ∀ e ∈ own ++ later, FNode.Plain e.1 ∧ e.2.Canonical := by
    intro e he
    rcases List.mem_append.mp he with he | he
    · exact hown e he
    · exact hlater e he
  obtain ⟨hsound, hpaths⟩ := FCompoundWrite.sound_addWrites hall
  obtain ⟨hsound', hpaths'⟩ := FCompoundWrite.sound_addWrites hlater
  obtain ⟨hremoved, hvalues⟩ := FCompoundWrite.removeAll_spec hsound (own.map Prod.fst)
  have hagree : FCompoundWrite.AgreeOutside path (FCompoundWrite.addWrites (own ++ later))
      (FCompoundWrite.addWrites later) := by
    rw [FCompoundWrite.addWrites, FCompoundWrite.addAll_append]
    exact (FCompoundWrite.agreeOutside_addWrites hown hbelow).addAll
      (FCompoundWrite.sound_addWrites hown).1 .emptyWrite hlater
  refine hremoved.ext hsound' fun q => (hvalues q).trans ?_
  by_cases hq : path <+: q
  · -- below the path there are only the writes that are removed
    have hnone : (FCompoundWrite.addWrites later).writeTree.valueAtPath q = none := by
      cases hvalue : (FCompoundWrite.addWrites later).writeTree.valueAtPath q with
      | none => rfl
      | some value =>
          obtain ⟨e, he, rfl⟩ := hpaths' q value hvalue
          exact absurd hq (hbeside e he).1
    rw [hnone]
    split
    · rfl
    · rename_i hnot
      cases hvalue : (FCompoundWrite.addWrites (own ++ later)).writeTree.valueAtPath q with
      | none => rfl
      | some value =>
          obtain ⟨e, he, rfl⟩ := hpaths q value hvalue
          rcases List.mem_append.mp he with he | he
          · exact absurd ⟨e.1, List.mem_map_of_mem he, List.prefix_rfl⟩ hnot
          · exact absurd hq (hbeside e he).1
  · rw [if_neg, hagree q hq]
    rintro ⟨p, hp, hpre⟩
    obtain ⟨e, he, rfl⟩ := List.mem_map.mp hp
    exact hq ((hbelow e he).trans hpre)

theorem removeWriteId_head {others : List (FWriteRecord ν)}
    (h : t.allWrites = removed :: others) :
    t.removeWriteId removed.writeId = some (t.removeWrite 0 removed) := by
  rw [removeWriteId, h, List.findIdx?_cons, if_pos (by simp)]
  show (_ :: others)[0]?.map _ = _
  rw [List.getElem?_cons_zero]
  rfl

theorem exists_zipIdx_reverse {P : FWriteRecord ν → Prop} :
    (∃ other ∈ writes.zipIdx.reverse, P other.1) ↔ ∃ other ∈ writes, P other := by
  constructor
  · rintro ⟨other, hother, hP⟩
    exact ⟨other.1, List.fst_mem_of_mem_zipIdx (List.mem_reverse.mp hother), hP⟩
  · rintro ⟨other, hother, hP⟩
    rw [← List.zipIdx_map_fst 0 writes] at hother
    obtain ⟨indexed, hindexed, rfl⟩ := List.mem_map.mp hother
    exact ⟨indexed, List.mem_reverse.mpr hindexed, hP⟩

section Head

variable {others : List (FWriteRecord ν)}

/-- A hidden write, and one whose path a later one has, are only forgotten. -/
theorem removeWrite_of_covered (hall : t.allWrites = removed :: others)
    (h : removed.visible = true →
      ∃ other ∈ others, other.visible = true ∧ containsPath other removed.path = true) :
    t.removeWrite 0 removed = (false, { t with allWrites := others }) := by
  cases hvisible : removed.visible with
  | false => simp [removeWrite, hall, hvisible]
  | true =>
      have hscan : (scanWrites removed 0 others.zipIdx.reverse false).1 = false :=
        scanWrites_of_contains (exists_zipIdx_reverse.mpr (h hvisible))
      simp [removeWrite, hall, hvisible, hscan]

theorem scanWrites_head
    (hnot : ∀ other ∈ others, other.visible = true → containsPath other removed.path = false) :
    scanWrites removed 0 others.zipIdx.reverse false =
      (true, others.any fun other => other.visible && removed.path.isPrefixOf other.path) := by
  rw [scanWrites_of_not_contains fun other hother => hnot other.1
    (List.fst_mem_of_mem_zipIdx (List.mem_reverse.mp hother)), Bool.false_or]
  refine congrArg _ (Bool.eq_iff_iff.mpr ?_)
  rw [List.any_eq_true, List.any_eq_true]
  exact exists_zipIdx_reverse (P := fun other =>
    (other.visible && removed.path.isPrefixOf other.path) = true)

/-- A write that later ones write into is taken out by a rebuild. -/
theorem removeWrite_of_overlap (hall : t.allWrites = removed :: others)
    (hvisible : removed.visible = true)
    (hnot : ∀ other ∈ others, other.visible = true → containsPath other removed.path = false)
    (hoverlap : (others.any fun other =>
      other.visible && removed.path.isPrefixOf other.path) = true) :
    t.removeWrite 0 removed = (true, resetTree { t with allWrites := others }) := by
  simp [removeWrite, hall, hvisible, scanWrites_head hnot, hoverlap]

/-- Any other is taken out path by path. -/
theorem removeWrite_of_beside (hall : t.allWrites = removed :: others)
    (hvisible : removed.visible = true)
    (hnot : ∀ other ∈ others, other.visible = true → containsPath other removed.path = false)
    (hbeside : (others.any fun other =>
      other.visible && removed.path.isPrefixOf other.path) = false) :
    t.removeWrite 0 removed = (true,
      { t with
        allWrites := others
        visibleWrites := ((writesOf removed).map Prod.fst).foldl FCompoundWrite.removeWriteAtPath
          t.visibleWrites }) := by
  unfold removeWrite writesOf
  cases hwrite : removed.write with
  | overwrite newData => simp [hall, hvisible, scanWrites_head hnot, hbeside]
  | merge merge => simp [hall, hvisible, scanWrites_head hnot, hbeside, List.foldl_map]

end Head

/-- Each of the three ways comes to the compound write of the others. -/
theorem visibleWrites_removeWrite {others : List (FWriteRecord ν)}
    (hall : t.allWrites = removed :: others) (hvisible : removed.visible = true)
    (hown : ∀ e ∈ writesOf removed, FNode.Plain e.1 ∧ e.2.Canonical)
    (hlater : ∀ e ∈ others.flatMap writesOf, FNode.Plain e.1 ∧ e.2.Canonical)
    (hothers : ∀ other ∈ others, other.visible = true ∧ Noticed removed other)
    (hkept : t.visibleWrites =
      FCompoundWrite.addWrites (writesOf removed ++ others.flatMap writesOf)) :
    (t.removeWrite 0 removed).2.visibleWrites =
      FCompoundWrite.addWrites (others.flatMap writesOf) := by
  have hbelow : ∀ e ∈ writesOf removed, removed.path <+: e.1 := fun _ => below_of_mem_writesOf
  by_cases hcontains : ∃ other ∈ others, containsPath other removed.path = true
  · obtain ⟨other, hother, hother'⟩ := hcontains
    obtain ⟨e, he, hpre⟩ := containsPath_iff.mp hother'
    rw [removeWrite_of_covered hall fun _ => ⟨other, hother, (hothers other hother).1, hother'⟩]
    exact hkept.trans (addWrites_eq_of_contains hown hlater hbelow
      ⟨e, List.mem_flatMap.mpr ⟨other, hother, he⟩, hpre⟩)
  · have hnot : ∀ other ∈ others, other.visible = true →
        containsPath other removed.path = false := by
      intro other hother _
      exact Bool.eq_false_iff.mpr fun hc => hcontains ⟨other, hother, hc⟩
    cases hoverlap : others.any fun other =>
        other.visible && removed.path.isPrefixOf other.path with
    | true =>
        rw [removeWrite_of_overlap hall hvisible hnot hoverlap]
        show layerTreeFromWrites others (fun _ => true) [] = _
        rw [layerTreeFromWrites_nil, List.filter_true]
    | false =>
        rw [removeWrite_of_beside hall hvisible hnot hoverlap]
        show List.foldl _ t.visibleWrites _ = _
        rw [hkept]
        refine removeAll_eq_of_beside hown hlater hbelow fun e he => ?_
        obtain ⟨other, hother, he⟩ := List.mem_flatMap.mp he
        obtain ⟨hother', hnoticed⟩ := hothers other hother
        have habove : ¬e.1 <+: removed.path := fun hpre =>
          hcontains ⟨other, hother, containsPath_iff.mpr ⟨e, he, hpre⟩⟩
        have hpath : ¬removed.path <+: other.path := by
          intro hpre
          have hno := List.any_eq_false.mp hoverlap other hother
          simp [hother', hpre] at hno
        exact ⟨fun hpre => (hnoticed e he hpre).elim hpath habove, habove⟩

theorem allWrites_removeWrite {others : List (FWriteRecord ν)}
    (hall : t.allWrites = removed :: others) :
    (t.removeWrite 0 removed).2.allWrites = others := by
  rw [removeWrite, hall]
  split
  split
  · rfl
  · split
    · rfl
    · split
      · rfl
      · rfl

/-- What is left when the oldest write is removed. -/
theorem Kept.removeWrite {others : List (FWriteRecord ν)} (h : t.Kept)
    (hall : t.allWrites = removed :: others)
    (hothers : removed.visible = true →
      ∀ other ∈ others, other.visible = true ∧ Noticed removed other) :
    (t.removeWrite 0 removed).2.Kept := by
  have hrecords : ∀ record ∈ others, SoundRecord record := fun record hrecord =>
    h.records record (hall ▸ List.mem_cons_of_mem removed hrecord)
  have hkept := h.visible
  rw [FWriteTree.pendingWrites, hall] at hkept
  refine ⟨by rwa [allWrites_removeWrite hall], ?_⟩
  rw [FWriteTree.pendingWrites, allWrites_removeWrite hall]
  cases hvisible : removed.visible with
  | false =>
      rw [removeWrite_of_covered hall (by simp [hvisible])]
      rwa [List.filter_cons_of_neg (by simp [hvisible])] at hkept
  | true =>
      have hfilter : others.filter (·.visible) = others :=
        List.filter_eq_self.mpr fun other hother => (hothers hvisible other hother).1
      rw [List.filter_cons_of_pos hvisible, hfilter, List.flatMap_cons] at hkept
      rw [hfilter]
      have hown : SoundRecord removed := h.records removed (hall ▸ List.mem_cons_self)
      refine visibleWrites_removeWrite hall hvisible hown.writesOf (fun e he => ?_)
        (hothers hvisible) hkept
      obtain ⟨other, hother, he⟩ := List.mem_flatMap.mp he
      exact (hrecords other hother).writesOf e he

theorem Kept.step {e : Event ν} (h : t.Kept) (he : t.InOrder e) (hstep : t.step e = some t') :
    t'.Kept := by
  cases e with
  | overwrite path newData writeId visible =>
      obtain ⟨-, ht⟩ := Option.ite_none_right_eq_some.mp hstep
      obtain rfl := Option.some.inj ht
      exact h.addOverwriteAtPath he.1 he.2
  | merge path changedChildren writeId =>
      obtain ⟨-, ht⟩ := Option.ite_none_right_eq_some.mp hstep
      obtain rfl := Option.some.inj ht
      exact h.addMergeAtPath he.1 he.2
  | remove writeId =>
      obtain ⟨removed, others, hall, rfl, hothers⟩ := he
      rw [FWriteTree.step, removeWriteId_head hall] at hstep
      obtain rfl := Option.some.inj hstep
      exact h.removeWrite hall hothers
  | removeAll =>
      obtain rfl := Option.some.inj hstep
      exact ⟨nofun, rfl⟩

theorem kept_of_run {events : List (Event ν)} (hrun : Runs.run step {} events = some t)
    (horder : Runs.Always step InOrder {} events) : t.Kept :=
  Runs.run_inv_of_always (fun _ _ _ h he hstep => h.step he hstep) horder .empty hrun

/-- A merge two keys deep goes unnoticed inside the write it is made in, and
is lost with it. -/
example :
    let changed := (FCompoundWrite.emptyWrite : FCompoundWrite ℕ).addWrite (.leaf 2 none) [.a, .b]
    let events := [.overwrite [.a] (.leaf 1 none) 0 true, .merge [] changed 1, .remove 0]
    (Runs.run step {} events).map (fun t =>
      (t.visibleWrites.hasCompleteWriteAtPath [.a, .b], t.allWrites.length)) = some (false, 1) := by
  decide

/-- A rebuild makes a hidden write seen. -/
example :
    let events : List (Event ℕ) :=
      [.overwrite [.a] (.leaf 1 none) 0 true, .overwrite [.b] (.leaf 2 none) 1 false,
        .overwrite [.a, .b] (.leaf 3 none) 2 true, .remove 0]
    (Runs.run step {} events).map (·.visibleWrites.hasCompleteWriteAtPath [.b]) = some true := by
  decide

/-- A write that is taken back before the one around it stays seen. -/
example :
    let events : List (Event ℕ) :=
      [.overwrite [.a] (.leaf 1 none) 0 true, .overwrite [.a, .b] (.leaf 2 none) 1 true, .remove 1]
    (Runs.run step {} events).map (fun t =>
      ((t.visibleWrites.completeNodeAtPath [.a, .b]).map (·.isEmpty), t.allWrites.length)) =
        some (some false, 1) := by
  decide

end FWriteTree

end VkClient
