import VkClient.SortedQueries

/-!
# Enumerating a sorted dictionary

The enumerator of a tree is a stack of nodes. It is built by one walk from
the root to where the enumeration starts, and every call of `nextObject`
pops a node and pushes the way down to the next one. `remaining` reads off a
stack what is still to come: `walk` puts there the keys that do not come
before the start (`remaining_walk`), and a call takes the first of them
(`nextObject_spec`).

An array's enumerator is a position. Forwards, and backwards from a key, the
two agree call by call (`call_keyEnumeratorFrom`, and so on). Backwards
without a key they do not: the walk has the comparison set to 1 for lack of
a key and then turns it around, so that every node comes before the start
and the tree's enumerator has nothing to give.
-/

namespace VkClient

open SortedEntries

variable {κ α : Type*}

section Definitions

variable (cmp : κ → κ → Ordering)

/-- What the keys are enumerated by: `NSArray`'s own enumerator,
`FArraySortedDictionaryEnumerator` or `FTreeSortedDictionaryEnumerator`, its
stack with the last object first. -/
inductive NSEnumerator (κ α : Type*) where
  | objects (keys : List κ)
  | array (pos : Int) (isReverse : Bool) (keys : List κ)
  | tree (stack : List (FLLRBNode κ α)) (isReverse : Bool)

namespace FTreeSortedDictionaryEnumerator

/-- The comparison of a node with the start. -/
def startCmp (startKey : Option κ) (isReverse : Bool) (key : κ) : Ordering :=
  let result := match startKey with
    | some startKey => cmp key startKey
    | none => .gt
  if isReverse then result.swap else result

/-- The loop of `initWithImmutableSortedDictionary`. -/
def walk (startKey : Option κ) (isReverse : Bool) :
    FLLRBNode κ α → List (FLLRBNode κ α) → List (FLLRBNode κ α)
  | .empty, stack => stack
  | .value k v c l r, stack =>
      match startCmp cmp startKey isReverse k with
      | .lt =>
          if isReverse then walk startKey isReverse l stack
          else walk startKey isReverse r stack
      | .eq => .value k v c l r :: stack
      | .gt =>
          if isReverse then walk startKey isReverse r (.value k v c l r :: stack)
          else walk startKey isReverse l (.value k v c l r :: stack)

/-- The loops of `nextObject`. -/
def descend (isReverse : Bool) :
    FLLRBNode κ α → List (FLLRBNode κ α) → List (FLLRBNode κ α)
  | .empty, stack => stack
  | .value k v c l r, stack =>
      if isReverse then descend isReverse r (.value k v c l r :: stack)
      else descend isReverse l (.value k v c l r :: stack)

def key? : FLLRBNode κ α → Option κ
  | .empty => none
  | .value k _ _ _ _ => some k

end FTreeSortedDictionaryEnumerator

open FTreeSortedDictionaryEnumerator

namespace NSEnumerator

def nextObject : NSEnumerator κ α → Option κ × NSEnumerator κ α
  | objects [] => (none, objects [])
  | objects (key :: keys) => (some key, objects keys)
  | array pos isReverse keys =>
      if 0 ≤ pos ∧ pos < keys.length then
        (keys[pos.toNat]?, array (if isReverse then pos - 1 else pos + 1) isReverse keys)
      else (none, array pos isReverse keys)
  | tree [] isReverse => (none, tree [] isReverse)
  | tree (node :: stack) isReverse =>
      let child := if isReverse then node.left else node.right
      (key? node, tree (descend isReverse child stack) isReverse)

/-- What the call after `n` others returns. -/
def call : NSEnumerator κ α → Nat → Option κ
  | enumerator, 0 => enumerator.nextObject.1
  | enumerator, n + 1 => enumerator.nextObject.2.call n

end NSEnumerator

namespace FImmutableSortedDictionary

def keys (d : FImmutableSortedDictionary κ α) : List κ := d.entries.map Prod.fst

def keyEnumerator : FImmutableSortedDictionary κ α → NSEnumerator κ α
  | array entries => .objects (entries.map Prod.fst)
  | tree root => .tree (walk cmp none false root []) false

def keyEnumeratorFrom (d : FImmutableSortedDictionary κ α) (startKey : κ) : NSEnumerator κ α :=
  match d with
  | array entries =>
      .array (FArraySortedDictionary.findInsertPositionForKey cmp startKey entries) false
        (entries.map Prod.fst)
  | tree root => .tree (walk cmp (some startKey) false root []) false

def reverseKeyEnumerator : FImmutableSortedDictionary κ α → NSEnumerator κ α
  | array entries => .objects (entries.map Prod.fst).reverse
  | tree root => .tree (walk cmp none true root []) true

def reverseKeyEnumeratorFrom (d : FImmutableSortedDictionary κ α) (startKey : κ) :
    NSEnumerator κ α :=
  match d with
  | array entries =>
      let keys := entries.map Prod.fst
      let startPos := FArraySortedDictionary.findInsertPositionForKey cmp startKey entries
      -- without an exact match the position is one after the closest key
      let exactMatch := keys[startPos]?.any fun key => cmp key startKey = .eq
      .array (if exactMatch then startPos else startPos - 1) true keys
  | tree root => .tree (walk cmp (some startKey) true root []) true

end FImmutableSortedDictionary

end Definitions

/-! ## The keys from a start on -/

/-- The keys that do not come before the start. -/
def keysFrom (cmp : κ → κ → Ordering) (startKey : κ) (entries : List (κ × α)) : List κ :=
  (entries.filter fun e => cmp e.1 startKey ≠ .lt).map Prod.fst

section KeysFrom

variable {cmp : κ → κ → Ordering} [Std.TransCmp cmp] {startKey : κ} {entry : κ × α}
  {before after : List (κ × α)}

theorem keysFrom_eq_nil {entries : List (κ × α)} (h : ∀ e ∈ entries, cmp startKey e.1 = .gt) :
    keysFrom cmp startKey entries = [] := by
  have hnil : entries.filter (fun e => cmp e.1 startKey ≠ .lt) = [] :=
    List.filter_eq_nil_iff.mpr fun e he => by simp [Std.OrientedCmp.lt_of_gt (h e he)]
  rw [keysFrom, hnil]
  rfl

theorem keysFrom_eq_map {entries : List (κ × α)} (h : ∀ e ∈ entries, cmp startKey e.1 = .lt) :
    keysFrom cmp startKey entries = entries.map Prod.fst := by
  have hself : entries.filter (fun e => cmp e.1 startKey ≠ .lt) = entries :=
    List.filter_eq_self.mpr fun e he => by simp [Std.OrientedCmp.gt_of_lt (h e he)]
  rw [keysFrom, hself]

omit [Std.TransCmp cmp] in
theorem keysFrom_append : keysFrom cmp startKey (before ++ after) =
    keysFrom cmp startKey before ++ keysFrom cmp startKey after := by
  rw [keysFrom, List.filter_append, List.map_append, keysFrom, keysFrom]

omit [Std.TransCmp cmp] in
theorem keysFrom_cons_of_lt (h : cmp entry.1 startKey = .lt) :
    keysFrom cmp startKey (entry :: after) = keysFrom cmp startKey after := by
  rw [keysFrom, List.filter_cons_of_neg (by simp [h]), keysFrom]

theorem keysFrom_cons_of_ne (h : cmp entry.1 startKey ≠ .lt)
    (hafter : ∀ e ∈ after, cmp entry.1 e.1 = .lt) :
    keysFrom cmp startKey (entry :: after) = entry.1 :: after.map Prod.fst := by
  have hne : cmp startKey entry.1 ≠ .gt := fun hgt => h (Std.OrientedCmp.lt_of_gt hgt)
  rw [← keysFrom_eq_map (lt_of_mem_after hafter hne), keysFrom,
    List.filter_cons_of_pos (by simpa using h), List.map_cons, keysFrom]

theorem keysFrom_append_of_isLE (h : cmp entry.1 startKey ≠ .gt)
    (hbefore : ∀ e ∈ before, cmp e.1 entry.1 = .lt) :
    keysFrom cmp startKey (before ++ entry :: after) = keysFrom cmp startKey (entry :: after) := by
  have hne : cmp startKey entry.1 ≠ .lt := fun hlt => h (Std.OrientedCmp.gt_of_lt hlt)
  rw [keysFrom_append, keysFrom_eq_nil (gt_of_mem_before hbefore hne), List.nil_append]

end KeysFrom

/-! ## Both directions at once -/

section Direction

variable (cmp : κ → κ → Ordering)

/-- The order of the enumeration. -/
def directed (isReverse : Bool) : κ → κ → Ordering :=
  if isReverse then fun a b => cmp b a else cmp

instance [Std.TransCmp cmp] (isReverse : Bool) : Std.TransCmp (directed cmp isReverse) := by
  cases isReverse with
  | true => exact inferInstanceAs (Std.TransCmp fun a b => cmp b a)
  | false => exact inferInstanceAs (Std.TransCmp cmp)

end Direction

namespace FTreeSortedDictionaryEnumerator

/-- The subtree that is enumerated before its parent, and the one after. -/
def near (isReverse : Bool) (node : FLLRBNode κ α) : FLLRBNode κ α :=
  if isReverse then node.right else node.left

def far (isReverse : Bool) (node : FLLRBNode κ α) : FLLRBNode κ α :=
  if isReverse then node.left else node.right

def inOrder (isReverse : Bool) (node : FLLRBNode κ α) : List (κ × α) :=
  if isReverse then node.entries.reverse else node.entries

variable {isReverse : Bool} {cmp : κ → κ → Ordering}

theorem inOrder_value (k : κ) (v : α) (c : FLLRBColor) (l r : FLLRBNode κ α) :
    inOrder isReverse (.value k v c l r) =
      inOrder isReverse (near isReverse (.value k v c l r)) ++
        (k, v) :: inOrder isReverse (far isReverse (.value k v c l r)) := by
  cases isReverse <;> simp [inOrder, near, far, FLLRBNode.entries]

theorem sorted_inOrder {node : FLLRBNode κ α} (h : Sorted cmp node.entries) :
    Sorted (directed cmp isReverse) (inOrder isReverse node) := by
  cases isReverse with
  | true => exact List.pairwise_reverse.mpr h
  | false => exact h

theorem startCmp_some [Std.TransCmp cmp] (startKey key : κ) :
    startCmp cmp (some startKey) isReverse key = directed cmp isReverse key startKey := by
  cases isReverse with
  | true => exact Std.OrientedCmp.eq_swap.symm
  | false => rfl

/-! ## What a stack has still to give -/

def remaining (isReverse : Bool) (stack : List (FLLRBNode κ α)) : List κ :=
  stack.flatMap fun node =>
    (key? node).toList ++ (inOrder isReverse (far isReverse node)).map Prod.fst

theorem remaining_cons (k : κ) (v : α) (c : FLLRBColor) (l r : FLLRBNode κ α)
    (stack : List (FLLRBNode κ α)) :
    remaining isReverse (.value k v c l r :: stack) =
      k :: (inOrder isReverse (far isReverse (.value k v c l r))).map Prod.fst ++
        remaining isReverse stack := rfl

theorem remaining_descend (node : FLLRBNode κ α) (stack : List (FLLRBNode κ α)) :
    remaining isReverse (descend isReverse node stack) =
      (inOrder isReverse node).map Prod.fst ++ remaining isReverse stack := by
  induction node generalizing stack with
  | empty => cases isReverse <;> rfl
  | value k v c l r ihl ihr =>
      rw [inOrder_value, List.map_append, List.append_assoc, List.map_cons, ← remaining_cons,
        descend]
      cases isReverse with
      | true => exact ihr _
      | false => exact ihl _

/-- The walk to the start leaves the keys that do not come before it. -/
theorem remaining_walk [Std.TransCmp cmp] (startKey : κ) {node : FLLRBNode κ α}
    (hsorted : Sorted (directed cmp isReverse) (inOrder isReverse node))
    (stack : List (FLLRBNode κ α)) :
    remaining isReverse (walk cmp (some startKey) isReverse node stack) =
      keysFrom (directed cmp isReverse) startKey (inOrder isReverse node) ++
        remaining isReverse stack := by
  induction node generalizing stack with
  | empty => cases isReverse <;> rfl
  | value k v c l r ihl ihr =>
      rw [inOrder_value] at hsorted ⊢
      obtain ⟨hnear, hfar, hlt, hgt⟩ := sorted_append_cons.mp hsorted
      have ihnear : ∀ stack, remaining isReverse (walk cmp (some startKey) isReverse
          (near isReverse (.value k v c l r)) stack) =
            keysFrom (directed cmp isReverse) startKey
              (inOrder isReverse (near isReverse (.value k v c l r))) ++
                remaining isReverse stack := by
        cases isReverse with
        | true => exact ihr hnear
        | false => exact ihl hnear
      have ihfar : ∀ stack, remaining isReverse (walk cmp (some startKey) isReverse
          (far isReverse (.value k v c l r)) stack) =
            keysFrom (directed cmp isReverse) startKey
              (inOrder isReverse (far isReverse (.value k v c l r))) ++
                remaining isReverse stack := by
        cases isReverse with
        | true => exact ihl hfar
        | false => exact ihr hfar
      rw [walk, startCmp_some]
      cases hcmp : directed cmp isReverse k startKey with
      | lt =>
          rw [keysFrom_append_of_isLE (by simp [hcmp]) hlt, keysFrom_cons_of_lt hcmp, ← ihfar]
          cases isReverse <;> rfl
      | eq =>
          have hne : directed cmp isReverse k startKey ≠ .lt := by simp [hcmp]
          rw [keysFrom_append_of_isLE (by simp [hcmp]) hlt, keysFrom_cons_of_ne hne hgt,
            remaining_cons]
      | gt =>
          have hne : directed cmp isReverse k startKey ≠ .lt := by simp [hcmp]
          rw [keysFrom_append, keysFrom_cons_of_ne hne hgt, List.append_assoc, ← remaining_cons,
            ← ihnear]
          cases isReverse <;> rfl

/-- Forwards, a walk without a start is the way down to the first node. -/
theorem walk_none_false (node : FLLRBNode κ α) (stack : List (FLLRBNode κ α)) :
    walk cmp none false node stack = descend false node stack := by
  induction node generalizing stack with
  | empty => rfl
  | value k v c l r ihl ihr => exact ihl _

/-- Backwards, every node is taken to come before the start. -/
theorem walk_none_true (node : FLLRBNode κ α) (stack : List (FLLRBNode κ α)) :
    walk cmp none true node stack = stack := by
  induction node with
  | empty => rfl
  | value k v c l r ihl ihr => exact ihl

/-! ## The calls on a stack -/

/-- The stack holds nodes only that have a key. -/
def Full (stack : List (FLLRBNode κ α)) : Prop := ∀ node ∈ stack, node.isEmpty = false

theorem full_descend (node : FLLRBNode κ α) {stack : List (FLLRBNode κ α)} (h : Full stack) :
    Full (descend isReverse node stack) := by
  induction node generalizing stack with
  | empty => exact h
  | value k v c l r ihl ihr =>
      have hcons : Full (.value k v c l r :: stack) := List.forall_mem_cons.mpr ⟨rfl, h⟩
      cases isReverse with
      | true => exact ihr hcons
      | false => exact ihl hcons

theorem full_walk {startKey : Option κ} (node : FLLRBNode κ α)
    {stack : List (FLLRBNode κ α)} (h : Full stack) :
    Full (walk cmp startKey isReverse node stack) := by
  induction node generalizing stack with
  | empty => exact h
  | value k v c l r ihl ihr =>
      have hcons : Full (.value k v c l r :: stack) := List.forall_mem_cons.mpr ⟨rfl, h⟩
      rw [walk]
      cases startCmp cmp startKey isReverse k with
      | lt => cases isReverse with
        | true => exact ihl h
        | false => exact ihr h
      | eq => exact hcons
      | gt => cases isReverse with
        | true => exact ihr hcons
        | false => exact ihl hcons

/-- A call takes the first of what remains and leaves the others. -/
theorem call_tree {stack : List (FLLRBNode κ α)} (h : Full stack) (n : Nat) :
    (NSEnumerator.tree stack isReverse).call n = (remaining isReverse stack)[n]? := by
  induction n generalizing stack with
  | zero =>
      cases stack with
      | nil => rfl
      | cons node stack =>
          cases node with
          | empty => exact absurd (h _ List.mem_cons_self) Bool.noConfusion
          | value k v c l r => rfl
  | succ n ih =>
      cases stack with
      | nil => exact ih h
      | cons node stack =>
          obtain ⟨hnode, hstack⟩ := List.forall_mem_cons.mp h
          cases node with
          | empty => exact absurd hnode Bool.noConfusion
          | value k v c l r =>
              rw [remaining_cons, List.cons_append, List.getElem?_cons_succ, ← remaining_descend]
              exact ih (full_descend _ hstack)

end FTreeSortedDictionaryEnumerator

/-! ## The calls on an array -/

namespace NSEnumerator

theorem call_objects (keys : List κ) (n : Nat) :
    (objects keys : NSEnumerator κ α).call n = keys[n]? := by
  induction n generalizing keys with
  | zero => cases keys <;> rfl
  | succ n ih =>
      cases keys with
      | nil => exact ih []
      | cons key keys => exact ih keys

theorem call_array_forward (keys : List κ) (pos n : Nat) :
    (array pos false keys : NSEnumerator κ α).call n = (keys.drop pos)[n]? := by
  rw [List.getElem?_drop]
  induction n generalizing pos with
  | zero =>
      by_cases h : pos < keys.length
      · simp [call, nextObject, h]
      · simp [call, nextObject, h]
  | succ n ih =>
      by_cases h : pos < keys.length
      · have hnext : (array pos false keys : NSEnumerator κ α).nextObject.2 =
            array (pos + 1 : Nat) false keys := by simp [nextObject, h]
        rw [call, hnext, ih]
        congr 1
        omega
      · have hstay : (array pos false keys : NSEnumerator κ α).nextObject.2 =
            array pos false keys := by simp [nextObject, h]
        rw [call, hstay, ih, List.getElem?_eq_none (by omega), List.getElem?_eq_none (by omega)]

theorem reverse_take_succ {keys : List κ} {pos : Nat} (h : pos < keys.length) :
    (keys.take (pos + 1)).reverse = keys[pos] :: (keys.take pos).reverse := by
  rw [List.take_succ_eq_append_getElem h, List.reverse_append]
  rfl

/-- The position is the one before `upTo`. -/
theorem call_array_reverse {keys : List κ} {upTo : Nat} (h : upTo ≤ keys.length) (n : Nat) :
    (array (upTo - 1) true keys : NSEnumerator κ α).call n = (keys.take upTo).reverse[n]? := by
  induction n generalizing upTo with
  | zero =>
      cases upTo with
      | zero => rfl
      | succ pos =>
          have hpos : pos < keys.length := h
          rw [reverse_take_succ hpos]
          simp [call, nextObject, hpos]
  | succ n ih =>
      cases upTo with
      | zero => exact ih h
      | succ pos =>
          have hpos : pos < keys.length := h
          have hnext : (array ((pos + 1 : Nat) - 1) true keys : NSEnumerator κ α).nextObject.2 =
              array (pos - 1) true keys := by simp [nextObject, hpos]
          rw [call, hnext, ih (Nat.le_of_lt hpos), reverse_take_succ hpos,
            List.getElem?_cons_succ]

end NSEnumerator

namespace FArraySortedDictionary

variable {cmp : κ → κ → Ordering} [Std.TransCmp cmp] {startKey : κ} {entries : List (κ × α)}

omit [Std.TransCmp cmp] in
theorem findInsertPosition_le : findInsertPositionForKey cmp startKey entries ≤ entries.length := by
  induction entries with
  | nil => exact Nat.le_refl _
  | cons entry entries ih =>
      rw [findInsertPositionForKey, List.length_cons]
      split_ifs <;> omega

/-- The position splits the entries at the start. -/
theorem drop_findInsertPosition (hsorted : Sorted cmp entries) :
    (entries.drop (findInsertPositionForKey cmp startKey entries)).map Prod.fst =
      keysFrom cmp startKey entries := by
  induction entries with
  | nil => rfl
  | cons entry entries ih =>
      obtain ⟨hentry, hrest⟩ := List.pairwise_cons.mp hsorted
      rw [findInsertPositionForKey]
      by_cases h : cmp entry.1 startKey = .lt
      · rw [if_pos h, List.drop_succ_cons, ih hrest, keysFrom_cons_of_lt h]
      · rw [if_neg h, keysFrom_cons_of_ne h hentry]
        rfl

/-- Backwards the enumeration starts at an exact match, or before the
position. -/
theorem take_findInsertPosition (startKey : κ) (hsorted : Sorted cmp entries) :
    entries.filter (fun e => cmp startKey e.1 ≠ .lt) =
      entries.take (if (entries.map Prod.fst)[findInsertPositionForKey cmp startKey entries]?.any
          fun key => cmp key startKey = .eq
        then findInsertPositionForKey cmp startKey entries + 1
        else findInsertPositionForKey cmp startKey entries) := by
  induction entries with
  | nil => rfl
  | cons entry entries ih =>
      obtain ⟨hentry, hrest⟩ := List.pairwise_cons.mp hsorted
      rw [findInsertPositionForKey]
      cases h : cmp entry.1 startKey with
      | lt =>
          have hkept : cmp startKey entry.1 ≠ .lt := by simp [Std.OrientedCmp.gt_of_lt h]
          rw [List.filter_cons_of_pos (by simpa using hkept), ih hrest]
          simp only [if_true, List.map_cons, List.getElem?_cons_succ]
          split_ifs <;> rfl
      | eq =>
          have hkept : cmp startKey entry.1 ≠ .lt := by simp [Std.OrientedCmp.eq_symm h]
          have hafter := lt_of_mem_after hentry
            (by simp [Std.OrientedCmp.eq_symm h] : cmp startKey entry.1 ≠ .gt)
          have hnil : entries.filter (fun e => cmp startKey e.1 ≠ .lt) = [] :=
            List.filter_eq_nil_iff.mpr fun e he => by simp [hafter e he]
          rw [List.filter_cons_of_pos (by simpa using hkept), hnil]
          simp [h]
      | gt =>
          have hlt := Std.OrientedCmp.lt_of_gt h
          have hafter := lt_of_mem_after hentry (by simp [hlt] : cmp startKey entry.1 ≠ .gt)
          have hnil : (entry :: entries).filter (fun e => cmp startKey e.1 ≠ .lt) = [] :=
            List.filter_eq_nil_iff.mpr (List.forall_mem_cons.mpr
              ⟨by simp [hlt], fun e he => by simp [hafter e he]⟩)
          rw [hnil]
          simp [h]

end FArraySortedDictionary

namespace FImmutableSortedDictionary

open FTreeSortedDictionaryEnumerator

variable {cmp : κ → κ → Ordering} [Std.TransCmp cmp] {d : FImmutableSortedDictionary κ α}

omit [Std.TransCmp cmp] in
theorem call_keyEnumerator (n : Nat) : (d.keyEnumerator cmp).call n = d.keys[n]? := by
  cases d with
  | array entries => exact NSEnumerator.call_objects _ n
  | tree root =>
      have hfull : Full (walk cmp none false root []) :=
        full_walk root fun node h => absurd h List.not_mem_nil
      refine (call_tree hfull n).trans ?_
      rw [walk_none_false, remaining_descend]
      simp [remaining, inOrder, keys, entries]

theorem call_keyEnumeratorFrom (h : d.Sound cmp) (startKey : κ) (n : Nat) :
    (d.keyEnumeratorFrom cmp startKey).call n =
      (d.keys.filter fun key => cmp key startKey ≠ .lt)[n]? := by
  rw [keys, List.filter_map]
  cases d with
  | array entries =>
      have hsorted : Sorted cmp entries := h.sorted
      refine (NSEnumerator.call_array_forward _ _ n).trans ?_
      rw [← List.map_drop, FArraySortedDictionary.drop_findInsertPosition hsorted]
      rfl
  | tree root =>
      have hfull : Full (walk cmp (some startKey) false root []) :=
        full_walk root fun node h => absurd h List.not_mem_nil
      refine (call_tree hfull n).trans ?_
      rw [remaining_walk startKey (sorted_inOrder h.sorted)]
      simp [remaining, inOrder, keysFrom, directed, entries, Function.comp_def]

theorem call_reverseKeyEnumeratorFrom (h : d.Sound cmp) (startKey : κ) (n : Nat) :
    (d.reverseKeyEnumeratorFrom cmp startKey).call n =
      (d.keys.filter fun key => cmp startKey key ≠ .lt).reverse[n]? := by
  rw [keys, List.filter_map]
  cases d with
  | array entries =>
      have hsorted : Sorted cmp entries := h.sorted
      have htake := FArraySortedDictionary.take_findInsertPosition startKey hsorted
      have hle : FArraySortedDictionary.findInsertPositionForKey cmp startKey entries ≤
          (entries.map Prod.fst).length := by
        rw [List.length_map]
        exact FArraySortedDictionary.findInsertPosition_le
      have hkeys : (entries.filter ((fun key => cmp startKey key ≠ .lt) ∘ Prod.fst)).map Prod.fst =
          _ := congrArg (List.map Prod.fst) htake
      simp only [FImmutableSortedDictionary.entries, reverseKeyEnumeratorFrom]
      rw [hkeys, List.map_take]
      generalize FArraySortedDictionary.findInsertPositionForKey cmp startKey entries = pos at hle ⊢
      by_cases hmatch : ((entries.map Prod.fst)[pos]?.any fun key => cmp key startKey = .eq) = true
      · have hpos : pos < (entries.map Prod.fst).length := by
          by_contra hout
          rw [List.getElem?_eq_none (Nat.le_of_not_lt hout)] at hmatch
          cases hmatch
        have hcall : (.array ((pos + 1 : Nat) - 1) true (entries.map Prod.fst) :
            NSEnumerator κ α).call n = _ := NSEnumerator.call_array_reverse hpos n
        rw [if_pos hmatch, if_pos hmatch, ← hcall]
        simp
      · rw [if_neg hmatch, if_neg hmatch]
        exact NSEnumerator.call_array_reverse hle n
  | tree root =>
      have hfull : Full (walk cmp (some startKey) true root []) :=
        full_walk root fun node h => absurd h List.not_mem_nil
      refine (call_tree hfull n).trans ?_
      rw [remaining_walk startKey (sorted_inOrder h.sorted)]
      simp [remaining, inOrder, keysFrom, directed, entries, Function.comp_def]

/-- **Enumerating.** The calls return the keys one after the other and then
`nil`: all of them, those not before a key, those not after a key from the
greatest down. Backwards without a key an array returns all keys, and a tree
none. -/
theorem enumerators_call [DecidableEq κ] (h : Reachable cmp d) (n : Nat) :
    (d.keyEnumerator cmp).call n = d.keys[n]? ∧
      (∀ startKey, (d.keyEnumeratorFrom cmp startKey).call n =
        (d.keys.filter fun key => cmp key startKey ≠ .lt)[n]?) ∧
      (∀ startKey, (d.reverseKeyEnumeratorFrom cmp startKey).call n =
        (d.keys.filter fun key => cmp startKey key ≠ .lt).reverse[n]?) ∧
      (∀ entries, d = array entries → (d.reverseKeyEnumerator cmp).call n = d.keys.reverse[n]?) ∧
      ∀ root, d = tree root → (d.reverseKeyEnumerator cmp).call n = none := by
  refine ⟨call_keyEnumerator n, fun startKey => call_keyEnumeratorFrom h.sound startKey n,
    fun startKey => call_reverseKeyEnumeratorFrom h.sound startKey n, ?_, ?_⟩
  · rintro entries rfl
    exact NSEnumerator.call_objects _ n
  · rintro root rfl
    have hfull : Full (walk cmp none true root []) :=
      full_walk root fun node h => absurd h List.not_mem_nil
    refine (call_tree hfull n).trans ?_
    rw [walk_none_true]
    rfl

theorem enumerators_call_numbers :
    ((array [(1, "a"), (2, "b")]).keyEnumeratorFrom compare 2).call 0 = some 2 ∧
      ((array [(1, "a"), (2, "b")]).reverseKeyEnumerator compare).call 0 = some 2 := by
  obtain ⟨-, hfrom, -, hreverse, -⟩ := enumerators_call reachable_numbers 0
  exact ⟨(hfrom 2).trans (by decide), (hreverse _ rfl).trans (by decide)⟩

end FImmutableSortedDictionary

end VkClient
