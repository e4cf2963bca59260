import Mathlib.Algebra.Ring.Nat
import VkClient.SortedEntries

/-!
# Left-leaning red-black trees

The nodes of Firebase's tree dictionaries. A node is never changed: an
operation copies the path it takes and repairs it on the way back with
`fixUp`. `entries` forgets the shape and keeps the entries in order; the
rotations and the colour flip leave them alone, which is all of a tree's
contents an insertion has to know (`entries_insertKey`).

The shape is the invariant `LL c n`: the root has colour `c`, every path
down crosses `n` black nodes, a red node has black children, and no right
child is red. It is what `check` checks (`check_of_LL`), it bounds the
depth (`checkMaxDepth_of_LL`), and every insertion keeps it up to a red
root over a red child, which the dictionary blackens
(`insertKey_blackened`).
-/

namespace VkClient

/-- `RED` and `BLACK`. -/
inductive FLLRBColor where
  | red
  | black
deriving DecidableEq, Repr

def FLLRBColor.not : FLLRBColor → FLLRBColor
  | .red => .black
  | .black => .red

@[simp] theorem FLLRBColor.not_not (c : FLLRBColor) : c.not.not = c := by
  cases c <;> rfl

/-- `FLLRBEmptyNode` and `FLLRBValueNode`. -/
inductive FLLRBNode (κ α : Type*) where
  | empty
  | value (key : κ) (value : α) (color : FLLRBColor) (left right : FLLRBNode κ α)
deriving DecidableEq, Repr

namespace FLLRBNode

variable {κ α : Type*}

/-! ## Nodes

The children of the empty node are `nil`, which answers a message like the
empty node does. -/

def left : FLLRBNode κ α → FLLRBNode κ α
  | empty => empty
  | value _ _ _ l _ => l

def right : FLLRBNode κ α → FLLRBNode κ α
  | empty => empty
  | value _ _ _ _ r => r

def isEmpty : FLLRBNode κ α → Bool
  | empty => true
  | value .. => false

def isRed : FLLRBNode κ α → Bool
  | empty => false
  | value _ _ c _ _ => c = .red

def count : FLLRBNode κ α → Nat
  | empty => 0
  | value _ _ _ l r => l.count + 1 + r.count

@[simp] theorem left_value (k : κ) (v : α) (c : FLLRBColor) (l r : FLLRBNode κ α) :
    (value k v c l r).left = l := rfl

@[simp] theorem right_value (k : κ) (v : α) (c : FLLRBColor) (l r : FLLRBNode κ α) :
    (value k v c l r).right = r := rfl

@[simp] theorem isRed_value (k : κ) (v : α) (c : FLLRBColor) (l r : FLLRBNode κ α) :
    (value k v c l r).isRed = decide (c = .red) := rfl

/-- `copyWith`, with a new colour, left or right child. -/
def withColor (color : FLLRBColor) : FLLRBNode κ α → FLLRBNode κ α
  | empty => empty
  | value k v _ l r => value k v color l r

def withLeft : FLLRBNode κ α → FLLRBNode κ α → FLLRBNode κ α
  | empty, _ => empty
  | value k v c _ r, l => value k v c l r

def withRight : FLLRBNode κ α → FLLRBNode κ α → FLLRBNode κ α
  | empty, _ => empty
  | value k v c l _, r => value k v c l r

/-- The first value node the left children lead to, as key and value. -/
def min : FLLRBNode κ α → Option (κ × α)
  | empty => none
  | value k v _ empty _ => some (k, v)
  | value _ _ _ l _ => l.min

def maxKey : FLLRBNode κ α → Option κ
  | empty => none
  | value k _ _ _ empty => some k
  | value _ _ _ _ r => r.maxKey

/-! ## Repairs -/

def flipped : FLLRBNode κ α → FLLRBNode κ α
  | empty => empty
  | value k v c l r => value k v c.not l r

def colorFlip : FLLRBNode κ α → FLLRBNode κ α
  | empty => empty
  | value k v c l r => value k v c.not l.flipped r.flipped

def rotateLeft : FLLRBNode κ α → FLLRBNode κ α
  | empty => empty
  | value k v c l r => (r.withColor c).withLeft (value k v .red l r.left)

def rotateRight : FLLRBNode κ α → FLLRBNode κ α
  | empty => empty
  | value k v c l r => (l.withColor c).withRight (value k v .red l.right r)

def fixUp (n : FLLRBNode κ α) : FLLRBNode κ α :=
  let n := if n.right.isRed && !n.left.isRed then n.rotateLeft else n
  let n := if n.left.isRed && n.left.left.isRed then n.rotateRight else n
  if n.left.isRed && n.right.isRed then n.colorFlip else n

def moveRedLeft (n : FLLRBNode κ α) : FLLRBNode κ α :=
  let n := n.colorFlip
  if n.right.left.isRed then (n.withRight n.right.rotateRight).rotateLeft.colorFlip else n

def moveRedRight (n : FLLRBNode κ α) : FLLRBNode κ α :=
  let n := n.colorFlip
  if n.left.left.isRed then n.rotateRight.colorFlip else n

/-! ## Insertion -/

def insertKey (cmp : κ → κ → Ordering) (key : κ) (newValue : α) :
    FLLRBNode κ α → FLLRBNode κ α
  | empty => value key newValue .red empty empty
  | value k v c l r =>
      match cmp key k with
      | .lt => (value k v c (l.insertKey cmp key newValue) r).fixUp
      | .eq => (value k newValue c l r).fixUp
      | .gt => (value k v c l (r.insertKey cmp key newValue)).fixUp

/-! ## Checks -/

/-- The black depth, or `none` for the exception of a red node with a red
child, a red right child, or children of different depth. -/
def check : FLLRBNode κ α → Option Nat
  | empty => some 0
  | value k v c l r =>
      if (value k v c l r).isRed && l.isRed then none
      else if r.isRed then none
      else do
        let blackDepth ← l.check
        let rightDepth ← r.check
        if blackDepth ≠ rightDepth then none
        else some (blackDepth + if c = .red then 0 else 1)

def checkMaxDepth (n : FLLRBNode κ α) : Option Bool :=
  n.check.map fun blackDepth => decide (2 ^ blackDepth ≤ n.count + 1)

/-! ## Entries -/

/-- The entries in order, whatever the shape. -/
def entries : FLLRBNode κ α → List (κ × α)
  | empty => []
  | value k v _ l r => l.entries ++ (k, v) :: r.entries

theorem min_eq_head? (n : FLLRBNode κ α) : n.min = n.entries.head? := by
  induction n with
  | empty => rfl
  | value k v c l r ihl ihr =>
      cases l with
      | empty => rfl
      | value lk lv lc ll lr =>
          have hne : (value lk lv lc ll lr).entries ≠ [] := by simp [entries]
          rw [min, ihl]
          · exact (List.head?_append_of_ne_nil _ hne).symm
          · exact fun h => nomatch h

theorem maxKey_eq (n : FLLRBNode κ α) : n.maxKey = n.entries.getLast?.map Prod.fst := by
  induction n with
  | empty => rfl
  | value k v c l r ihl ihr =>
      cases r with
      | empty => simp [maxKey, entries]
      | value rk rv rc rl rr =>
          rw [maxKey, ihr]
          · simp [entries, List.getLast?_append, List.getLast?_cons]
          · exact fun h => nomatch h

theorem exists_of_isRed {n : FLLRBNode κ α} (h : n.isRed = true) :
    ∃ k v l r, n = value k v .red l r := by
  cases n with
  | empty => cases h
  | value k v c l r =>
      obtain rfl : c = .red := by simpa [isRed] using h
      exact ⟨k, v, l, r, rfl⟩

@[simp] theorem entries_withColor (c : FLLRBColor) (n : FLLRBNode κ α) :
    (n.withColor c).entries = n.entries := by
  cases n <;> rfl

@[simp] theorem entries_flipped (n : FLLRBNode κ α) : n.flipped.entries = n.entries := by
  cases n <;> rfl

@[simp] theorem entries_colorFlip (n : FLLRBNode κ α) : n.colorFlip.entries = n.entries := by
  cases n <;> simp [colorFlip, entries]

theorem entries_rotateLeft {n : FLLRBNode κ α} (h : n.right.isRed = true) :
    n.rotateLeft.entries = n.entries := by
  obtain ⟨rk, rv, rl, rr, hr⟩ := exists_of_isRed h
  cases n with
  | empty => rfl
  | value k v c l r =>
      obtain rfl : r = _ := hr
      simp [rotateLeft, withColor, withLeft, entries]

theorem entries_rotateRight {n : FLLRBNode κ α} (h : n.left.isRed = true) :
    n.rotateRight.entries = n.entries := by
  obtain ⟨lk, lv, ll, lr, hl⟩ := exists_of_isRed h
  cases n with
  | empty => rfl
  | value k v c l r =>
      obtain rfl : l = _ := hl
      simp [rotateRight, withColor, withRight, entries]

@[simp] theorem entries_fixUp (n : FLLRBNode κ α) : n.fixUp.entries = n.entries := by
  have hleft : ∀ n : FLLRBNode κ α,
      (if n.right.isRed && !n.left.isRed then n.rotateLeft else n).entries = n.entries := by
    intro n
    split_ifs with h
    · exact entries_rotateLeft (Bool.and_eq_true_iff.mp h).1
    · rfl
  have hright : ∀ n : FLLRBNode κ α,
      (if n.left.isRed && n.left.left.isRed then n.rotateRight else n).entries = n.entries := by
    intro n
    split_ifs with h
    · exact entries_rotateRight (Bool.and_eq_true_iff.mp h).1
    · rfl
  have hflip : ∀ n : FLLRBNode κ α,
      (if n.left.isRed && n.right.isRed then n.colorFlip else n).entries = n.entries := by
    intro n
    split_ifs
    · exact entries_colorFlip n
    · rfl
  exact (hflip _).trans ((hright _).trans (hleft n))

/-- Insertion puts the entry in its place; an equal key stays what it was. -/
theorem entries_insertKey {cmp : κ → κ → Ordering} [Std.TransCmp cmp] {key : κ} {newValue : α}
    {n : FLLRBNode κ α} (hsorted : SortedEntries.Sorted cmp n.entries) :
    (n.insertKey cmp key newValue).entries =
      SortedEntries.insertWith cmp (fun old _ => old) key newValue n.entries := by
  induction n with
  | empty => rfl
  | value k v c l r ihl ihr =>
      obtain ⟨hl, hr, hlt, -⟩ := SortedEntries.sorted_append_cons.mp hsorted
      cases hcmp : cmp key k with
      | lt =>
          simp only [insertKey, hcmp, entries_fixUp, entries, ihl hl]
          exact (SortedEntries.insertWith_append_of_lt hcmp).symm
      | eq =>
          have hne : cmp key k ≠ .lt := by simp [hcmp]
          have hgt := SortedEntries.gt_of_mem_before hlt hne
          simp only [insertKey, hcmp, entries_fixUp, entries]
          rw [SortedEntries.insertWith_append_of_gt hgt, SortedEntries.insertWith, hcmp]
      | gt =>
          have hne : cmp key k ≠ .lt := by simp [hcmp]
          have hgt := SortedEntries.gt_of_mem_before hlt hne
          simp only [insertKey, hcmp, entries_fixUp, entries, ihr hr]
          rw [SortedEntries.insertWith_append_of_gt hgt, SortedEntries.insertWith, hcmp]

/-! ## The shape -/

/-- A left-leaning red-black tree with a root of this colour and of this
black depth. -/
inductive LL : FLLRBColor → Nat → FLLRBNode κ α → Prop where
  | empty : LL .black 0 .empty
  | red {n k v l r} : LL .black n l → LL .black n r → LL .red n (.value k v .red l r)
  | black {c n k v l r} : LL c n l → LL .black n r → LL .black (n + 1) (.value k v .black l r)

theorem LL.isRed_eq {c : FLLRBColor} {n : Nat} {t : FLLRBNode κ α} (h : LL c n t) :
    t.isRed = decide (c = .red) := by
  cases h <;> rfl

theorem LL.isRed_left {n : Nat} {t : FLLRBNode κ α} (h : LL .red n t) : t.left.isRed = false := by
  cases h with
  | red hl _ => exact hl.isRed_eq

/-- A tree after `check`, which raises nothing. -/
theorem check_of_LL {c : FLLRBColor} {n : Nat} {t : FLLRBNode κ α} (h : LL c n t) :
    t.check = some n := by
  induction h with
  | empty => rfl
  | red hl hr ihl ihr => simp [check, hl.isRed_eq, hr.isRed_eq, ihl, ihr]
  | black hl hr ihl ihr => simp [check, hr.isRed_eq, ihl, ihr]

theorem pow_le_count {c : FLLRBColor} {n : Nat} {t : FLLRBNode κ α} (h : LL c n t) :
    2 ^ n ≤ t.count + 1 := by
  induction h with
  | empty => exact Nat.le_refl _
  | red hl hr ihl ihr =>
      rw [count]
      omega
  | black hl hr ihl ihr =>
      rw [count, Nat.pow_succ]
      omega

theorem checkMaxDepth_of_LL {c : FLLRBColor} {n : Nat} {t : FLLRBNode κ α} (h : LL c n t) :
    t.checkMaxDepth = some true := by
  rw [checkMaxDepth, check_of_LL h]
  exact congrArg some (decide_eq_true (pow_le_count h))

/-- The longest way down. -/
def depth : FLLRBNode κ α → Nat
  | empty => 0
  | value _ _ _ l r => max l.depth r.depth + 1

theorem depth_le_of_LL {c : FLLRBColor} {n : Nat} {t : FLLRBNode κ α} (h : LL c n t) :
    t.depth ≤ 2 * n + if c = .red then 1 else 0 := by
  induction h with
  | empty => exact Nat.le_refl _
  | red hl hr ihl ihr =>
      simp only [reduceCtorEq, if_false, if_true, depth] at *
      omega
  | @black c n k v l r hl hr ihl ihr =>
      simp only [reduceCtorEq, if_false, depth] at *
      split at ihl <;> omega

/-! ## What `fixUp` does to a node -/

theorem fixUp_of_right_black {k : κ} {v : α} {c : FLLRBColor} {l r : FLLRBNode κ α}
    (hr : r.isRed = false) (hl : l.isRed = true → l.left.isRed = false) :
    (value k v c l r).fixUp = value k v c l r := by
  cases hred : l.isRed with
  | false => simp [fixUp, hr, hred]
  | true => simp [fixUp, hr, hred, hl hred]

/-- Between a tree and a black tree nothing is to be repaired. -/
theorem fixUp_of_LL {c c' : FLLRBColor} {n m : Nat} {k : κ} {v : α} {l r : FLLRBNode κ α}
    (hl : LL c' n l) (hr : LL .black m r) : (value k v c l r).fixUp = value k v c l r := by
  refine fixUp_of_right_black hr.isRed_eq fun hred => ?_
  cases hl with
  | empty => cases hred
  | red hll _ => exact hll.isRed_eq
  | black _ _ => cases hred

theorem fixUp_of_right_red {k rk : κ} {v rv : α} {c : FLLRBColor} {l rl rr : FLLRBNode κ α}
    (hl : l.isRed = false) (hrr : rr.isRed = false) :
    (value k v c l (value rk rv .red rl rr)).fixUp = value rk rv c (value k v .red l rl) rr := by
  have hrotate : (value k v c l (value rk rv .red rl rr)).rotateLeft =
      value rk rv c (value k v .red l rl) rr := rfl
  simp [fixUp, hl, hrr, hrotate]

theorem fixUp_of_both_red {k : κ} {v : α} {c : FLLRBColor} {l r : FLLRBNode κ α}
    (hl : l.isRed = true) (hll : l.left.isRed = false) (hr : r.isRed = true) :
    (value k v c l r).fixUp = value k v c.not l.flipped r.flipped := by
  simp [fixUp, hl, hll, hr, colorFlip]

theorem fixUp_of_left_redRed {k lk : κ} {v lv : α} {c : FLLRBColor} {ll lr r : FLLRBNode κ α}
    (hr : r.isRed = false) (hll : ll.isRed = true) :
    (value k v c (value lk lv .red ll lr) r).fixUp =
      value lk lv c.not ll.flipped (value k v .black lr r) := by
  have hrotate : (value k v c (value lk lv .red ll lr) r).rotateRight =
      value lk lv c ll (value k v .red lr r) := rfl
  simp [fixUp, hr, hll, hrotate, colorFlip, flipped, FLLRBColor.not]

/-! ## Insertion keeps the shape -/

theorem LL.flipped {n : Nat} {t : FLLRBNode κ α} (h : LL .red n t) :
    LL .black (n + 1) t.flipped := by
  cases h with
  | red hl hr => exact .black hl hr

/-- What an insertion into a tree of this colour leaves: a tree, or, for a
red one, a red root over a red child. -/
inductive Grown : FLLRBColor → Nat → FLLRBNode κ α → Prop where
  | tree {c c' n t} : LL c' n t → Grown c n t
  | redRed {n k v l r} : LL .red n l → LL .black n r → Grown .red n (.value k v .red l r)

theorem LL.grown {c : FLLRBColor} {n : Nat} {t : FLLRBNode κ α} (h : LL c n t) : Grown c n t :=
  .tree h

theorem Grown.black {n : Nat} {t : FLLRBNode κ α} (h : Grown .black n t) : ∃ c, LL c n t := by
  cases h with
  | tree h => exact ⟨_, h⟩

/-- Under a black node the left child may have become anything. -/
theorem fixUp_grown_left {c : FLLRBColor} {n : Nat} {k : κ} {v : α} {l r : FLLRBNode κ α}
    (hl : Grown c n l) (hr : LL .black n r) : ∃ c', LL c' (n + 1) (value k v .black l r).fixUp := by
  cases hl with
  | tree hl =>
      refine ⟨.black, ?_⟩
      rw [fixUp_of_LL hl hr]
      exact .black hl hr
  | redRed hll hlr =>
      -- red over red: rotate it up and take both children black
      refine ⟨.red, ?_⟩
      rw [fixUp_of_left_redRed hr.isRed_eq hll.isRed_eq]
      exact .red hll.flipped (.black hlr hr)

/-- A black node with a black left child stays black, whatever its right
child has become. -/
theorem fixUp_black_right {c : FLLRBColor} {n : Nat} {k : κ} {v : α} {l r : FLLRBNode κ α}
    (hl : LL .black n l) (hr : LL c n r) : LL .black (n + 1) (value k v .black l r).fixUp := by
  cases hr with
  | empty =>
      rw [fixUp_of_LL hl .empty]
      exact .black hl .empty
  | black hrl hrr =>
      rw [fixUp_of_LL hl (.black hrl hrr)]
      exact .black hl (.black hrl hrr)
  | red hrl hrr =>
      rw [fixUp_of_right_red hl.isRed_eq hrr.isRed_eq]
      exact .black (.red hl hrl) hrr

theorem fixUp_right {c c' : FLLRBColor} {n : Nat} {k : κ} {v : α} {l r : FLLRBNode κ α}
    (hl : LL c n l) (hr : LL c' n r) : ∃ d, LL d (n + 1) (value k v .black l r).fixUp := by
  cases c with
  | black => exact ⟨.black, fixUp_black_right hl hr⟩
  | red =>
      cases hr with
      | empty => exact fixUp_grown_left hl.grown .empty
      | black hrl hrr => exact fixUp_grown_left hl.grown (.black hrl hrr)
      | red hrl hrr =>
          refine ⟨.red, ?_⟩
          rw [fixUp_of_both_red hl.isRed_eq hl.isRed_left rfl]
          exact .red hl.flipped (.black hrl hrr)

/-- A red node over a black right child is left as it is. -/
theorem fixUp_red_left {c : FLLRBColor} {n : Nat} {k : κ} {v : α} {l r : FLLRBNode κ α}
    (hl : LL c n l) (hr : LL .black n r) : Grown .red n (value k v .red l r).fixUp := by
  rw [fixUp_of_LL hl hr]
  cases c with
  | black => exact .tree (.red hl hr)
  | red => exact .redRed hl hr

theorem fixUp_red_right {c : FLLRBColor} {n : Nat} {k : κ} {v : α} {l r : FLLRBNode κ α}
    (hl : LL .black n l) (hr : LL c n r) : Grown .red n (value k v .red l r).fixUp := by
  cases hr with
  | empty => exact fixUp_red_left hl .empty
  | black hrl hrr => exact fixUp_red_left hl (.black hrl hrr)
  | red hrl hrr =>
      rw [fixUp_of_right_red hl.isRed_eq hrr.isRed_eq]
      exact .redRed (.red hl hrl) hrr

/-- A red root that is to be repaired comes out no worse than after an
insertion. -/
theorem fixUp_red {c c' : FLLRBColor} {n : Nat} {k : κ} {v : α} {l r : FLLRBNode κ α}
    (hl : LL c n l) (hr : LL c' n r) : ∃ d m, Grown d m (value k v .red l r).fixUp := by
  cases c with
  | black => exact ⟨.red, n, fixUp_red_right hl hr⟩
  | red =>
      cases c' with
      | black => exact ⟨.red, n, fixUp_red_left hl hr⟩
      | red =>
          refine ⟨.black, n + 1 + 1, ?_⟩
          rw [fixUp_of_both_red hl.isRed_eq hl.isRed_left hr.isRed_eq]
          exact .tree (.black hl.flipped hr.flipped)

theorem grown_insertKey (cmp : κ → κ → Ordering) (key : κ) (newValue : α) {c : FLLRBColor}
    {n : Nat} {t : FLLRBNode κ α} (h : LL c n t) : Grown c n (t.insertKey cmp key newValue) := by
  induction h with
  | empty => exact .tree (.red .empty .empty)
  | @red n k v l r hl hr ihl ihr =>
      rw [insertKey]
      cases cmp key k with
      | lt =>
          obtain ⟨c, hl'⟩ := ihl.black
          exact fixUp_red_left hl' hr
      | eq => exact fixUp_red_left hl hr
      | gt =>
          obtain ⟨c, hr'⟩ := ihr.black
          exact fixUp_red_right hl hr'
  | @black c n k v l r hl hr ihl ihr =>
      rw [insertKey]
      cases cmp key k with
      | lt =>
          obtain ⟨c', hfixed⟩ := fixUp_grown_left (k := k) (v := v) ihl hr
          exact .tree hfixed
      | eq =>
          obtain ⟨c', hfixed⟩ := fixUp_grown_left (k := k) (v := newValue) hl.grown hr
          exact .tree hfixed
      | gt =>
          obtain ⟨c, hr'⟩ := ihr.black
          obtain ⟨c', hfixed⟩ := fixUp_right (k := k) (v := v) hl hr'
          exact .tree hfixed

theorem LL.blackened {c : FLLRBColor} {n : Nat} {t : FLLRBNode κ α} (h : LL c n t) :
    ∃ m, LL .black m (t.withColor .black) := by
  cases h with
  | empty => exact ⟨0, .empty⟩
  | red hl hr => exact ⟨_, .black hl hr⟩
  | black hl hr => exact ⟨_, .black hl hr⟩

theorem Grown.blackened {c : FLLRBColor} {n : Nat} {t : FLLRBNode κ α} (h : Grown c n t) :
    ∃ m, LL .black m (t.withColor .black) := by
  cases h with
  | tree h => exact h.blackened
  | redRed hl hr => exact ⟨_, .black hl hr⟩

end FLLRBNode

end VkClient
