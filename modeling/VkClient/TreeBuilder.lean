import Mathlib.Algebra.Ring.Nat
import Mathlib.Data.List.TakeDrop
import Mathlib.Data.Nat.Log
import VkClient.LLRBTree

/-!
# Building a tree from sorted entries

`fromDictionary` builds the tree of a whole dictionary at once. It writes
the number of entries in the digits 1 and 2, and makes one pennant for each
unit of a digit: a node without left child over a full black tree. The
pennants are hung onto each other by their left children, the one with the
last entries on top; the second pennant of a digit 2 is red.

What comes out is a left-leaning red-black tree with exactly the entries
that went in (`rootFrom12List_spec`), for any number of them.
-/

namespace VkClient

namespace FTreeSortedDictionary

open FLLRBNode

variable {κ α : Type*}

/-! ## The number in base 1-2 -/

/-- `log_base2`: the quotient of two logarithms, truncated. -/
def log_base2 (num : Nat) : Nat := Nat.log 2 num

structure Base1_2List where
  bits : Nat
  count : Nat
deriving DecidableEq, Repr

def base1_2List_new (length : Nat) : Base1_2List where
  bits := (length + 1) % 2 ^ log_base2 (length + 1)
  count := log_base2 (length + 1)

/-! ## Pennants -/

/-- A full black tree of the entries from `startIndex` on. The middle is the
root, and both halves are as long as the shorter one. -/
def buildBalancedTree (keys : List (κ × α)) (startIndex length : Nat) :
    Option (FLLRBNode κ α) :=
  let bound := min (keys.length - startIndex) length
  if bound = 0 then some empty
  else if bound = 1 then do
    let entry ← keys[startIndex]?
    return value entry.1 entry.2 .black empty empty
  else do
    let middle := bound / 2
    let left ← buildBalancedTree keys startIndex middle
    let right ← buildBalancedTree keys (startIndex + middle + 1) middle
    let entry ← keys[startIndex + middle]?
    return value entry.1 entry.2 .black left right
termination_by length
decreasing_by all_goals omega

/-- `buildPennant`, for the chunk that ends before `index`. -/
def buildPennant (keys : List (κ × α)) (color : FLLRBColor) (chunkSize index : Nat) :
    Option (FLLRBNode κ α) := do
  let childTree ← buildBalancedTree keys (index - chunkSize + 1) (chunkSize - 1)
  let entry ← keys[index - chunkSize]?
  return value entry.1 entry.2 color empty childTree

/-- The pennants of the digits below `current`, from the most significant
one; `index` is where the entries not used yet end. -/
def pennants (keys : List (κ × α)) (bits : Nat) : (current index : Nat) →
    Option (List (FLLRBNode κ α))
  | 0, _ => some []
  | current + 1, index =>
      let chunkSize := 2 ^ current
      -- a binary 0 is the digit 1, a binary 1 the digit 2
      let isOne := !bits.testBit current
      if isOne then do
        let pennant ← buildPennant keys .black chunkSize index
        let rest ← pennants keys bits current (index - chunkSize)
        return pennant :: rest
      else do
        let pennant ← buildPennant keys .black chunkSize index
        let second ← buildPennant keys .red chunkSize (index - chunkSize)
        let rest ← pennants keys bits current (index - chunkSize - chunkSize)
        return pennant :: second :: rest

/-- `node.left = pennant`, for each pennant and the one after it. -/
def attach (pennants : List (FLLRBNode κ α)) : FLLRBNode κ α :=
  pennants.foldr (fun pennant left => pennant.withLeft left) empty

def rootFrom12List (keys : List (κ × α)) (list : Base1_2List) : Option (FLLRBNode κ α) :=
  (pennants keys list.bits list.count keys.length).map attach

/-! ## Full trees -/

variable {keys : List (κ × α)}

/-- A stretch of a list around one of its elements. -/
theorem take_drop_around {xs : List (κ × α)} {start a : Nat} (b : Nat) {entry : κ × α}
    (h : xs[start + a]? = some entry) :
    (xs.drop start).take (a + 1 + b) =
      (xs.drop start).take a ++ entry :: (xs.drop (start + a + 1)).take b := by
  have hcons : (xs.drop start).drop a = entry :: xs.drop (start + a + 1) := by
    rw [List.drop_drop, List.drop_eq_getElem?_toList_append, h]
    rfl
  rw [Nat.add_assoc, List.take_add, hcons, Nat.add_comm 1 b, List.take_succ_cons]

theorem exists_getElem? {xs : List (κ × α)} {i : Nat} (h : i < xs.length) :
    ∃ entry, xs[i]? = some entry :=
  ⟨xs[i], List.getElem?_eq_getElem h⟩

theorem buildBalancedTree_spec (j : Nat) {start : Nat} (h : start + (2 ^ j - 1) ≤ keys.length) :
    ∃ t, buildBalancedTree keys start (2 ^ j - 1) = some t ∧ LL .black j t ∧
      t.entries = (keys.drop start).take (2 ^ j - 1) := by
  induction j generalizing start with
  | zero =>
      refine ⟨empty, ?_, .empty, by simp [entries]⟩
      rw [buildBalancedTree]
      simp
  | succ j ih =>
      have hpow : 0 < 2 ^ j := Nat.two_pow_pos j
      have hsize : 2 ^ (j + 1) - 1 = 2 ^ j - 1 + 1 + (2 ^ j - 1) := by
        rw [Nat.pow_succ]
        omega
      have hbound : min (keys.length - start) (2 ^ (j + 1) - 1) = 2 ^ (j + 1) - 1 := by omega
      have hmiddle : start + (2 ^ j - 1) < keys.length := by omega
      obtain ⟨entry, hentry⟩ := exists_getElem? hmiddle
      rw [buildBalancedTree, hbound, if_neg (by omega)]
      cases j with
      | zero =>
          refine ⟨value entry.1 entry.2 .black empty empty, ?_, .black .empty .empty, ?_⟩
          · have hstart : keys[start]? = some entry := by simpa using hentry
            simp [hstart]
          · rw [hsize, take_drop_around _ hentry]
            simp [entries]
      | succ j =>
          have hhalf : (2 ^ (j + 1 + 1) - 1) / 2 = 2 ^ (j + 1) - 1 := by omega
          have hmany : 2 ^ (j + 1 + 1) - 1 ≠ 1 := by
            rw [Nat.pow_succ] at hpow
            omega
          have hbefore : start + (2 ^ (j + 1) - 1) ≤ keys.length := by omega
          have hafter : start + (2 ^ (j + 1) - 1) + 1 + (2 ^ (j + 1) - 1) ≤ keys.length := by
            omega
          obtain ⟨left, hleft, hll, hle⟩ := ih hbefore
          obtain ⟨right, hright, hrl, hre⟩ := ih hafter
          refine ⟨value entry.1 entry.2 .black left right, ?_, .black hll hrl, ?_⟩
          · simp [hmany, hhalf, hleft, hright, hentry]
          · rw [hsize, take_drop_around _ hentry, entries, hle, hre]

theorem buildPennant_spec (color : FLLRBColor) (j : Nat) {index : Nat} (hj : 2 ^ j ≤ index)
    (hindex : index ≤ keys.length) :
    ∃ k v child, buildPennant keys color (2 ^ j) index = some (value k v color empty child) ∧
      LL .black j child ∧
      (k, v) :: child.entries = (keys.drop (index - 2 ^ j)).take (2 ^ j) := by
  have hpow : 0 < 2 ^ j := Nat.two_pow_pos j
  have hfirst : index - 2 ^ j < keys.length := by omega
  have hrest : index - 2 ^ j + 1 + (2 ^ j - 1) ≤ keys.length := by omega
  obtain ⟨entry, hentry⟩ := exists_getElem? hfirst
  obtain ⟨child, hchild, hLL, hentries⟩ := buildBalancedTree_spec j hrest
  refine ⟨entry.1, entry.2, child, by simp [buildPennant, hchild, hentry], hLL, ?_⟩
  have hat : keys[index - 2 ^ j + 0]? = some entry := hentry
  have hsize : 0 + 1 + (2 ^ j - 1) = 2 ^ j := by omega
  have haround := take_drop_around (2 ^ j - 1) hat
  rw [hsize] at haround
  rw [haround, hentries]
  rfl

/-! ## The whole tree -/

theorem take_eq_append {xs : List (κ × α)} {index chunk : Nat} (h : chunk ≤ index) :
    xs.take index = xs.take (index - chunk) ++ (xs.drop (index - chunk)).take chunk := by
  rw [← List.take_add, Nat.sub_add_cancel h]

/-- The digits below `j` use as many entries as they stand for, and make a
black tree of depth `j` of them. -/
theorem pennants_spec (bits j : Nat) {index : Nat} (hindex : index ≤ keys.length)
    (hdigits : index = 2 ^ j - 1 + bits % 2 ^ j) :
    ∃ ps, pennants keys bits j index = some ps ∧ LL .black j (attach ps) ∧
      (attach ps).entries = keys.take index := by
  induction j generalizing index with
  | zero =>
      obtain rfl : index = 0 := by
        rw [hdigits]
        simp [Nat.mod_one]
      exact ⟨[], rfl, .empty, rfl⟩
  | succ j ih =>
      have hpow : 0 < 2 ^ j := Nat.two_pow_pos j
      have hmod : bits % 2 ^ (j + 1) = bits % 2 ^ j + 2 ^ j * (bits.testBit j).toNat := by
        rw [Nat.toNat_testBit, Nat.mod_pow_succ]
      have hle : 2 ^ j ≤ index := by
        rw [hdigits, Nat.pow_succ]
        omega
      obtain ⟨k, v, child, hpennant, hchild, hentries⟩ := buildPennant_spec .black j hle hindex
      cases hbit : bits.testBit j with
      | false =>
          have hrest : index - 2 ^ j = 2 ^ j - 1 + bits % 2 ^ j := by
            rw [hdigits, hmod, hbit, Nat.pow_succ]
            simp only [Bool.toNat_false, Nat.mul_zero]
            omega
          obtain ⟨ps, hps, hLL, hused⟩ := ih (by omega) hrest
          refine ⟨value k v .black empty child :: ps, by simp [pennants, hbit, hpennant, hps],
            .black hLL hchild, ?_⟩
          rw [take_eq_append hle, ← hentries, ← hused]
          rfl
      | true =>
          have hrest : index - 2 ^ j - 2 ^ j = 2 ^ j - 1 + bits % 2 ^ j := by
            rw [hdigits, hmod, hbit, Nat.pow_succ]
            simp only [Bool.toNat_true, Nat.mul_one]
            omega
          have hle' : 2 ^ j ≤ index - 2 ^ j := by
            rw [hdigits, hmod, hbit, Nat.pow_succ]
            simp only [Bool.toNat_true, Nat.mul_one]
            omega
          have hindex' : index - 2 ^ j ≤ keys.length := by omega
          obtain ⟨k', v', child', hsecond, hchild', hentries'⟩ :=
            buildPennant_spec .red j hle' hindex'
          obtain ⟨ps, hps, hLL, hused⟩ := ih (by omega) hrest
          refine ⟨value k v .black empty child :: value k' v' .red empty child' :: ps,
            by simp [pennants, hbit, hpennant, hsecond, hps],
            .black (.red hLL hchild') hchild, ?_⟩
          rw [take_eq_append hle, ← hentries, take_eq_append hle', ← hentries', ← hused]
          rfl

/-- **The builder.** For any number of entries the builder makes a
left-leaning red-black tree of exactly these, in their order. -/
theorem rootFrom12List_spec (keys : List (κ × α)) :
    ∃ root n, rootFrom12List keys (base1_2List_new keys.length) = some root ∧
      LL .black n root ∧ root.entries = keys := by
  have hlow : 2 ^ log_base2 (keys.length + 1) ≤ keys.length + 1 :=
    Nat.pow_log_le_self 2 (Nat.succ_ne_zero _)
  have hhigh : keys.length + 1 < 2 ^ (log_base2 (keys.length + 1) + 1) :=
    Nat.lt_pow_succ_log_self Nat.one_lt_two _
  have hbits : (keys.length + 1) % 2 ^ log_base2 (keys.length + 1) =
      keys.length + 1 - 2 ^ log_base2 (keys.length + 1) := by
    rw [Nat.mod_eq_sub_mod hlow]
    refine Nat.mod_eq_of_lt ?_
    rw [Nat.pow_succ] at hhigh
    omega
  have hdigits : keys.length = 2 ^ log_base2 (keys.length + 1) - 1 +
      (keys.length + 1) % 2 ^ log_base2 (keys.length + 1) %
        2 ^ log_base2 (keys.length + 1) := by
    rw [Nat.mod_mod, hbits]
    have hpow : 0 < 2 ^ log_base2 (keys.length + 1) := Nat.two_pow_pos _
    omega
  obtain ⟨ps, hps, hLL, hentries⟩ := pennants_spec
    ((keys.length + 1) % 2 ^ log_base2 (keys.length + 1)) (log_base2 (keys.length + 1))
    (Nat.le_refl keys.length) hdigits
  refine ⟨attach ps, _, by simp [rootFrom12List, base1_2List_new, hps], hLL, ?_⟩
  rw [hentries, List.take_length]

end FTreeSortedDictionary

end VkClient
