import Mathlib.Order.Basic
import VkClient.SortedDictionary

/-!
# The order of keys

`compareKey` puts the keys that are 32-bit integers before all others, by
their value and then by their length, and compares the others unit by unit.
It is an order of all keys (`compareKey_eq`, over four coordinates), but not
one of strings: a key of zeroes and a minus sign has the value and the
length of a longer key of zeroes, and the two are one and the same to it
(`compareKey_order`).

For a dictionary under this comparator the two are one key. A value that
has both of them as keys cannot be made a node at all: building its
children raises an exception (`fromDictionary_eq_none_iff`).
-/

namespace VkClient

/-- A key: the object `[FUtilities minName]` or `[FUtilities maxName]`, which
are compared by identity, or another string of UTF-16 units. -/
inductive FKey where
  | minName
  | maxName
  | name (units : List UInt16)
deriving DecidableEq, Repr

namespace FUtilities

/-- The loop of `tryParseStringToInt`. -/
def scanDigits : Nat → List UInt16 → Option Nat
  | value, [] => some value
  | value, c :: str =>
      -- '0' and '9'
      if c < 0x30 ∨ 0x39 < c then none
      else scanDigits (value * 10 + (c.toNat - 0x30)) str

def tryParseStringToInt (str : List UInt16) : Option Int :=
  if 11 < str.length ∨ str.length = 0 then none
  else
    -- '-'
    let negative := str.head? = some 0x2D
    if negative ∧ str.length = 1 then none
    else do
      let value ← scanDigits 0 (if negative then str.tail else str)
      let value : Int := if negative then -value else value
      if value < -2147483648 ∨ 2147483647 < value then none else some value

def compareKey : FKey → FKey → Ordering
  | .minName, .minName => .eq
  | .maxName, .maxName => .eq
  | .minName, _ => .lt
  | _, .maxName => .lt
  | _, .minName => .gt
  | .maxName, _ => .gt
  | .name a, .name b =>
      match tryParseStringToInt a, tryParseStringToInt b with
      | some aAsInt, some bAsInt =>
          if bAsInt < aAsInt then .gt
          else if aAsInt < bAsInt then .lt
          else if b.length < a.length then .gt
          else if a.length < b.length then .lt
          else .eq
      | some _, none => .lt
      | none, some _ => .gt
      | none, none => compare a b

/-! ## The order -/

/-- The ends, the integers and the other names. -/
def rank : FKey → Nat
  | .minName => 0
  | .maxName => 3
  | .name a => if (tryParseStringToInt a).isSome then 1 else 2

def number : FKey → Int
  | .name a => (tryParseStringToInt a).getD 0
  | _ => 0

def width : FKey → Nat
  | .name a => if (tryParseStringToInt a).isSome then a.length else 0
  | _ => 0

def text : FKey → List UInt16
  | .name a => if (tryParseStringToInt a).isSome then [] else a
  | _ => []

theorem compare_eq_ite {β : Type*} [LinearOrder β] (x y : β) (o : Ordering) :
    (if y < x then .gt else if x < y then .lt else o) = (compare x y).then o := by
  rcases lt_trichotomy x y with h | h | h
  · rw [if_neg (asymm h), if_pos h, compare_lt_iff_lt.mpr h]
    rfl
  · subst h
    rw [if_neg (lt_irrefl x), if_neg (lt_irrefl x), compare_eq_iff_eq.mpr rfl]
    rfl
  · rw [if_pos h, compare_gt_iff_gt.mpr h]
    rfl

theorem compare_of_int {a b : List UInt16} {x y : Int} (hx : tryParseStringToInt a = some x)
    (hy : tryParseStringToInt b = some y) : compareKey (.name a) (.name b) =
      (compare x y).then (compare a.length b.length) := by
  have hwidth := compare_eq_ite a.length b.length .eq
  rw [Ordering.then_eq] at hwidth
  rw [compareKey, hx, hy, ← compare_eq_ite, ← hwidth]

/-- `compareKey` compares four coordinates, one after the other. -/
theorem compareKey_eq : compareKey =
    compareLex (compareOn rank) (compareLex (compareOn number)
      (compareLex (compareOn width) (compareOn text))) := by
  funext a b
  have hends : ∀ str, rank (.name str) = 1 ∨ rank (.name str) = 2 := by
    intro str
    rw [rank]
    split_ifs <;> simp
  simp only [compareLex, compareOn]
  cases a with
  | minName =>
      cases b with
      | minName => rfl
      | maxName => rfl
      | name b => rcases hends b with h | h <;> simp [compareKey, h] <;> rfl
  | maxName =>
      cases b with
      | minName => rfl
      | maxName => rfl
      | name b => rcases hends b with h | h <;> simp [compareKey, h] <;> rfl
  | name a =>
      cases b with
      | minName => rcases hends a with h | h <;> simp [compareKey, h] <;> rfl
      | maxName => rcases hends a with h | h <;> simp [compareKey, h] <;> rfl
      | name b =>
          cases ha : tryParseStringToInt a with
          | some x =>
              cases hb : tryParseStringToInt b with
              | some y => simp [compare_of_int ha hb, rank, number, width, text, ha, hb]
              | none =>
                  simp [compareKey, rank, ha, hb]
                  rfl
          | none =>
              cases hb : tryParseStringToInt b with
              | some y =>
                  simp [compareKey, rank, ha, hb]
                  rfl
              | none => simp [compareKey, rank, number, width, text, ha, hb]

instance : Std.TransCmp compareKey := compareKey_eq ▸ inferInstance

/-! ## What is one and the same to it -/

theorem scanDigits_cons {value : Nat} {c : UInt16} {str : List UInt16} {w : Nat}
    (h : scanDigits value (c :: str) = some w) :
    0x30 ≤ c.toNat ∧ c.toNat ≤ 0x39 ∧
      scanDigits (value * 10 + (c.toNat - 0x30)) str = some w := by
  rw [scanDigits] at h
  split_ifs at h with hc
  have hlow : ¬c < 0x30 := fun hlt => hc (.inl hlt)
  have hhigh : ¬0x39 < c := fun hlt => hc (.inr hlt)
  rw [UInt16.lt_iff_toNat_lt] at hlow hhigh
  exact ⟨Nat.le_of_not_lt hlow, Nat.le_of_not_lt hhigh, h⟩

/-- Digits of one length have a value each. -/
theorem scanDigits_inj {str str' : List UInt16} {value value' w : Nat}
    (hlength : str.length = str'.length) (h : scanDigits value str = some w)
    (h' : scanDigits value' str' = some w) : value = value' ∧ str = str' := by
  induction str generalizing str' value value' with
  | nil =>
      obtain rfl := List.length_eq_zero_iff.mp hlength.symm
      exact ⟨Option.some.inj (h.trans h'.symm), rfl⟩
  | cons c str ih =>
      cases str' with
      | nil => cases hlength
      | cons c' str' =>
          obtain ⟨hlow, hhigh, hscan⟩ := scanDigits_cons h
          obtain ⟨hlow', hhigh', hscan'⟩ := scanDigits_cons h'
          obtain ⟨hvalue, rfl⟩ := ih (Nat.succ.inj hlength) hscan hscan'
          have hc : c.toNat = c'.toNat := by omega
          refine ⟨by omega, ?_⟩
          rw [UInt16.toNat_inj.mp hc]

theorem scanDigits_zeroes (n : Nat) : scanDigits 0 (List.replicate n 0x30) = some 0 := by
  induction n with
  | zero => rfl
  | succ n ih => exact ih

theorem eq_zeroes_of_scanDigits {str : List UInt16} (h : scanDigits 0 str = some 0) :
    str = List.replicate str.length 0x30 :=
  (scanDigits_inj (List.length_replicate ..).symm h (scanDigits_zeroes _)).2

/-- "00" and so on. -/
def zeroes (n : Nat) : FKey := .name (List.replicate n 0x30)

/-- "-0" and so on. -/
def minusZeroes (n : Nat) : FKey := .name (0x2D :: List.replicate n 0x30)

theorem tryParseStringToInt_zeroes {n : Nat} (h : 1 ≤ n) (h' : n ≤ 11) :
    tryParseStringToInt (List.replicate n 0x30) = some 0 := by
  have hlength : ¬(11 < (List.replicate n (0x30 : UInt16)).length ∨
      (List.replicate n (0x30 : UInt16)).length = 0) := by
    rw [List.length_replicate]
    omega
  have hhead : (List.replicate n (0x30 : UInt16)).head? ≠ some 0x2D := by
    cases n with
    | zero => cases h
    | succ n => simp [List.replicate_succ]
  rw [tryParseStringToInt, if_neg hlength]
  simp [hhead, scanDigits_zeroes]

theorem tryParseStringToInt_minusZeroes {n : Nat} (h : 1 ≤ n) (h' : n ≤ 10) :
    tryParseStringToInt (0x2D :: List.replicate n 0x30) = some 0 := by
  have hlength : ¬(11 < (0x2D :: List.replicate n (0x30 : UInt16)).length ∨
      (0x2D :: List.replicate n (0x30 : UInt16)).length = 0) := by
    rw [List.length_cons, List.length_replicate]
    omega
  have hdigits : n ≠ 0 := by omega
  rw [tryParseStringToInt, if_neg hlength]
  simp [hdigits, scanDigits_zeroes]

/-- An integer is digits, or digits after a minus sign. -/
theorem tryParseStringToInt_cases {str : List UInt16} {v : Int}
    (h : tryParseStringToInt str = some v) :
    str.length ≤ 11 ∧
      ((∃ w : Nat, scanDigits 0 str = some w ∧ v = w) ∨
        ∃ rest, ∃ w : Nat, str = 0x2D :: rest ∧ rest ≠ [] ∧ scanDigits 0 rest = some w ∧
          v = -w) := by
  unfold tryParseStringToInt at h
  by_cases hlength : 11 < str.length ∨ str.length = 0
  · rw [if_pos hlength] at h
    cases h
  · rw [if_neg hlength] at h
    refine ⟨by omega, ?_⟩
    cases str with
    | nil => exact absurd (.inr rfl) hlength
    | cons c rest =>
        by_cases hc : c = 0x2D
        · subst hc
          right
          have hrest : rest ≠ [] := by
            rintro rfl
            simp at h
          cases hscan : scanDigits 0 rest with
          | none => simp [hscan] at h
          | some w =>
              simp [hrest, hscan] at h
              exact ⟨rest, w, rfl, hrest, hscan, h.2.symm⟩
        · left
          cases hscan : scanDigits 0 (c :: rest) with
          | none => simp [hc, hscan] at h
          | some w =>
              simp [hc, hscan] at h
              exact ⟨w, rfl, h.2.symm⟩

/-- Two spellings of zero, the one with a minus sign. -/
def SpellsZero (a b : FKey) : Prop :=
  ∃ n, 1 ≤ n ∧ n ≤ 10 ∧ a = minusZeroes n ∧ b = zeroes (n + 1)

theorem SpellsZero.compareKey {a b : FKey} (h : SpellsZero a b) : compareKey a b = .eq := by
  obtain ⟨n, hpos, hle, rfl, rfl⟩ := h
  have hminus := tryParseStringToInt_minusZeroes hpos hle
  have hplain := tryParseStringToInt_zeroes (Nat.le_add_left 1 n) (Nat.succ_le_succ hle)
  rw [minusZeroes, zeroes, compare_of_int hminus hplain]
  simp

/-- A number with a minus sign is a number without one if both are zero. -/
theorem spellsZero_of_minus {rest b : List UInt16} {w w' : Nat} (hrest : rest ≠ [])
    (hlength : rest.length + 1 = b.length) (hshort : b.length ≤ 11)
    (h : scanDigits 0 rest = some w) (h' : scanDigits 0 b = some w') (heq : -(w : Int) = w') :
    SpellsZero (.name (0x2D :: rest)) (.name b) := by
  obtain rfl : w = 0 := by omega
  obtain rfl : w' = 0 := by omega
  have hpos := List.length_pos_of_ne_nil hrest
  refine ⟨rest.length, hpos, by omega, ?_, ?_⟩
  · rw [minusZeroes, ← eq_zeroes_of_scanDigits h]
  · rw [zeroes, hlength, ← eq_zeroes_of_scanDigits h']

theorem eq_or_spellsZero_of_int {a b : List UInt16} {x y : Int}
    (ha : tryParseStringToInt a = some x) (hb : tryParseStringToInt b = some y) (hxy : x = y)
    (hlength : a.length = b.length) :
    a = b ∨ SpellsZero (.name a) (.name b) ∨ SpellsZero (.name b) (.name a) := by
  obtain ⟨hshort, hcases⟩ := tryParseStringToInt_cases ha
  obtain ⟨hshort', hcases'⟩ := tryParseStringToInt_cases hb
  rcases hcases with ⟨w, hw, rfl⟩ | ⟨rest, w, rfl, hrest, hw, rfl⟩
  · rcases hcases' with ⟨w', hw', rfl⟩ | ⟨rest', w', rfl, hrest', hw', rfl⟩
    · obtain rfl : w = w' := Int.ofNat.inj hxy
      exact .inl (scanDigits_inj hlength hw hw').2
    · exact .inr (.inr (spellsZero_of_minus hrest' hlength.symm hshort hw' hw hxy.symm))
  · rcases hcases' with ⟨w', hw', rfl⟩ | ⟨rest', w', rfl, hrest', hw', rfl⟩
    · exact .inr (.inl (spellsZero_of_minus hrest hlength hshort' hw hw' hxy))
    · obtain rfl : w = w' := by omega
      exact .inl (congrArg _ (scanDigits_inj (Nat.succ.inj hlength) hw hw').2)

theorem eq_or_spellsZero {a b : FKey} (h : compareKey a b = .eq) :
    a = b ∨ SpellsZero a b ∨ SpellsZero b a := by
  cases a with
  | minName => cases b with
    | minName => exact .inl rfl
    | maxName => cases h
    | name b => cases h
  | maxName => cases b with
    | minName => cases h
    | maxName => exact .inl rfl
    | name b => cases h
  | name a => cases b with
    | minName => cases h
    | maxName => cases h
    | name b =>
        cases ha : tryParseStringToInt a with
        | some x =>
            cases hb : tryParseStringToInt b with
            | some y =>
                rw [compare_of_int ha hb, Ordering.then_eq_eq, compare_eq_iff_eq,
                  compare_eq_iff_eq] at h
                exact (eq_or_spellsZero_of_int ha hb h.1 h.2).imp_left (congrArg _)
            | none => simp [compareKey, ha, hb] at h
        | none =>
            cases hb : tryParseStringToInt b with
            | some y => simp [compareKey, ha, hb] at h
            | none =>
                rw [compareKey, ha, hb] at h
                exact .inl (congrArg _ (Std.LawfulEqOrd.eq_of_compare h))

/-- **The order of keys.** Any two keys are compared, the one way as the
other way round, and transitively; `minName` and `maxName` are the ends; and
keys that are the same to the comparator are equal or spell zero. -/
theorem compareKey_order :
    (∀ a b, compareKey a b = (compareKey b a).swap) ∧
      (∀ a b c, compareKey a b ≠ .gt → compareKey b c ≠ .gt → compareKey a c ≠ .gt) ∧
      (∀ a, compareKey .minName a ≠ .gt ∧ compareKey a .maxName ≠ .gt) ∧
      ∀ a b, compareKey a b = .eq ↔ a = b ∨ SpellsZero a b ∨ SpellsZero b a := by
  refine ⟨fun a b => Std.OrientedCmp.eq_swap, fun a b c => ?_, fun a => ?_, fun a b => ⟨?_, ?_⟩⟩
  · simp only [ne_eq, Ordering.ne_gt_iff_isLE]
    exact Std.TransCmp.isLE_trans
  · cases a with
    | minName => decide
    | maxName => decide
    | name a => exact ⟨Ordering.noConfusion, Ordering.noConfusion⟩
  · exact eq_or_spellsZero
  · rintro (rfl | h | h)
    · exact Std.ReflCmp.compare_self
    · exact h.compareKey
    · exact Std.OrientedCmp.eq_symm h.compareKey

/-! ## Values that cannot be made nodes -/

section Dictionary

open SortedEntries

variable {α : Type*} {dictionary : NSDictionary FKey α}

theorem distinct_iff (h : (dictionary.map Prod.fst).Nodup) :
    Distinct compareKey dictionary ↔
      ∀ a ∈ dictionary, ∀ b ∈ dictionary, ¬SpellsZero a.1 b.1 := by
  have : Std.Symm fun a b : FKey × α => compareKey a.1 b.1 ≠ .eq :=
    ⟨fun a b hne heq => hne (Std.OrientedCmp.eq_symm heq)⟩
  constructor
  · intro hdistinct a ha b hb hzero
    have hne : a ≠ b := by
      rintro rfl
      obtain ⟨n, -, -, hminus, hplain⟩ := hzero
      rw [hminus] at hplain
      simp [minusZeroes, zeroes, List.replicate_succ] at hplain
    exact hdistinct.forall ha hb hne hzero.compareKey
  · intro hnone
    refine (List.pairwise_map.mp h).imp_of_mem fun {a b} ha hb hne heq => ?_
    rcases eq_or_spellsZero heq with heq | hzero | hzero
    · exact hne heq
    · exact hnone a ha b hb hzero
    · exact hnone b hb a ha hzero

/-- **Children that cannot be sorted.** Building the children of a value
raises an exception if and only if it has a key of one to ten zeroes after a
minus sign, and another of one zero more. -/
theorem fromDictionary_eq_none_iff (h : (dictionary.map Prod.fst).Nodup) :
    FImmutableSortedDictionary.fromDictionary compareKey dictionary = none ↔
      ∃ n, 1 ≤ n ∧ n ≤ 10 ∧ minusZeroes n ∈ dictionary.map Prod.fst ∧
        zeroes (n + 1) ∈ dictionary.map Prod.fst := by
  have hties : FImmutableSortedDictionary.fromDictionary compareKey dictionary = none ↔
      ¬Distinct compareKey dictionary := by
    refine ⟨fun hnone hdistinct => ?_, FImmutableSortedDictionary.fromDictionary_of_not_distinct⟩
    obtain ⟨d, hd, -⟩ := FImmutableSortedDictionary.fromDictionary_of_distinct hdistinct
    rw [hnone] at hd
    cases hd
  rw [hties, distinct_iff h]
  constructor
  · intro hzero
    simp only [not_forall, not_not] at hzero
    obtain ⟨a, ha, b, hb, n, hpos, hle, hminus, hplain⟩ := hzero
    exact ⟨n, hpos, hle, List.mem_map.mpr ⟨a, ha, hminus⟩, List.mem_map.mpr ⟨b, hb, hplain⟩⟩
  · rintro ⟨n, hpos, hle, hminus, hplain⟩
    obtain ⟨a, ha, hminus⟩ := List.mem_map.mp hminus
    obtain ⟨b, hb, hplain⟩ := List.mem_map.mp hplain
    exact fun hnone => hnone a ha b hb ⟨n, hpos, hle, hminus, hplain⟩

/-- The keys "-0" and "00". -/
theorem fromDictionary_eq_none_zero :
    FImmutableSortedDictionary.fromDictionary compareKey
      [(.name [0x2D, 0x30], "a"), (.name [0x30, 0x30], "b")] = none := by
  have hkeys : ([(.name [0x2D, 0x30], "a"), (.name [0x30, 0x30], "b")].map Prod.fst :
      List FKey).Nodup := by decide
  exact (fromDictionary_eq_none_iff hkeys).mpr ⟨1, by decide⟩

end Dictionary

end FUtilities

end VkClient
