import VkClient.LLRBTree

/-!
# Removal from a left-leaning red-black tree

On its way down `remove` borrows: before it enters a child that is a black
node over black children it moves a red node into it, so that the node it
takes out in the end is red. `leanLeft` and `leanRight` are these moves.
-/

namespace VkClient

namespace FLLRBNode

variable {κ α : Type*}

/-! ## Nodes only move -/

@[simp] theorem count_flipped (n : FLLRBNode κ α) : n.flipped.count = n.count := by
  cases n <;> rfl

@[simp] theorem count_withColor (c : FLLRBColor) (n : FLLRBNode κ α) :
    (n.withColor c).count = n.count := by
  cases n <;> rfl

@[simp] theorem left_flipped (n : FLLRBNode κ α) : n.flipped.left = n.left := by
  cases n <;> rfl

@[simp] theorem right_flipped (n : FLLRBNode κ α) : n.flipped.right = n.right := by
  cases n <;> rfl

theorem count_eq (n : FLLRBNode κ α) : n.count = n.entries.length := by
  induction n with
  | empty => rfl
  | value k v c l r ihl ihr =>
      simp only [count, entries, List.length_append, List.length_cons, ihl, ihr]
      omega

theorem exists_of_isRed_left {n : FLLRBNode κ α} (h : n.left.isRed = true) :
    ∃ k v c lk lv ll lr r, n = value k v c (value lk lv .red ll lr) r := by
  cases n with
  | empty => cases h
  | value k v c l r =>
      obtain ⟨lk, lv, ll, lr, rfl⟩ := exists_of_isRed h
      exact ⟨k, v, c, lk, lv, ll, lr, r, rfl⟩

theorem moveRedLeft_of_not_red {k : κ} {v : α} {c : FLLRBColor} {l r : FLLRBNode κ α}
    (h : r.left.isRed = false) :
    (value k v c l r).moveRedLeft = value k v c.not l.flipped r.flipped := by
  simp [moveRedLeft, colorFlip, h]

theorem moveRedLeft_of_red {k rk xk : κ} {v rv xv : α} {c rc : FLLRBColor}
    {l xl xr rr : FLLRBNode κ α} :
    (value k v c l (value rk rv rc (value xk xv .red xl xr) rr)).moveRedLeft =
      value xk xv c (value k v .black l.flipped xl) (value rk rv .black xr rr) := by
  cases c <;> simp [moveRedLeft, colorFlip, flipped, withRight, rotateRight, withColor,
    rotateLeft, withLeft, FLLRBColor.not]

theorem moveRedRight_of_not_red {k : κ} {v : α} {c : FLLRBColor} {l r : FLLRBNode κ α}
    (h : l.left.isRed = false) :
    (value k v c l r).moveRedRight = value k v c.not l.flipped r.flipped := by
  simp [moveRedRight, colorFlip, h]

theorem moveRedRight_of_red {k lk xk : κ} {v lv xv : α} {c lc : FLLRBColor}
    {xl xr lr r : FLLRBNode κ α} :
    (value k v c (value lk lv lc (value xk xv .red xl xr) lr) r).moveRedRight =
      value lk lv c (value xk xv .black xl xr) (value k v .black lr r.flipped) := by
  cases c <;> simp [moveRedRight, colorFlip, flipped, rotateRight, withColor, withRight,
    FLLRBColor.not]

/-- Before going left in `remove`. -/
def leanLeft (n : FLLRBNode κ α) : FLLRBNode κ α :=
  if !n.left.isEmpty && !n.left.isRed && !n.left.left.isRed then n.moveRedLeft else n

/-- Before going right in `remove`. -/
def leanRight (n : FLLRBNode κ α) : FLLRBNode κ α :=
  let n := if n.left.isRed then n.rotateRight else n
  if !n.right.isEmpty && !n.right.isRed && !n.right.left.isRed then n.moveRedRight else n

theorem count_left_moveRedLeft_lt {k : κ} {v : α} {c : FLLRBColor} {l r : FLLRBNode κ α} :
    (value k v c l r).moveRedLeft.left.count < (value k v c l r).count := by
  cases hred : r.left.isRed with
  | false =>
      rw [moveRedLeft_of_not_red hred, left_value, count_flipped, count]
      omega
  | true =>
      obtain ⟨rk, rv, rc, xk, xv, xl, xr, rr, rfl⟩ := exists_of_isRed_left hred
      simp only [moveRedLeft_of_red, left_value, count, count_flipped]
      omega

theorem count_left_leanLeft_lt {k : κ} {v : α} {c : FLLRBColor} {l r : FLLRBNode κ α} :
    (value k v c l r).leanLeft.left.count < (value k v c l r).count := by
  unfold leanLeft
  split_ifs
  · exact count_left_moveRedLeft_lt
  · rw [left_value, count]
    omega

theorem count_right_moveRedRight_lt {k : κ} {v : α} {c : FLLRBColor} {l r : FLLRBNode κ α} :
    (value k v c l r).moveRedRight.right.count < (value k v c l r).count := by
  cases hred : l.left.isRed with
  | false =>
      rw [moveRedRight_of_not_red hred, right_value, count_flipped, count]
      omega
  | true =>
      obtain ⟨lk, lv, lc, xk, xv, xl, xr, lr, rfl⟩ := exists_of_isRed_left hred
      simp only [moveRedRight_of_red, right_value, count, count_flipped]
      omega

theorem leanRight_of_left_red {k lk : κ} {v lv : α} {c : FLLRBColor} {ll lr r : FLLRBNode κ α} :
    (value k v c (value lk lv .red ll lr) r).leanRight =
      value lk lv c ll (value k v .red lr r) := by
  simp [leanRight, rotateRight, withColor, withRight]

theorem leanRight_of_left_black {k : κ} {v : α} {c : FLLRBColor} {l r : FLLRBNode κ α}
    (h : l.isRed = false) :
    (value k v c l r).leanRight =
      if !r.isEmpty && !r.isRed && !r.left.isRed then (value k v c l r).moveRedRight
      else value k v c l r := by
  simp [leanRight, h]

theorem count_right_leanRight_lt {k : κ} {v : α} {c : FLLRBColor} {l r : FLLRBNode κ α} :
    (value k v c l r).leanRight.right.count < (value k v c l r).count := by
  cases hred : l.isRed with
  | true =>
      obtain ⟨lk, lv, ll, lr, rfl⟩ := exists_of_isRed hred
      simp only [leanRight_of_left_red, right_value, count]
      omega
  | false =>
      rw [leanRight_of_left_black hred]
      split_ifs
      · exact count_right_moveRedRight_lt
      · rw [right_value, count]
        omega

/-! ## Removing the least entry -/

def removeMin : FLLRBNode κ α → FLLRBNode κ α
  | empty => empty
  | value k v c l r =>
      if l.isEmpty then empty
      else
        let n := (value k v c l r).leanLeft
        (n.withLeft n.left.removeMin).fixUp
termination_by n => n.count
decreasing_by exact count_left_leanLeft_lt

theorem count_fixUp (n : FLLRBNode κ α) : n.fixUp.count = n.count := by
  rw [count_eq, count_eq, entries_fixUp]

theorem count_withLeft_le {n m : FLLRBNode κ α} (h : m.count ≤ n.left.count) :
    (n.withLeft m).count ≤ n.count := by
  cases n with
  | empty => exact Nat.le_refl _
  | value k v c l r =>
      rw [left_value] at h
      simp only [withLeft, count]
      omega

theorem count_leanLeft (n : FLLRBNode κ α) : n.leanLeft.count = n.count := by
  cases n with
  | empty => rfl
  | value k v c l r =>
      unfold leanLeft
      split_ifs
      · cases hred : r.left.isRed with
        | false => simp [moveRedLeft_of_not_red hred, count]
        | true =>
            obtain ⟨rk, rv, rc, xk, xv, xl, xr, rr, rfl⟩ := exists_of_isRed_left hred
            simp only [moveRedLeft_of_red, count, count_flipped]
            omega
      · rfl

theorem count_removeMin_le (n : FLLRBNode κ α) : n.removeMin.count ≤ n.count := by
  induction n using removeMin.induct with
  | case1 => simp [removeMin]
  | case2 k v c l r hempty =>
      rw [removeMin, if_pos hempty]
      exact Nat.zero_le _
  | case3 k v c l r hempty n ih =>
      rw [removeMin, if_neg hempty, count_fixUp]
      calc
        (n.withLeft n.left.removeMin).count ≤ n.count := count_withLeft_le ih
        _ = (value k v c l r).count := count_leanLeft _

/-! ## Removing a key -/

def remove (cmp : κ → κ → Ordering) (key : κ) : FLLRBNode κ α → FLLRBNode κ α
  | empty => empty
  | value k v c l r =>
      if cmp key k = .lt then
        let n := (value k v c l r).leanLeft
        (n.withLeft (n.left.remove cmp key)).fixUp
      else
        match _hn : (value k v c l r).leanRight with
        | empty => empty
        | value k' v' c' l' r' =>
            if cmp key k' = .eq then
              match r'.min with
              | none => empty
              | some smallest =>
                  -- the successor takes the place of the key, which is looked
                  -- for once more in what is left of the right side
                  let right := r'.removeMin
                  (value smallest.1 smallest.2 c' l' (right.remove cmp key)).fixUp
            else (value k' v' c' l' (r'.remove cmp key)).fixUp
termination_by n => n.count
decreasing_by
  · exact count_left_leanLeft_lt
  · have hlt := count_right_leanRight_lt (k := k) (v := v) (c := c) (l := l) (r := r)
    rw [_hn, right_value] at hlt
    exact Nat.lt_of_le_of_lt (count_removeMin_le r') hlt
  · have hlt := count_right_leanRight_lt (k := k) (v := v) (c := c) (l := l) (r := r)
    rwa [_hn, right_value] at hlt

section Unfolding

variable {cmp : κ → κ → Ordering} {key k k' : κ} {v v' : α} {c c' : FLLRBColor}
  {l r l' r' : FLLRBNode κ α}

theorem remove_of_lt (h : cmp key k = .lt)
    (hn : (value k v c l r).leanLeft = value k' v' c' l' r') :
    (value k v c l r).remove cmp key = (value k' v' c' (l'.remove cmp key) r').fixUp := by
  rw [remove, if_pos h, hn]
  rfl

theorem remove_of_gt (h : cmp key k ≠ .lt)
    (hn : (value k v c l r).leanRight = value k' v' c' l' r') (hk : cmp key k' ≠ .eq) :
    (value k v c l r).remove cmp key = (value k' v' c' l' (r'.remove cmp key)).fixUp := by
  rw [remove, if_neg h]
  split
  next hn' => rw [hn] at hn'; cases hn'
  next hn' =>
    rw [hn] at hn'
    cases hn'
    rw [if_neg hk]

theorem remove_of_eq_empty (h : cmp key k ≠ .lt)
    (hn : (value k v c l r).leanRight = value k' v' c' l' empty) (hk : cmp key k' = .eq) :
    (value k v c l r).remove cmp key = empty := by
  rw [remove, if_neg h]
  split
  next hn' => rfl
  next hn' =>
    rw [hn] at hn'
    cases hn'
    rw [if_pos hk]
    rfl

theorem remove_of_eq (h : cmp key k ≠ .lt)
    (hn : (value k v c l r).leanRight = value k' v' c' l' r') (hk : cmp key k' = .eq)
    {smallest : κ × α} (hmin : r'.min = some smallest) :
    (value k v c l r).remove cmp key =
      (value smallest.1 smallest.2 c' l' (r'.removeMin.remove cmp key)).fixUp := by
  rw [remove, if_neg h]
  split
  next hn' => rw [hn] at hn'; cases hn'
  next hn' =>
    rw [hn] at hn'
    cases hn'
    rw [if_pos hk, hmin]

theorem removeMin_of_left (hl : l.isEmpty = false)
    (hn : (value k v c l r).leanLeft = value k' v' c' l' r') :
    (value k v c l r).removeMin = (value k' v' c' l'.removeMin r').fixUp := by
  rw [removeMin, if_neg (by simp [hl]), hn]
  rfl

end Unfolding

/-! ## Borrowing -/

theorem LL.eq_empty {t : FLLRBNode κ α} (h : LL .black 0 t) : t = .empty := by
  cases h with
  | empty => rfl

/-- A black tree that is not empty is a black node over its children. -/
theorem LL.exists_black {n : Nat} {t : FLLRBNode κ α} (h : LL .black n t)
    (hne : t.isEmpty = false) :
    ∃ m k v c l r, n = m + 1 ∧ t = value k v .black l r ∧ LL c m l ∧ LL .black m r := by
  cases h with
  | empty => cases hne
  | black hl hr => exact ⟨_, _, _, _, _, _, rfl, rfl, hl, hr⟩

section Borrowing

variable {k : κ} {v : α} {c : FLLRBColor} {n : Nat} {l r : FLLRBNode κ α}

theorem entries_moveRedLeft : (value k v c l r).moveRedLeft.entries =
    (value k v c l r).entries := by
  cases hred : r.left.isRed with
  | false => simp [moveRedLeft_of_not_red hred, entries]
  | true =>
      obtain ⟨rk, rv, rc, xk, xv, xl, xr, rr, rfl⟩ := exists_of_isRed_left hred
      simp [moveRedLeft_of_red, entries]

theorem entries_moveRedRight : (value k v c l r).moveRedRight.entries =
    (value k v c l r).entries := by
  cases hred : l.left.isRed with
  | false => simp [moveRedRight_of_not_red hred, entries]
  | true =>
      obtain ⟨lk, lv, lc, xk, xv, xl, xr, lr, rfl⟩ := exists_of_isRed_left hred
      simp [moveRedRight_of_red, entries]

theorem entries_leanLeft : (value k v c l r).leanLeft.entries = (value k v c l r).entries := by
  unfold leanLeft
  split_ifs
  · exact entries_moveRedLeft
  · rfl

theorem entries_leanRight : (value k v c l r).leanRight.entries = (value k v c l r).entries := by
  cases hred : l.isRed with
  | true =>
      obtain ⟨lk, lv, ll, lr, rfl⟩ := exists_of_isRed hred
      simp [leanRight_of_left_red, entries]
  | false =>
      rw [leanRight_of_left_black hred]
      split_ifs
      · exact entries_moveRedRight
      · rfl

/-- Between black children, `leanLeft` enters a left child with a red left
child, or one that has become red together with its sibling. -/
theorem leanLeft_cases (hl : LL .black n l) (hr : LL .black n r) (hne : l.isEmpty = false) :
    ∃ k' v' l' r',
      ((value k v c l r).leanLeft = value k' v' c l' r' ∧
          LL .black n l' ∧ l'.left.isRed = true ∧ LL .black n r' ∨
        ∃ m, n = m + 1 ∧ (value k v c l r).leanLeft = value k' v' c.not l' r' ∧
          LL .red m l' ∧ LL .red m r') ∧
      (k' = k ∨ (k', v') ∈ r.entries) := by
  obtain ⟨m, lk, lv, lc, ll, lr, rfl, rfl, hll, hlr⟩ := hl.exists_black hne
  cases lc with
  | red =>
      refine ⟨k, v, _, r, .inl ⟨?_, hl, hll.isRed_eq, hr⟩, .inl rfl⟩
      simp [leanLeft, hll.isRed_eq]
  | black =>
      have hmove : (value k v c (value lk lv .black ll lr) r).leanLeft =
          (value k v c (value lk lv .black ll lr) r).moveRedLeft := by
        simp [leanLeft, hll.isRed_eq, isEmpty]
      rw [hmove]
      cases hr with
      | @black rc _ rk rv rl rr hrl hrr =>
          cases rc with
          | black =>
              refine ⟨k, v, _, _, .inr ⟨m, rfl, moveRedLeft_of_not_red hrl.isRed_eq, ?_, ?_⟩,
                .inl rfl⟩
              · exact .red hll hlr
              · exact .red hrl hrr
          | red =>
              cases hrl with
              | @red _ xk xv xl xr hxl hxr =>
                  refine ⟨xk, xv, _, _, .inl ⟨moveRedLeft_of_red, ?_, rfl, .black hxr hrr⟩,
                    .inr (by simp [entries])⟩
                  exact .black (.red hll hlr) hxl

/-- Between black children, `leanRight` enters a right child with a red left
child, one that has become red together with its sibling, or the old root
with its old right child red. -/
theorem leanRight_cases (hl : LL .black n l) (hr : LL .black n r) (hne : r.isEmpty = false) :
    (∃ r', (value k v c l r).leanRight = value k v c l r' ∧
        LL .black n r' ∧ r'.left.isRed = true) ∨
      (∃ m l' r', n = m + 1 ∧ (value k v c l r).leanRight = value k v c.not l' r' ∧
        LL .red m l' ∧ LL .red m r') ∨
      (∃ m k' v' l' a b, n = m + 1 ∧
        (value k v c l r).leanRight = value k' v' c l' (value k v .black a b) ∧
          (k', v') ∈ l.entries ∧ LL .black n l' ∧ LL .black m a ∧ LL .red m b) := by
  obtain ⟨m, rk, rv, rc, rl, rr, rfl, rfl, hrl, hrr⟩ := hr.exists_black hne
  rw [leanRight_of_left_black hl.isRed_eq]
  cases rc with
  | red =>
      refine .inl ⟨_, ?_, hr, hrl.isRed_eq⟩
      simp [hrl.isRed_eq]
  | black =>
      have hmove : (if !(value rk rv .black rl rr).isEmpty && !(value rk rv .black rl rr).isRed &&
          !(value rk rv .black rl rr).left.isRed
        then (value k v c l (value rk rv .black rl rr)).moveRedRight
        else value k v c l (value rk rv .black rl rr)) =
          (value k v c l (value rk rv .black rl rr)).moveRedRight := by
        simp [hrl.isRed_eq, isEmpty]
      rw [hmove]
      cases hl with
      | @black lc _ lk lv ll lr hll hlr =>
          cases lc with
          | black =>
              refine .inr (.inl ⟨m, _, _, rfl, moveRedRight_of_not_red hll.isRed_eq, ?_, ?_⟩)
              · exact .red hll hlr
              · exact .red hrl hrr
          | red =>
              cases hll with
              | @red _ xk xv xl xr hxl hxr =>
                  refine .inr (.inr ⟨m, lk, lv, _, lr, _, rfl, moveRedRight_of_red,
                    by simp [entries], ?_, hlr, ?_⟩)
                  · exact .black hxl hxr
                  · exact .red hrl hrr

end Borrowing

theorem leanLeft_of_left_red {k : κ} {v : α} {c : FLLRBColor} {l r : FLLRBNode κ α}
    (h : l.isRed = true) : (value k v c l r).leanLeft = value k v c l r := by
  simp [leanLeft, h]

theorem entries_ne_nil {t : FLLRBNode κ α} (h : t.isEmpty = false) : t.entries ≠ [] := by
  cases t with
  | empty => cases h
  | value k v c l r => simp [entries]

theorem isEmpty_of_isRed_left {t : FLLRBNode κ α} (h : t.left.isRed = true) :
    t.isEmpty = false := by
  cases t with
  | empty => cases h
  | value k v c l r => rfl

theorem LL.isEmpty_red {n : Nat} {t : FLLRBNode κ α} (h : LL .red n t) : t.isEmpty = false := by
  cases h with
  | red _ _ => rfl

/-! ## Removing the least entry keeps the shape -/

theorem entries_removeMin_step {k k' : κ} {v v' : α} {c c' : FLLRBColor}
    {l r l' r' : FLLRBNode κ α} (hl : l.isEmpty = false) (hl' : l'.isEmpty = false)
    (hn : (value k v c l r).leanLeft = value k' v' c' l' r')
    (h : l'.removeMin.entries = l'.entries.tail) :
    (value k v c l r).removeMin.entries = (value k v c l r).entries.tail := by
  have hsame : (value k' v' c' l' r').entries = (value k v c l r).entries :=
    hn ▸ entries_leanLeft
  rw [removeMin_of_left hl hn, entries_fixUp, ← hsame, entries, h]
  exact (List.tail_append_of_ne_nil (entries_ne_nil hl')).symm

/-- The least entry is taken out of a red tree, and of a black one whose left
child is red, which stays black. -/
def TakesMin (t : FLLRBNode κ α) : Prop :=
  (∀ n, LL .red n t → (∃ c, LL c n t.removeMin) ∧ t.removeMin.entries = t.entries.tail) ∧
  ∀ n, LL .black n t → t.left.isRed = true →
    LL .black n t.removeMin ∧ t.removeMin.entries = t.entries.tail

theorem takesMin (t : FLLRBNode κ α) : TakesMin t := by
  induction t using removeMin.induct with
  | case1 => exact ⟨fun n h => (nomatch h), fun n h hred => (nomatch hred)⟩
  | case2 k v c l r hempty =>
      obtain rfl : l = empty := by
        cases l with
        | empty => rfl
        | value => cases hempty
      refine ⟨fun n h => ?_, fun n h hred => (nomatch hred)⟩
      cases h with
      | red hl hr =>
          obtain rfl : n = 0 := by
            cases hl
            rfl
          obtain rfl := hr.eq_empty
          exact ⟨⟨.black, by simpa [removeMin, isEmpty] using LL.empty⟩, by
            simp [removeMin, isEmpty, entries]⟩
  | case3 k v c l r hempty n ih =>
      have hne : l.isEmpty = false := by simpa using hempty
      have hleft : TakesMin (value k v c l r).leanLeft.left := ih
      refine ⟨fun m h => ?_, fun m h hred => ?_⟩
      · cases h with
        | red hl hr =>
            obtain ⟨k', v', l', r', hcases, -⟩ :=
              leanLeft_cases (k := k) (v := v) (c := .red) hl hr hne
            rcases hcases with ⟨hn, hl', hred, hr'⟩ | ⟨m, rfl, hn, hl', hr'⟩
            · rw [hn, left_value] at hleft
              obtain ⟨hmin, hentries⟩ := hleft.2 _ hl' hred
              refine ⟨⟨.red, ?_⟩, entries_removeMin_step hne (isEmpty_of_isRed_left hred) hn hentries⟩
              rw [removeMin_of_left hne hn, fixUp_of_LL hmin hr']
              exact .red hmin hr'
            · rw [hn, left_value] at hleft
              obtain ⟨⟨c, hmin⟩, hentries⟩ := hleft.1 _ hl'
              refine ⟨?_, entries_removeMin_step hne hl'.isEmpty_red hn hentries⟩
              rw [removeMin_of_left hne hn]
              exact fixUp_right hmin hr'
      · have hn : (value k v c l r).leanLeft = value k v c l r := leanLeft_of_left_red hred
        rw [hn, left_value] at hleft
        cases h with
        | @black d m _ _ _ _ hl hr =>
            obtain rfl : d = .red := by
              rw [left_value, hl.isRed_eq] at hred
              simpa using hred
            obtain ⟨⟨c, hmin⟩, hentries⟩ := hleft.1 _ hl
            refine ⟨?_, entries_removeMin_step hne hne hn hentries⟩
            rw [removeMin_of_left hne hn, fixUp_of_LL hmin hr]
            exact .black hmin hr

/-! ## Removing a key keeps the shape -/

section Removal

open SortedEntries

variable {cmp : κ → κ → Ordering} {key : κ}

theorem LL.root {c : FLLRBColor} {n : Nat} {k : κ} {v : α} {l r : FLLRBNode κ α}
    (hl : LL .black n l) (hr : LL .black n r) :
    LL c (n + if c = .red then 0 else 1) (value k v c l r) := by
  cases c with
  | red => exact .red hl hr
  | black => exact .black hl hr

@[simp] theorem remove_empty : (empty : FLLRBNode κ α).remove cmp key = empty := by
  rw [remove]

section Left

variable {k k' : κ} {v v' : α} {c c' : FLLRBColor} {l r l' r' : FLLRBNode κ α}

theorem entries_of_leanLeft (hn : (value k v c l r).leanLeft = value k' v' c' l' r') :
    l'.entries ++ (k', v') :: r'.entries = (value k v c l r).entries :=
  (congrArg entries hn).symm.trans entries_leanLeft

theorem entries_of_leanRight (hn : (value k v c l r).leanRight = value k' v' c' l' r') :
    l'.entries ++ (k', v') :: r'.entries = (value k v c l r).entries :=
  (congrArg entries hn).symm.trans entries_leanRight

theorem entries_remove_left (h : cmp key k = .lt)
    (hn : (value k v c l r).leanLeft = value k' v' c' l' r') :
    ((value k v c l r).remove cmp key).entries =
      (l'.remove cmp key).entries ++ (k', v') :: r'.entries := by
  rw [remove_of_lt h hn, entries_fixUp]
  rfl

end Left

/-- Looking for a key below all others changes neither the colour nor the
depth of a tree, nor its entries. -/
theorem remove_of_below (t : FLLRBNode κ α) (hbelow : ∀ e ∈ t.entries, cmp key e.1 = .lt)
    {c : FLLRBColor} {n : Nat} (h : LL c n t) :
    LL c n (t.remove cmp key) ∧ (t.remove cmp key).entries = t.entries := by
  induction t using remove.induct cmp key generalizing c n with
  | case1 =>
      rw [remove]
      exact ⟨h, rfl⟩
  | case2 k v rc l r hlt n ih =>
      have hleft : ∀ {c n}, (∀ e ∈ (value k v rc l r).leanLeft.left.entries, cmp key e.1 = .lt) →
          LL c n (value k v rc l r).leanLeft.left →
          LL c n ((value k v rc l r).leanLeft.left.remove cmp key) ∧
            ((value k v rc l r).leanLeft.left.remove cmp key).entries =
              (value k v rc l r).leanLeft.left.entries := fun hbelow h => ih hbelow h
      have hboth : ∀ m, LL .black m l → LL .black m r →
          LL rc (m + if rc = .red then 0 else 1) ((value k v rc l r).remove cmp key) ∧
            ((value k v rc l r).remove cmp key).entries = (value k v rc l r).entries := by
        intro m hl hr
        cases hne : l.isEmpty with
        | true =>
            obtain rfl : l = .empty := by
              cases l with
              | empty => rfl
              | value => cases hne
            have hn : (value k v rc empty r).leanLeft = value k v rc empty r := rfl
            rw [remove_of_lt hlt hn, remove_empty, fixUp_of_LL hl hr]
            exact ⟨hl.root hr, rfl⟩
        | false =>
            obtain ⟨k', v', l', r', hcases, -⟩ :=
              leanLeft_cases (k := k) (v := v) (c := rc) hl hr hne
            rcases hcases with ⟨hn, hl', -, hr'⟩ | ⟨m, rfl, hn, hl', hr'⟩
            · have hsame := entries_of_leanLeft hn
              rw [hn, left_value] at hleft
              obtain ⟨hrem, hentries⟩ := hleft (fun e he => hbelow e (by simp [← hsame, he])) hl'
              refine ⟨?_, by rw [entries_remove_left hlt hn, hentries, hsame]⟩
              rw [remove_of_lt hlt hn, fixUp_of_LL hrem hr']
              exact hrem.root hr'
            · have hsame := entries_of_leanLeft hn
              rw [hn, left_value] at hleft
              obtain ⟨hrem, hentries⟩ := hleft (fun e he => hbelow e (by simp [← hsame, he])) hl'
              refine ⟨?_, by rw [entries_remove_left hlt hn, hentries, hsame]⟩
              rw [remove_of_lt hlt hn, fixUp_of_both_red hrem.isRed_eq hrem.isRed_left hr'.isRed_eq,
                FLLRBColor.not_not]
              exact hrem.flipped.root hr'.flipped
      cases h with
      | red hl hr => exact hboth _ hl hr
      | @black d m _ _ _ _ hl hr =>
          cases d with
          | black => exact hboth _ hl hr
          | red =>
              have hn : (value k v .black l r).leanLeft = value k v .black l r :=
                leanLeft_of_left_red hl.isRed_eq
              have hsame := entries_of_leanLeft hn
              rw [hn, left_value] at hleft
              obtain ⟨hrem, hentries⟩ := hleft (fun e he => hbelow e (by simp [← hsame, he])) hl
              refine ⟨?_, by rw [entries_remove_left hlt hn, hentries, hsame]⟩
              rw [remove_of_lt hlt hn, fixUp_of_LL hrem hr]
              exact .black hrem hr
  | case3 k v rc l r hlt => exact absurd (hbelow (k, v) (by simp [entries])) hlt
  | case4 k v rc l r hlt => exact absurd (hbelow (k, v) (by simp [entries])) hlt
  | case5 k v rc l r hlt => exact absurd (hbelow (k, v) (by simp [entries])) hlt
  | case6 k v rc l r hlt => exact absurd (hbelow (k, v) (by simp [entries])) hlt

/-- The key is taken out of a red tree; of a black one whose left child is
red, which stays black; and, if it is not on the left, of a black one whose
right child is red, which stays black as well. -/
def Takes (cmp : κ → κ → Ordering) (key : κ) (t : FLLRBNode κ α) : Prop :=
  Sorted cmp t.entries →
    (∀ n, LL .red n t →
      (∃ c, LL c n (t.remove cmp key)) ∧
        (t.remove cmp key).entries = erase cmp key t.entries) ∧
    (∀ n, LL .black n t → t.left.isRed = true →
      LL .black n (t.remove cmp key) ∧
        (t.remove cmp key).entries = erase cmp key t.entries) ∧
    ∀ n k v a b, t = value k v .black a b → cmp key k ≠ .lt → LL .black n a → LL .red n b →
      LL .black (n + 1) (t.remove cmp key) ∧
        (t.remove cmp key).entries = erase cmp key t.entries

section Right

variable [Std.TransCmp cmp] {k k' : κ} {v v' : α} {c c' : FLLRBColor} {l r l' r' : FLLRBNode κ α}

theorem entries_remove_of_lt (hsorted : Sorted cmp (value k v c l r).entries)
    (h : cmp key k = .lt) (hn : (value k v c l r).leanLeft = value k' v' c' l' r')
    (hk : cmp key k' = .lt) (hrem : (l'.remove cmp key).entries = erase cmp key l'.entries) :
    ((value k v c l r).remove cmp key).entries = erase cmp key (value k v c l r).entries := by
  rw [entries_remove_left h hn, hrem]
  rw [← entries_of_leanLeft hn] at hsorted ⊢
  obtain ⟨-, -, -, hafter⟩ := sorted_append_cons.mp hsorted
  have hne : cmp key k' ≠ .gt := by simp [hk]
  have hright : ∀ e ∈ r'.entries, cmp key e.1 ≠ .eq := fun e he => by
    simp [lt_of_mem_after hafter hne e he]
  rw [erase_append, erase_cons_of_ne (by simp [hk]), erase_eq_self hright]

theorem not_mem_before (hsorted : Sorted cmp (value k v c l r).entries)
    (hn : (value k v c l r).leanRight = value k' v' c' l' r') (hk : cmp key k' ≠ .lt) :
    erase cmp key l'.entries = l'.entries := by
  rw [← entries_of_leanRight hn] at hsorted
  obtain ⟨-, -, hbefore, -⟩ := sorted_append_cons.mp hsorted
  refine erase_eq_self fun e he => ?_
  simp [gt_of_mem_before hbefore hk e he]

theorem entries_remove_of_gt (hsorted : Sorted cmp (value k v c l r).entries)
    (h : cmp key k ≠ .lt) (hn : (value k v c l r).leanRight = value k' v' c' l' r')
    (hk : cmp key k' = .gt) (hrem : (r'.remove cmp key).entries = erase cmp key r'.entries) :
    ((value k v c l r).remove cmp key).entries = erase cmp key (value k v c l r).entries := by
  have hne : cmp key k' ≠ .lt := by simp [hk]
  have hleft := not_mem_before hsorted hn hne
  rw [remove_of_gt h hn (by simp [hk]), entries_fixUp, entries, hrem, ← entries_of_leanRight hn,
    erase_append, hleft, erase_cons_of_ne (by simp [hk])]

theorem entries_remove_of_eq (hsorted : Sorted cmp (value k v c l r).entries)
    (h : cmp key k ≠ .lt) (hn : (value k v c l r).leanRight = value k' v' c' l' r')
    (hk : cmp key k' = .eq) {smallest : κ × α} (hmin : r'.min = some smallest)
    (hrem : r'.removeMin.entries = r'.entries.tail)
    (hkept : (r'.removeMin.remove cmp key).entries = r'.removeMin.entries) :
    ((value k v c l r).remove cmp key).entries = erase cmp key (value k v c l r).entries := by
  have hne : cmp key k' ≠ .lt := by simp [hk]
  have hleft := not_mem_before hsorted hn hne
  have hcons : (smallest.1, smallest.2) :: r'.entries.tail = r'.entries :=
    List.cons_head?_tail (by rw [← min_eq_head?, hmin]; rfl)
  rw [← entries_of_leanRight hn] at hsorted
  obtain ⟨-, -, -, hafter⟩ := sorted_append_cons.mp hsorted
  have hright : ∀ e ∈ r'.entries, cmp key e.1 ≠ .eq := fun e he => by
    simp [lt_of_mem_after hafter (by simp [hk] : cmp key k' ≠ .gt) e he]
  rw [remove_of_eq h hn hk hmin, entries_fixUp, entries, hkept, hrem, hcons,
    ← entries_of_leanRight hn, erase_append, hleft, erase_cons_of_eq hk, erase_eq_self hright]

/-- A removal to the right of a root that is not above the key leaves the
left child alone and something on the right that either removal leaves. -/
theorem remove_right (P : FLLRBNode κ α → Prop)
    (hsorted : Sorted cmp (value k v c l r).entries) (h : cmp key k ≠ .lt)
    (hn : (value k v c l r).leanRight = value k v' c' l' r') (hne : r'.isEmpty = false)
    (hmin : (∀ e ∈ r'.entries, cmp key e.1 = .lt) → P (r'.removeMin.remove cmp key) ∧
      r'.removeMin.entries = r'.entries.tail ∧
        (r'.removeMin.remove cmp key).entries = r'.removeMin.entries)
    (hrem : Sorted cmp r'.entries → P (r'.remove cmp key) ∧
      (r'.remove cmp key).entries = erase cmp key r'.entries) :
    (∃ k'' v'' r'', (value k v c l r).remove cmp key = (value k'' v'' c' l' r'').fixUp ∧ P r'') ∧
      ((value k v c l r).remove cmp key).entries = erase cmp key (value k v c l r).entries := by
  have hsorted' := hsorted
  rw [← entries_of_leanRight hn] at hsorted'
  obtain ⟨-, hright, -, hafter⟩ := sorted_append_cons.mp hsorted'
  cases hk : cmp key k with
  | lt => exact absurd hk h
  | eq =>
      have hbelow := lt_of_mem_after hafter (by simp [hk] : cmp key k ≠ .gt)
      obtain ⟨hP, htail, hkept⟩ := hmin hbelow
      obtain ⟨smallest, hsmallest⟩ : ∃ smallest, r'.min = some smallest := by
        rw [min_eq_head?]
        exact Option.isSome_iff_exists.mp (List.isSome_head?.mpr (entries_ne_nil hne))
      refine ⟨⟨_, _, _, remove_of_eq h hn hk hsmallest, hP⟩, ?_⟩
      exact entries_remove_of_eq hsorted h hn hk hsmallest htail hkept
  | gt =>
      obtain ⟨hP, hentries⟩ := hrem hright
      exact ⟨⟨_, _, _, remove_of_gt h hn (by simp [hk]), hP⟩,
        entries_remove_of_gt hsorted h hn hk hentries⟩

end Right

theorem removeMin_red {n : Nat} {t : FLLRBNode κ α} (h : LL .red n t)
    (hbelow : ∀ e ∈ t.entries, cmp key e.1 = .lt) :
    (∃ c, LL c n (t.removeMin.remove cmp key)) ∧ t.removeMin.entries = t.entries.tail ∧
      (t.removeMin.remove cmp key).entries = t.removeMin.entries := by
  obtain ⟨⟨c, hmin⟩, htail⟩ := (takesMin t).1 n h
  have hrem := remove_of_below t.removeMin
    (fun e he => hbelow e (List.mem_of_mem_tail (htail ▸ he))) hmin
  exact ⟨⟨c, hrem.1⟩, htail, hrem.2⟩

theorem removeMin_black {n : Nat} {t : FLLRBNode κ α} (h : LL .black n t)
    (hred : t.left.isRed = true) (hbelow : ∀ e ∈ t.entries, cmp key e.1 = .lt) :
    LL .black n (t.removeMin.remove cmp key) ∧ t.removeMin.entries = t.entries.tail ∧
      (t.removeMin.remove cmp key).entries = t.removeMin.entries := by
  obtain ⟨hmin, htail⟩ := (takesMin t).2 n h hred
  have hrem := remove_of_below t.removeMin
    (fun e he => hbelow e (List.mem_of_mem_tail (htail ▸ he))) hmin
  exact ⟨hrem.1, htail, hrem.2⟩

/-- A node with black children of depth `n` after a removal: a node of its
colour with black children again; or, one level down, one of the other
colour to be repaired; or nothing. -/
inductive Removed (c : FLLRBColor) : Nat → FLLRBNode κ α → Prop where
  | same {n k v l r} : LL .black n l → LL .black n r → Removed c n (.value k v c l r)
  | borrowed {n k v cl cr l r} : LL cl n l → LL cr n r →
      Removed c (n + 1) (value k v c.not l r).fixUp
  | nothing : Removed c 0 .empty

section Steps

variable [Std.TransCmp cmp] {n : Nat} {k : κ} {v : α} {c : FLLRBColor} {l r : FLLRBNode κ α}

theorem eq_empty_of_isEmpty {t : FLLRBNode κ α} (h : t.isEmpty = true) : t = empty := by
  cases t with
  | empty => rfl
  | value => cases h

theorem removed_left (hl : LL .black n l) (hr : LL .black n r)
    (hsorted : Sorted cmp (value k v c l r).entries) (hlt : cmp key k = .lt)
    (hleft : Takes cmp key (value k v c l r).leanLeft.left) :
    Removed c n ((value k v c l r).remove cmp key) ∧
      ((value k v c l r).remove cmp key).entries = erase cmp key (value k v c l r).entries := by
  cases hne : l.isEmpty with
  | true =>
      obtain rfl := eq_empty_of_isEmpty hne
      have hn : (value k v c empty r).leanLeft = value k v c empty r := rfl
      refine ⟨?_, entries_remove_of_lt hsorted hlt hn hlt (by simp [entries, erase])⟩
      rw [remove_of_lt hlt hn, remove_empty, fixUp_of_LL hl hr]
      exact .same hl hr
  | false =>
      obtain ⟨k', v', l', r', hcases, hk'⟩ :=
        leanLeft_cases (k := k) (v := v) (c := c) hl hr hne
      -- the key is below the new root as well
      have hlt' : cmp key k' = .lt := by
        rcases hk' with rfl | hmem
        · exact hlt
        · obtain ⟨-, -, -, hafter⟩ := sorted_append_cons.mp hsorted
          exact Std.TransCmp.lt_trans hlt (hafter _ hmem)
      rcases hcases with ⟨hn, hl', hred, hr'⟩ | ⟨m, rfl, hn, hl', hr'⟩
      · have hsorted' := hsorted
        rw [← entries_of_leanLeft hn] at hsorted'
        rw [hn, left_value] at hleft
        obtain ⟨-, hblack, -⟩ := hleft (sorted_append_cons.mp hsorted').1
        obtain ⟨hrem, hentries⟩ := hblack n hl' hred
        refine ⟨?_, entries_remove_of_lt hsorted hlt hn hlt' hentries⟩
        rw [remove_of_lt hlt hn, fixUp_of_LL hrem hr']
        exact .same hrem hr'
      · have hsorted' := hsorted
        rw [← entries_of_leanLeft hn] at hsorted'
        rw [hn, left_value] at hleft
        obtain ⟨hredTree, -, -⟩ := hleft (sorted_append_cons.mp hsorted').1
        obtain ⟨⟨d, hrem⟩, hentries⟩ := hredTree m hl'
        refine ⟨?_, entries_remove_of_lt hsorted hlt hn hlt' hentries⟩
        rw [remove_of_lt hlt hn]
        exact .borrowed hrem hr'

theorem removed_right (hl : LL .black n l) (hr : LL .black n r)
    (hsorted : Sorted cmp (value k v c l r).entries) (hge : cmp key k ≠ .lt)
    (hright : Takes cmp key (value k v c l r).leanRight.right) :
    Removed c n ((value k v c l r).remove cmp key) ∧
      ((value k v c l r).remove cmp key).entries = erase cmp key (value k v c l r).entries := by
  cases hne : r.isEmpty with
  | true =>
      obtain rfl := eq_empty_of_isEmpty hne
      obtain rfl : n = 0 := by
        cases hr
        rfl
      obtain rfl := hl.eq_empty
      have hn : (value k v c (empty : FLLRBNode κ α) empty).leanRight = value k v c empty empty :=
        rfl
      cases hk : cmp key k with
      | lt => exact absurd hk hge
      | eq =>
          rw [remove_of_eq_empty hge hn hk]
          exact ⟨.nothing, by simp [entries, erase, hk]⟩
      | gt =>
          rw [remove_of_gt hge hn (by simp [hk]), remove_empty, fixUp_of_LL hl hr]
          exact ⟨.same hl hr, by simp [entries, erase, hk]⟩
  | false =>
      rcases leanRight_cases (k := k) (v := v) (c := c) hl hr hne with
        ⟨r', hn, hr', hred⟩ | ⟨m, l', r', rfl, hn, hl', hr'⟩ | ⟨m, k', v', l', a, b, rfl, hn, hmem, hl', ha, hb⟩
      · rw [hn, right_value] at hright
        obtain ⟨⟨k'', v'', r'', hremove, hrem⟩, hentries⟩ :=
          remove_right (LL .black n) hsorted hge hn (isEmpty_of_isRed_left hred)
            (removeMin_black hr' hred) fun hs => (hright hs).2.1 n hr' hred
        refine ⟨?_, hentries⟩
        rw [hremove, fixUp_of_LL hl hrem]
        exact .same hl hrem
      · rw [hn, right_value] at hright
        obtain ⟨⟨k'', v'', r'', hremove, d, hrem⟩, hentries⟩ :=
          remove_right (fun t => ∃ d, LL d m t) hsorted hge hn hr'.isEmpty_red
            (removeMin_red hr') fun hs => (hright hs).1 m hr'
        refine ⟨?_, hentries⟩
        rw [hremove]
        exact .borrowed hl' hrem
      · -- the new root comes from the left, so the key is above it
        obtain ⟨-, -, hbefore, -⟩ := sorted_append_cons.mp hsorted
        have hgt : cmp key k' = .gt := gt_of_mem_before hbefore hge _ hmem
        have hsorted' := hsorted
        rw [← entries_of_leanRight hn] at hsorted'
        rw [hn, right_value] at hright
        obtain ⟨hrem, hentries⟩ :=
          (hright (sorted_append_cons.mp hsorted').2.1).2.2 m k v a b rfl hge ha hb
        refine ⟨?_, entries_remove_of_gt hsorted hge hn hgt hentries⟩
        rw [remove_of_gt hge hn (by simp [hgt]), fixUp_of_LL hl' hrem]
        exact .same hl' hrem

theorem removed (hl : LL .black n l) (hr : LL .black n r)
    (hsorted : Sorted cmp (value k v c l r).entries)
    (hleft : Takes cmp key (value k v c l r).leanLeft.left)
    (hright : Takes cmp key (value k v c l r).leanRight.right) :
    Removed c n ((value k v c l r).remove cmp key) ∧
      ((value k v c l r).remove cmp key).entries = erase cmp key (value k v c l r).entries := by
  by_cases hlt : cmp key k = .lt
  · exact removed_left hl hr hsorted hlt hleft
  · exact removed_right hl hr hsorted hlt hright

theorem Removed.red {t : FLLRBNode κ α} (h : Removed .red n t) : ∃ c, LL c n t := by
  cases h with
  | same hl hr => exact ⟨.red, .red hl hr⟩
  | borrowed hl hr => exact fixUp_right hl hr
  | nothing => exact ⟨.black, .empty⟩

theorem Removed.blackened {t : FLLRBNode κ α} (h : Removed .black n t) :
    ∃ m, LL .black m (t.withColor .black) := by
  cases h with
  | same hl hr => exact ⟨_, .black hl hr⟩
  | borrowed hl hr =>
      obtain ⟨d, m, hgrown⟩ := fixUp_red hl hr
      exact hgrown.blackened
  | nothing => exact ⟨0, .empty⟩

/-- A removal from a black node with a red left child. -/
theorem remove_left_red (hl : LL .red n l) (hr : LL .black n r)
    (hsorted : Sorted cmp (value k v .black l r).entries)
    (hleft : Takes cmp key (value k v .black l r).leanLeft.left)
    (hright : Takes cmp key (value k v .black l r).leanRight.right) :
    LL .black (n + 1) ((value k v .black l r).remove cmp key) ∧
      ((value k v .black l r).remove cmp key).entries =
        erase cmp key (value k v .black l r).entries := by
  by_cases hlt : cmp key k = .lt
  · have hn : (value k v .black l r).leanLeft = value k v .black l r :=
      leanLeft_of_left_red hl.isRed_eq
    rw [hn, left_value] at hleft
    obtain ⟨⟨d, hrem⟩, hentries⟩ := (hleft (sorted_append_cons.mp hsorted).1).1 n hl
    refine ⟨?_, entries_remove_of_lt hsorted hlt hn hlt hentries⟩
    rw [remove_of_lt hlt hn, fixUp_of_LL hrem hr]
    exact .black hrem hr
  · obtain ⟨-, -, hbefore, -⟩ := sorted_append_cons.mp hsorted
    cases hl with
    | @red _ lk lv ll lr hll hlr =>
        have hn : (value k v .black (value lk lv .red ll lr) r).leanRight =
            value lk lv .black ll (value k v .red lr r) := leanRight_of_left_red
        have hgt : cmp key lk = .gt := gt_of_mem_before hbefore hlt (lk, lv) (by simp [entries])
        have hsorted' := hsorted
        rw [← entries_of_leanRight hn] at hsorted'
        rw [hn, right_value] at hright
        obtain ⟨⟨d, hrem⟩, hentries⟩ :=
          (hright (sorted_append_cons.mp hsorted').2.1).1 n (.red hlr hr)
        refine ⟨?_, entries_remove_of_gt hsorted hlt hn hgt hentries⟩
        rw [remove_of_gt hlt hn (by simp [hgt])]
        exact fixUp_black_right hll hrem

theorem takes_value (hleft : Takes cmp key (value k v c l r).leanLeft.left)
    (hright : Takes cmp key (value k v c l r).leanRight.right) :
    Takes cmp key (value k v c l r) := by
  intro hsorted
  refine ⟨fun m h => ?_, fun m h hred => ?_, fun m k v a b heq hge ha hb => ?_⟩
  · cases h with
    | red hl hr =>
        obtain ⟨hremoved, hentries⟩ := removed hl hr hsorted hleft hright
        exact ⟨hremoved.red, hentries⟩
  · cases h with
    | @black d _ _ _ _ _ hl hr =>
        obtain rfl : d = .red := by
          rw [left_value, hl.isRed_eq] at hred
          simpa using hred
        exact remove_left_red hl hr hsorted hleft hright
  · cases heq
    have hn : (value k v .black l r).leanRight = value k v .black l r := by
      rw [leanRight_of_left_black ha.isRed_eq]
      simp [hb.isRed_eq]
    rw [hn, right_value] at hright
    obtain ⟨⟨k'', v'', r'', hremove, d, hrem⟩, hentries⟩ :=
      remove_right (fun t => ∃ d, LL d m t) hsorted hge hn hb.isEmpty_red (removeMin_red hb)
        fun hs => (hright hs).1 m hb
    refine ⟨?_, hentries⟩
    rw [hremove]
    exact fixUp_black_right ha hrem

end Steps

theorem takes [Std.TransCmp cmp] : (t : FLLRBNode κ α) → Takes cmp key t
  | empty => fun _ => ⟨fun _ h => (nomatch h), fun _ _ hred => (nomatch hred),
      fun _ _ _ _ _ h => (nomatch h)⟩
  | value k v c l r =>
      takes_value (takes (value k v c l r).leanLeft.left) (takes (value k v c l r).leanRight.right)
termination_by t => t.count
decreasing_by
  · exact count_left_leanLeft_lt
  · exact count_right_leanRight_lt

/-- Removing a key from a dictionary's tree takes its entry out, and leaves a
tree once the root is blackened. -/
theorem remove_blackened [Std.TransCmp cmp] {n : Nat} {t : FLLRBNode κ α} (h : LL .black n t)
    (hsorted : Sorted cmp t.entries) :
    (∃ m, LL .black m ((t.remove cmp key).withColor .black)) ∧
      ((t.remove cmp key).withColor .black).entries = erase cmp key t.entries := by
  rw [entries_withColor]
  cases h with
  | empty =>
      rw [remove_empty]
      exact ⟨⟨0, .empty⟩, rfl⟩
  | @black c m k v l r hl hr =>
      cases c with
      | red =>
          obtain ⟨hrem, hentries⟩ := remove_left_red hl hr hsorted (takes _) (takes _)
          exact ⟨hrem.blackened, hentries⟩
      | black =>
          obtain ⟨hremoved, hentries⟩ := removed hl hr hsorted (takes _) (takes _)
          exact ⟨hremoved.blackened, hentries⟩

end Removal

end FLLRBNode

end VkClient
