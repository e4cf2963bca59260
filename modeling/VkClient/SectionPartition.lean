import Mathlib.Data.String.Basic
import VkClient.FriendsTable

/-!
# The sections as a partition

`prepareSections` tells the letters of the sections apart as the lowercased
first characters they are, and fills the section of a letter with
`BEGINSWITH[cd]`, which folds diacritics as well. Letters that differ in
nothing else are two sections, and a name that begins with either is in
both.

The letters are always strictly increasing (`pairwise_friendsLetters`), and
every friend is in the section of its own letter. So all that can go wrong
is a friend in the section of another one's letter, and the sections are a
partition with one letter each exactly if no name begins with the letter of
another name and has a letter of its own (`sectionsPartition_iff`).
-/

namespace VkClient

/-- What the sections rely on of Swift and of Realm: a nonempty string has a
first character, the order of strings is a linear one, and a comparison that
folds case and diacritics lets a name begin with its own lowercased first
character. -/
structure TextOps.Lawful (T : TextOps) : Prop where
  exists_first : ∀ s, s ≠ "" → ∃ c, T.first s = some c
  le_total : ∀ s t, T.le s t = true ∨ T.le t s = true
  le_trans : ∀ s t u, T.le s t = true → T.le t u = true → T.le s u = true
  le_antisymm : ∀ s t, T.le s t = true → T.le t s = true → s = t
  beginsWithCD_first : ∀ s c, T.first s = some c → T.beginsWithCD s (T.lowercased c) = true

/-- In a list without duplicates, one index has what one member has. -/
theorem existsUnique_getElem?_iff {α : Type*} {l : List α} (hl : l.Nodup) {p : α → Prop} :
    (∃! i : ℕ, ∃ a, l[i]? = some a ∧ p a) ↔ ∃! a, a ∈ l ∧ p a := by
  constructor
  · rintro ⟨i, ⟨a, ha, hp⟩, hunique⟩
    refine ⟨a, ⟨List.mem_of_getElem? ha, hp⟩, fun b ⟨hb, hpb⟩ => ?_⟩
    obtain ⟨j, hj⟩ := List.mem_iff_getElem?.mp hb
    obtain rfl := hunique j ⟨b, hj, hpb⟩
    exact Option.some.inj (hj.symm.trans ha)
  · rintro ⟨a, ⟨ha, hp⟩, hunique⟩
    obtain ⟨i, hi⟩ := List.mem_iff_getElem?.mp ha
    refine ⟨i, ⟨a, hi, hp⟩, fun j ⟨b, hb, hpb⟩ => ?_⟩
    obtain rfl := hunique b ⟨List.mem_of_getElem? hb, hpb⟩
    obtain ⟨hlt, -⟩ := List.getElem?_eq_some_iff.mp hb
    exact (List.getElem?_inj hlt hl).mp (hb.trans hi.symm)

namespace FriendsTableViewController

variable (T : TextOps)

/-- The letter a friend is listed under: its lowercased first character. -/
def letterOf (friend : FriendsVK) : Option String := (T.first friend.name).map T.lowercased

/-- The character `viewForHeaderInSection` makes uppercase for the header. -/
def headerCharacter (table : Table FriendsVK) (q : FriendsQuery) : Option String :=
  (q.results T table).head?.bind fun r => T.first r.val.name

/-- Every friend is in exactly one of the results, the letters increase
strictly, and the friends of a section agree on their letter, with each
other and with the header. -/
structure SectionsPartition (table : Table FriendsVK) (vc : FriendsTableViewController) :
    Prop where
  existsUnique_section : ∀ r ∈ table.rows,
    ∃! i : ℕ, ∃ q, vc.friendsList[i]? = some q ∧ r ∈ q.results T table
  letters_increase : ∃ letters : List String,
    vc.friendsList = letters.map FriendsQuery.beginsWith ∧
    letters.Pairwise fun a b => T.le a b = true ∧ T.le b a = false
  same_letter : ∀ q ∈ vc.friendsList, ∀ r ∈ q.results T table, ∀ r' ∈ q.results T table,
    letterOf T r.val = letterOf T r'.val
  header_fits : ∀ q ∈ vc.friendsList, ∀ r ∈ q.results T table,
    (headerCharacter T table q).map T.lowercased = letterOf T r.val

/-- A name that begins with the letter of another has the same letter. -/
def LettersApart (table : Table FriendsVK) : Prop :=
  ∀ r ∈ table.rows, ∀ r' ∈ table.rows,
    ∀ c ∈ T.first r.val.name, ∀ c' ∈ T.first r'.val.name,
      T.beginsWithCD r.val.name (T.lowercased c') = true → T.lowercased c = T.lowercased c'

instance (table : Table FriendsVK) : Decidable (LettersApart T table) :=
  inferInstanceAs (Decidable (∀ r ∈ table.rows, ∀ r' ∈ table.rows,
    ∀ c ∈ T.first r.val.name, ∀ c' ∈ T.first r'.val.name,
      T.beginsWithCD r.val.name (T.lowercased c') = true → T.lowercased c = T.lowercased c'))

variable {T} {table : Table FriendsVK} {vc : FriendsTableViewController}

theorem friendsList_prepareSections :
    (prepareSections T vc (.ok table)).friendsList =
      (friendsLetters T table).map FriendsQuery.beginsWith :=
  rfl

theorem nodup_friendsLetters : (friendsLetters T table).Nodup :=
  (List.perm_insertionSort _ _).nodup_iff.mpr (List.nodup_dedup _)

theorem nodup_friendsList : (prepareSections T vc (.ok table)).friendsList.Nodup := by
  rw [friendsList_prepareSections]
  exact nodup_friendsLetters.map fun _ _ h => FriendsQuery.beginsWith.inj h

theorem pairwise_friendsLetters (hT : T.Lawful) :
    (friendsLetters T table).Pairwise fun a b => T.le a b = true ∧ T.le b a = false := by
  have : Std.Total fun a b => T.le a b = true := ⟨hT.le_total⟩
  have : IsTrans String fun a b => T.le a b = true := ⟨hT.le_trans⟩
  have hsorted : (friendsLetters T table).Pairwise fun a b => T.le a b = true :=
    List.pairwise_insertionSort _ _
  refine (hsorted.and nodup_friendsLetters).imp fun {a b} ⟨hle, hne⟩ => ⟨hle, ?_⟩
  rw [Bool.eq_false_iff]
  exact fun hge => hne (hT.le_antisymm a b hle hge)

theorem mem_friendsList_of_row {r : Row FriendsVK} (hr : r ∈ table.rows) {c : String}
    (hc : T.first r.val.name = some c) :
    .beginsWith (T.lowercased c) ∈ (prepareSections T vc (.ok table)).friendsList :=
  List.mem_map_of_mem (mem_friendsLetters.mpr ⟨r, hr, c, hc, rfl⟩)

theorem exists_row_of_mem_friendsList {q : FriendsQuery}
    (hq : q ∈ (prepareSections T vc (.ok table)).friendsList) :
    ∃ r ∈ table.rows, ∃ c, T.first r.val.name = some c ∧ q = .beginsWith (T.lowercased c) := by
  obtain ⟨letter, hletter, rfl⟩ := List.mem_map.mp hq
  obtain ⟨r, hr, c, hc, rfl⟩ := mem_friendsLetters.mp hletter
  exact ⟨r, hr, c, hc, rfl⟩

/-- The only place where `LettersApart` is used: a row of a section is listed
under the section's letter. -/
theorem letterOf_of_mem_results (hT : T.Lawful) (hnames : ∀ r ∈ table.rows, r.val.name ≠ "")
    (hapart : LettersApart T table) {r₀ r : Row FriendsVK} {c₀ : String}
    (hr₀ : r₀ ∈ table.rows) (hc₀ : T.first r₀.val.name = some c₀)
    (hr : r ∈ (FriendsQuery.beginsWith (T.lowercased c₀)).results T table) :
    letterOf T r.val = some (T.lowercased c₀) := by
  obtain ⟨hrow, hbegins⟩ := mem_results.mp hr
  obtain ⟨c, hc⟩ := hT.exists_first _ (hnames r hrow)
  rw [letterOf, hc, Option.map_some, hapart r hrow r₀ hr₀ c hc c₀ hc₀ hbegins]

theorem exists_letter_of_mem_friendsList (hT : T.Lawful)
    (hnames : ∀ r ∈ table.rows, r.val.name ≠ "") (hapart : LettersApart T table)
    {q : FriendsQuery} (hq : q ∈ (prepareSections T vc (.ok table)).friendsList) :
    ∃ letter, q = .beginsWith letter ∧
      ∀ r ∈ q.results T table, letterOf T r.val = some letter := by
  obtain ⟨r₀, hr₀, c₀, hc₀, rfl⟩ := exists_row_of_mem_friendsList hq
  exact ⟨_, rfl, fun r => letterOf_of_mem_results hT hnames hapart hr₀ hc₀⟩

theorem existsUnique_of_lettersApart (hT : T.Lawful)
    (hnames : ∀ r ∈ table.rows, r.val.name ≠ "") (hapart : LettersApart T table)
    {r : Row FriendsVK} (hr : r ∈ table.rows) :
    ∃! i : ℕ, ∃ q,
      (prepareSections T vc (.ok table)).friendsList[i]? = some q ∧ r ∈ q.results T table := by
  rw [existsUnique_getElem?_iff nodup_friendsList]
  obtain ⟨c, hc⟩ := hT.exists_first _ (hnames r hr)
  have hown : r ∈ (FriendsQuery.beginsWith (T.lowercased c)).results T table :=
    mem_results.mpr ⟨hr, hT.beginsWithCD_first _ c hc⟩
  refine ⟨.beginsWith (T.lowercased c), ⟨mem_friendsList_of_row hr hc, hown⟩,
    fun q ⟨hq, hresult⟩ => ?_⟩
  obtain ⟨letter, rfl, hsame⟩ := exists_letter_of_mem_friendsList hT hnames hapart hq
  have hletter := hsame r hresult
  rw [letterOf, hc, Option.map_some, Option.some.injEq] at hletter
  rw [hletter]

theorem sectionsPartition_of_lettersApart (hT : T.Lawful)
    (hnames : ∀ r ∈ table.rows, r.val.name ≠ "") (hapart : LettersApart T table) :
    SectionsPartition T table (prepareSections T vc (.ok table)) where
  existsUnique_section r hr := existsUnique_of_lettersApart hT hnames hapart hr
  letters_increase := ⟨_, rfl, pairwise_friendsLetters hT⟩
  same_letter q hq r hr r' hr' := by
    obtain ⟨letter, -, hsame⟩ := exists_letter_of_mem_friendsList hT hnames hapart hq
    rw [hsame r hr, hsame r' hr']
  header_fits q hq r hr := by
    obtain ⟨letter, -, hsame⟩ := exists_letter_of_mem_friendsList hT hnames hapart hq
    cases hrows : q.results T table with
    | nil => simp [hrows] at hr
    | cons first rest =>
        have hfirst := hsame first (by simp [hrows])
        rw [hsame r hr, ← hfirst, headerCharacter, hrows]
        rfl

theorem lettersApart_of_existsUnique (hT : T.Lawful)
    (h : ∀ r ∈ table.rows, ∃! i : ℕ, ∃ q,
      (prepareSections T vc (.ok table)).friendsList[i]? = some q ∧ r ∈ q.results T table) :
    LettersApart T table := by
  intro r hr r' hr' c hc c' hc' hbegins
  have hunique := h r hr
  rw [existsUnique_getElem?_iff nodup_friendsList] at hunique
  -- the row is in the section of its own letter and in that of the other one
  have hown : r ∈ (FriendsQuery.beginsWith (T.lowercased c)).results T table :=
    mem_results.mpr ⟨hr, hT.beginsWithCD_first _ c hc⟩
  have hother : r ∈ (FriendsQuery.beginsWith (T.lowercased c')).results T table :=
    mem_results.mpr ⟨hr, hbegins⟩
  exact FriendsQuery.beginsWith.inj (hunique.unique
    ⟨mem_friendsList_of_row hr hc, hown⟩ ⟨mem_friendsList_of_row hr' hc', hother⟩)

/-- **Sections.** Where no name is empty, which no parsed name is
(`SwiftyJSONParserFriends.name_ne_empty`), the sections are a partition of
the friends exactly if every name that begins, up to case and diacritics, with
the lowercased first character of another has that lowercased first
character itself. -/
theorem sectionsPartition_iff (hT : T.Lawful) (hnames : ∀ r ∈ table.rows, r.val.name ≠ "")
    (vc : FriendsTableViewController) :
    SectionsPartition T table (prepareSections T vc (.ok table)) ↔ LettersApart T table :=
  ⟨fun h => lettersApart_of_existsUnique hT h.existsUnique_section,
    sectionsPartition_of_lettersApart hT hnames⟩

end FriendsTableViewController

/-! ## A letter with a diacritic -/

/-- The letters of `TextOps.ascii` and one more, "É", which folds to "e". -/
def TextOps.latin : TextOps where
  first := TextOps.ascii.first
  lowercased s := String.ofList (s.toList.map lower)
  le := TextOps.ascii.le
  beginsWithCD s t := (t.toList.map fold).isPrefixOf (s.toList.map fold)
  containsC s t := t.toList.map lower <:+: s.toList.map lower
where
  lower (c : Char) : Char := if c = 'É' then 'é' else c.toLower
  fold (c : Char) : Char := if c = 'É' ∨ c = 'é' then 'e' else c.toLower

theorem TextOps.latin.fold_lower (c : Char) : fold (lower c) = fold c := by
  by_cases hc : c = 'É'
  · subst hc
    decide
  · rw [lower, if_neg hc]
    rcases toLower_cases c with h | ⟨-, hle, hnat⟩
    · rw [h]
    · have hlower : ¬(c.toLower = 'É' ∨ c.toLower = 'é') := by
        rintro (h | h) <;> rw [h] at hnat
        · exact absurd hnat (by show ¬201 = c.toNat + 32; omega)
        · exact absurd hnat (by show ¬233 = c.toNat + 32; omega)
      have hupper : ¬(c = 'É' ∨ c = 'é') := by
        rintro (h | h) <;> rw [h] at hle
        · exact absurd hle (by decide)
        · exact absurd hle (by decide)
      rw [fold, if_neg hlower, toLower_toLower, fold, if_neg hupper]

theorem TextOps.lawful_latin : TextOps.latin.Lawful where
  exists_first s hs := by
    obtain ⟨c, cs, hcs⟩ := List.exists_cons_of_ne_nil (mt String.toList_eq_nil_iff.mp hs)
    exact ⟨String.singleton c, by simp [latin, ascii, hcs]⟩
  le_total s t := by simpa [latin, ascii] using le_total s t
  le_trans s t u := by simpa [latin, ascii] using le_trans
  le_antisymm s t := by simpa [latin, ascii] using le_antisymm
  beginsWithCD_first s c h := by
    obtain ⟨x, hx, rfl⟩ := Option.map_eq_some_iff.mp h
    obtain ⟨xs, hxs⟩ := List.head?_eq_some_iff.mp hx
    simp [latin, hxs, latin.fold_lower]

namespace FriendsTableViewController

theorem sectionsPartition_twoFriends :
    SectionsPartition .latin FriendsScreen.twoFriends
      (prepareSections .latin {} (.ok FriendsScreen.twoFriends)) := by
  have hnames : ∀ r ∈ FriendsScreen.twoFriends.rows, r.val.name ≠ "" := by decide
  exact (sectionsPartition_iff TextOps.lawful_latin hnames {}).mpr (by decide)

def emileAndEmma : Table FriendsVK :=
  Table.empty.replaceAll [{ id := 1, name := "Émile Zola" }, { id := 2, name := "Emma Stone" }]

/-- Both friends are in both sections, and the header "É" is above Emma. -/
theorem sectionsPartition_emileAndEmma :
    TextOps.latin.Lawful ∧ (∀ r ∈ emileAndEmma.rows, r.val.name ≠ "") ∧
      (prepareSections .latin {} (.ok emileAndEmma)).friendsList =
        [.beginsWith "e", .beginsWith "é"] ∧
      (FriendsQuery.beginsWith "e").results .latin emileAndEmma = emileAndEmma.rows ∧
      (FriendsQuery.beginsWith "é").results .latin emileAndEmma = emileAndEmma.rows ∧
      ¬SectionsPartition .latin emileAndEmma (prepareSections .latin {} (.ok emileAndEmma)) := by
  have hlist : (prepareSections .latin {} (.ok emileAndEmma)).friendsList =
      [.beginsWith "e", .beginsWith "é"] := by decide
  refine ⟨TextOps.lawful_latin, by decide, hlist, by decide, by decide, fun h => ?_⟩
  have := h.same_letter (.beginsWith "e") (by simp [hlist])
    ⟨0, { id := 1, name := "Émile Zola" }⟩ (by decide)
    ⟨1, { id := 2, name := "Emma Stone" }⟩ (by decide)
  exact absurd this (by decide)

end FriendsTableViewController

end VkClient
