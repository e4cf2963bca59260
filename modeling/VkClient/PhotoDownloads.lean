import Mathlib.Data.Finset.Card
import Mathlib.Data.Prod.Lex
import VkClient.NewsTable
import VkClient.Runs
import VkClient.TableView

/-!
# Downloads of the photo cache

`PhotoCache.image` answers from `images` or starts a download, and a
download that arrives stores its image and queues, on the main queue, a
reload of the row that asked. A download in flight is not remembered: a row
that is asked for again before its pictures have come starts the same
downloads once more.

The table behind the rows enters as a `RowSource`, which says what URLs
`cellForRowAt` asks for at an index path and how the table changes. Two
results are about any such table. The reloads hit the rows that asked for
them exactly as long as no change of the table moves a pending one off its
row (`safe_throughout_iff`), and while the table stands still the cascade of
downloads and reloads comes to an end (`no_infinite_cascade`).
-/

namespace VkClient

def PhotoCache.store (cache : PhotoCache) (url : String) (image : UIImage) : PhotoCache where
  images := Function.update cache.images url (some image)

@[simp] theorem PhotoCache.images_store_self (cache : PhotoCache) (url : String)
    (image : UIImage) : (cache.store url image).images url = some image :=
  Function.update_self ..

theorem PhotoCache.images_store_of_ne {u url : String} (h : u ≠ url) (cache : PhotoCache)
    (image : UIImage) : (cache.store url image).images u = cache.images u :=
  Function.update_of_ne h ..

/-- The downloads started by asking for each of the URLs. -/
def PhotoCache.loads (cache : PhotoCache) (urls : List String) : List String :=
  urls.flatMap fun url => (cache.image url).2

theorem PhotoCache.mem_loads {cache : PhotoCache} {urls : List String} {url : String} :
    url ∈ cache.loads urls ↔ url ∈ urls ∧ cache.images url = none := by
  rw [loads, List.mem_flatMap]
  constructor
  · rintro ⟨asked, hasked, hurl⟩
    cases himage : cache.images asked with
    | none =>
        obtain rfl : url = asked := by simpa [image, himage] using hurl
        exact ⟨hasked, himage⟩
    | some image => simp [PhotoCache.image, himage] at hurl
  · rintro ⟨hurl, hnone⟩
    exact ⟨url, hurl, by simp [image, hnone]⟩

/-- The URLs `cellForRowAt` asks the cache for at an index path, in order;
`none` where it has no row to read. -/
structure RowSource (σ κ : Type) where
  urlsAt : σ → IndexPath → Option (List String)
  change : σ → κ → Option σ

/-- A call of `loadImage`. -/
structure Download where
  indexPath : IndexPath
  url : String
deriving DecidableEq, Repr

/-- Some row stands at the download's index path, and it shows an element
with the download's URL. -/
def RowSource.Displays {σ κ : Type} (source : RowSource σ κ) (owner : σ) (d : Download) : Prop :=
  ∃ urls, source.urlsAt owner d.indexPath = some urls ∧ d.url ∈ urls

/-- `reloads` is what the completions have put on the main queue. -/
structure PhotoLoader (σ : Type) where
  owner : σ
  cache : PhotoCache
  inFlight : List Download := []
  reloads : List Download := []

/-- A download fails if no data arrives or no image can be made of it. -/
inductive LoaderEvent (κ : Type) where
  | change (c : κ)
  | cell (indexPath : IndexPath)
  | failed (d : Download)
  | loaded (d : Download) (image : UIImage)
  | reloadRow (d : Download)

/-- What happens while the table stands still. -/
def LoaderEvent.Quiet {κ : Type} : LoaderEvent κ → Prop
  | .change _ => False
  | _ => True

/-- What happens without the user. -/
def LoaderEvent.Cascade {κ : Type} : LoaderEvent κ → Prop
  | .change _ => False
  | .cell _ => False
  | .failed _ => True
  | .loaded _ _ => True
  | .reloadRow _ => True

namespace PhotoLoader

variable {σ κ : Type} (source : RowSource σ κ) (w : PhotoLoader σ)

/-- `cellForRowAt` asks for each URL of the row. -/
def cellForRowAt (indexPath : IndexPath) : Option (PhotoLoader σ) := do
  let urls ← source.urlsAt w.owner indexPath
  return { w with
    inFlight := w.inFlight ++ (w.cache.loads urls).map fun url => ⟨indexPath, url⟩ }

/-- `reloadRow` raises where the table has no such row. -/
def step : LoaderEvent κ → Option (PhotoLoader σ)
  | .change c => do
      let owner ← source.change w.owner c
      return { w with owner := owner }
  | .cell indexPath => w.cellForRowAt source indexPath
  | .failed d =>
      if d ∈ w.inFlight then some { w with inFlight := w.inFlight.erase d } else none
  | .loaded d image =>
      if d ∈ w.inFlight then
        some { w with
          cache := w.cache.store d.url image
          inFlight := w.inFlight.erase d
          reloads := w.reloads ++ [d] }
      else none
  | .reloadRow d =>
      if d ∈ w.reloads then
        ({ w with reloads := w.reloads.erase d }).cellForRowAt source d.indexPath
      else none

def Pending (d : Download) : Prop := d ∈ w.inFlight ∨ d ∈ w.reloads

variable {source w}

theorem cellForRowAt_eq_some {indexPath : IndexPath} {w' : PhotoLoader σ} :
    w.cellForRowAt source indexPath = some w' ↔
      ∃ urls, source.urlsAt w.owner indexPath = some urls ∧
        w' = { w with
          inFlight := w.inFlight ++ (w.cache.loads urls).map fun url => ⟨indexPath, url⟩ } := by
  unfold cellForRowAt
  rw [Option.bind_eq_bind, Option.bind_eq_some_iff]
  refine exists_congr fun urls => and_congr_right fun _ => ?_
  rw [Option.pure_def, Option.some.injEq]
  exact eq_comm

theorem failed_eq_some {d : Download} {w' : PhotoLoader σ} :
    w.step source (.failed d) = some w' ↔
      d ∈ w.inFlight ∧ w' = { w with inFlight := w.inFlight.erase d } := by
  simp only [step, Option.ite_none_right_eq_some, Option.some.injEq]
  exact and_congr_right fun _ => eq_comm

theorem loaded_eq_some {d : Download} {image : UIImage} {w' : PhotoLoader σ} :
    w.step source (.loaded d image) = some w' ↔
      d ∈ w.inFlight ∧
        w' = { w with
          cache := w.cache.store d.url image
          inFlight := w.inFlight.erase d
          reloads := w.reloads ++ [d] } := by
  simp only [step, Option.ite_none_right_eq_some, Option.some.injEq]
  exact and_congr_right fun _ => eq_comm

theorem reloadRow_eq_some {d : Download} {w' : PhotoLoader σ} :
    w.step source (.reloadRow d) = some w' ↔
      d ∈ w.reloads ∧ ∃ urls, source.urlsAt w.owner d.indexPath = some urls ∧
        w' = { w with
          inFlight := w.inFlight ++ (w.cache.loads urls).map fun url => ⟨d.indexPath, url⟩
          reloads := w.reloads.erase d } := by
  simp only [step, Option.ite_none_right_eq_some, cellForRowAt_eq_some]

/-! ## Reloads of the right row -/

variable (source w)

def RightRow : LoaderEvent κ → Prop
  | .reloadRow d => d ∈ w.reloads → source.Displays w.owner d
  | _ => True

/-- Whatever the downloads pending here do next, and whatever rows are asked
for, the reloads this leads to are right as long as the table stands still. -/
def Safe : Prop :=
  ∀ es : List (LoaderEvent κ), (∀ e ∈ es, e.Quiet) →
    Runs.Always (step source) (RightRow source) w es

/-- After a change of the table, the row of every pending download still
shows an element with its URL. -/
def KeepsTargets : LoaderEvent κ → Prop
  | .change c => ∀ owner, source.change w.owner c = some owner →
      ∀ d, w.Pending d → source.Displays owner d
  | _ => True

def Targeted : Prop := ∀ d, w.Pending d → source.Displays w.owner d

variable {source w}

theorem displays_of_loads {indexPath : IndexPath} {urls : List String} {d : Download}
    (hurls : source.urlsAt w.owner indexPath = some urls)
    (hd : d ∈ (w.cache.loads urls).map fun url => (⟨indexPath, url⟩ : Download)) :
    source.Displays w.owner d := by
  obtain ⟨url, hurl, rfl⟩ := List.mem_map.mp hd
  exact ⟨urls, hurls, (PhotoCache.mem_loads.mp hurl).1⟩

theorem owner_of_quiet {e : LoaderEvent κ} {w' : PhotoLoader σ} (he : e.Quiet)
    (h : w.step source e = some w') : w'.owner = w.owner := by
  cases e with
  | change c => exact he.elim
  | cell indexPath =>
      obtain ⟨_, -, rfl⟩ := cellForRowAt_eq_some.mp h
      rfl
  | failed d =>
      obtain ⟨-, rfl⟩ := failed_eq_some.mp h
      rfl
  | loaded d image =>
      obtain ⟨-, rfl⟩ := loaded_eq_some.mp h
      rfl
  | reloadRow d =>
      obtain ⟨-, _, -, rfl⟩ := reloadRow_eq_some.mp h
      rfl

/-- What is pending after a quiet event was pending before, or has been
started by a row that shows it. -/
theorem pending_of_quiet {e : LoaderEvent κ} {w' : PhotoLoader σ} {d : Download} (he : e.Quiet)
    (h : w.step source e = some w') (hd : w'.Pending d) :
    w.Pending d ∨ source.Displays w.owner d := by
  cases e with
  | change c => exact he.elim
  | cell indexPath =>
      obtain ⟨urls, hurls, rfl⟩ := cellForRowAt_eq_some.mp h
      rcases hd with hd | hd
      · rcases List.mem_append.mp hd with hd | hd
        · exact .inl (.inl hd)
        · exact .inr (displays_of_loads hurls hd)
      · exact .inl (.inr hd)
  | failed d' =>
      obtain ⟨-, rfl⟩ := failed_eq_some.mp h
      exact .inl (hd.imp_left List.mem_of_mem_erase)
  | loaded d' image =>
      obtain ⟨hd', rfl⟩ := loaded_eq_some.mp h
      rcases hd with hd | hd
      · exact .inl (.inl (List.mem_of_mem_erase hd))
      · rcases List.mem_append.mp hd with hd | hd
        · exact .inl (.inr hd)
        · obtain rfl := List.mem_singleton.mp hd
          exact .inl (.inl hd')
  | reloadRow d' =>
      obtain ⟨-, urls, hurls, rfl⟩ := reloadRow_eq_some.mp h
      rcases hd with hd | hd
      · rcases List.mem_append.mp hd with hd | hd
        · exact .inl (.inl hd)
        · exact .inr (displays_of_loads hurls hd)
      · exact .inl (.inr (List.mem_of_mem_erase hd))

theorem targeted_of_quiet {e : LoaderEvent κ} {w' : PhotoLoader σ} (he : e.Quiet)
    (hw : w.Targeted source) (h : w.step source e = some w') : w'.Targeted source := by
  intro d hd
  rw [owner_of_quiet he h]
  exact (pending_of_quiet he h hd).elim (hw d) id

theorem rightRow_of_targeted (hw : w.Targeted source) (e : LoaderEvent κ) :
    w.RightRow source e := by
  cases e with
  | change c => trivial
  | cell indexPath => trivial
  | failed d => trivial
  | loaded d image => trivial
  | reloadRow d => exact fun hd => hw d (.inr hd)

/-- A pending download can arrive next, and its reload be the next to run. -/
theorem safe_iff_targeted : w.Safe source ↔ w.Targeted source := by
  constructor
  · rintro hsafe d (hd | hd)
    · have hrun := hsafe [.loaded d [], .reloadRow d] (by simp [LoaderEvent.Quiet])
      have hloaded := (Runs.always_cons.mp hrun).2 _ (loaded_eq_some.mpr ⟨hd, rfl⟩)
      exact (Runs.always_cons.mp hloaded).1 (by simp)
    · have hrun := hsafe [.reloadRow d] (by simp [LoaderEvent.Quiet])
      exact (Runs.always_cons.mp hrun).1 hd
  · intro hw es hquiet
    induction es generalizing w with
    | nil => exact Runs.always_nil w
    | cons e es ih =>
        refine Runs.always_cons.mpr ⟨rightRow_of_targeted hw e, fun w' hw' => ?_⟩
        have hkept := targeted_of_quiet (hquiet e List.mem_cons_self) hw hw'
        exact ih hkept fun e' he' => hquiet e' (List.mem_cons_of_mem _ he')

/-- One step of `safe_throughout_iff`: only a change of the table can lead to
a state that is not safe, and it does if it moves a target. -/
theorem targeted_step_iff {e : LoaderEvent κ} (hw : w.Targeted source) :
    (∀ w', w.step source e = some w' → w'.Targeted source) ↔ w.KeepsTargets source e := by
  cases e with
  | change c =>
      constructor
      · intro h owner howner
        exact h { w with owner := owner } (by simp [step, howner])
      · intro h w' hw'
        obtain ⟨owner, howner, hw'⟩ := Option.bind_eq_some_iff.mp hw'
        obtain rfl := Option.some.inj hw'
        exact h owner howner
  | cell indexPath => exact iff_of_true (fun _ => targeted_of_quiet trivial hw) trivial
  | failed d => exact iff_of_true (fun _ => targeted_of_quiet trivial hw) trivial
  | loaded d image => exact iff_of_true (fun _ => targeted_of_quiet trivial hw) trivial
  | reloadRow d => exact iff_of_true (fun _ => targeted_of_quiet trivial hw) trivial

/-- Over a whole run, no reload goes to a wrong row, now or once the pending
downloads complete, exactly if every change keeps the pending targets. -/
theorem safe_throughout_iff {es : List (LoaderEvent κ)} (hw : w.Targeted source) :
    Runs.Throughout (step source) (Safe source) w es ↔
      Runs.Always (step source) (KeepsTargets source) w es := by
  rw [Runs.throughout_iff_always, and_iff_right (safe_iff_targeted.mpr hw)]
  simp only [safe_iff_targeted]
  exact Runs.always_iff_of_inv (I := Targeted source) (fun w e hw => targeted_step_iff hw)
    (fun w e w' hw hkeeps hw' => (targeted_step_iff hw).mpr hkeeps w' hw') hw

theorem rightRow_of_safe {es : List (LoaderEvent κ)}
    (h : Runs.Throughout (step source) (Safe source) w es) :
    Runs.Always (step source) (RightRow source) w es := by
  intro pre e t hpre ht
  have hsafe : t.Safe source := h pre t ((List.prefix_append pre [e]).trans hpre) ht
  exact rightRow_of_targeted (safe_iff_targeted.mp hsafe) e

/-! ## The cascade stops -/

/-- Every URL the table shows, and every URL in flight, is in `U`. -/
def Within (source : RowSource σ κ) (U : Finset String) (w : PhotoLoader σ) : Prop :=
  (∀ indexPath urls, source.urlsAt w.owner indexPath = some urls → ∀ url ∈ urls, url ∈ U) ∧
  ∀ d ∈ w.inFlight, d.url ∈ U

def uncached (U : Finset String) (cache : PhotoCache) : Finset String :=
  U.filter fun url => cache.images url = none

def cachedInFlight (w : PhotoLoader σ) : Nat :=
  w.inFlight.countP fun d => (w.cache.images d.url).isSome

/-- URLs still to come; then what the downloads of cached URLs and the
queued reloads can still do, a download being good for one reload; then the
downloads themselves. -/
def weight (U : Finset String) (w : PhotoLoader σ) : ℕ ×ₗ ℕ ×ₗ ℕ :=
  toLex ((uncached U w.cache).card,
    toLex (2 * w.cachedInFlight + w.reloads.length, w.inFlight.length))

theorem mem_uncached {U : Finset String} {cache : PhotoCache} {url : String} :
    url ∈ uncached U cache ↔ url ∈ U ∧ cache.images url = none :=
  Finset.mem_filter

theorem uncached_store_lt {U : Finset String} {cache : PhotoCache} {url : String}
    {image : UIImage} (hU : url ∈ U) (hnone : cache.images url = none) :
    (uncached U (cache.store url image)).card < (uncached U cache).card := by
  refine Finset.card_lt_card (Finset.ssubset_iff_of_subset ?_ |>.mpr ⟨url, ?_, ?_⟩)
  · intro u hu
    obtain ⟨hu, himage⟩ := mem_uncached.mp hu
    have hne : u ≠ url := by
      rintro rfl
      simp at himage
    rw [PhotoCache.images_store_of_ne hne] at himage
    exact mem_uncached.mpr ⟨hu, himage⟩
  · exact mem_uncached.mpr ⟨hU, hnone⟩
  · simp [mem_uncached]

/-- Storing an image once more leaves the same URLs cached. -/
theorem isSome_store {cache : PhotoCache} {url : String} (image : UIImage)
    (hsome : (cache.images url).isSome) (u : String) :
    ((cache.store url image).images u).isSome = (cache.images u).isSome := by
  by_cases hurl : u = url
  · subst hurl
    rw [PhotoCache.images_store_self, hsome]
    rfl
  · rw [PhotoCache.images_store_of_ne hurl]

theorem uncached_store_of_isSome {U : Finset String} {cache : PhotoCache} {url : String}
    {image : UIImage} (hsome : (cache.images url).isSome) :
    uncached U (cache.store url image) = uncached U cache := by
  ext u
  have hu := isSome_store image hsome u
  rw [mem_uncached, mem_uncached, ← Option.not_isSome_iff_eq_none, hu,
    Option.not_isSome_iff_eq_none]

/-- The downloads a row starts are of URLs that are not cached. -/
theorem cachedInFlight_loads {urls : List String} {indexPath : IndexPath} :
    (((w.cache.loads urls).map fun url => (⟨indexPath, url⟩ : Download)).countP
      fun d => (w.cache.images d.url).isSome) = 0 := by
  rw [List.countP_eq_zero]
  intro d hd
  obtain ⟨url, hurl, rfl⟩ := List.mem_map.mp hd
  simp [(PhotoCache.mem_loads.mp hurl).2]

theorem within_of_cascade {U : Finset String} {e : LoaderEvent κ} {w' : PhotoLoader σ}
    (hw : w.Within source U) (he : e.Cascade) (h : w.step source e = some w') :
    w'.Within source U := by
  have hquiet : e.Quiet := by
    cases e with
    | change c => exact he.elim
    | cell indexPath => trivial
    | failed d => trivial
    | loaded d image => trivial
    | reloadRow d => trivial
  refine ⟨by rw [owner_of_quiet hquiet h]; exact hw.1, ?_⟩
  cases e with
  | change c => exact he.elim
  | cell indexPath => exact he.elim
  | failed d =>
      obtain ⟨-, rfl⟩ := failed_eq_some.mp h
      exact fun d' hd' => hw.2 d' (List.mem_of_mem_erase hd')
  | loaded d image =>
      obtain ⟨-, rfl⟩ := loaded_eq_some.mp h
      exact fun d' hd' => hw.2 d' (List.mem_of_mem_erase hd')
  | reloadRow d =>
      obtain ⟨-, urls, hurls, rfl⟩ := reloadRow_eq_some.mp h
      intro d' hd'
      rcases List.mem_append.mp hd' with hd' | hd'
      · exact hw.2 d' hd'
      · obtain ⟨url, hurl, rfl⟩ := List.mem_map.mp hd'
        exact hw.1 _ urls hurls url (PhotoCache.mem_loads.mp hurl).1

theorem weight_lt_of_failed {U : Finset String} {d : Download} {w' : PhotoLoader σ}
    (h : w.step source (.failed d) = some w') : w'.weight U < w.weight U := by
  obtain ⟨hd, rfl⟩ := failed_eq_some.mp h
  have hlen := List.length_erase_of_mem hd
  have hpos := List.length_pos_of_mem hd
  have hcount : (w.inFlight.erase d).countP (fun d => (w.cache.images d.url).isSome) ≤
      w.inFlight.countP fun d => (w.cache.images d.url).isSome :=
    List.erase_sublist.countP_le
  simp only [weight, cachedInFlight, Prod.Lex.toLex_lt_toLex, lt_self_iff_false, false_or,
    true_and]
  omega

theorem weight_lt_of_reloadRow {U : Finset String} {d : Download} {w' : PhotoLoader σ}
    (h : w.step source (.reloadRow d) = some w') : w'.weight U < w.weight U := by
  obtain ⟨hd, urls, -, rfl⟩ := reloadRow_eq_some.mp h
  have hlen := List.length_erase_of_mem hd
  have hpos := List.length_pos_of_mem hd
  simp only [weight, cachedInFlight, Prod.Lex.toLex_lt_toLex, lt_self_iff_false, false_or,
    true_and, List.countP_append, cachedInFlight_loads]
  omega

theorem weight_lt_of_loaded {U : Finset String} {d : Download} {image : UIImage}
    {w' : PhotoLoader σ} (hw : w.Within source U)
    (h : w.step source (.loaded d image) = some w') : w'.weight U < w.weight U := by
  obtain ⟨hd, rfl⟩ := loaded_eq_some.mp h
  cases himage : w.cache.images d.url with
  | none => exact Prod.Lex.toLex_lt_toLex.mpr (.inl (uncached_store_lt (hw.2 d hd) himage))
  | some cached =>
      -- the URL was cached already: one cached download less, one reload more
      have hsome : (w.cache.images d.url).isSome := by simp [himage]
      have hcount := List.countP_erase (fun d => (w.cache.images d.url).isSome) w.inFlight d
      have hpos : 0 < w.inFlight.countP fun d => (w.cache.images d.url).isSome :=
        List.countP_pos_iff.mpr ⟨d, hd, hsome⟩
      rw [if_pos ⟨hd, hsome⟩] at hcount
      simp only [weight, cachedInFlight, Prod.Lex.toLex_lt_toLex,
        uncached_store_of_isSome hsome, isSome_store _ hsome, lt_self_iff_false, false_or,
        true_and, List.length_append, List.length_singleton]
      omega

/-- While the table stands still, every sequence of failing downloads,
arriving downloads and row reloads comes to an end. -/
theorem no_infinite_cascade {U : Finset String} {w : ℕ → PhotoLoader σ}
    {e : ℕ → LoaderEvent κ} (hw : (w 0).Within source U) (he : ∀ i, (e i).Cascade) :
    ¬∀ i, (w i).step source (e i) = some (w (i + 1)) := by
  refine Runs.no_infinite_run (I := Within source U) (weight U) ?_ hw he
  intro w e w' hw he h
  refine ⟨within_of_cascade hw he h, ?_⟩
  cases e with
  | change c => exact he.elim
  | cell indexPath => exact he.elim
  | failed d => exact weight_lt_of_failed h
  | loaded d image => exact weight_lt_of_loaded hw h
  | reloadRow d => exact weight_lt_of_reloadRow h

end PhotoLoader

/-- A table of picture URLs: for each section, for each row, those the row
asks for. -/
abbrev PictureTable := List (List (List String))

/-- A table of picture URLs that nothing changes. -/
def PictureTable.source : RowSource PictureTable Empty where
  urlsAt table indexPath := do
    let rows ← table[indexPath.sect]?
    rows[indexPath.row]?
  change _ c := c.elim

theorem PictureTable.mem_flatten_of_urlsAt {table : PictureTable} {indexPath : IndexPath}
    {urls : List String} (h : source.urlsAt table indexPath = some urls) :
    ∀ url ∈ urls, url ∈ table.flatten.flatten := by
  obtain ⟨rows, hrows, hurls⟩ := Option.bind_eq_some_iff.mp h
  intro url hurl
  refine List.mem_flatten.mpr ⟨urls, List.mem_flatten.mpr ⟨rows, ?_, ?_⟩, hurl⟩
  · exact List.mem_of_getElem? hrows
  · exact List.mem_of_getElem? hurls

/-- **The cascade stops.** From any cache, any downloads in flight and any
reloads pending, no sequence of failures, arrivals and row reloads goes on
for ever. -/
theorem cascade_stops (w₀ : PhotoLoader PictureTable) :
    ¬∃ (w : ℕ → PhotoLoader PictureTable) (e : ℕ → LoaderEvent Empty),
      w 0 = w₀ ∧ (∀ i, (e i).Cascade) ∧
        ∀ i, (w i).step PictureTable.source (e i) = some (w (i + 1)) := by
  rintro ⟨w, e, rfl, he, hrun⟩
  let U := (w 0).owner.flatten.flatten.toFinset ∪ ((w 0).inFlight.map Download.url).toFinset
  have hw : (w 0).Within PictureTable.source U := by
    constructor
    · intro indexPath urls hurls url hurl
      exact Finset.mem_union_left _
        (List.mem_toFinset.mpr (PictureTable.mem_flatten_of_urlsAt hurls url hurl))
    · intro d hd
      exact Finset.mem_union_right _ (List.mem_toFinset.mpr (List.mem_map_of_mem hd))
  exact PhotoLoader.no_infinite_cascade hw he hrun

end VkClient
