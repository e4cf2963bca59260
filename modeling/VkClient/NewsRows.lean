import VkClient.RowReloads

/-!
# The rows of the news table

`newsMassiveCell` is live: it follows every commit of the background save.
The table view hears of the news only where `reloadData` is called, in
`viewDidLoad` and in `updateNews`, and `updateNews` calls it when the
request goes out and not when its response has been saved. From the save to
the next refresh the table view asks for the rows of a list that is gone.

Fewer news than rows are never safe: some row is asked for that is not
there. More news are harmless to the rows themselves, but not to a reload,
and a reload runs wherever a row that has been asked for has a picture to
download. `rows_in_range_iff` says which refreshes and saves are safe under
every order of the cell requests, downloads and reloads between them.
-/

namespace VkClient

/-- What moves the two counts: a pull to refresh, and a background save. -/
inductive NewsUpdate where
  | updateNews
  | save (news : List NewsVK)
deriving DecidableEq, Repr

/-- The news screen without its photo cache. -/
structure NewsOwner where
  realm : Realm
  vc : NewsViewController

namespace NewsOwner

/-- `updateNews` issues a request, which the later saves stand for, and
reloads the table view. -/
def update (owner : NewsOwner) : NewsUpdate → NewsOwner
  | .updateNews => { owner with vc := owner.vc.reloadData owner.realm }
  | .save news => { owner with realm := owner.realm.save .news .committed news }

def urlsAt (owner : NewsOwner) (indexPath : IndexPath) : Option (List String) :=
  if indexPath.sect = 0 then owner.vc.urlsAt owner.realm indexPath.row else none

/-- What the table view remembers, and what is there. -/
def rowCount (owner : NewsOwner) : Nat := owner.vc.rowCount

def newsCount (owner : NewsOwner) : Nat := owner.vc.numberOfRowsInSection owner.realm

def source : RowSource NewsOwner NewsUpdate where
  urlsAt owner indexPath := owner.urlsAt indexPath
  change owner u := some (owner.update u)

end NewsOwner

/-- The table view's cell requests, the downloads they start and the reloads
these queue are those of the photo loader. -/
abbrev NewsScreen := PhotoLoader NewsOwner

abbrev NewsEvent := LoaderEvent NewsUpdate

namespace NewsEvent

def update? : NewsEvent → Option NewsUpdate
  | .change u => some u
  | _ => none

theorem eq_change_of_update? {e : NewsEvent} {u : NewsUpdate} (h : update? e = some u) :
    e = .change u := by
  cases e with
  | change u' =>
      obtain rfl := Option.some.inj h
      rfl
  | cell indexPath => cases h
  | failed d => cases h
  | loaded d image => cases h
  | reloadRow d => cases h

theorem filterMap_change (us : List NewsUpdate) :
    (us.map LoaderEvent.change : List NewsEvent).filterMap update? = us := by
  rw [List.filterMap_map]
  exact List.filterMap_some

end NewsEvent

namespace NewsScreen

open NewsEvent

def viewDidLoad (opened : Except String Unit) (cache : PhotoCache) (realm : Realm) :
    NewsScreen where
  owner := { realm := realm, vc := NewsViewController.loadData realm {} opened }
  cache := cache

-- which URLs a download can bring an image from is the network's matter
variable (loadable : String → Bool) (w : NewsScreen)

/-- The table view asks for rows it remembers, a download brings an image
only from a URL that has one, and a row reload raises where it finds another
number of rows, or no such row. -/
def Allowed : NewsEvent → Prop
  | .change _ => True
  | .cell indexPath => indexPath.sect = 0 ∧ indexPath.row < w.owner.rowCount
  | .failed _ => True
  | .loaded d _ => loadable d.url = true
  | .reloadRow d => w.owner.rowCount = w.owner.newsCount ∧ d.indexPath.row < w.owner.rowCount

instance (e : NewsEvent) : Decidable (w.Allowed loadable e) := by
  cases e <;> unfold Allowed <;> infer_instance

def step (e : NewsEvent) : Option NewsScreen :=
  if w.Allowed loadable e then PhotoLoader.step NewsOwner.source w e else none

/-- A requested row is in range, and a row reload finds the counts equal. -/
def InRange : NewsEvent → Prop
  | .cell indexPath => indexPath.row < w.owner.rowCount → indexPath.row < w.owner.newsCount
  | .reloadRow d => d ∈ w.reloads → w.owner.rowCount = w.owner.newsCount
  | _ => True

end NewsScreen

/-! ## The updates -/

/-- A row that the table view can ask for has a picture to download. -/
def NewsOwner.offers (loadable : String → Bool) (cache : PhotoCache) (owner : NewsOwner) : Bool :=
  (List.range owner.rowCount).any fun row =>
    ((owner.urlsAt ⟨row, 0⟩).getD []).any fun url => (cache.images url).isNone && loadable url

/-- The screen under its updates alone, and whether it has offered a picture
to download so far. -/
structure NewsHistory where
  owner : NewsOwner
  offered : Bool

namespace NewsHistory

variable (loadable : String → Bool) (cache : PhotoCache)

def start (owner : NewsOwner) : NewsHistory where
  owner := owner
  offered := owner.offers loadable cache

def next (h : NewsHistory) (u : NewsUpdate) : NewsHistory where
  owner := h.owner.update u
  offered := h.offered || (h.owner.update u).offers loadable cache

def step (h : NewsHistory) (u : NewsUpdate) : Option NewsHistory := some (h.next loadable cache u)

/-- A save that the screen follows brings as many news as the table view
remembers rows, or more of them while no picture has been on offer. -/
def KeepsCount (h : NewsHistory) : NewsUpdate → Prop
  | .updateNews => True
  | .save news => h.owner.vc.newsList = some .objects →
      news.length = h.owner.rowCount ∨
        h.owner.rowCount < news.length ∧ (h.next loadable cache (.save news)).offered = false

/-- The invariant of the safe histories. -/
def Steady (h : NewsHistory) : Prop :=
  h.owner.rowCount = h.owner.newsCount ∨
    h.owner.rowCount < h.owner.newsCount ∧ h.offered = false

end NewsHistory

namespace NewsOwner

variable {loadable : String → Bool} {cache : PhotoCache} {owner : NewsOwner}

theorem offers_iff :
    owner.offers loadable cache = true ↔
      ∃ row < owner.rowCount, ∃ urls, owner.urlsAt ⟨row, 0⟩ = some urls ∧
        ∃ url ∈ cache.loads urls, loadable url = true := by
  simp only [offers, List.any_eq_true, List.mem_range, Bool.and_eq_true, Option.isNone_iff_eq_none,
    PhotoCache.mem_loads]
  refine exists_congr fun row => and_congr_right fun _ => ?_
  cases owner.urlsAt ⟨row, 0⟩ with
  | none => simp
  | some urls => simp [and_assoc]

theorem row_lt_of_urlsAt {indexPath : IndexPath} {urls : List String}
    (h : owner.urlsAt indexPath = some urls) :
    indexPath.sect = 0 ∧ indexPath.row < owner.newsCount := by
  obtain ⟨hsect, h⟩ := Option.ite_none_right_eq_some.mp h
  obtain ⟨news, hnews, -⟩ := Option.bind_eq_some_iff.mp h
  exact ⟨hsect, (List.getElem?_eq_some_iff.mp hnews).1⟩

/-- A save leaves what is remembered, and is what is there. -/
theorem update_save (news : List NewsVK) :
    (owner.update (.save news)).rowCount = owner.rowCount ∧
      (owner.update (.save news)).newsCount =
        if owner.vc.newsList = some .objects then news.length else 0 := by
  refine ⟨rfl, ?_⟩
  rw [newsCount, NewsViewController.numberOfRowsInSection_eq]
  simp only [update, Realm.save_committed, Table.rows_replaceAll, length_freshRows]

theorem newsCount_of_not_following (h : owner.vc.newsList ≠ some .objects) :
    owner.newsCount = 0 := by
  rw [newsCount, NewsViewController.numberOfRowsInSection_eq, if_neg h]

end NewsOwner

namespace NewsHistory

variable {loadable : String → Bool} {cache : PhotoCache} {h : NewsHistory}

/-- What is on offer has been on offer. -/
def Recorded (loadable : String → Bool) (cache : PhotoCache) (h : NewsHistory) : Prop :=
  h.owner.offers loadable cache = true → h.offered = true

theorem recorded_start (owner : NewsOwner) : (start loadable cache owner).Recorded loadable cache :=
  id

theorem recorded_next (h : NewsHistory) (u : NewsUpdate) :
    (h.next loadable cache u).Recorded loadable cache := by
  intro hoffers
  exact Bool.or_eq_true_iff.mpr (.inr hoffers)

end NewsHistory

namespace NewsScreen

open NewsEvent NewsHistory

variable {loadable : String → Bool} {cache : PhotoCache} {h : NewsHistory} {w w' : NewsScreen}
  {e : NewsEvent}

/-! ## Safe histories -/

/-- The invariant of a run: what is pending and can arrive was on offer, and
what is remembered is there, or less of it while nothing was. -/
structure Follows (loadable : String → Bool) (cache : PhotoCache) (h : NewsHistory)
    (w : NewsScreen) : Prop where
  owner : w.owner = h.owner
  uncached : ∀ url, w.cache.images url = none → cache.images url = none
  inFlight : ∀ d ∈ w.inFlight, loadable d.url = true → h.offered = true
  reloads : w.reloads ≠ [] → h.offered = true

theorem Follows.viewDidLoad (opened : Except String Unit) (cache : PhotoCache) (realm : Realm) :
    Follows loadable cache (.start loadable cache (viewDidLoad opened cache realm).owner)
      (viewDidLoad opened cache realm) where
  owner := rfl
  uncached _ hurl := hurl
  inFlight _ hd := absurd hd List.not_mem_nil
  reloads hne := absurd rfl hne

theorem Follows.change (hw : Follows loadable cache h w) (u : NewsUpdate) :
    Follows loadable cache (h.next loadable cache u) { w with owner := w.owner.update u } where
  owner := congrArg (NewsOwner.update · u) hw.owner
  uncached := hw.uncached
  inFlight d hd hload := by rw [NewsHistory.next, hw.inFlight d hd hload, Bool.true_or]
  reloads hne := by rw [NewsHistory.next, hw.reloads hne, Bool.true_or]

/-- What a row starts that the table view can ask for was on offer. -/
theorem Follows.offered_of_loads (hw : Follows loadable cache h w)
    (hrecorded : h.Recorded loadable cache) {indexPath : IndexPath} {urls : List String}
    (hrow : indexPath.row < w.owner.rowCount) (hurls : w.owner.urlsAt indexPath = some urls)
    {d : Download} (hd : d ∈ (w.cache.loads urls).map fun url => (⟨indexPath, url⟩ : Download))
    (hload : loadable d.url = true) : h.offered = true := by
  obtain ⟨url, hurl, rfl⟩ := List.mem_map.mp hd
  obtain ⟨hmem, hnone⟩ := PhotoCache.mem_loads.mp hurl
  obtain ⟨row, sect⟩ := indexPath
  obtain rfl : sect = 0 := (NewsOwner.row_lt_of_urlsAt hurls).1
  have hurl' : url ∈ cache.loads urls := PhotoCache.mem_loads.mpr ⟨hmem, hw.uncached url hnone⟩
  rw [hw.owner] at hrow hurls
  exact hrecorded (NewsOwner.offers_iff.mpr ⟨row, hrow, urls, hurls, url, hurl', hload⟩)

theorem Follows.step (hw : Follows loadable cache h w) (hrecorded : h.Recorded loadable cache)
    (he : update? e = none) (hstep : w.step loadable e = some w') :
    Follows loadable cache h w' := by
  obtain ⟨hallowed, hstep⟩ := Option.ite_none_right_eq_some.mp hstep
  cases e with
  | change u => cases he
  | cell indexPath =>
      obtain ⟨urls, hurls, rfl⟩ := PhotoLoader.cellForRowAt_eq_some.mp hstep
      refine ⟨hw.owner, hw.uncached, fun d hd hload => ?_, hw.reloads⟩
      rcases List.mem_append.mp hd with hd | hd
      · exact hw.inFlight d hd hload
      · exact hw.offered_of_loads hrecorded hallowed.2 hurls hd hload
  | failed d =>
      obtain ⟨-, rfl⟩ := PhotoLoader.failed_eq_some.mp hstep
      exact ⟨hw.owner, hw.uncached, fun d' hd' => hw.inFlight d' (List.mem_of_mem_erase hd'),
        hw.reloads⟩
  | loaded d image =>
      obtain ⟨hd, rfl⟩ := PhotoLoader.loaded_eq_some.mp hstep
      refine ⟨hw.owner, fun url hurl => hw.uncached url ?_,
        fun d' hd' => hw.inFlight d' (List.mem_of_mem_erase hd'),
        fun _ => hw.inFlight d hd hallowed⟩
      by_cases heq : url = d.url
      · rw [heq, PhotoCache.images_store_self] at hurl
        cases hurl
      · rwa [PhotoCache.images_store_of_ne heq] at hurl
  | reloadRow d =>
      obtain ⟨hd, urls, hurls, rfl⟩ := PhotoLoader.reloadRow_eq_some.mp hstep
      refine ⟨hw.owner, hw.uncached, fun d' hd' hload => ?_,
        fun _ => hw.reloads (List.ne_nil_of_mem hd)⟩
      rcases List.mem_append.mp hd' with hd' | hd'
      · exact hw.inFlight d' hd' hload
      · exact hw.offered_of_loads hrecorded hallowed.2 hurls hd' hload

theorem Follows.inRange (hw : Follows loadable cache h w) (hsteady : h.Steady) (e : NewsEvent) :
    w.InRange e := by
  cases e with
  | change u => trivial
  | cell indexPath =>
      intro hrow
      rw [hw.owner] at hrow ⊢
      rcases hsteady with hsame | ⟨hless, -⟩ <;> omega
  | failed d => trivial
  | loaded d image => trivial
  | reloadRow d =>
      intro hd
      rw [hw.owner]
      rcases hsteady with hsame | ⟨-, hnone⟩
      · exact hsame
      · rw [hw.reloads (List.ne_nil_of_mem hd)] at hnone
        cases hnone

/-- An update leaves the screen steady exactly under its condition. -/
theorem steady_next_iff (hsteady : h.Steady) (u : NewsUpdate) :
    (h.next loadable cache u).Steady ↔ h.KeepsCount loadable cache u := by
  cases u with
  | updateNews => exact iff_of_true (.inl rfl) trivial
  | save news =>
      obtain ⟨hremembered, hthere⟩ := h.owner.update_save news
      show ((h.owner.update (.save news)).rowCount = (h.owner.update (.save news)).newsCount ∨
        (h.owner.update (.save news)).rowCount < (h.owner.update (.save news)).newsCount ∧ _) ↔ _
      rw [hremembered, hthere]
      by_cases hlist : h.owner.vc.newsList = some .objects
      · rw [if_pos hlist, KeepsCount, imp_iff_right hlist, eq_comm]
      · have hnone := NewsOwner.newsCount_of_not_following hlist
        rw [if_neg hlist]
        refine iff_of_true (.inl ?_) fun hfollows => absurd hfollows hlist
        rcases hsteady with hsame | ⟨hless, -⟩ <;> omega

theorem inRange_of_keepsCount {es : List NewsEvent} (hw : Follows loadable cache h w)
    (hsteady : h.Steady) (hrecorded : h.Recorded loadable cache)
    (hkeeps : Runs.Always (NewsHistory.step loadable cache) (KeepsCount loadable cache) h
      (es.filterMap update?)) :
    Runs.Always (step loadable) InRange w es := by
  induction es generalizing w h with
  | nil => exact Runs.always_nil w
  | cons e es ih =>
      refine Runs.always_cons.mpr ⟨hw.inRange hsteady e, fun w' hw' => ?_⟩
      cases he : update? e with
      | none =>
          rw [List.filterMap_cons_none he] at hkeeps
          exact ih (hw.step hrecorded he hw') hsteady hrecorded hkeeps
      | some u =>
          rw [List.filterMap_cons_some he] at hkeeps
          obtain ⟨hu, hrest⟩ := Runs.always_cons.mp hkeeps
          obtain rfl := eq_change_of_update? he
          obtain ⟨-, hw'⟩ := Option.ite_none_right_eq_some.mp hw'
          obtain rfl := Option.some.inj hw'
          exact ih (hw.change u) ((steady_next_iff hsteady u).mpr hu) (recorded_next h u)
            (hrest _ rfl)

/-! ## Unsafe histories -/

/-- Every order of the other events among these updates is safe. -/
def Safe (loadable : String → Bool) (w : NewsScreen) (us : List NewsUpdate) : Prop :=
  ∀ es : List NewsEvent, es.filterMap update? = us → Runs.Always (step loadable) InRange w es

theorem Safe.change {u : NewsUpdate} {us : List NewsUpdate} (h : Safe loadable w (u :: us)) :
    Safe loadable { w with owner := w.owner.update u } us := by
  intro es hes
  have hrun := h (.change u :: es) (by rw [← hes]; rfl)
  exact (Runs.always_cons.mp hrun).2 _ rfl

theorem Safe.step {us : List NewsUpdate} (h : Safe loadable w us) (he : update? e = none)
    (hstep : w.step loadable e = some w') : Safe loadable w' us := by
  intro es hes
  have hrun := h (e :: es) (by rw [List.filterMap_cons_none he, hes])
  exact (Runs.always_cons.mp hrun).2 w' hstep

theorem Safe.inRange {us : List NewsUpdate} (h : Safe loadable w us) (he : update? e = none) :
    w.InRange e := by
  have hrun := h (e :: us.map .change) (by rw [List.filterMap_cons_none he, filterMap_change])
  exact (Runs.always_cons.mp hrun).1

/-- Where a picture is on offer, some order of events has its reload queued. -/
theorem Safe.exists_reload {us : List NewsUpdate} (hsafe : Safe loadable w us)
    (hoffers : w.owner.offers loadable w.cache = true) :
    ∃ w' : NewsScreen, w'.owner = w.owner ∧ w'.reloads ≠ [] ∧ Safe loadable w' us := by
  obtain ⟨row, hrow, urls, hurls, url, hurl, hload⟩ := NewsOwner.offers_iff.mp hoffers
  have hcell : w.step loadable (.cell ⟨row, 0⟩) = some _ :=
    (if_pos ⟨rfl, hrow⟩).trans (PhotoLoader.cellForRowAt_eq_some.mpr ⟨urls, hurls, rfl⟩)
  have hasked := hsafe.step rfl hcell
  have hmem : (⟨⟨row, 0⟩, url⟩ : Download) ∈
      w.inFlight ++ (w.cache.loads urls).map fun url => ⟨⟨row, 0⟩, url⟩ :=
    List.mem_append_right _ (List.mem_map.mpr ⟨url, hurl, rfl⟩)
  have hloaded := hasked.step (e := .loaded ⟨⟨row, 0⟩, url⟩ []) rfl
    ((if_pos hload).trans (PhotoLoader.loaded_eq_some.mpr ⟨hmem, rfl⟩))
  refine ⟨_, ?_, ?_, hloaded⟩
  · rfl
  · simp

/-- With a reload queued, the counts stay equal. -/
theorem Safe.counts_eq {us : List NewsUpdate} (hsafe : Safe loadable w us)
    (hreloads : w.reloads ≠ []) : w.owner.rowCount = w.owner.newsCount := by
  obtain ⟨d, hd⟩ := List.exists_mem_of_ne_nil _ hreloads
  exact hsafe.inRange (e := .reloadRow d) rfl hd

/-- Without one, no fewer news are there than are remembered. -/
theorem Safe.rowCount_le {us : List NewsUpdate} (hsafe : Safe loadable w us) :
    w.owner.rowCount ≤ w.owner.newsCount := by
  by_contra hless
  have hrow := hsafe.inRange (e := .cell ⟨w.owner.newsCount, 0⟩) rfl (by simpa using hless)
  exact Nat.lt_irrefl _ hrow

theorem keepsCount_of_safe {us : List NewsUpdate} (hsteady : h.Steady)
    (hsafe : Safe loadable { owner := h.owner, cache := cache } us)
    (hreload : h.offered = true →
      ∃ w : NewsScreen, w.owner = h.owner ∧ w.reloads ≠ [] ∧ Safe loadable w us) :
    Runs.Always (NewsHistory.step loadable cache) (KeepsCount loadable cache) h us := by
  induction us generalizing h with
  | nil => exact Runs.always_nil h
  | cons u us ih =>
      have hsafe' := hsafe.change
      have hreload' : (h.next loadable cache u).offered = true →
          ∃ w : NewsScreen, w.owner = h.owner.update u ∧ w.reloads ≠ [] ∧ Safe loadable w us := by
        intro hoffered
        rcases Bool.or_eq_true_iff.mp hoffered with hbefore | hnow
        · obtain ⟨w, howner, hne, hw⟩ := hreload hbefore
          refine ⟨_, ?_, ?_, hw.change⟩
          · exact congrArg (NewsOwner.update · u) howner
          · exact hne
        · exact hsafe'.exists_reload hnow
      have hsteady' : (h.next loadable cache u).Steady := by
        cases hoffered : (h.next loadable cache u).offered with
        | true =>
            obtain ⟨w, howner, hne, hw⟩ := hreload' hoffered
            have hcounts := hw.counts_eq hne
            rw [howner] at hcounts
            exact .inl hcounts
        | false =>
            rcases Nat.eq_or_lt_of_le hsafe'.rowCount_le with hsame | hless
            · exact .inl hsame
            · exact .inr ⟨hless, hoffered⟩
      refine Runs.always_cons.mpr ⟨(steady_next_iff hsteady u).mp hsteady', ?_⟩
      intro h' hh'
      obtain rfl := Option.some.inj hh'
      exact ih hsteady' hsafe' hreload'

/-- **News rows stay in range.** Given the refreshes and saves of a run,
every order of cell requests, downloads and row reloads among them is safe
exactly when every save that the screen follows brings as many news as the
table view remembers rows, or more while no row that could be asked for up to
and including then has a picture to download. -/
theorem rows_in_range_iff (loadable : String → Bool) (opened : Except String Unit)
    (cache : PhotoCache) (realm : Realm) (us : List NewsUpdate) :
    (∀ es : List NewsEvent, es.filterMap update? = us →
        Runs.Always (step loadable) InRange (viewDidLoad opened cache realm) es) ↔
      Runs.Always (NewsHistory.step loadable cache) (KeepsCount loadable cache)
        (.start loadable cache (viewDidLoad opened cache realm).owner) us := by
  have hsteady : (NewsHistory.start loadable cache
      (viewDidLoad opened cache realm).owner).Steady := by
    cases opened <;> exact .inl rfl
  constructor
  · intro hsafe
    exact keepsCount_of_safe hsteady hsafe fun hoffers => Safe.exists_reload hsafe hoffers
  · rintro hkeeps es rfl
    exact inRange_of_keepsCount (.viewDidLoad opened cache realm) hsteady (recorded_start _) hkeeps

def oneNews : Realm
  | .news => Table.empty.replaceAll [{ id := -1, text := "News" }]
  | _ => Table.empty

/-- An empty list is saved, and the table view asks for its first row. -/
theorem rows_out_of_range_after_empty_save :
    ¬Runs.Always (step fun _ => true) InRange (viewDidLoad (.ok ()) ⟨fun _ => none⟩ oneNews)
      [.change (.save []), .cell ⟨0, 0⟩] := by
  intro h
  have hrest := (Runs.always_cons.mp h).2 _ rfl
  have hrow := (Runs.always_cons.mp hrest).1 (by decide)
  exact absurd hrow (by decide)

end NewsScreen

end VkClient
