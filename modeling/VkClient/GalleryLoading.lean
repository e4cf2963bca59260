import VkClient.Gallery

/-!
# Opening the gallery

`viewDidLoad` takes the photos of the table as it finds them, asks
`getImage` for each and force-unwraps the answer, then subscripts the first
image. Nowhere is it stated what the table has to hold for that, and the
parser that fills it promises less: a photo without a size of type `q`
keeps the empty address it was made with, which is no URL, and the list may
be empty. `gallery_opens_iff` is the missing precondition, on the payload.
-/

namespace VkClient

/-! ## Images -/

/-- What the system contributes to an image: `URL(string:)`, which makes no
URL of the empty string, `Data(contentsOf:)` and `UIImage(data:)`. -/
structure ImageLoading where
  url : String → Option String
  contents : String → Except String Data
  image : Data → Option UIImage
  url_empty : url "" = none

def Session.getImage (system : ImageLoading) (url : Option String) : Option UIImage :=
  match url with
  | none => none
  | some image =>
    match system.url image with
    | none => none
    | some url =>
      match system.contents url with
      | .error _ => none
      | .ok data => system.image data

/-- `address` is a URL, and what it leads to is an image. -/
def ImageLoading.Yields (system : ImageLoading) (address : String) : Prop :=
  ∃ url data image, system.url address = some url ∧ system.contents url = .ok data ∧
    system.image data = some image

theorem Session.isSome_getImage_iff {system : ImageLoading} {address : String} :
    (getImage system (some address)).isSome ↔ system.Yields address := by
  constructor
  · intro h
    obtain ⟨image, himage⟩ := Option.isSome_iff_exists.mp h
    unfold getImage at himage
    cases hurl : system.url address with
    | none => simp [hurl] at himage
    | some url =>
        cases hcontents : system.contents url with
        | error message => simp [hurl, hcontents] at himage
        | ok data =>
            simp only [hurl, hcontents] at himage
            exact ⟨url, data, image, hurl, hcontents, himage⟩
  · rintro ⟨url, data, image, hurl, hcontents, himage⟩
    simp [getImage, hurl, hcontents, himage]

theorem ImageLoading.not_yields_empty (system : ImageLoading) : ¬system.Yields "" := by
  rintro ⟨url, data, image, hurl, -⟩
  rw [system.url_empty] at hurl
  cases hurl

/-! ## Loading -/

namespace PictureViewController

/-- `loadData`: the `photosList` of the new controller, empty where Realm
cannot be opened. -/
def loadData (opened : Except String Unit) (photos : Table PhotosVK) : List PhotosVK :=
  match opened with
  | .error _ => []
  | .ok () => photos.values

/-- `viewDidLoad` with the `loadData` and the `getImage` it calls. -/
def openGallery (system : ImageLoading) (opened : Except String Unit) (photos : Table PhotosVK) :
    Option PictureViewController :=
  viewDidLoad (fun url => Session.getImage system (some url)) (loadData opened photos)

theorem isSome_viewDidLoad_iff {getImage : String → Option UIImage}
    {photosList : List PhotosVK} :
    (viewDidLoad getImage photosList).isSome ↔
      photosList ≠ [] ∧ ∀ photo ∈ photosList, (getImage photo.photo).isSome := by
  rw [← isSome_mapM_iff, viewDidLoad]
  cases hcached : photosList.mapM fun i => getImage i.photo with
  | none => simp
  | some photosCached =>
      have hlength := length_of_mapM hcached
      cases photosCached with
      | nil =>
          obtain rfl := List.length_eq_zero_iff.mp hlength.symm
          simp [subscript]
      | cons images rest =>
          have hne : photosList ≠ [] := by
            rintro rfl
            simp at hlength
          simp [subscript, hne]

theorem length_viewDidLoad {getImage : String → Option UIImage} {photosList : List PhotosVK}
    {vc : PictureViewController} (h : viewDidLoad getImage photosList = some vc) :
    vc.photosCached.length = vc.photosList.length := by
  obtain ⟨side, hactive⟩ := shows_viewDidLoad h
  exact hactive.loaded.listed.symm

/-! ## The precondition -/

/-- The photo has a size of type `q`, the first of which has an address. -/
def HasPicture (item : JSON) : Prop :=
  ∃ size, JSON.firstOfType (item.key "sizes").arrayValue "q" = some size ∧
    (size.key "url").stringValue ≠ ""

theorem photo_ne_empty_iff {item : JSON} :
    (SwiftyJSONParserPhotos.photos item).photo ≠ "" ↔ HasPicture item := by
  rw [SwiftyJSONParserPhotos.photos, sizeURL, HasPicture]
  cases JSON.firstOfType (item.key "sizes").arrayValue "q" with
  | none => simp
  | some size => simp

theorem openGallery_iff {system : ImageLoading} {opened : Except String Unit}
    {photos : Table PhotosVK} :
    (∃ vc, openGallery system opened photos = some vc ∧
        vc.photosCached.length = vc.photosList.length) ↔
      opened = .ok () ∧ photos.values ≠ [] ∧
        ∀ photo ∈ photos.values, system.Yields photo.photo := by
  have hopens : (∃ vc, openGallery system opened photos = some vc ∧
      vc.photosCached.length = vc.photosList.length) ↔
        (openGallery system opened photos).isSome := by
    rw [Option.isSome_iff_exists]
    exact exists_congr fun vc => and_iff_left_of_imp length_viewDidLoad
  rw [hopens, openGallery, isSome_viewDidLoad_iff]
  simp only [Session.isSome_getImage_iff]
  cases opened with
  | error message => simp [loadData]
  | ok u => simp [loadData]

/-- Where the addresses work, a photo yields an image exactly if it has
one. -/
theorem yields_photos_iff {system : ImageLoading} {item : JSON}
    (hurl : (SwiftyJSONParserPhotos.photos item).photo ≠ "" →
      system.Yields (SwiftyJSONParserPhotos.photos item).photo) :
    system.Yields (SwiftyJSONParserPhotos.photos item).photo ↔ HasPicture item := by
  rw [← photo_ne_empty_iff]
  refine ⟨fun hyields hempty => ?_, hurl⟩
  rw [hempty] at hyields
  exact system.not_yields_empty hyields

theorem parse_yields_iff {system : ImageLoading} {F : Foundation} {data : Data}
    (hurls : ∀ photo ∈ SwiftyJSONParserPhotos.parse F data,
      photo.photo ≠ "" → system.Yields photo.photo) :
    (SwiftyJSONParserPhotos.parse F data ≠ [] ∧
        ∀ photo ∈ SwiftyJSONParserPhotos.parse F data, system.Yields photo.photo) ↔
      ∃ items, items? F data = some items ∧ items ≠ [] ∧ ∀ item ∈ items, HasPicture item := by
  rw [SwiftyJSONParserPhotos.parse, parseItems_eq] at hurls ⊢
  cases hitems : items? F data with
  | none => simp
  | some items =>
      rw [hitems, Option.getD_some, List.forall_mem_map] at hurls
      have hpictures : (∀ item ∈ items,
          system.Yields (SwiftyJSONParserPhotos.photos item).photo) ↔
            ∀ item ∈ items, HasPicture item :=
        forall₂_congr fun item hitem => yields_photos_iff (hurls item hitem)
      simp [hpictures]

/-- **The gallery opens.** Over a table that holds a parsed payload, with
working addresses, the gallery opens with an image for each photo exactly
when Realm opens and the payload lists photos, each of which has a size of
type `q`, the first of them with an address. -/
theorem gallery_opens_iff (system : ImageLoading) (F : Foundation) (data : Data)
    (opened : Except String Unit) (photos : Table PhotosVK)
    (htable : photos.values.Perm (SwiftyJSONParserPhotos.parse F data))
    (hurls : ∀ photo ∈ SwiftyJSONParserPhotos.parse F data,
      photo.photo ≠ "" → system.Yields photo.photo) :
    (∃ vc, openGallery system opened photos = some vc ∧
        vc.photosCached.length = vc.photosList.length) ↔
      opened = .ok () ∧ ∃ items, items? F data = some items ∧ items ≠ [] ∧
        ∀ item ∈ items, HasPicture item := by
  have hnil : photos.values ≠ [] ↔ SwiftyJSONParserPhotos.parse F data ≠ [] :=
    not_congr ⟨fun h => (h ▸ htable).nil_eq.symm, fun h => (h ▸ htable).eq_nil⟩
  have hall : (∀ photo ∈ photos.values, system.Yields photo.photo) ↔
      ∀ photo ∈ SwiftyJSONParserPhotos.parse F data, system.Yields photo.photo :=
    forall_congr' fun photo => imp_congr_left htable.mem_iff
  rw [openGallery_iff, hnil, hall, parse_yields_iff hurls]

/-- Bodies of one byte: a photo with a size of type `q`, one with a small
size only, and no photos. -/
def albums : Foundation where
  jsonObject data :=
    let photo (t url : String) : JSON :=
      .dictionary [("sizes", .array [.dictionary [("type", .string t), ("url", .string url)]])]
    let items :=
      if data = [1] then [photo "q" "large.jpg"]
      else if data = [2] then [photo "m" "small.jpg"]
      else []
    .ok (.dictionary [("response", .dictionary [("items", .array items)])])
  decimalIntValue _ := 0

def workingAddresses : ImageLoading where
  url address := if address = "" then none else some address
  contents _ := .ok [0xff]
  image := some
  url_empty := rfl

theorem yields_workingAddresses {address : String} (h : address ≠ "") :
    workingAddresses.Yields address :=
  ⟨address, [0xff], [0xff], if_neg h, rfl, rfl⟩

def stored (data : Data) : Table PhotosVK :=
  Table.empty.replaceAll (SwiftyJSONParserPhotos.parse albums data)

theorem gallery_opens_large :
    (∃ vc, openGallery workingAddresses (.ok ()) (stored [1]) = some vc ∧
        vc.photosCached.length = vc.photosList.length) ↔
      (Except.ok () : Except String Unit) = .ok () ∧
        ∃ items, items? albums [1] = some items ∧ items ≠ [] ∧
          ∀ item ∈ items, HasPicture item :=
  gallery_opens_iff workingAddresses albums [1] (.ok ()) (stored [1])
    (.of_eq (Table.values_replaceAll ..)) fun _ _ => yields_workingAddresses

/-- The small size gives a photo with an empty address, and the list may be
empty: both trap. -/
theorem gallery_traps :
    (stored [2]).values = SwiftyJSONParserPhotos.parse albums [2] ∧
      (stored [3]).values = SwiftyJSONParserPhotos.parse albums [3] ∧
      (∀ address, address ≠ "" → workingAddresses.Yields address) ∧
      openGallery workingAddresses (.ok ()) (stored [2]) = none ∧
      openGallery workingAddresses (.ok ()) (stored [3]) = none :=
  ⟨rfl, rfl, fun _ => yields_workingAddresses, by decide, by decide⟩

end PictureViewController

end VkClient
