import VkClient.Services

/-!
# The attachments of a news post

`SwiftyJSONParserNews.parse` looks for the picture of a post among its
attachments: the first photo if there is one, else the first document, else
the first link, which also gives the post its text. Three searches for the
first element of a type see the attachments only through their subsequences
by type, so neither the order across the kinds nor attachments of other
types matter (`parse_congr`).

The search commits to the first photo before it knows whether that photo
has a size of type `q`. A post whose first photo has none is left without a
picture, whatever its other photos have (`picture_kept_iff`).
-/

namespace VkClient

namespace SwiftyJSONParserNews

def attachments (item : JSON) : List JSON := (item.key "attachments").arrayValue

def photoSizes (element : JSON) : List JSON := ((element.key "photo").key "sizes").arrayValue

/-! ## What the selection depends on -/

def SameFields (item item' : JSON) : Prop :=
  ∀ k, k ≠ "attachments" → item.key k = item'.key k

/-- The attachments of each kind the parser knows are the same, in the same
order; how the kinds interleave, and what else there is, is left open. -/
structure SameByKind (item item' : JSON) : Prop where
  fields : SameFields item item'
  photos : JSON.ofType (attachments item) "photo" = JSON.ofType (attachments item') "photo"
  docs : JSON.ofType (attachments item) "doc" = JSON.ofType (attachments item') "doc"
  links : JSON.ofType (attachments item) "link" = JSON.ofType (attachments item') "link"

def knownKinds : List String := ["photo", "doc", "link"]

def known (elements : List JSON) : List JSON :=
  elements.filter fun json => decide ((json.key "type").stringValue ∈ knownKinds)

/-- The two differ by attachments of other types, inserted anywhere. -/
structure SameKnown (item item' : JSON) : Prop where
  fields : SameFields item item'
  attachments : known (attachments item) = known (attachments item')

/-- Documents count only where there is no photo, and links only where there
is no document either. -/
structure SameSelected (item item' : JSON) : Prop where
  fields : SameFields item item'
  photos : JSON.ofType (attachments item) "photo" = JSON.ofType (attachments item') "photo"
  docs : JSON.ofType (attachments item) "photo" = [] →
    JSON.ofType (attachments item) "doc" = JSON.ofType (attachments item') "doc"
  links : JSON.ofType (attachments item) "photo" = [] →
    JSON.ofType (attachments item) "doc" = [] →
      JSON.ofType (attachments item) "link" = JSON.ofType (attachments item') "link"

theorem SameByKind.selected {item item' : JSON} (h : SameByKind item item') :
    SameSelected item item' where
  fields := h.fields
  photos := h.photos
  docs := fun _ => h.docs
  links := fun _ _ => h.links

theorem ofType_known (elements : List JSON) {t : String} (ht : t ∈ knownKinds) :
    JSON.ofType (known elements) t = JSON.ofType elements t := by
  rw [JSON.ofType, known, List.filter_filter]
  refine List.filter_congr fun json _ => ?_
  by_cases htype : (json.key "type").stringValue = t
  · simp [htype, ht]
  · simp [htype]

theorem SameKnown.byKind {item item' : JSON} (h : SameKnown item item') :
    SameByKind item item' := by
  have hkind : ∀ t ∈ knownKinds,
      JSON.ofType (SwiftyJSONParserNews.attachments item) t =
        JSON.ofType (SwiftyJSONParserNews.attachments item') t := by
    intro t ht
    rw [← ofType_known _ ht, h.attachments, ofType_known _ ht]
  exact
    { fields := h.fields
      photos := hkind "photo" (by decide)
      docs := hkind "doc" (by decide)
      links := hkind "link" (by decide) }

theorem firstOfType_congr {elements elements' : List JSON} {t : String}
    (h : JSON.ofType elements t = JSON.ofType elements' t) :
    JSON.firstOfType elements t = JSON.firstOfType elements' t := by
  rw [← JSON.head?_ofType, h, JSON.head?_ofType]

theorem news_congr (F : Foundation) {item item' : JSON} (h : SameSelected item item') :
    news F item = news F item' := by
  have htext := h.fields "text" (by decide)
  have hid := h.fields "source_id" (by decide)
  have hcomments := h.fields "comments" (by decide)
  have hlikes := h.fields "likes" (by decide)
  have hrepost := h.fields "reposts" (by decide)
  have hviews := h.fields "views" (by decide)
  have hphoto : JSON.firstOfType (item.key "attachments").arrayValue "photo" =
      JSON.firstOfType (item'.key "attachments").arrayValue "photo" :=
    firstOfType_congr h.photos
  simp only [news, htext, hid, hcomments, hlikes, hrepost, hviews]
  rw [hphoto]
  cases hfirst : JSON.firstOfType (item'.key "attachments").arrayValue "photo" with
  | some element => rfl
  | none =>
      have hnoPhoto := JSON.firstOfType_eq_none_iff.mp (hphoto.trans hfirst)
      have hdoc : JSON.firstOfType (item.key "attachments").arrayValue "doc" =
          JSON.firstOfType (item'.key "attachments").arrayValue "doc" :=
        firstOfType_congr (h.docs hnoPhoto)
      rw [hdoc]
      cases hsecond : JSON.firstOfType (item'.key "attachments").arrayValue "doc" with
      | some element => rfl
      | none =>
          have hnoDoc := JSON.firstOfType_eq_none_iff.mp (hdoc.trans hsecond)
          have hlink : JSON.firstOfType (item.key "attachments").arrayValue "link" =
              JSON.firstOfType (item'.key "attachments").arrayValue "link" :=
            firstOfType_congr (h.links hnoPhoto hnoDoc)
          rw [hlink]

section Parse

variable {F : Foundation} {data data' : Data} {items items' : List JSON}

theorem map_news_congr (h : List.Forall₂ SameSelected items items') :
    items.map (news F) = items'.map (news F) := by
  induction h with
  | nil => rfl
  | cons hitem _ ih => rw [List.map_cons, List.map_cons, news_congr F hitem, ih]

theorem parse_eq (hitems : items? F data = some items) : parse F data = items.map (news F) := by
  rw [parse, parseItems_eq, hitems, Option.getD_some]

theorem parse_eq_of_selected (hitems : items? F data = some items)
    (hitems' : items? F data' = some items') (h : List.Forall₂ SameSelected items items') :
    parse F data = parse F data' := by
  rw [parse_eq hitems, parse_eq hitems', map_news_congr h]

/-- **Attachments count by kind.** Two payloads give the same news when
their items agree but for how the kinds of attachments interleave, when
they agree but for attachments of other types, and when they agree but for
documents beside a photo and links beside a photo or a document. -/
theorem parse_congr (hitems : items? F data = some items)
    (hitems' : items? F data' = some items') :
    (List.Forall₂ SameByKind items items' → parse F data = parse F data') ∧
      (List.Forall₂ SameKnown items items' → parse F data = parse F data') ∧
      (List.Forall₂ SameSelected items items' → parse F data = parse F data') := by
  refine ⟨fun h => ?_, fun h => ?_, parse_eq_of_selected hitems hitems'⟩
  · exact parse_eq_of_selected hitems hitems' (h.imp fun _ _ => SameByKind.selected)
  · exact parse_eq_of_selected hitems hitems' (h.imp fun _ _ hknown => hknown.byKind.selected)

end Parse

/-! ## Posts of a few attachments -/

def post (attachments : List JSON) : JSON :=
  .dictionary [("text", .string "Post"), ("attachments", .array attachments)]

def photoOf (sizes : List JSON) : JSON :=
  .dictionary [("type", .string "photo"), ("photo", .dictionary [("sizes", .array sizes)])]

def photoSize (t url : String) : JSON := .dictionary [("type", .string t), ("url", .string url)]

def attachmentOf (t : String) : JSON := .dictionary [("type", .string t)]

theorem sameFields_post (elements elements' : List JSON) :
    SameFields (post elements) (post elements') := by
  intro k hk
  simp only [post, JSON.key, List.lookup_cons, beq_false_of_ne hk, List.lookup_nil]

/-- A deserializer for two bodies of one byte, one post each. -/
def postsOf (first second : List JSON) : Foundation where
  jsonObject data :=
    let items := if data = [1] then [post first] else [post second]
    .ok (.dictionary [("response", .dictionary [("items", .array items)])])
  decimalIntValue _ := 0

def mixedOrder : Foundation :=
  let photo := photoOf [photoSize "q" "large.jpg"]
  postsOf [attachmentOf "video", attachmentOf "doc", photo, attachmentOf "link"]
    [attachmentOf "link", photo, attachmentOf "doc"]

theorem parse_congr_mixedOrder :
    parse mixedOrder [1] = parse mixedOrder [2] ∧
      (parse mixedOrder [2]).map NewsVK.newsPhoto = ["large.jpg"] := by
  have hfirst : items? mixedOrder [1] = some [_] := rfl
  have hsecond : items? mixedOrder [2] = some [_] := rfl
  refine ⟨(parse_congr hfirst hsecond).1 ?_, by decide⟩
  exact .cons ⟨sameFields_post _ _, rfl, rfl, rfl⟩ .nil

/-! ## The picture of a post -/

/-- `url` is the address of a size of type `q` of some photo of the post. -/
def PictureOf (item : JSON) (url : String) : Prop :=
  url ≠ "" ∧ ∃ element ∈ JSON.ofType (attachments item) "photo",
    ∃ size ∈ JSON.ofType (photoSizes element) "q", (size.key "url").stringValue = url

/-- The first photo has a size of type `q`, the first of which has an
address. -/
def FirstUsable (item : JSON) : Prop :=
  ∃ element, JSON.firstOfType (attachments item) "photo" = some element ∧
    ∃ size, JSON.firstOfType (photoSizes element) "q" = some size ∧
      (size.key "url").stringValue ≠ ""

theorem newsPhoto_of_first (F : Foundation) {item element : JSON}
    (h : JSON.firstOfType (attachments item) "photo" = some element) :
    (news F item).newsPhoto =
      ((JSON.firstOfType (photoSizes element) "q").map
        fun size => (size.key "url").stringValue).getD "" := by
  rw [attachments] at h
  simp only [news, h]
  rfl

theorem exists_first_of_picture {item : JSON} {url : String} (h : PictureOf item url) :
    ∃ element, JSON.firstOfType (attachments item) "photo" = some element := by
  obtain ⟨-, element, helement, -⟩ := h
  cases hfirst : JSON.firstOfType (attachments item) "photo" with
  | some first => exact ⟨first, rfl⟩
  | none =>
      rw [JSON.firstOfType_eq_none_iff.mp hfirst] at helement
      exact absurd helement List.not_mem_nil

theorem pictureOf_newsPhoto_iff (F : Foundation) {item element : JSON}
    (hfirst : JSON.firstOfType (attachments item) "photo" = some element) :
    PictureOf item (news F item).newsPhoto ↔ FirstUsable item := by
  rw [newsPhoto_of_first F hfirst]
  constructor
  · rintro ⟨hne, -⟩
    cases hsize : JSON.firstOfType (photoSizes element) "q" with
    | none =>
        rw [hsize] at hne
        exact absurd rfl hne
    | some size =>
        rw [hsize] at hne
        exact ⟨element, hfirst, size, hsize, hne⟩
  · rintro ⟨element', hfirst', size, hsize, hne⟩
    obtain rfl := Option.some.inj (hfirst.symm.trans hfirst')
    rw [hsize]
    exact ⟨hne, element, JSON.mem_ofType_of_firstOfType hfirst, size,
      JSON.mem_ofType_of_firstOfType hsize, rfl⟩

/-- **A picture of the post is kept.** Where a photo of the post has a size
of type `q` with an address, the news gets such an address exactly when the
first photo is one that has it, in its first such size. -/
theorem picture_kept_iff {F : Foundation} {data : Data} {items : List JSON}
    (hitems : items? F data = some items) {i : Nat} {item : JSON} (hitem : items[i]? = some item)
    (hpicture : ∃ url, PictureOf item url) :
    ∃ news, (parse F data)[i]? = some news ∧
      (PictureOf item news.newsPhoto ↔ FirstUsable item) := by
  obtain ⟨url, hurl⟩ := hpicture
  obtain ⟨element, hfirst⟩ := exists_first_of_picture hurl
  refine ⟨news F item, ?_, pictureOf_newsPhoto_iff F hfirst⟩
  rw [parse_eq hitems, List.getElem?_map, hitem, Option.map_some]

def smallPhoto : JSON := photoOf [photoSize "m" "small.jpg"]

def largePhoto : JSON := photoOf [photoSize "m" "medium.jpg", photoSize "q" "large.jpg"]

def twoPhotosPosts : Foundation := postsOf [smallPhoto, largePhoto] [largePhoto, smallPhoto]

theorem picture_kept_large_first :
    ∃ news, (parse twoPhotosPosts [2])[0]? = some news ∧
      (PictureOf (post [largePhoto, smallPhoto]) news.newsPhoto ↔
        FirstUsable (post [largePhoto, smallPhoto])) := by
  have hitems : items? twoPhotosPosts [2] = some [post [largePhoto, smallPhoto]] := rfl
  exact picture_kept_iff hitems rfl
    ⟨"large.jpg", by decide, largePhoto, .head _, photoSize "q" "large.jpg", .head _, rfl⟩

/-- The first photo of the post has no size of type `q`. -/
theorem picture_lost_small_first :
    items? twoPhotosPosts [1] = some [post [smallPhoto, largePhoto]] ∧
      PictureOf (post [smallPhoto, largePhoto]) "large.jpg" ∧
      (parse twoPhotosPosts [1]).map NewsVK.newsPhoto = [""] := by
  refine ⟨rfl, ⟨by decide, largePhoto, ?_, photoSize "q" "large.jpg", .head _, rfl⟩, by decide⟩
  exact .tail _ (.head _)

end SwiftyJSONParserNews

end VkClient
