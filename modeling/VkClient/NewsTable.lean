import VkClient.Services

/-!
# The news table

`newsMassiveCell` is live: it follows every commit of the background save,
and `cellForRowAt` reads it anew for every row. The table view remembers how
many rows it was told of when it was last reloaded.

A cell is filled with the texts of the post, the name and the avatar of the
group it is from, and its picture. The pictures come out of the photo cache,
which starts a download for each that it does not have.
-/

namespace VkClient

/-- The labels and image views of the cell; a reused cell keeps what is not
set again. The defaults are those of the storyboard, but for the placeholder
of the text view, which is set in every cell before it is shown. -/
structure NewsCell where
  textView : Option String := none
  likes : Option String := some "0"
  comments : Option String := some "0"
  reposts : Option String := some "0"
  views : Option String := some "0"
  postImage : Option UIImage := none
  groupImage : Option UIImage := none
  nameGroup : Option String := some "NameGroup"
deriving DecidableEq, Repr

def NewsCell.setTexts (cell : NewsCell) (element : NewsVK) : NewsCell :=
  { cell with
    textView := some element.text
    likes := some element.likes
    comments := some element.comments
    reposts := some element.repost
    views := some element.views }

structure PhotoCache where
  images : String → Option UIImage

/-- `image(indexPath:at:)`: the cached image, and the download it starts. -/
def PhotoCache.image (cache : PhotoCache) (url : String) : Option UIImage × List String :=
  match cache.images url with
  | some cached => (some cached, [])
  | none => (none, [url])

/-- Negation of a 64-bit `Int`, which traps on the least one. -/
def negate (n : Int) : Option Int := if n = -0x8000000000000000 then none else some (-n)

/-- `rowCount` is what the table view remembers of its data source. -/
structure NewsViewController where
  newsList : Option Results := none
  groupsList : Option Results := none
  rowCount : Nat := 0
deriving DecidableEq, Repr

namespace NewsViewController

variable (realm : Realm) (vc : NewsViewController)

def newsMassiveCell : List Nat := arrayOf (realm .news) vc.newsList

def groupsMassive : List Nat := arrayOf (realm .groups) vc.groupsList

def numberOfRowsInSection : Nat := (vc.newsMassiveCell realm).length

def reloadData : NewsViewController := { vc with rowCount := vc.numberOfRowsInSection realm }

def loadData (opened : Except String Unit) : NewsViewController :=
  match opened with
  | .error _ => vc
  | .ok () =>
      ({ vc with newsList := some .objects, groupsList := some .objects }).reloadData realm

/-- The closure of `groupsMassive.forEach`: the group the post is from gives
the cell its name and its avatar. -/
def fillGroup (cache : PhotoCache) (element : NewsVK) (filled : NewsCell × List String)
    (group : Nat) : Option (NewsCell × List String) := do
  let i ← (realm .groups).read group
  let source ← negate i.id
  if element.id = source then
    let (image, loads) := cache.image i.photo
    return ({ filled.1 with nameGroup := some i.name, groupImage := image }, filled.2 ++ loads)
  else return filled

/-- `tableView(_:cellForRowAt:)`: the dequeued cell filled in, and the
downloads it starts; `none` is a trap. -/
def cellForRowAt (cache : PhotoCache) (cell : NewsCell) (row : Nat) :
    Option (NewsCell × List String) := do
  let news ← (vc.newsMassiveCell realm)[row]?
  let element ← (realm .news).read news
  let cell := { cell with
    textView := some element.text
    likes := some element.likes
    comments := some element.comments
    reposts := some element.repost
    views := some element.views }
  let (cell, loads) ←
    (vc.groupsMassive realm).foldlM (fillGroup realm cache element) (cell, [])
  let (image, load) := cache.image element.newsPhoto
  return ({ cell with postImage := image }, loads ++ load)

variable {realm vc}

/-- The texts, then the groups, then the picture. -/
theorem cellForRowAt_of_read {row news : Nat} {element : NewsVK}
    (hnews : (vc.newsMassiveCell realm)[row]? = some news)
    (hread : (realm .news).read news = some element) (cache : PhotoCache) (cell : NewsCell) :
    vc.cellForRowAt realm cache cell row =
      ((vc.groupsMassive realm).foldlM (fillGroup realm cache element)
        (cell.setTexts element, [])).map fun filled =>
          ({ filled.1 with postImage := (cache.image element.newsPhoto).1 },
            filled.2 ++ (cache.image element.newsPhoto).2) := by
  rw [Option.map_eq_bind, cellForRowAt, hnews, Option.bind_eq_bind, Option.bind_some, hread]
  rfl

theorem numberOfRowsInSection_eq :
    vc.numberOfRowsInSection realm =
      if vc.newsList = some .objects then (realm .news).rows.length else 0 := by
  rw [numberOfRowsInSection, newsMassiveCell]
  rcases vc.newsList with - | results
  · rfl
  · cases results
    simp [arrayOf]

end NewsViewController

end VkClient
