import Mathlib.Logic.Function.Basic
import VkClient.Json
import VkClient.ObjectTable

/-!
# The four services and their store

`FriendRequest`, `GroupsRequest`, `NewsRequest` and `PhotosRequest` each
download one method of the API, parse the body with their SwiftyJSON parser
and save the objects in place of everything their Realm table held. They
differ in the request they send, in the object their parser makes of one
item, and in the table they write.

The Realm file is one `Table` for each object type, addressed by `Entity`.
A save is a `do`/`catch` block around `try Realm()` and
`try realm.commitWrite()`; which of the two throws, if any, is the block's
`Outcome`, decided by the file system.
-/

namespace VkClient

/-! ## Objects and tables -/

structure FriendsVK where
  id : Int := 0
  name : String := ""
  photo : String := ""
  photoFull : String := ""
deriving DecidableEq, Repr

structure GroupsVK where
  id : Int := 0
  name : String := ""
  photo : String := ""
deriving DecidableEq, Repr

structure NewsVK where
  id : Int := 0
  text : String := ""
  newsPhoto : String := ""
  likes : String := ""
  comments : String := ""
  repost : String := ""
  views : String := ""
deriving DecidableEq, Repr

structure PhotosVK where
  photo : String := ""
deriving DecidableEq, Repr

inductive Entity where
  | friends
  | groups
  | news
  | photos
deriving DecidableEq, Repr

@[reducible] def Entity.Object : Entity → Type
  | .friends => FriendsVK
  | .groups => GroupsVK
  | .news => NewsVK
  | .photos => PhotosVK

abbrev Realm := (e : Entity) → Table e.Object

/-- How a `do { let realm = try Realm() … try realm.commitWrite() } catch`
block ends. -/
inductive Outcome where
  | notOpened
  | notCommitted
  | committed
deriving DecidableEq, Repr

/-- The body of the four `save` functions: delete the old objects, add the
new ones, commit. A thrown error is printed and leaves the file alone. -/
def Realm.save (e : Entity) (outcome : Outcome) (objects : List e.Object) (realm : Realm) : Realm :=
  match outcome with
  | .notOpened => realm
  | .notCommitted => realm
  | .committed => Function.update realm e ((realm e).replaceAll objects)

theorem Realm.save_committed (e : Entity) (objects : List e.Object) (realm : Realm) :
    realm.save e .committed objects e = (realm e).replaceAll objects :=
  Function.update_self ..

theorem Realm.save_of_ne {e e' : Entity} (h : e' ≠ e) (outcome : Outcome)
    (objects : List e.Object) (realm : Realm) : realm.save e outcome objects e' = realm e' := by
  cases outcome
  · rfl
  · rfl
  · exact Function.update_of_ne h ..

inductive EditingStyle where
  | none
  | delete
  | insert
deriving DecidableEq, Repr

/-- What the two `tableView(_:commit:forRowAt:)` do with the object they
find. -/
def commitEditing {α : Type} (editingStyle : EditingStyle) (outcome : Outcome) (table : Table α)
    (name : Nat) : Table α :=
  match editingStyle, outcome with
  | .delete, .committed => table.delete name
  | _, _ => table

/-! ## Live results -/

/-- `realm.objects(_:)`, the live results of all objects of a type. -/
inductive Results where
  | objects
deriving DecidableEq, Repr

/-- `guard let results = results else { return [] }; return Array(results)`:
the managed objects of the moment, by their handles. -/
def arrayOf {α : Type} (table : Table α) : Option Results → List Nat
  | none => []
  | some .objects => table.rows.map Row.key

theorem live_of_mem_arrayOf {α : Type} {table : Table α} {results : Option Results} {k : Nat}
    (hk : k ∈ arrayOf table results) : table.Live k := by
  cases results with
  | none => exact absurd hk List.not_mem_nil
  | some results =>
      cases results
      exact hk

/-! ## Session and requests -/

structure Session where
  token : String := ""
  userId : Int := 0
deriving DecidableEq, Repr

/-- An image, known by the bytes it was decoded from. -/
abbrev UIImage := Data

inductive HTTPMethod where
  | get
  | post
deriving DecidableEq, Repr

inductive ParameterValue where
  | string (s : String)
  | int (n : Int)
deriving DecidableEq, Repr

structure HTTPRequest where
  url : String
  method : HTTPMethod
  parameters : List (String × ParameterValue)
deriving DecidableEq, Repr

def baseURL : String := "https://api.vk.com/method"

def FriendRequest.request (session : Session) : HTTPRequest where
  url := baseURL ++ "/friends.get"
  method := .get
  parameters :=
    [("fields", .string "name, photo_50, photo_100"), ("v", .string "5.52"),
      ("access_token", .string session.token)]

def GroupsRequest.request (session : Session) : HTTPRequest where
  url := baseURL ++ "/groups.get"
  method := .get
  parameters :=
    [("v", .string "5.52"), ("access_token", .string session.token), ("extended", .int 1)]

def NewsRequest.request (session : Session) : HTTPRequest where
  url := baseURL ++ "/newsfeed.get"
  method := .post
  parameters :=
    [("filters", .string "post"), ("count", .string "15"), ("source_ids", .string "groups"),
      ("max_photos", .string "0"), ("v", .string "5.103"),
      ("access_token", .string session.token)]

structure PhotosRequest where
  userId : Int
  apiKey : String
deriving DecidableEq, Repr

/-- The stored-property initialisers of `PhotosRequest`. -/
def PhotosRequest.init (session : Session) : PhotosRequest where
  userId := session.userId
  apiKey := session.token

def PhotosRequest.request (service : PhotosRequest) : HTTPRequest where
  url := baseURL ++ "/photos.getAll"
  method := .get
  parameters :=
    [("owner_id", .int service.userId), ("v", .string "5.103"),
      ("access_token", .string service.apiKey)]

/-! ## Parsers -/

def items? (F : Foundation) (data : Data) : Option (List JSON) :=
  match F.jsonObject data with
  | .error _ => none
  | .ok json => ((json.key "response").key "items").array?

/-- The shape of the four `parse` functions around the object made of one
item. A deserialization error is printed and gives the empty list. -/
def parseItems {α : Type} (F : Foundation) (item : JSON → α) (data : Data) : List α :=
  match F.jsonObject data with
  | .error _ => []
  | .ok json => ((json.key "response").key "items").arrayValue.map item

theorem parseItems_eq {α : Type} (F : Foundation) (item : JSON → α) (data : Data) :
    parseItems F item data = ((items? F data).getD []).map item := by
  unfold parseItems items?
  cases F.jsonObject data <;> rfl

def SwiftyJSONParserFriends.friend (F : Foundation) (item : JSON) : FriendsVK where
  id := (item.key "id").intValue F
  name := (item.key "first_name").stringValue ++ " " ++ (item.key "last_name").stringValue
  photo := (item.key "photo_50").stringValue
  photoFull := (item.key "photo_100").stringValue

def SwiftyJSONParserGroups.group (F : Foundation) (item : JSON) : GroupsVK where
  id := (item.key "id").intValue F
  name := (item.key "name").stringValue
  photo := (item.key "photo_50").stringValue

def sizeURL (sizes : JSON) (t urlKey : String) : Option String :=
  (JSON.firstOfType sizes.arrayValue t).map fun size => (size.key urlKey).stringValue

def SwiftyJSONParserNews.news (F : Foundation) (item : JSON) : NewsVK :=
  let news : NewsVK :=
    { text := (item.key "text").stringValue
      id := (item.key "source_id").intValue F
      comments := ((item.key "comments").key "count").stringValue
      likes := ((item.key "likes").key "count").stringValue
      repost := ((item.key "reposts").key "count").stringValue
      views := ((item.key "views").key "count").stringValue }
  let attachments := (item.key "attachments").arrayValue
  -- the first attachment of a kind decides, photo before doc before link
  match JSON.firstOfType attachments "photo" with
  | some element =>
      let photo := element.key "photo"
      { news with newsPhoto := (sizeURL (photo.key "sizes") "q" "url").getD news.newsPhoto }
  | none =>
    match JSON.firstOfType attachments "doc" with
    | some element =>
        let photo := ((element.key "doc").key "preview").key "photo"
        { news with newsPhoto := (sizeURL (photo.key "sizes") "o" "src").getD news.newsPhoto }
    | none =>
      match JSON.firstOfType attachments "link" with
      | some element =>
          let link := element.key "link"
          { news with
            text := (link.key "title").stringValue
            newsPhoto := (sizeURL (link.key "sizes") "q" "url").getD news.newsPhoto }
      | none => news

def SwiftyJSONParserPhotos.photos (item : JSON) : PhotosVK where
  photo := (sizeURL (item.key "sizes") "q" "url").getD ""

def SwiftyJSONParserFriends.parse (F : Foundation) : Data → List FriendsVK :=
  parseItems F (SwiftyJSONParserFriends.friend F)

def SwiftyJSONParserGroups.parse (F : Foundation) : Data → List GroupsVK :=
  parseItems F (SwiftyJSONParserGroups.group F)

def SwiftyJSONParserNews.parse (F : Foundation) : Data → List NewsVK :=
  parseItems F (SwiftyJSONParserNews.news F)

def SwiftyJSONParserPhotos.parse (F : Foundation) : Data → List PhotosVK :=
  parseItems F SwiftyJSONParserPhotos.photos

theorem SwiftyJSONParserFriends.name_ne_empty (F : Foundation) (data : Data) :
    ∀ friend ∈ parse F data, friend.name ≠ "" := by
  intro friend hfriend hname
  rw [parse, parseItems_eq] at hfriend
  obtain ⟨item, -, rfl⟩ := List.mem_map.mp hfriend
  have hlen := congrArg String.length hname
  simp [SwiftyJSONParserFriends.friend] at hlen

/-! ## Responses and their completions -/

/-- Alamofire's delegate of a data task: what arrived so far, whether the
request hands its data to a `stream` closure, and the transport error. -/
structure DataTaskDelegate where
  mutableData : Data := []
  hasDataStream : Bool := false
  error : Option String := none
deriving DecidableEq, Repr

def DataTaskDelegate.data (delegate : DataTaskDelegate) : Option Data :=
  if delegate.hasDataStream then none else some delegate.mutableData

structure DataResponse where
  data : Option Data
  error : Option String
deriving DecidableEq, Repr

def DataTaskDelegate.response (delegate : DataTaskDelegate) : DataResponse where
  data := delegate.data
  error := delegate.error

/-- No request of the services streams, so its response has data, if only
the empty data of a request nothing was received for. -/
def received (data : Data) (error : Option String) : DataResponse :=
  { mutableData := data, error := error : DataTaskDelegate }.response

@[simp] theorem received_data (data : Data) (error : Option String) :
    (received data error).data = some data := rfl

/-- The completion closure of the four `loadData` functions: parse what
arrived, save what was parsed. -/
def completion (e : Entity) (parse : Data → List e.Object) (outcome : Outcome)
    (response : DataResponse) (realm : Realm) : Realm :=
  match response.data with
  | none => realm
  | some data => realm.save e outcome (parse data)

theorem completion_committed (e : Entity) (parse : Data → List e.Object) (data : Data)
    (error : Option String) (realm : Realm) :
    completion e parse .committed (received data error) realm e =
      (realm e).replaceAll (parse data) := by
  rw [completion, received_data]
  exact realm.save_committed e (parse data)

def FriendRequest.loadData (F : Foundation) : Outcome → DataResponse → Realm → Realm :=
  completion .friends (SwiftyJSONParserFriends.parse F)

def GroupsRequest.loadData (F : Foundation) : Outcome → DataResponse → Realm → Realm :=
  completion .groups (SwiftyJSONParserGroups.parse F)

def NewsRequest.loadData (F : Foundation) : Outcome → DataResponse → Realm → Realm :=
  completion .news (SwiftyJSONParserNews.parse F)

def PhotosRequest.loadData (F : Foundation) : Outcome → DataResponse → Realm → Realm :=
  completion .photos (SwiftyJSONParserPhotos.parse F)

theorem PhotosRequest.loadData_committed (F : Foundation) (data : Data) (error : Option String)
    (realm : Realm) :
    PhotosRequest.loadData F .committed (received data error) realm .photos =
      (realm .photos).replaceAll (SwiftyJSONParserPhotos.parse F data) :=
  completion_committed ..

end VkClient
