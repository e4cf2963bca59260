import VkClient.Services

/-!
# The tables as an offline cache

The tables are what the screens show while nothing can be downloaded, so a
refresh that brings nothing should leave them alone (`refresh`). The
completions do not tell such a refresh from one that brings an empty list:
`parse` turns a transport error, bytes that are no JSON, an error object and
a payload without an item array into the empty list alike, and the guard on
`response.data` in front of it never fires, since the data of a failed
request is empty and not missing. A failed load therefore empties the table
it was meant to refresh, and spares it only where there is nothing to lose
or the save itself does not go through.
-/

namespace VkClient

/-- What a refresh makes of cached objects: `none` stands for a refresh that
failed. -/
def refresh {α : Type} (cached : List α) : Option (List α) → List α
  | none => cached
  | some fresh => fresh

def loadData (F : Foundation) : Entity → Outcome → DataResponse → Realm → Realm
  | .friends => FriendRequest.loadData F
  | .groups => GroupsRequest.loadData F
  | .news => NewsRequest.loadData F
  | .photos => PhotosRequest.loadData F

def parsedItem (F : Foundation) : (e : Entity) → JSON → e.Object
  | .friends => SwiftyJSONParserFriends.friend F
  | .groups => SwiftyJSONParserGroups.group F
  | .news => SwiftyJSONParserNews.news F
  | .photos => SwiftyJSONParserPhotos.photos

theorem loadData_eq (F : Foundation) (e : Entity) :
    loadData F e = completion e (parseItems F (parsedItem F e)) := by
  cases e <;> rfl

/-- A response that is no success payload: the transport failed, or what
arrived has no item array where a payload has one. -/
def Failed (F : Foundation) (data : Data) (error : Option String) : Prop :=
  error ≠ none ∨ items? F data = none

def fetched (F : Foundation) (e : Entity) (data : Data) (error : Option String) :
    Option (List e.Object) :=
  match error with
  | some _ => none
  | none => (items? F data).map (List.map (parsedItem F e))

section Completion

variable (F : Foundation) (e : Entity) (outcome : Outcome) (data : Data)
  (error : Option String) (realm : Realm)

theorem loadData_received :
    loadData F e outcome (received data error) realm =
      realm.save e outcome (parseItems F (parsedItem F e) data) := by
  rw [loadData_eq]
  rfl

theorem loadData_of_ne {e' : Entity} (h : e' ≠ e) (response : DataResponse) :
    loadData F e outcome response realm e' = realm e' := by
  rw [loadData_eq, completion]
  cases response.data with
  | none => rfl
  | some data => exact Realm.save_of_ne h ..

theorem save_eq_self_iff (objects : List e.Object) :
    realm.save e outcome objects e = realm e ↔
      outcome ≠ .committed ∨ ((realm e).rows = [] ∧ objects = []) := by
  cases outcome with
  | notOpened => simp [Realm.save]
  | notCommitted => simp [Realm.save]
  | committed => simp [Realm.save_committed, Table.replaceAll_eq_self_iff]

/-- A success payload whose save goes through refreshes the cache. -/
theorem loadData_refreshes (hok : ¬Failed F data error) :
    (loadData F e .committed (received data error) realm e).values =
      refresh (realm e).values (fetched F e data error) := by
  simp only [Failed, not_or, not_not] at hok
  obtain ⟨rfl, hitems⟩ := hok
  obtain ⟨items, hitems⟩ := Option.ne_none_iff_exists'.mp hitems
  rw [loadData_received, Realm.save_committed, Table.values_replaceAll, parseItems_eq, hitems]
  simp [fetched, hitems, refresh]

def SurvivesFailure : Prop :=
  Failed F data error → loadData F e outcome (received data error) realm e = realm e

/-- **Failed loads and the cache.** After a response that is no success
payload the table is what it was exactly where the save did not go through,
or the table was empty and the response brought no item. -/
theorem survivesFailure_iff :
    SurvivesFailure F e outcome data error realm ↔
      (Failed F data error →
        outcome ≠ .committed ∨ ((realm e).rows = [] ∧ (items? F data).getD [] = [])) := by
  refine imp_congr_right fun _ => ?_
  rw [loadData_received, save_eq_self_iff, parseItems_eq, List.map_eq_nil_iff]

end Completion

/-! ## A cached friend, and no connection -/

/-- A deserializer that refuses every body, as the real one does the empty
one. -/
def Foundation.refusing : Foundation where
  jsonObject _ := .error "The data couldn’t be read because it isn’t in the correct format."
  decimalIntValue _ := 0

def oneFriend : Realm
  | .friends => Table.empty.replaceAll [{ id := 1, name := "Anna Ivanova" }]
  | _ => Table.empty

/-- With no connection the cached friend is gone. -/
theorem loadData_offline_loses_friend :
    (oneFriend .friends).values = [{ id := 1, name := "Anna Ivanova" }] ∧
      (loadData Foundation.refusing .friends .committed (received [] (some "offline")) oneFriend
        .friends).values = [] ∧
      ¬SurvivesFailure Foundation.refusing .friends .committed [] (some "offline") oneFriend := by
  refine ⟨rfl, rfl, fun h => ?_⟩
  have hkept := h (.inl (by decide))
  exact absurd (congrArg Table.values hkept) (by decide)

end VkClient
