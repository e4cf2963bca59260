import VkClient.Exchange
import VkClient.Runs
import VkClient.Services

/-!
# Photo requests

Every photo screen issues a `photos.getAll` request when it loads, for the
owner of the moment, and all of them are answered into the one `PhotosVK`
table. Nothing in a request, in its completion or in the table tells the
owners apart: a request carries no sequence number, is never cancelled, and
its completion replaces the table whenever it runs.

So the table follows the order in which responses are handled
(`lastResponse_wins`). The photos of the newest request are what stays in
it when the responses keep the order of the requests, and a late response
to an earlier request replaces them when they do not.
-/

namespace VkClient

structure PhotoLoads where
  realm : Realm
  exchange : Exchange HTTPRequest Data

/-- Some screen calls `loadData` on its service, or the response to the
request with this number is handled. -/
inductive PhotoLoadEvent where
  | loadData (service : PhotosRequest)
  | respond (number : Nat) (data : Data)

namespace PhotoLoads

def start (realm : Realm) : PhotoLoads := ⟨realm, .empty⟩

/-- One event; a response is handled only to a request that is pending. -/
def step (F : Foundation) (w : PhotoLoads) : PhotoLoadEvent → Option PhotoLoads
  | .loadData service => some { w with exchange := w.exchange.issue service.request }
  | .respond number data =>
      if hpending : number ∈ w.exchange.pending then
        some {
          realm := PhotosRequest.loadData F .committed (received data none) w.realm
          exchange := w.exchange.respond number data hpending }
      else none

/-- Once nothing is pending, the table holds the photos of the response to
the newest request. -/
def LastRequestWins (F : Foundation) (w : PhotoLoads) : Prop :=
  w.exchange.pending = [] →
    ∀ number data, number + 1 = w.exchange.issued.length →
      (number, data) ∈ w.exchange.handled →
        (w.realm .photos).values = SwiftyJSONParserPhotos.parse F data

def lastPhotos (F : Foundation) (initial : List PhotosVK) (w : PhotoLoads) : List PhotosVK :=
  match w.exchange.handled.getLast? with
  | none => initial
  | some last => SwiftyJSONParserPhotos.parse F last.2

variable {F : Foundation}

theorem values_step {initial : List PhotosVK} {w w' : PhotoLoads} {e : PhotoLoadEvent}
    (hw : (w.realm .photos).values = w.lastPhotos F initial) (h : step F w e = some w') :
    (w'.realm .photos).values = w'.lastPhotos F initial := by
  cases e with
  | loadData service =>
      obtain rfl := Option.some.inj h
      exact hw
  | respond number data =>
      by_cases hpending : number ∈ w.exchange.pending
      · rw [step, dif_pos hpending] at h
        obtain rfl := Option.some.inj h
        rw [lastPhotos, Exchange.respond]
        simp only [List.getLast?_concat, PhotosRequest.loadData_committed, Table.values_replaceAll]
      · rw [step, dif_neg hpending] at h
        cases h

theorem values_run {realm : Realm} {es : List PhotoLoadEvent} {w : PhotoLoads}
    (h : Runs.run (step F) (start realm) es = some w) :
    (w.realm .photos).values = w.lastPhotos F (realm .photos).values :=
  Runs.run_inv (I := fun w => (w.realm .photos).values = w.lastPhotos F (realm .photos).values)
    (fun _ _ _ hw hstep => values_step hw hstep) rfl h

/-- **The last response wins.** Once every request has been answered, the
table holds the photos of the response handled last; where the responses
kept the order of the requests, that is the newest request's. -/
theorem lastResponse_wins {realm : Realm} {es : List PhotoLoadEvent} {w : PhotoLoads}
    (hrun : Runs.run (step F) (start realm) es = some w)
    (hdone : w.exchange.pending = []) (hissued : w.exchange.issued ≠ []) :
    ∃ last, w.exchange.handled.getLast? = some last ∧
      (w.realm .photos).values = SwiftyJSONParserPhotos.parse F last.2 ∧
      ((w.exchange.handled.map Prod.fst).Pairwise (· < ·) →
        last.1 + 1 = w.exchange.issued.length) := by
  have hvalues := values_run hrun
  have hpos := List.length_pos_iff.mpr hissued
  rcases Exchange.exists_handled_newest hdone
    (show w.exchange.issued.length - 1 + 1 = _ by omega) with ⟨response, hnewest⟩
  cases hlast : w.exchange.handled.getLast? with
  | none =>
      rw [List.getLast?_eq_none_iff.mp hlast] at hnewest
      exact absurd hnewest List.not_mem_nil
  | some last =>
      rw [lastPhotos, hlast] at hvalues
      exact ⟨last, rfl, hvalues,
        fun hordered => Exchange.last_handled_of_ordered hdone hordered hlast⟩

end PhotoLoads

/-! ## Two owners -/

def photoPayload (url : String) : JSON :=
  let size := JSON.dictionary [("type", .string "q"), ("url", .string url)]
  let item := JSON.dictionary [("sizes", .array [size])]
  .dictionary [("response", .dictionary [("items", .array [item])])]

/-- A deserializer for two bodies of one byte, one photo each. -/
def Foundation.twoPhotos : Foundation where
  jsonObject data :=
    if data = [1] then .ok (photoPayload "first.jpg")
    else if data = [2] then .ok (photoPayload "second.jpg")
    else .error "no JSON"
  decimalIntValue _ := 0

namespace PhotoLoads

def twoOwners : List PhotoLoadEvent :=
  [.loadData { userId := 1, apiKey := "" }, .loadData { userId := 2, apiKey := "" }]

theorem lastResponse_wins_in_order :
    ∃ w, Runs.run (step Foundation.twoPhotos) (start fun _ => .empty)
        (twoOwners ++ [.respond 0 [1], .respond 1 [2]]) = some w ∧
      ∃ last, w.exchange.handled.getLast? = some last ∧
        (w.realm .photos).values = SwiftyJSONParserPhotos.parse Foundation.twoPhotos last.2 ∧
        ((w.exchange.handled.map Prod.fst).Pairwise (· < ·) →
          last.1 + 1 = w.exchange.issued.length) := by
  refine ⟨_, rfl, ?_⟩
  exact lastResponse_wins (show Runs.run (step Foundation.twoPhotos) (start fun _ => .empty)
    (twoOwners ++ [.respond 0 [1], .respond 1 [2]]) = some _ from rfl) rfl (List.cons_ne_nil _ _)

/-- The first owner's response arrives last: the screen of the second owner
is left with the photos of the first. -/
theorem lastRequest_loses_out_of_order :
    ∃ w, Runs.run (step Foundation.twoPhotos) (start fun _ => .empty)
        (twoOwners ++ [.respond 1 [2], .respond 0 [1]]) = some w ∧
      (w.realm .photos).values = [{ photo := "first.jpg" }] ∧
      ¬w.LastRequestWins Foundation.twoPhotos := by
  refine ⟨_, rfl, rfl, fun h => ?_⟩
  have hsecond := h rfl 1 [2] rfl (by decide)
  exact absurd hsecond (by decide)

end PhotoLoads

end VkClient
