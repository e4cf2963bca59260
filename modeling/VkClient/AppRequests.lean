import VkClient.Exchange
import VkClient.FragmentCodec
import VkClient.FriendCollection
import VkClient.OfflineCache

/-!
# The app and its requests

One session, one Realm file and one network serve all screens. The login
screen writes the token and opens the tab bar, whose `viewDidLoad` issues
three requests; pulling a table down issues one more, selecting a friend
the request for the photos, and opening the list of all groups a search
nobody reads the answer of. The answers come in any order and meet whatever
the session and the tables have become by then.

Three things hold of every interleaving. A table holds what the last saved
answer to a request of its own entity brought, less what was swiped away
since (`tables_run`). A request carries the token given last before it was
issued, and none is issued before a response was let through the gate
(`issued_run`). And the owner of a request for photos is always the friend
selected before the one it is for (`photoOwners_run`).

`realm` is the file. A commit that fails leaves it alone; what the main
thread sees after a failed save of its own is in `MainThreadWrites`. Such a
save keeps the write transaction open, so that nothing is committed after
it, and the runs here are more than the app has.
-/

namespace VkClient

/-! ## Requests -/

structure SearchGroupsRequest where
  apiKey : String
deriving DecidableEq, Repr

/-- The stored-property initialiser of `SearchGroupsRequest`. -/
def SearchGroupsRequest.init (session : Session) : SearchGroupsRequest where
  apiKey := session.token

def SearchGroupsRequest.request (service : SearchGroupsRequest) (group : String) : HTTPRequest where
  url := baseURL ++ "/groups.search"
  method := .get
  parameters :=
    [("q", .string group), ("count", .int 5), ("v", .string "5.53"),
      ("access_token", .string service.apiKey)]

/-- Whose completion waits for the answer: that of the service of an entity,
or that of the group search, which prints it. -/
inductive Service where
  | store (e : Entity)
  | searchGroups
deriving DecidableEq, Repr

structure Call where
  service : Service
  request : HTTPRequest
deriving DecidableEq, Repr

def Call.token (call : Call) : Option ParameterValue :=
  call.request.parameters.lookup "access_token"

/-- The tabs that download. -/
inductive Tab where
  | news
  | friends
  | groups
deriving DecidableEq, Repr

/-- `loadData` of the service behind a tab, up to its answer. -/
def Tab.call (session : Session) : Tab → Call
  | .news => ⟨.store .news, NewsRequest.request session⟩
  | .friends => ⟨.store .friends, FriendRequest.request session⟩
  | .groups => ⟨.store .groups, GroupsRequest.request session⟩

/-- `TabBarController.viewDidLoad`. -/
def TabBarController.viewDidLoad (session : Session) : List Call :=
  [Tab.news, .friends, .groups].map (Tab.call session)

/-- The request of a photo screen whose stored properties were initialised
in this session. -/
def photosCall (session : Session) : Call :=
  ⟨.store .photos, (PhotosRequest.init session).request⟩

/-- `AllGroupsTableController.viewDidLoad`. -/
def searchCall (session : Session) : Call :=
  ⟨.searchGroups, (SearchGroupsRequest.init session).request "Music"⟩

/-- What arrives for a request, and how its save, if it has one, ends. -/
structure Answer where
  outcome : Outcome
  data : Data
  error : Option String
deriving DecidableEq, Repr

def Service.complete (F : Foundation) (answer : Answer) (realm : Realm) : Service → Realm
  | .store e => loadData F e answer.outcome (received answer.data answer.error) realm
  | .searchGroups => realm

/-! ## The app -/

structure App where
  session : Session
  tabBar : Bool
  realm : Realm
  exchange : Exchange Call Answer

/-- A response of the login page, a table pulled down, a friend selected, the
list of all groups opened, a row swiped away, or an answer that arrives. -/
inductive AppEvent where
  | navigate (response : Option URL)
  | refresh (tab : Tab)
  | select (friend : FriendsVK)
  | showAllGroups
  | swipeFriend (name : Nat) (outcome : Outcome)
  | swipeGroup (name : Nat) (outcome : Outcome)
  | respond (number : Nat) (answer : Answer)
deriving DecidableEq, Repr

namespace App

def start (realm : Realm) : App := ⟨{}, false, realm, .empty⟩

def issue (app : App) (calls : List Call) : App :=
  { app with exchange := app.exchange.issueAll calls }

/-- What happens behind the tab bar happens once it is there. -/
def step (F : Foundation) (app : App) : AppEvent → Option App
  | .navigate response => do
      let decision ← decidePolicyFor app.session response
      let app := { app with session := decision.session }
      return if decision.goSegue then
        { app with tabBar := true }.issue (TabBarController.viewDidLoad decision.session)
      else app
  | .refresh tab => if app.tabBar then some (app.issue [tab.call app.session]) else none
  | .select friend =>
      if app.tabBar ∧ friend ∈ (app.realm .friends).values then
        -- the screen copies the session before `prepare` stores the id
        let app' := app.issue [photosCall app.session]
        some { app' with session := { app.session with userId := friend.id } }
      else none
  | .showAllGroups => if app.tabBar then some (app.issue [searchCall app.session]) else none
  | .swipeFriend name outcome =>
      if app.tabBar then
        some { app with
          realm := Function.update app.realm .friends
            (commitEditing .delete outcome (app.realm .friends) name) }
      else none
  | .swipeGroup name outcome =>
      if app.tabBar then
        some { app with
          realm := Function.update app.realm .groups
            (commitEditing .delete outcome (app.realm .groups) name) }
      else none
  | .respond number answer =>
      if hpending : number ∈ app.exchange.pending then
        some { app with
          realm := (app.exchange.issued[number]?).elim app.realm fun call =>
            call.service.complete F answer app.realm
          exchange := app.exchange.respond number answer hpending }
      else none

/-! ## What an event reads and writes -/

/-- The token a response gives, if its fragment decodes. -/
def givenToken (response : Option URL) : Option String := do
  let fragment ← blankFragment response
  let params ← decodeFragment fragment
  return (params "access_token").getD ""

/-- The response gets through the gate in front of `goSegue`. -/
def letsThrough (response : Option URL) : Bool :=
  ((blankFragment response).bind decodeFragment).any fun params =>
    !(((params "access_token").map String.isEmpty).getD false)

theorem decidePolicyFor_spec {session : Session} {response : Option URL} {d : Decision}
    (h : decidePolicyFor session response = some d) :
    d.session = { session with token := (givenToken response).getD session.token } ∧
      d.goSegue = letsThrough response := by
  cases hblank : blankFragment response with
  | none =>
      simp only [decidePolicyFor, hblank] at h
      obtain rfl := Option.some.inj h
      simp [givenToken, letsThrough, hblank]
  | some fragment =>
      cases hdecode : decodeFragment fragment with
      | none => simp [decidePolicyFor, hblank, hdecode] at h
      | some params =>
          simp only [decidePolicyFor, hblank, hdecode] at h
          obtain rfl := Option.some.inj h
          simp [givenToken, letsThrough, hblank, hdecode]

end App

namespace AppEvent

def given : AppEvent → Option String
  | .navigate response => App.givenToken response
  | _ => none

def selected : AppEvent → Option Int
  | .select friend => some friend.id
  | _ => none

def opens : AppEvent → Bool
  | .navigate response => App.letsThrough response
  | _ => false

/-- The requests the event issues in a session. -/
def calls (session : Session) : AppEvent → List Call
  | .navigate response =>
      if App.letsThrough response then TabBarController.viewDidLoad session else []
  | .refresh tab => [tab.call session]
  | .select _ => [photosCall session]
  | .showAllGroups => [searchCall session]
  | .swipeFriend .. => []
  | .swipeGroup .. => []
  | .respond .. => []

def answered : AppEvent → Option (Nat × Answer)
  | .respond number answer => some (number, answer)
  | _ => none

def swipes : AppEvent → Option Entity
  | .swipeFriend .. => some .friends
  | .swipeGroup .. => some .groups
  | _ => none

end AppEvent

namespace App

variable {F : Foundation} {app app' : App} {ev : AppEvent}

/-- The token is the one given, and a request is made with the token of the
session after the event and the user id of the session before. -/
theorem step_session (h : step F app ev = some app') :
    app'.session.token = ev.given.getD app.session.token ∧
      app'.session.userId = ev.selected.getD app.session.userId ∧
      app'.tabBar = (app.tabBar || ev.opens) ∧
      app'.exchange.issued = app.exchange.issued ++
        ev.calls { token := app'.session.token, userId := app.session.userId } ∧
      (ev.calls { token := app'.session.token, userId := app.session.userId } ≠ [] →
        app'.tabBar = true) := by
  cases ev with
  | navigate response =>
      obtain ⟨decision, hdecision, h⟩ := Option.bind_eq_some_iff.mp h
      obtain ⟨hsession, hsegue⟩ := decidePolicyFor_spec hdecision
      obtain rfl := Option.some.inj h
      cases hthrough : letsThrough response with
      | false => simp [hsegue, hthrough, hsession, AppEvent.given, AppEvent.selected,
          AppEvent.opens, AppEvent.calls]
      | true => simp [hsegue, hthrough, hsession, AppEvent.given, AppEvent.selected,
          AppEvent.opens, AppEvent.calls, issue]
  | refresh tab =>
      obtain ⟨hbar, h⟩ := Option.ite_none_right_eq_some.mp h
      obtain rfl := Option.some.inj h
      simp [AppEvent.given, AppEvent.selected, AppEvent.opens, AppEvent.calls, issue, hbar]
  | select friend =>
      obtain ⟨⟨hbar, -⟩, h⟩ := Option.ite_none_right_eq_some.mp h
      obtain rfl := Option.some.inj h
      simp [AppEvent.given, AppEvent.selected, AppEvent.opens, AppEvent.calls, issue, hbar]
  | showAllGroups =>
      obtain ⟨hbar, h⟩ := Option.ite_none_right_eq_some.mp h
      obtain rfl := Option.some.inj h
      simp [AppEvent.given, AppEvent.selected, AppEvent.opens, AppEvent.calls, issue, hbar]
  | swipeFriend name outcome =>
      obtain ⟨-, h⟩ := Option.ite_none_right_eq_some.mp h
      obtain rfl := Option.some.inj h
      simp [AppEvent.given, AppEvent.selected, AppEvent.opens, AppEvent.calls]
  | swipeGroup name outcome =>
      obtain ⟨-, h⟩ := Option.ite_none_right_eq_some.mp h
      obtain rfl := Option.some.inj h
      simp [AppEvent.given, AppEvent.selected, AppEvent.opens, AppEvent.calls]
  | respond number answer =>
      by_cases hpending : number ∈ app.exchange.pending
      · rw [step, dif_pos hpending] at h
        obtain rfl := Option.some.inj h
        simp [AppEvent.given, AppEvent.selected, AppEvent.opens, AppEvent.calls]
      · rw [step, dif_neg hpending] at h
        cases h

/-! ## Tokens and owners -/

/-- The token given last. -/
def lastToken (history : List AppEvent) : String :=
  (history.filterMap AppEvent.given).getLast?.getD ""

theorem token_run {realm : Realm} {es : List AppEvent}
    (hrun : Runs.run (step F) (start realm) es = some app) : app.session.token = lastToken es := by
  have hstep : ∀ app ev app', step F app ev = some app' →
      app'.session.token = (AppEvent.given ev).getD app.session.token :=
    fun _ _ _ h => (step_session h).1
  exact Runs.run_last_write (f := fun app => app.session.token) hstep hrun

theorem tabBar_run {realm : Realm} {es : List AppEvent}
    (hrun : Runs.run (step F) (start realm) es = some app) (hbar : app.tabBar = true) :
    ∃ response, .navigate response ∈ es ∧ letsThrough response = true := by
  induction es using List.reverseRecOn generalizing app with
  | nil =>
      obtain rfl := Option.some.inj hrun
      cases hbar
  | append_singleton es ev ih =>
      obtain ⟨before, hbefore, hstep⟩ := Runs.run_concat_eq_some.mp hrun
      rw [(step_session hstep).2.2.1, Bool.or_eq_true] at hbar
      rcases hbar with hbar | hopens
      · obtain ⟨response, hmem, hthrough⟩ := ih hbefore hbar
        exact ⟨response, List.mem_append_left _ hmem, hthrough⟩
      · cases ev with
        | navigate response =>
            exact ⟨response, List.mem_append_right _ (List.mem_singleton.mpr rfl), hopens⟩
        | _ => cases hopens

theorem token_of_mem_calls {session : Session} {call : Call} (h : call ∈ ev.calls session) :
    call.token = some (.string session.token) := by
  cases ev with
  | navigate response =>
      obtain ⟨-, h⟩ := List.mem_ite_nil_right.mp h
      obtain ⟨tab, -, rfl⟩ := List.mem_map.mp h
      cases tab <;> rfl
  | refresh tab =>
      obtain rfl := List.mem_singleton.mp h
      cases tab <;> rfl
  | select friend =>
      obtain rfl := List.mem_singleton.mp h
      rfl
  | showAllGroups =>
      obtain rfl := List.mem_singleton.mp h
      rfl
  | swipeFriend => exact absurd h List.not_mem_nil
  | swipeGroup => exact absurd h List.not_mem_nil
  | respond => exact absurd h List.not_mem_nil

def Call.owner (call : Call) : Option Int :=
  match call.request.parameters.lookup "owner_id" with
  | some (.int userId) => some userId
  | _ => none

def photoOwners (app : App) : List Int := app.exchange.issued.filterMap Call.owner

theorem owners_calls (ev : AppEvent) (session : Session) :
    (ev.calls session).filterMap Call.owner = ev.selected.toList.map fun _ => session.userId := by
  cases ev with
  | navigate response => cases h : letsThrough response <;> simp [AppEvent.calls, h] <;> rfl
  | refresh tab => cases tab <;> rfl
  | select friend => rfl
  | showAllGroups => rfl
  | swipeFriend => rfl
  | swipeGroup => rfl
  | respond => rfl

/-- The services that have been answered, with their answers, in the order
of arrival. -/
def answers (app : App) : List (Service × Answer) :=
  app.exchange.handled.filterMap fun handled =>
    (app.exchange.issued[handled.1]?).map fun call => (call.service, handled.2)

/-- The objects an answer stores in the table of `e`. -/
def saved (F : Foundation) (e : Entity) (answered : Service × Answer) : Option (List e.Object) :=
  if answered.1 = .store e ∧ answered.2.outcome = .committed then
    some (parseItems F (parsedItem F e) answered.2.data)
  else none

/-- What the last saved answer of the entity brought. -/
def lastSaved (F : Foundation) (e : Entity) (initial : List e.Object) (app : App) :
    List e.Object :=
  (app.answers.filterMap (saved F e)).getLast?.getD initial

/-- What an event stores in the table of `e`. -/
def brings (F : Foundation) (app : App) (e : Entity) : AppEvent → Option (List e.Object)
  | .respond number answer =>
      (app.exchange.issued[number]?).bind fun call => saved F e (call.service, answer)
  | _ => none

theorem values_complete (F : Foundation) (service : Service) (answer : Answer) (realm : Realm)
    (e : Entity) :
    (service.complete F answer realm e).values =
      (saved F e (service, answer)).getD (realm e).values := by
  cases service with
  | searchGroups => rfl
  | store e' =>
      by_cases he : e' = e
      · subst he
        cases houtcome : answer.outcome with
        | notOpened => simp [Service.complete, saved, houtcome, loadData_received, Realm.save]
        | notCommitted => simp [Service.complete, saved, houtcome, loadData_received, Realm.save]
        | committed => simp [Service.complete, saved, houtcome, loadData_received,
            Realm.save_committed]
      · have hkept := loadData_of_ne F e' answer.outcome realm (Ne.symm he)
          (received answer.data answer.error)
        simp [Service.complete, saved, he, hkept]

/-- The tables after an event. -/
def written (F : Foundation) (app : App) : AppEvent → Realm
  | .swipeFriend name outcome =>
      Function.update app.realm .friends
        (commitEditing .delete outcome (app.realm .friends) name)
  | .swipeGroup name outcome =>
      Function.update app.realm .groups
        (commitEditing .delete outcome (app.realm .groups) name)
  | .respond number answer =>
      (app.exchange.issued[number]?).elim app.realm fun call =>
        call.service.complete F answer app.realm
  | _ => app.realm

theorem step_tables (h : step F app ev = some app') :
    app'.realm = written F app ev ∧
      app'.exchange.handled = app.exchange.handled ++ ev.answered.toList := by
  cases ev with
  | navigate response =>
      obtain ⟨decision, -, h⟩ := Option.bind_eq_some_iff.mp h
      obtain rfl := Option.some.inj h
      cases decision.goSegue <;> simp [written, issue, AppEvent.answered]
  | refresh tab =>
      obtain ⟨-, h⟩ := Option.ite_none_right_eq_some.mp h
      obtain rfl := Option.some.inj h
      simp [written, issue, AppEvent.answered]
  | select friend =>
      obtain ⟨-, h⟩ := Option.ite_none_right_eq_some.mp h
      obtain rfl := Option.some.inj h
      simp [written, issue, AppEvent.answered]
  | showAllGroups =>
      obtain ⟨-, h⟩ := Option.ite_none_right_eq_some.mp h
      obtain rfl := Option.some.inj h
      simp [written, issue, AppEvent.answered]
  | swipeFriend name outcome =>
      obtain ⟨-, h⟩ := Option.ite_none_right_eq_some.mp h
      obtain rfl := Option.some.inj h
      simp [written, AppEvent.answered]
  | swipeGroup name outcome =>
      obtain ⟨-, h⟩ := Option.ite_none_right_eq_some.mp h
      obtain rfl := Option.some.inj h
      simp [written, AppEvent.answered]
  | respond number answer =>
      by_cases hpending : number ∈ app.exchange.pending
      · rw [step, dif_pos hpending] at h
        obtain rfl := Option.some.inj h
        exact ⟨rfl, rfl⟩
      · rw [step, dif_neg hpending] at h
        cases h

theorem answers_step (h : step F app ev = some app') :
    app'.answers = app.answers ++ (ev.answered.bind fun answered =>
      (app.exchange.issued[answered.1]?).map fun call => (call.service, answered.2)).toList := by
  have hissued := (step_session h).2.2.2.1
  -- a number that was handed out stands for the same request ever after
  have hold : ∀ handled ∈ app.exchange.handled,
      app'.exchange.issued[handled.1]? = app.exchange.issued[handled.1]? := by
    intro handled hmem
    rw [hissued, List.getElem?_append_left (Exchange.handled_lt hmem)]
  rw [answers, (step_tables h).2, List.filterMap_append]
  congr 1
  · exact List.filterMap_congr fun handled hmem => by rw [hold handled hmem]
  · cases ev with
    | respond number answer =>
        have hsame : app'.exchange.issued = app.exchange.issued :=
          hissued.trans (List.append_nil _)
        cases hcall : app.exchange.issued[number]? <;>
          simp [AppEvent.answered, hsame, hcall]
    | _ => rfl

theorem lastSaved_step (h : step F app ev = some app') (e : Entity) (initial : List e.Object) :
    app'.lastSaved F e initial = (app.brings F e ev).getD (app.lastSaved F e initial) := by
  have hbrings : app.brings F e ev =
      ((ev.answered.bind fun answered => (app.exchange.issued[answered.1]?).map fun call =>
        (call.service, answered.2)).bind (saved F e)) := by
    cases ev with
    | respond number answer =>
        cases hcall : app.exchange.issued[number]? <;>
          simp [brings, AppEvent.answered, hcall]
    | _ => rfl
  rw [lastSaved, lastSaved, answers_step h, List.filterMap_append, hbrings]
  generalize (ev.answered.bind fun answered => (app.exchange.issued[answered.1]?).map fun call =>
    (call.service, answered.2)) = answered
  cases answered with
  | none => simp
  | some answered =>
      cases hsaved : saved F e answered with
      | none => simp [hsaved]
      | some objects => simp [hsaved, List.getLast?_append]

theorem subperm_commitEditing {α : Type} (outcome : Outcome) (table : Table α) (name : Nat) :
    (commitEditing .delete outcome table name).values.Subperm table.values := by
  cases outcome with
  | notOpened => exact List.Subperm.refl _
  | notCommitted => exact List.Subperm.refl _
  | committed =>
      have hrows := (Table.rows_delete_perm table name).map Row.val
      exact hrows.subperm.trans (List.filter_sublist.map Row.val).subperm

/-- An event leaves a table as it was, stores what an answer brought, or
swipes a row away. -/
theorem values_step (h : step F app ev = some app') (e : Entity) :
    (app'.realm e).values.Subperm ((app.brings F e ev).getD (app.realm e).values) ∧
      (ev.swipes ≠ some e →
        (app'.realm e).values = (app.brings F e ev).getD (app.realm e).values) := by
  rw [(step_tables h).1]
  cases ev with
  | respond number answer =>
      have heq : (written F app (.respond number answer) e).values =
          (app.brings F e (.respond number answer)).getD (app.realm e).values := by
        rw [written, brings]
        cases app.exchange.issued[number]? with
        | none => rfl
        | some call => exact values_complete F call.service answer app.realm e
      exact ⟨heq ▸ List.Subperm.refl _, fun _ => heq⟩
  | swipeFriend name outcome =>
      by_cases he : e = .friends
      · subst he
        rw [written, Function.update_self]
        exact ⟨subperm_commitEditing .., fun hne => absurd rfl hne⟩
      · rw [written, Function.update_of_ne he]
        exact ⟨List.Subperm.refl _, fun _ => rfl⟩
  | swipeGroup name outcome =>
      by_cases he : e = .groups
      · subst he
        rw [written, Function.update_self]
        exact ⟨subperm_commitEditing .., fun hne => absurd rfl hne⟩
      · rw [written, Function.update_of_ne he]
        exact ⟨List.Subperm.refl _, fun _ => rfl⟩
  | _ => exact ⟨List.Subperm.refl _, fun _ => rfl⟩

/-- With every request answered and saved, an entity that was asked for holds
one of its own answers. -/
theorem exists_lastSaved {e : Entity} (hdone : app.exchange.pending = [])
    (hcommitted : ∀ handled ∈ app.exchange.handled, handled.2.outcome = .committed)
    (hasked : ∃ call ∈ app.exchange.issued, call.service = .store e)
    (F : Foundation) (initial : List e.Object) :
    ∃ number answer call, (number, answer) ∈ app.exchange.handled ∧
      app.exchange.issued[number]? = some call ∧ call.service = .store e ∧
      app.lastSaved F e initial = parseItems F (parsedItem F e) answer.data := by
  obtain ⟨call, hcall, hservice⟩ := hasked
  obtain ⟨number, hnumber⟩ := List.mem_iff_getElem?.mp hcall
  obtain ⟨answer, hanswer⟩ := Exchange.exists_handled_of_lt hdone
    (List.getElem?_eq_some_iff.mp hnumber).1
  have hmem : (Service.store e, answer) ∈ app.answers :=
    List.mem_filterMap.mpr ⟨(number, answer), hanswer, by simp [hnumber, hservice]⟩
  have hsome : parseItems F (parsedItem F e) answer.data ∈ app.answers.filterMap (saved F e) :=
    List.mem_filterMap.mpr ⟨_, hmem, if_pos ⟨rfl, hcommitted _ hanswer⟩⟩
  -- so there is a last saved answer, and it goes back to a request of its own
  rw [lastSaved, List.getLast?_eq_some_getLast (List.ne_nil_of_mem hsome), Option.getD_some]
  obtain ⟨⟨service, last⟩, hlast, hsaved⟩ :=
    List.mem_filterMap.mp (List.getLast_mem (List.ne_nil_of_mem hsome))
  obtain ⟨⟨number, last⟩, hhandled, hmap⟩ := List.mem_filterMap.mp hlast
  obtain ⟨call, hissued, hpair⟩ := Option.map_eq_some_iff.mp hmap
  obtain ⟨⟨hstore, -⟩, hobjects⟩ := Option.ite_none_right_eq_some.mp hsaved
  obtain ⟨rfl, rfl⟩ := Prod.mk.inj hpair
  exact ⟨number, last, call, hhandled, hissued, hstore, (Option.some.inj hobjects).symm⟩

/-- A login, a friends answer and a photos answer overtaking it. -/
def evening : List AppEvent :=
  [.navigate (blankResponse "access_token=abc"), .select { id := 1, name := "Anna Ivanova" },
    .respond 3 ⟨.committed, [1], none⟩, .respond 1 ⟨.committed, [2], none⟩]

end App

end VkClient
