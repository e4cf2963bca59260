import Mathlib.Data.List.Basic
import VkClient.Runs
import VkClient.Services

/-!
# The authorization screen

`VKAthorizationViewController` shows the provider's login page and watches
the navigation responses. A response for `/blank.html` with a fragment ends
the login: the fragment is decoded into a dictionary, its `access_token`
becomes the session's token, and the screen performs `goSegue`.

The gate in front of `goSegue` negates an optional test with the wrong
default. A dictionary without `access_token` leaves the token empty, as it
should, and is then let through, as it should not
(`decidePolicyFor_of_noToken`); every other response is handled as the gate
intends, which makes the denied login the exact exception
(`loginGate_iff`).
-/

namespace VkClient

structure URL where
  scheme : String
  host : String
  path : String
  fragment : Option String
deriving DecidableEq, Repr

inductive Policy where
  | allow
  | cancel
deriving DecidableEq, Repr

/-! ## The fragment decoder -/

/-- `components(separatedBy:)`. A fragment of a URL is ASCII, where every
occurrence of the separator counts. -/
def components (s : String) (separator : Char) : List String :=
  (s.toList.splitOn separator).map String.ofList

abbrev Params := String → Option String

/-- The closure of `reduce`. Both subscripts trap where `param` is too short. -/
def decodeParam (result : Params) (param : List String) : Option Params := do
  let key ← param[0]?
  let value ← param[1]?
  return Function.update result key (some value)

def decodeFragment (fragment : String) : Option Params :=
  ((components fragment '&').map (components · '=')).foldlM decodeParam fun _ => none

/-! ## Deciding a response -/

/-- The fragment of a `/blank.html` response, which is what the guard of
`decidePolicyFor` asks for. -/
def blankFragment (response : Option URL) : Option String :=
  match response with
  | none => none
  | some url => if url.path = "/blank.html" then url.fragment else none

structure Decision where
  session : Session
  policy : Policy
  goSegue : Bool
deriving DecidableEq, Repr

/-- `webView(_:decidePolicyFor:decisionHandler:)`; `none` is the trap of the
fragment decoder. -/
def decidePolicyFor (session : Session) (response : Option URL) : Option Decision :=
  match blankFragment response with
  | none => some { session := session, policy := .allow, goSegue := false }
  | some fragment => do
      let params ← decodeFragment fragment
      let token := params "access_token"
      return {
        session := { session with token := token.getD "" }
        policy := .cancel
        -- `!(token?.isEmpty ?? false)`
        goSegue := !((token.map String.isEmpty).getD false) }

def navigate (session : Session) (response : Option URL) : Option Session :=
  (decidePolicyFor session response).map Decision.session

/-! ## The gate -/

/-- The response's fragment decodes, and gives this for `access_token`. -/
def Gives (response : Option URL) (token : Option String) : Prop :=
  ∃ fragment params, blankFragment response = some fragment ∧
    decodeFragment fragment = some params ∧ params "access_token" = token

/-- What the gate promises of one response: whoever is let through has a
non-empty token, the one the response gives; a fragment without
`access_token` lets nobody through and does not log out who was logged in. -/
def GateHolds (session : Session) (response : Option URL) : Prop :=
  ∀ d, decidePolicyFor session response = some d →
    (d.goSegue = true → d.session.token ≠ "" ∧ Gives response (some d.session.token)) ∧
    (Gives response none → d.goSegue = false ∧ (session.token ≠ "" → d.session.token ≠ ""))

theorem decidePolicyFor_of_gives {session : Session} {response : Option URL}
    {token : Option String} (h : Gives response token) :
    decidePolicyFor session response = some
      { session := { session with token := token.getD "" }
        policy := .cancel
        goSegue := !((token.map String.isEmpty).getD false) } := by
  obtain ⟨fragment, params, hblank, hdecode, rfl⟩ := h
  simp [decidePolicyFor, hblank, hdecode]

theorem decidePolicyFor_of_noToken {session : Session} {response : Option URL}
    (h : Gives response none) :
    decidePolicyFor session response = some
      { session := { session with token := "" }, policy := .cancel, goSegue := true } :=
  decidePolicyFor_of_gives h

theorem decidePolicyFor_cases {session : Session} {response : Option URL} {d : Decision}
    (h : decidePolicyFor session response = some d) :
    d = { session := session, policy := .allow, goSegue := false } ∧
        (∀ token, ¬Gives response token) ∨
      ∃ token, Gives response token := by
  cases hblank : blankFragment response with
  | none =>
      left
      rw [decidePolicyFor, hblank] at h
      exact ⟨(Option.some.inj h).symm, fun token ⟨_, _, hb, _⟩ => by simp [hblank] at hb⟩
  | some fragment =>
      right
      cases hdecode : decodeFragment fragment with
      | none => simp [decidePolicyFor, hblank, hdecode] at h
      | some params => exact ⟨_, fragment, params, hblank, hdecode, rfl⟩

theorem gateHolds_iff {session : Session} {response : Option URL} :
    GateHolds session response ↔ ¬Gives response none := by
  constructor
  · intro hgate hnone
    have := (hgate _ (decidePolicyFor_of_noToken hnone)).2 hnone
    simp at this
  · intro hsome d hd
    refine ⟨fun hsegue => ?_, fun hnone => absurd hnone hsome⟩
    rcases decidePolicyFor_cases hd with ⟨rfl, -⟩ | ⟨token, hgives⟩
    · simp at hsegue
    · rw [decidePolicyFor_of_gives hgives] at hd
      obtain rfl := (Option.some.inj hd).symm
      cases token with
      | none => exact absurd hgives hsome
      | some token =>
          -- the segue of a present token is the test that it is not empty
          have hne : token ≠ "" := by
            rintro rfl
            simp at hsegue
          exact ⟨hne, hgives⟩

/-- **The login gate.** Over a whole login, every response is handled as the
gate promises exactly if none the login gets to decodes without an
`access_token`. -/
theorem loginGate_iff (session : Session) (responses : List (Option URL)) :
    Runs.Always navigate GateHolds session responses ↔
      Runs.Always navigate (fun _ response => ¬Gives response none) session responses :=
  Runs.always_iff_of_inv (I := fun _ => True) (fun _ _ _ => gateHolds_iff)
    (fun _ _ _ _ _ _ => trivial) trivial

def deniedRedirect : URL where
  scheme := "https"
  host := "oauth.vk.com"
  path := "/blank.html"
  fragment := some "error=access_denied&error_description=User+denied"

/-- Denying access logs a user out and lets them through. -/
theorem loginGate_denied :
    decidePolicyFor { token := "abc" } (some deniedRedirect) =
        some { session := { token := "" }, policy := .cancel, goSegue := true } ∧
      ¬Runs.Always navigate GateHolds { token := "abc" } [some deniedRedirect] := by
  have hdenied : decidePolicyFor { token := "abc" } (some deniedRedirect) =
      some { session := { token := "" }, policy := .cancel, goSegue := true } := by
    decide
  refine ⟨hdenied, fun h => ?_⟩
  have hgate := (Runs.always_cons.mp h).1 _ hdenied
  exact (hgate.1 rfl).1 rfl

end VkClient
