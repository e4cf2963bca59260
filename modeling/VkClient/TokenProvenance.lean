import VkClient.FragmentCodec

/-!
# Where the token comes from

`viewDidLoad` registers one redirect with the provider, `redirect_uri`, and
only a response from there should end the login. The guard of
`decidePolicyFor` looks at less of it: the path and the presence of a
fragment, not the scheme and not the host.

As a property of two runs: the token and the number of `goSegue`
transitions are a function of the registered responses alone
(`TokenProvenance`, relative to a set of responses admitted from
elsewhere). It holds exactly as long as no admitted response from elsewhere
gets through the guard (`tokenProvenance_iff`).
-/

namespace VkClient

/-- The `redirect_uri` of the request in `viewDidLoad`. -/
def redirect_uri : URL where
  scheme := "https"
  host := "oauth.vk.com"
  path := "/blank.html"
  fragment := none

/-- The response is the registered redirect, with any fragment or none. -/
def registered (response : Option URL) : Bool :=
  response.any fun url => { url with fragment := none } = redirect_uri

/-- Each part of the fragment, if there is one, is `key=value`. -/
def WellFormed (response : Option URL) : Prop :=
  ∀ url, response = some url → ∀ fragment, url.fragment = some fragment →
    ∀ param ∈ components fragment '&', '=' ∈ param.toList

/-! ## A login under way -/

/-- `goSegues` counts the transitions performed so far. -/
structure Login where
  session : Session
  goSegues : Nat := 0
deriving DecidableEq, Repr

def Login.visit (login : Login) (response : Option URL) : Option Login := do
  let decision ← decidePolicyFor login.session response
  return {
    session := decision.session
    goSegues := if decision.goSegue then login.goSegues + 1 else login.goSegues }

/-- The token and the number of transitions at the end; `none` where the
fragment decoder traps on the way. -/
def outcome (session : Session) (responses : List (Option URL)) : Option (String × Nat) :=
  (Runs.run Login.visit { session := session } responses).map fun login =>
    (login.session.token, login.goSegues)

/-! ## Two runs -/

/-- The responses are registered, or well formed and from the set. -/
def Admitted (elsewhere : Set (Option URL)) (responses : List (Option URL)) : Prop :=
  ∀ response ∈ responses,
    registered response = true ∨ response ∈ elsewhere ∧ WellFormed response

/-- Two logins with the same registered responses, and any others admitted
from elsewhere, have the same outcome. -/
def TokenProvenance (session : Session) (elsewhere : Set (Option URL)) : Prop :=
  ∀ xs ys, Admitted elsewhere xs → Admitted elsewhere ys →
    xs.filter registered = ys.filter registered → outcome session xs = outcome session ys

theorem visit_of_blankFragment_eq_none {response : Option URL}
    (h : blankFragment response = none) (login : Login) :
    login.visit response = some login := by
  simp [Login.visit, decidePolicyFor, h]

theorem visit_of_gives (login : Login) {response : Option URL} {token : Option String}
    (h : Gives response token) :
    ∃ n, login.visit response =
      some { session := { login.session with token := token.getD "" }, goSegues := n } := by
  rw [Login.visit, decidePolicyFor_of_gives h]
  exact ⟨_, rfl⟩

theorem outcome_filter {session : Session} {elsewhere : Set (Option URL)}
    (hclosed : ∀ response ∈ elsewhere, registered response = false → WellFormed response →
      blankFragment response = none)
    {responses : List (Option URL)} (h : Admitted elsewhere responses) :
    outcome session (responses.filter registered) = outcome session responses := by
  rw [outcome, outcome, Runs.run_filter]
  intro response hresponse hforeign login
  rcases h response hresponse with hregistered | ⟨helsewhere, hwell⟩
  · simp [hforeign] at hregistered
  · exact visit_of_blankFragment_eq_none (hclosed response helsewhere hforeign hwell) login

/-! ## A response that gets through -/

theorem gives_of_wellFormed {response : Option URL} {fragment : String}
    (hblank : blankFragment response = some fragment) (hwell : WellFormed response) :
    ∃ token, Gives response token := by
  have hparts : ∀ param ∈ components fragment '&', '=' ∈ param.toList := by
    cases response with
    | none => simp [blankFragment] at hblank
    | some url =>
        have hfragment : url.fragment = some fragment := by
          by_cases hpath : url.path = "/blank.html"
          · simpa [blankFragment, hpath] using hblank
          · simp [blankFragment, hpath] at hblank
        exact hwell url rfl fragment hfragment
  obtain ⟨params, hparams⟩ := Option.isSome_iff_exists.mp (isSome_decodeFragment_iff.mpr hparts)
  exact ⟨_, fragment, params, hblank, hparams, rfl⟩

/-- A registered response that logs in. -/
def loginRedirect (token : String) : Option URL :=
  some { redirect_uri with fragment := some ("access_token=" ++ token) }

theorem registered_loginRedirect (token : String) : registered (loginRedirect token) = true := by
  simp [registered, loginRedirect, redirect_uri]

theorem exists_loginRedirect_ne (token : String) :
    ∃ other, other ≠ token ∧ Gives (loginRedirect other) (some other) := by
  by_cases h : token = "a"
  · exact ⟨"b", by simp [h], "access_token=b", _, rfl, rfl, rfl⟩
  · exact ⟨"a", Ne.symm h, "access_token=a", _, rfl, rfl, rfl⟩

/-- **Token provenance.** The outcome of a login depends on its registered
responses alone exactly if no well-formed response admitted from elsewhere
has the path `/blank.html` and a fragment. -/
theorem tokenProvenance_iff (session : Session) (elsewhere : Set (Option URL)) :
    TokenProvenance session elsewhere ↔
      ∀ response ∈ elsewhere, registered response = false → WellFormed response →
        blankFragment response = none := by
  constructor
  · intro h response helsewhere hforeign hwell
    by_contra hblank
    obtain ⟨fragment, hfragment⟩ := Option.ne_none_iff_exists'.mp hblank
    obtain ⟨token, hgives⟩ := gives_of_wellFormed hfragment hwell
    -- log in with another token, and let the response overwrite it
    obtain ⟨other, hother, hlogin⟩ := exists_loginRedirect_ne (token.getD "")
    have hsame := h [loginRedirect other] [loginRedirect other, response]
      (by simp [Admitted, registered_loginRedirect])
      (by simp [Admitted, registered_loginRedirect, helsewhere, hwell])
      (by rw [List.filter_cons, List.filter_cons, List.filter_cons, hforeign]; rfl)
    obtain ⟨n, hfirst⟩ := visit_of_gives { session := session } hlogin
    obtain ⟨m, hsecond⟩ :=
      visit_of_gives { session := { session with token := other }, goSegues := n } hgives
    simp only [Option.getD_some] at hfirst
    simp only [outcome, Runs.run, hfirst, hsecond, Option.bind_some, Option.map_some,
      Option.some.injEq, Prod.mk.injEq] at hsame
    exact hother hsame.1
  · intro hclosed xs ys hxs hys hsame
    rw [← outcome_filter hclosed hxs, ← outcome_filter hclosed hys, hsame]

def elsewhereRedirect : URL where
  scheme := "http"
  host := "example.com"
  path := "/blank.html"
  fragment := some "access_token=x"

/-- A page of another host logs the user in with a token of its own. -/
theorem tokenProvenance_elsewhere :
    outcome {} [] = some ("", 0) ∧
      outcome {} [some elsewhereRedirect] = some ("x", 1) ∧
      ¬TokenProvenance {} Set.univ := by
  have hnone : outcome {} [] = some ("", 0) := rfl
  have hone : outcome {} [some elsewhereRedirect] = some ("x", 1) := by decide
  refine ⟨hnone, hone, fun h => ?_⟩
  have hwell : WellFormed (some elsewhereRedirect) := by
    rintro url ⟨⟩ fragment ⟨⟩
    decide
  have hsame := h [] [some elsewhereRedirect] (by simp [Admitted]) (by simp [Admitted, hwell])
    (by decide)
  rw [hnone, hone] at hsame
  simp at hsame

end VkClient
