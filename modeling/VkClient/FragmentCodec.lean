import VkClient.Authorization
import VkClient.Dictionary

/-!
# The fragment decoder

`decidePolicyFor` splits the fragment at `&` and each part at `=`, and puts
the first two pieces of every part into a dictionary. A fragment that was
made by joining `key=value` parts is decoded into the dictionary of its
pairs (`decodeFragment_encodeFragment`).

Nothing looks whether a part has two pieces. A split always has one, so the
key is there; the value is there if and only if the part has an `=` in it,
and the response traps for every fragment with a part that has none
(`decidePolicyFor_isSome_iff`), the empty one among them.
-/

namespace VkClient

/-! ## Splitting at a separator -/

/-- A split has a second piece where the separator is in the string. -/
theorem two_le_length_components_iff {s : String} {separator : Char} :
    2 ≤ (components s separator).length ↔ separator ∈ s.toList := by
  rw [components, List.length_map]
  constructor
  · intro h
    by_contra hmem
    rw [List.splitOn_eq_singleton hmem] at h
    simp at h
  · intro h
    obtain ⟨pre, post, hs⟩ := List.append_of_mem h
    have hpre := List.length_pos_of_ne_nil (List.splitOn_ne_nil separator pre)
    have hpost := List.length_pos_of_ne_nil (List.splitOn_ne_nil separator post)
    rw [hs, List.splitOn_append_cons_self, List.length_append]
    omega

/-- Joining with the separator and splitting at it are inverse where no part
has the separator in it. -/
theorem components_intercalate {separator : Char} {parts : List String} (hne : parts ≠ [])
    (h : ∀ part ∈ parts, separator ∉ part.toList) :
    components ((String.singleton separator).intercalate parts) separator = parts := by
  have hlists : (parts.map String.toList) ≠ [] := by simpa using hne
  rw [components, String.toList_intercalate, String.toList_singleton,
    List.splitOn_intercalate separator (by simpa using h) hlists, List.map_map]
  simp [Function.comp_def]

/-! ## Traps -/

theorem isSome_decodeParam_iff {result : Params} {param : List String} :
    (decodeParam result param).isSome = true ↔ 2 ≤ param.length := by
  match param with
  | [] => simp [decodeParam]
  | [key] => simp [decodeParam]
  | key :: value :: _ => simp [decodeParam]

theorem isSome_foldlM_decodeParam_iff {params : List (List String)} {result : Params} :
    (params.foldlM decodeParam result).isSome = true ↔ ∀ param ∈ params, 2 ≤ param.length := by
  induction params generalizing result with
  | nil => simp
  | cons param params ih =>
      rw [List.foldlM_cons, List.forall_mem_cons, ← isSome_decodeParam_iff]
      cases hnext : decodeParam result param with
      | none => simp
      | some next => simpa using ih

/-- The decoder gets through a fragment if each part has an `=` in it. -/
theorem isSome_decodeFragment_iff {fragment : String} :
    (decodeFragment fragment).isSome = true ↔
      ∀ param ∈ components fragment '&', '=' ∈ param.toList := by
  rw [decodeFragment, isSome_foldlM_decodeParam_iff, List.forall_mem_map]
  exact forall₂_congr fun param _ => two_le_length_components_iff

/-- **Trapping fragments.** A response is decided without a trap exactly if
each part of its `/blank.html` fragment, if it has one, has an `=` in it. -/
theorem decidePolicyFor_isSome_iff (session : Session) (response : Option URL) :
    (decidePolicyFor session response).isSome = true ↔
      ∀ fragment, blankFragment response = some fragment →
        ∀ param ∈ components fragment '&', '=' ∈ param.toList := by
  unfold decidePolicyFor
  cases hblank : blankFragment response with
  | none => simp
  | some fragment =>
      simp only [Option.some.injEq, forall_eq', ← isSome_decodeFragment_iff]
      cases decodeFragment fragment <;> simp

def blankResponse (fragment : String) : Option URL :=
  some { scheme := "https", host := "oauth.vk.com", path := "/blank.html", fragment := some fragment }

/-- The empty fragment, a part without `=`, and a trailing `&`. -/
theorem decidePolicyFor_traps :
    decidePolicyFor {} (blankResponse "") = none ∧
      decidePolicyFor {} (blankResponse "access_token") = none ∧
      decidePolicyFor {} (blankResponse "access_token=abc&") = none ∧
      ¬∀ session response, (decidePolicyFor session response).isSome = true := by
  have hempty : decidePolicyFor {} (blankResponse "") = none := by decide
  refine ⟨hempty, by decide, by decide, fun h => ?_⟩
  have hsome := h {} (blankResponse "")
  rw [hempty] at hsome
  cases hsome

/-! ## Encoding and decoding -/

def encodeParam (param : String × String) : String := param.1 ++ "=" ++ param.2

/-- The `key=value` parts joined with `&`. -/
def encodeFragment (params : List (String × String)) : String :=
  "&".intercalate (params.map encodeParam)

/-- Neither of the separators is in the string. -/
def Plain (s : String) : Prop := '&' ∉ s.toList ∧ '=' ∉ s.toList

instance (s : String) : Decidable (Plain s) :=
  inferInstanceAs (Decidable ('&' ∉ s.toList ∧ '=' ∉ s.toList))

theorem components_encodeParam {param : String × String} (hkey : Plain param.1)
    (hvalue : Plain param.2) : components (encodeParam param) '=' = [param.1, param.2] := by
  have hjoin : encodeParam param = (String.singleton '=').intercalate [param.1, param.2] := by
    simp [encodeParam]
  rw [hjoin]
  exact components_intercalate (List.cons_ne_nil _ _) (by simp [hkey.2, hvalue.2])

theorem components_encodeFragment {params : List (String × String)} (hne : params ≠ [])
    (hplain : ∀ param ∈ params, Plain param.1 ∧ Plain param.2) :
    (components (encodeFragment params) '&').map (components · '=') =
      params.map fun param => [param.1, param.2] := by
  have hparts : components (encodeFragment params) '&' = params.map encodeParam := by
    refine components_intercalate (by simpa using hne) ?_
    intro part hpart
    obtain ⟨param, hparam, rfl⟩ := List.mem_map.mp hpart
    obtain ⟨hkey, hvalue⟩ := hplain param hparam
    simp [encodeParam, hkey.1, hvalue.1]
  rw [hparts, List.map_map]
  refine List.map_congr_left fun param hparam => ?_
  exact components_encodeParam (hplain param hparam).1 (hplain param hparam).2

theorem foldlM_decodeParam_pairs (params : List (String × String)) (result : Params) :
    (params.map fun param => [param.1, param.2]).foldlM decodeParam result =
      some (Dictionary.assign result params) := by
  induction params generalizing result with
  | nil => rfl
  | cons param params ih => exact ih _

theorem decodeFragment_eq {params : List (String × String)} (hne : params ≠ [])
    (hplain : ∀ param ∈ params, Plain param.1 ∧ Plain param.2) :
    decodeFragment (encodeFragment params) = some (Dictionary.ofPairs params) := by
  rw [decodeFragment, components_encodeFragment hne hplain, foldlM_decodeParam_pairs]
  rfl

/-- **Decoding inverts encoding.** The dictionary has the keys of the pairs,
each with the value of its last occurrence, and without repeated keys the
order of the pairs does not matter. -/
theorem decodeFragment_encodeFragment {params : List (String × String)} (hne : params ≠ [])
    (hplain : ∀ param ∈ params, Plain param.1 ∧ Plain param.2) :
    ∃ result, decodeFragment (encodeFragment params) = some result ∧
      (∀ key, (result key).isSome = true ↔ key ∈ params.map Prod.fst) ∧
      (∀ key value, result key = some value ↔
        ∃ before after, params = before ++ (key, value) :: after ∧ key ∉ after.map Prod.fst) ∧
      ((params.map Prod.fst).Nodup → ∀ params', params'.Perm params →
        decodeFragment (encodeFragment params') = some result) := by
  refine ⟨Dictionary.ofPairs params, decodeFragment_eq hne hplain,
    fun _ => Dictionary.isSome_ofPairs_iff, fun _ _ => Dictionary.ofPairs_eq_some_iff, ?_⟩
  intro hnodup params' hperm
  have hne' : params' ≠ [] := fun hnil => hne (List.nil_perm.mp (hnil ▸ hperm))
  have hplain' : ∀ param ∈ params', Plain param.1 ∧ Plain param.2 :=
    fun param hparam => hplain param (hperm.mem_iff.mp hparam)
  rw [decodeFragment_eq hne' hplain', Dictionary.ofPairs_perm hnodup hperm]

/-- An empty value, an empty key, and a key that is repeated. -/
theorem decodeFragment_encodeFragment_repeated :
    ∃ result, decodeFragment "state=&access_token=a&=b&access_token=c" = some result ∧
      result "state" = some "" ∧ result "" = some "b" ∧ result "access_token" = some "c" := by
  have hplain : ∀ param ∈ [("state", ""), ("access_token", "a"), ("", "b"), ("access_token", "c")],
      Plain param.1 ∧ Plain param.2 := by
    decide
  have hjoin : encodeFragment [("state", ""), ("access_token", "a"), ("", "b"), ("access_token", "c")] =
      "state=&access_token=a&=b&access_token=c" := by
    decide
  obtain ⟨result, hresult, -, hvalues, -⟩ :=
    decodeFragment_encodeFragment (List.cons_ne_nil _ _) hplain
  rw [hjoin] at hresult
  refine ⟨result, hresult, (hvalues _ _).mpr ⟨[], _, rfl, by decide⟩,
    (hvalues _ _).mpr ⟨[("state", ""), ("access_token", "a")], _, rfl, by decide⟩,
    (hvalues _ _).mpr ⟨[("state", ""), ("access_token", "a"), ("", "b")], _, rfl, by decide⟩⟩

end VkClient
