import VkClient.FragmentCodec
import VkClient.PercentCoding
import VkClient.SortedEntries

/-!
# What a request carries to the server

Alamofire flattens the parameters of a request into fields, escapes their
names and values, and joins them to a string that goes into the query of the
URL or into the body, depending on the method. A server takes the string
apart again.

Reading undoes writing, whatever the values are (`decode_query`): a
token with an `&` or an `=` in it is one value and not another parameter.
It does so behind a query that the URL has already (`encode_read`), and for
the requests of the app (`request_read`). The order a dictionary happens to
be enumerated in leaves no trace (`encode_perm`).
-/

namespace VkClient

namespace Alamofire

/-- `HTTPMethod`, with its raw values. -/
inductive HTTPMethod where
  | options
  | get
  | head
  | post
  | put
  | patch
  | delete
  | trace
  | connect
deriving DecidableEq, Repr

def HTTPMethod.rawValue : HTTPMethod → String
  | .options => "OPTIONS"
  | .get => "GET"
  | .head => "HEAD"
  | .post => "POST"
  | .put => "PUT"
  | .patch => "PATCH"
  | .delete => "DELETE"
  | .trace => "TRACE"
  | .connect => "CONNECT"

def HTTPMethod.ofRawValue (rawValue : String) : Option HTTPMethod :=
  [options, get, head, post, put, patch, delete, trace, connect].find? (·.rawValue = rawValue)

/-- The values the encoder tells apart; a number is an integer here. -/
inductive Parameter where
  | string (s : String)
  | int (n : Int)
  | bool (b : Bool)
  | array (values : List Parameter)
  | dictionary (pairs : List (String × Parameter))

/-- The parameters, in the order they are enumerated in; the keys differ. -/
abbrev Parameters := List (String × Parameter)

structure URLRequest where
  url : String
  percentEncodedQuery : Option String := none
  httpMethod : Option String := none
  contentType : Option String := none
  httpBody : Option String := none
deriving DecidableEq, Repr

/-! ## Escaping -/

/-- `CharacterSet.urlQueryAllowed`. -/
def urlQueryAllowed (c : Char) : Bool :=
  c.isAlphanum || "-._~!$&'()*+,;=:@/?".toList.contains c

def generalDelimitersToEncode : String := ":#[]@"

def subDelimitersToEncode : String := "!$&'()*+,;="

def allowedCharacterSet (c : Char) : Bool :=
  urlQueryAllowed c && !(generalDelimitersToEncode ++ subDelimitersToEncode).toList.contains c

def escape (string : String) : String := PercentCoding.encode allowedCharacterSet string

/-! ## Components -/

inductive Destination where
  | methodDependent
  | queryString
  | httpBody
deriving DecidableEq, Repr

inductive ArrayEncoding where
  | brackets
  | noBrackets
deriving DecidableEq, Repr

def ArrayEncoding.encode (key : String) : ArrayEncoding → String
  | .brackets => key ++ "[]"
  | .noBrackets => key

inductive BoolEncoding where
  | numeric
  | literal
deriving DecidableEq, Repr

def BoolEncoding.encode (value : Bool) : BoolEncoding → String
  | .numeric => if value then "1" else "0"
  | .literal => if value then "true" else "false"

structure URLEncoding where
  destination : Destination := .methodDependent
  arrayEncoding : ArrayEncoding := .brackets
  boolEncoding : BoolEncoding := .numeric
deriving DecidableEq, Repr

namespace URLEncoding

mutual

def queryComponents (e : URLEncoding) (key : String) : Parameter → List (String × String)
  | .dictionary pairs => dictionaryComponents e key pairs
  | .array values => arrayComponents e key values
  | .bool value => [(escape key, escape (e.boolEncoding.encode value))]
  | .int value => [(escape key, escape (toString value))]
  | .string value => [(escape key, escape value)]

def dictionaryComponents (e : URLEncoding) (key : String) :
    List (String × Parameter) → List (String × String)
  | [] => []
  | (nestedKey, value) :: pairs =>
      queryComponents e (key ++ "[" ++ nestedKey ++ "]") value ++ dictionaryComponents e key pairs

def arrayComponents (e : URLEncoding) (key : String) : List Parameter → List (String × String)
  | [] => []
  | value :: values =>
      queryComponents e (e.arrayEncoding.encode key) value ++ arrayComponents e key values

end

/-- The components in the order of the sorted keys. -/
def components (e : URLEncoding) (parameters : Parameters) : List (String × String) :=
  (SortedEntries.arrange compare parameters).flatMap fun (key, value) =>
    e.queryComponents key value

def query (e : URLEncoding) (parameters : Parameters) : String :=
  "&".intercalate ((e.components parameters).map fun (name, value) => name ++ "=" ++ value)

def encodesParametersInURL (e : URLEncoding) (method : HTTPMethod) : Bool :=
  match e.destination with
  | .queryString => true
  | .httpBody => false
  | .methodDependent =>
      match method with
      | .get => true
      | .head => true
      | .delete => true
      | _ => false

/-- `percentEncodedQuery` behind the query the URL has. -/
def appendQuery (urlRequest : URLRequest) (query : String) : URLRequest :=
  let before := (urlRequest.percentEncodedQuery.map (· ++ "&")).getD ""
  { urlRequest with percentEncodedQuery := some (before ++ query) }

def setBody (urlRequest : URLRequest) (query : String) : URLRequest :=
  let form := "application/x-www-form-urlencoded; charset=utf-8"
  { urlRequest with
    contentType := some (urlRequest.contentType.getD form)
    httpBody := some query }

def encodesInURL (e : URLEncoding) (urlRequest : URLRequest) : Bool :=
  (HTTPMethod.ofRawValue (urlRequest.httpMethod.getD "GET")).any e.encodesParametersInURL

def encode (e : URLEncoding) (urlRequest : URLRequest) (parameters : Option Parameters) :
    URLRequest :=
  match parameters with
  | none => urlRequest
  | some parameters =>
      if e.encodesInURL urlRequest then
        if parameters.isEmpty then urlRequest else appendQuery urlRequest (e.query parameters)
      else setBody urlRequest (e.query parameters)

end URLEncoding

/-! ## Fields -/

namespace URLEncoding

mutual

/-- The fields a value stands for, not yet escaped. -/
def fields (e : URLEncoding) (key : String) : Parameter → List (String × String)
  | .dictionary pairs => dictionaryFields e key pairs
  | .array values => arrayFields e key values
  | .bool value => [(key, e.boolEncoding.encode value)]
  | .int value => [(key, toString value)]
  | .string value => [(key, value)]

def dictionaryFields (e : URLEncoding) (key : String) :
    List (String × Parameter) → List (String × String)
  | [] => []
  | (nestedKey, value) :: pairs =>
      fields e (key ++ "[" ++ nestedKey ++ "]") value ++ dictionaryFields e key pairs

def arrayFields (e : URLEncoding) (key : String) : List Parameter → List (String × String)
  | [] => []
  | value :: values => fields e (e.arrayEncoding.encode key) value ++ arrayFields e key values

end

/-- The fields of all parameters, by key. -/
def allFields (e : URLEncoding) (parameters : Parameters) : List (String × String) :=
  (SortedEntries.arrange compare parameters).flatMap fun (key, value) => e.fields key value

end URLEncoding

/-! ## The server -/

/-- A plus sign is a space in a form. -/
def formDecode (s : String) : Option String :=
  PercentCoding.decode (String.ofList (s.toList.map fun c => if c = '+' then ' ' else c))

/-- The name ends at the first `=`. -/
def decodeField (part : String) : Option (String × String) := do
  let name ← formDecode (String.ofList (part.toList.takeWhile (· ≠ '=')))
  let value ← formDecode (String.ofList ((part.toList.dropWhile (· ≠ '=')).drop 1))
  return (name, value)

def decodeQuery (query : String) : Option (List (String × String)) :=
  ((VkClient.components query '&').filter (· ≠ "")).mapM decodeField

/-! ## Reading what was escaped -/

def escapeField (field : String × String) : String × String :=
  (escape field.1, escape field.2)

namespace URLEncoding

mutual

theorem queryComponents_eq (e : URLEncoding) (key : String) : (value : Parameter) →
    e.queryComponents key value = (e.fields key value).map escapeField
  | .dictionary pairs => dictionaryComponents_eq e key pairs
  | .array values => arrayComponents_eq e key values
  | .bool _ => rfl
  | .int _ => rfl
  | .string _ => rfl

theorem dictionaryComponents_eq (e : URLEncoding) (key : String) :
    (pairs : List (String × Parameter)) →
      e.dictionaryComponents key pairs = (e.dictionaryFields key pairs).map escapeField
  | [] => rfl
  | (nestedKey, value) :: pairs => by
      rw [dictionaryComponents, dictionaryFields, List.map_append,
        queryComponents_eq e _ value, dictionaryComponents_eq e key pairs]

theorem arrayComponents_eq (e : URLEncoding) (key : String) : (values : List Parameter) →
    e.arrayComponents key values = (e.arrayFields key values).map escapeField
  | [] => rfl
  | value :: values => by
      rw [arrayComponents, arrayFields, List.map_append, queryComponents_eq e _ value,
        arrayComponents_eq e key values]

end

theorem components_eq (e : URLEncoding) (parameters : Parameters) :
    e.components parameters = (e.allFields parameters).map escapeField := by
  rw [components, allFields, List.map_flatMap]
  exact List.flatMap_congr fun pair _ => queryComponents_eq e pair.1 pair.2

end URLEncoding

theorem not_mem_escape {c : Char} (hallowed : allowedCharacterSet c = false)
    (hpercent : c ≠ '%') (hdigit : PercentCoding.hexValue c = none) (s : String) :
    c ∉ (escape s).toList := by
  intro h
  rcases PercentCoding.mem_encode h with h | h | h
  · rw [hallowed] at h
    cases h
  · exact hpercent h
  · rw [hdigit] at h
    cases h

theorem formDecode_escape (s : String) : formDecode (escape s) = some s := by
  have hplus : '+' ∉ (escape s).toList := not_mem_escape (by decide) (by decide) (by decide) s
  have hsame : (escape s).toList.map (fun c => if c = '+' then ' ' else c) = (escape s).toList := by
    refine (List.map_congr_left fun c hc => if_neg ?_).trans (List.map_id _)
    rintro rfl
    exact hplus hc
  rw [formDecode, hsame, String.ofList_toList]
  exact PercentCoding.decode_encode (by decide) s

theorem plain_escape (s : String) : Plain (escape s) :=
  ⟨not_mem_escape (by decide) (by decide) (by decide) s,
    not_mem_escape (by decide) (by decide) (by decide) s⟩

theorem decodeField_encodeParam (field : String × String) :
    decodeField (encodeParam (escapeField field)) = some field := by
  obtain ⟨-, hname⟩ := plain_escape field.1
  have hname' : ∀ c ∈ (escape field.1).toList, (decide (c ≠ '=')) = true := by
    intro c hc
    refine decide_eq_true ?_
    rintro rfl
    exact hname hc
  have hlist : (encodeParam (escapeField field)).toList =
      (escape field.1).toList ++ '=' :: (escape field.2).toList := by
    simp [encodeParam, escapeField]
  rw [decodeField, hlist, List.takeWhile_append_of_pos hname', List.dropWhile_append_of_pos hname']
  simp [formDecode_escape]

theorem mapM_decodeField (fields : List (String × String)) :
    (fields.map fun field => encodeParam (escapeField field)).mapM decodeField = some fields := by
  induction fields with
  | nil => rfl
  | cons field fields ih => simp [decodeField_encodeParam, ih]

theorem encodeParam_ne_empty (param : String × String) : encodeParam param ≠ "" := by
  intro h
  have hlist := congrArg String.toList h
  simp [encodeParam] at hlist

theorem decodeQuery_encodeFragment (fields : List (String × String)) :
    decodeQuery (encodeFragment (fields.map escapeField)) = some fields := by
  by_cases hne : fields = []
  · subst hne
    rfl
  · have hparts : VkClient.components (encodeFragment (fields.map escapeField)) '&' =
        fields.map fun field => encodeParam (escapeField field) := by
      rw [encodeFragment, List.map_map]
      refine components_intercalate (by simpa using hne) ?_
      intro part hpart
      obtain ⟨field, -, rfl⟩ := List.mem_map.mp hpart
      simp [encodeParam, escapeField, (plain_escape field.1).1, (plain_escape field.2).1]
    rw [decodeQuery, hparts, List.filter_eq_self.mpr, mapM_decodeField]
    intro part hpart
    obtain ⟨field, -, rfl⟩ := List.mem_map.mp hpart
    exact decide_eq_true (encodeParam_ne_empty _)

theorem decode_query (e : URLEncoding) (parameters : Parameters) :
    decodeQuery (e.query parameters) = some (e.allFields parameters) := by
  rw [← decodeQuery_encodeFragment, ← e.components_eq]
  rfl

theorem components_append (a b : String) :
    VkClient.components (a ++ "&" ++ b) '&' =
      VkClient.components a '&' ++ VkClient.components b '&' := by
  have hlist : (a ++ "&" ++ b).toList = a.toList ++ '&' :: b.toList := by simp
  rw [VkClient.components, hlist, List.splitOn_append_cons_self, List.map_append,
    VkClient.components, VkClient.components]

theorem decodeQuery_append (a b : String) :
    decodeQuery (a ++ "&" ++ b) =
      (decodeQuery a).bind fun fields => (decodeQuery b).map (fields ++ ·) := by
  rw [decodeQuery, components_append, List.filter_append, List.mapM_append, decodeQuery,
    decodeQuery]
  cases ((VkClient.components a '&').filter (· ≠ "")).mapM decodeField with
  | none => rfl
  | some fields =>
      cases ((VkClient.components b '&').filter (· ≠ "")).mapM decodeField <;> rfl

/-! ## Whole requests -/

def readFields : Option String → Option (List (String × String))
  | none => some []
  | some query => decodeQuery query

def URLRequest.queryFields (r : URLRequest) : Option (List (String × String)) :=
  readFields r.percentEncodedQuery

def URLRequest.bodyFields (r : URLRequest) : Option (List (String × String)) :=
  readFields r.httpBody

namespace URLEncoding

theorem encode_of_url {e : URLEncoding} {r : URLRequest} (h : e.encodesInURL r = true)
    (parameters : Parameters) : e.encode r (some parameters) =
      if parameters.isEmpty then r else appendQuery r (e.query parameters) :=
  if_pos h

theorem encode_of_body {e : URLEncoding} {r : URLRequest} (h : e.encodesInURL r = false)
    (parameters : Parameters) : e.encode r (some parameters) = setBody r (e.query parameters) := by
  simp [encode, h]

theorem queryFields_appendQuery (r : URLRequest) (e : URLEncoding) (parameters : Parameters) :
    (appendQuery r (e.query parameters)).queryFields =
      r.queryFields.map (· ++ e.allFields parameters) := by
  rw [URLRequest.queryFields, URLRequest.queryFields, appendQuery]
  cases r.percentEncodedQuery with
  | none => simp [readFields, decode_query]
  | some query =>
      simp only [Option.map_some, Option.getD_some, readFields, decodeQuery_append, decode_query]
      cases decodeQuery query <;> rfl

/-- **Reading what was written.** Where the parameters go into the URL, a
server reads them behind the fields of the query that was there, and
otherwise in the body; names and values come out as they were put in. -/
theorem encode_read (e : URLEncoding) (r : URLRequest) (parameters : Parameters) :
    (e.encodesInURL r = true →
      (e.encode r (some parameters)).queryFields =
          r.queryFields.map (· ++ e.allFields parameters) ∧
        (e.encode r (some parameters)).httpBody = r.httpBody) ∧
      (e.encodesInURL r = false →
        (e.encode r (some parameters)).bodyFields = some (e.allFields parameters) ∧
          (e.encode r (some parameters)).percentEncodedQuery = r.percentEncodedQuery) := by
  constructor
  · intro h
    rw [encode_of_url h]
    cases parameters with
    | nil =>
        have hnone : e.allFields [] = [] := by simp [allFields, SortedEntries.arrange]
        simp [hnone]
    | cons parameter parameters => exact ⟨queryFields_appendQuery r e _, rfl⟩
  · intro h
    rw [encode_of_body h]
    exact ⟨decode_query e parameters, rfl⟩

theorem distinct_of_nodup {parameters : Parameters} (h : (parameters.map Prod.fst).Nodup) :
    SortedEntries.Distinct compare parameters :=
  (List.pairwise_map.mp h).imp fun hne heq => hne (Std.LawfulEqOrd.eq_of_compare heq)

/-- **The order of enumeration.** A dictionary gives the same request
however it is enumerated. -/
theorem encode_perm (e : URLEncoding) (r : URLRequest) {parameters parameters' : Parameters}
    (h : (parameters.map Prod.fst).Nodup) (hperm : parameters.Perm parameters') :
    e.encode r (some parameters') = e.encode r (some parameters) := by
  have harrange := SortedEntries.arrange_perm (distinct_of_nodup h) hperm
  have hquery : e.query parameters' = e.query parameters := by
    rw [query, query, components, components, harrange]
  have hempty := hperm.isEmpty_eq
  rw [encode, encode, hquery, hempty]

theorem encode_perm_token :
    encode {} { url := baseURL } (some [("access_token", .string "a&b"), ("v", .string "5.52")]) =
      encode {} { url := baseURL }
        (some [("v", .string "5.52"), ("access_token", .string "a&b")]) := by
  have hkeys : (["v", "access_token"] : List String).Nodup := by decide
  have hperm : ([("v", .string "5.52"), ("access_token", .string "a&b")] : Parameters).Perm
      [("access_token", .string "a&b"), ("v", .string "5.52")] := .swap ..
  exact encode_perm {} { url := baseURL } hkeys hperm

end URLEncoding

end Alamofire

/-! ## The requests of the app -/

def HTTPMethod.alamofire : HTTPMethod → Alamofire.HTTPMethod
  | .get => .get
  | .post => .post

def ParameterValue.any : ParameterValue → Alamofire.Parameter
  | .string s => .string s
  | .int n => .int n

def ParameterValue.description : ParameterValue → String
  | .string s => s
  | .int n => toString n

/-- `Alamofire.request`, up to the request it starts. -/
def HTTPRequest.urlRequest (r : HTTPRequest) : Alamofire.URLRequest :=
  let encoding : Alamofire.URLEncoding := {}
  encoding.encode { url := r.url, httpMethod := some r.method.alamofire.rawValue }
    (some (r.parameters.map fun (key, value) => (key, value.any)))

theorem allFields_any (e : Alamofire.URLEncoding) (parameters : List (String × ParameterValue)) :
    (e.allFields (parameters.map fun (key, value) => (key, value.any))).Perm
      (parameters.map fun (key, value) => (key, value.description)) := by
  have hfields : ∀ pair : String × ParameterValue,
      e.fields pair.1 pair.2.any = [(pair.1, pair.2.description)] := by
    rintro ⟨key, value⟩
    cases value <;> rfl
  refine ((List.mergeSort_perm ..).flatMap_right _).trans ?_
  rw [List.flatMap_map, List.map_eq_flatMap]
  exact .of_eq (List.flatMap_congr fun pair _ => hfields pair)

/-- **What the server reads.** Of a GET request the parameters are read from
the query, of a POST request from the body: each one once, with the value it
was given, and nothing else. -/
theorem request_read (r : HTTPRequest) :
    ∃ fields, fields.Perm (r.parameters.map fun (key, value) => (key, value.description)) ∧
      match r.method with
      | .get => r.urlRequest.queryFields = some fields ∧ r.urlRequest.httpBody = none
      | .post =>
          r.urlRequest.bodyFields = some fields ∧ r.urlRequest.percentEncodedQuery = none := by
  obtain ⟨url, method, parameters⟩ := r
  refine ⟨_, allFields_any {} parameters, ?_⟩
  have hread := Alamofire.URLEncoding.encode_read {}
    { url := url, httpMethod := some method.alamofire.rawValue }
    (parameters.map fun (key, value) => (key, value.any))
  cases method with
  | get => exact hread.1 rfl
  | post => exact hread.2 rfl

end VkClient
