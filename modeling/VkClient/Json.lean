import Mathlib.Data.List.Basic

/-!
# JSON values and their readers

The part of SwiftyJSON the parsers go through. A value is what
`JSONSerialization` makes of the bytes it is given; the readers never fail.
A subscript on a missing key or on anything but a dictionary gives `null`,
and `arrayValue`, `stringValue` and `intValue` answer for a value of the
wrong type with the empty array, the empty string and zero.

What Foundation contributes is the parameter `Foundation`: the deserializer
and the reading of a decimal string.
-/

namespace VkClient

abbrev Data := List UInt8

/-- A JSON number, known by the two readings the parsers take of it. -/
structure NSNumber where
  intValue : Int
  stringValue : String
deriving DecidableEq, Repr

inductive JSON where
  | null
  | bool (b : Bool)
  | number (n : NSNumber)
  | string (s : String)
  | array (elements : List JSON)
  | dictionary (entries : List (String × JSON))

/-- `JSONSerialization.jsonObject(with:)`, which throws on bytes that are not
a JSON array or object, and `NSDecimalNumber(string:).intValue`, which is
zero for a string that is no number. -/
structure Foundation where
  jsonObject : Data → Except String JSON
  decimalIntValue : String → Int

namespace JSON

def key (json : JSON) (k : String) : JSON :=
  match json with
  | .dictionary entries => (entries.lookup k).getD .null
  | _ => .null

def array? : JSON → Option (List JSON)
  | .array elements => some elements
  | _ => none

def arrayValue (json : JSON) : List JSON := json.array?.getD []

def stringValue : JSON → String
  | .string s => s
  | .number n => n.stringValue
  | .bool b => if b then "true" else "false"
  | _ => ""

def intValue (F : Foundation) : JSON → Int
  | .string s => F.decimalIntValue s
  | .number n => n.intValue
  | .bool b => if b then 1 else 0
  | _ => 0

def firstOfType (elements : List JSON) (t : String) : Option JSON :=
  elements.find? fun json => (json.key "type").stringValue == t

/-- The elements of one type, in their order. -/
def ofType (elements : List JSON) (t : String) : List JSON :=
  elements.filter fun json => (json.key "type").stringValue == t

theorem head?_ofType (elements : List JSON) (t : String) :
    (ofType elements t).head? = firstOfType elements t :=
  List.head?_filter ..

theorem firstOfType_eq_none_iff {elements : List JSON} {t : String} :
    firstOfType elements t = none ↔ ofType elements t = [] := by
  rw [← head?_ofType, List.head?_eq_none_iff]

theorem mem_ofType_of_firstOfType {elements : List JSON} {t : String} {json : JSON}
    (h : firstOfType elements t = some json) : json ∈ ofType elements t := by
  rw [← head?_ofType] at h
  exact List.mem_of_head? h

end JSON

end VkClient
