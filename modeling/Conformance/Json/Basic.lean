import Conformance.Text.Base64
import Conformance.Value.Basic

/-!
# JSON values

The values of JSON, and the way to structured values and back. JSON has fewer kinds: on the way out a
UUID, a date and a URI become strings, bytes become base64 text, and a number that is not finite becomes
null.

* `Json.toValue` — the structured value of a JSON value.
* `Json.ofValue` — the JSON value of a structured value.
-/

set_option autoImplicit false

namespace Conformance

/-- A JSON value. Numbers written as integers are kept as such; the members of an object are in the order
of their names. -/
inductive Json where
  | null
  | boolean (b : Bool)
  | integer (i : Int)
  | real (r : Binary64)
  | string (text : String)
  | array (items : List Json)
  | object (members : List (String × Json))

namespace Json

mutual

/-- An integer of 32 bits is an integer, any other number a real. -/
def toValue : Json → Value
  | .null => .undefined
  | .boolean b => .boolean b
  | .integer i =>
    match int32? i with
    | some n => .integer n
    | none => .real (.ofInt i)
  | .real r => .real r
  | .string text => .string text
  | .array items => .array (itemsToValues items)
  | .object members => .map (membersToValues members)

def itemsToValues : List Json → List Value
  | [] => []
  | j :: js => j.toValue :: itemsToValues js

def membersToValues : List (String × Json) → List (String × Value)
  | [] => []
  | (k, j) :: rest => (k, j.toValue) :: membersToValues rest

end

mutual

/-- What JSON has no kind for becomes text, and what is no number becomes null. -/
def ofValue : Value → Json
  | .undefined => .null
  | .boolean b => .boolean b
  | .integer i => .integer i.toInt
  | .real r => if r.isFinite then .real r else .null
  | .string text => .string text
  | .uuid u => .string u.text
  | .date t => .string t.text
  | .uri text => .string text
  | .binary bytes => .string (String.ofList (Base64.encode bytes))
  | .array items => .array (ofItems items)
  | .map entries => .object (ofEntries entries)

def ofItems : List Value → List Json
  | [] => []
  | v :: vs => ofValue v :: ofItems vs

def ofEntries : List (String × Value) → List (String × Json)
  | [] => []
  | (k, v) :: rest => (k, ofValue v) :: ofEntries rest

end

end Json

end Conformance
