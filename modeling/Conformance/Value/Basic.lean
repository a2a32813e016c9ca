import Conformance.Binary64.Basic
import Conformance.Value.Entries
import Conformance.Value.Instant
import Conformance.Value.Kind
import Conformance.Value.Uuid

/-!
# Structured values

The values that messages are made of: scalars of nine kinds, arrays, and maps with text keys.

* `Value.kind`, `Value.get?` and the accessors `Value.asBoolean?`, … — what a value holds.
* `Value.equal` — equality of content, by which no value with a `nan` in it equals itself.
* `Value.Tidy` — the entries of every map, at every depth, are in the order of their keys.
-/

set_option autoImplicit false

namespace Conformance

/-- The integer as a 32-bit value, where it is in range. -/
def int32? (i : Int) : Option Int32 :=
  if -2147483648 ≤ i ∧ i ≤ 2147483647 then some (Int32.ofInt i) else none

/-- A structured value. `undefined` as the value at a key differs from the key being absent. -/
inductive Value where
  | undefined
  | boolean (b : Bool)
  | integer (i : Int32)
  | real (r : Binary64)
  | string (text : String)
  | uuid (u : Uuid)
  | date (t : Instant)
  | uri (text : String)
  | binary (bytes : List UInt8)
  | array (items : List Value)
  | map (entries : List (String × Value))

/-- A value was asked for as a kind that it is not of. -/
structure KindMismatch where
  expected : Kind
  found : Kind
  deriving DecidableEq, Repr

/-- The message about a value of the wrong kind. -/
def KindMismatch.message (e : KindMismatch) : String :=
  "expected " ++ e.expected.name ++ " value, found " ++ e.found.name

namespace Value

def kind : Value → Kind
  | .undefined => .undefined
  | .boolean _ => .boolean
  | .integer _ => .integer
  | .real _ => .real
  | .string _ => .string
  | .uuid _ => .uuid
  | .date _ => .date
  | .uri _ => .uri
  | .binary _ => .binary
  | .array _ => .array
  | .map _ => .map

def isUndefined : Value → Bool
  | .undefined => true
  | _ => false

/-- The value at a key of a map. -/
def get? (v : Value) (key : String) : Option Value :=
  match v with
  | .map entries => Entries.get? entries key
  | _ => none

/-- The value asked for as a kind that it is not of. -/
def mismatch {α : Type} (v : Value) (expected : Kind) : Except KindMismatch α :=
  .error ⟨expected, v.kind⟩

def asBoolean : Value → Except KindMismatch Bool
  | .boolean b => .ok b
  | v => v.mismatch .boolean

def asInteger : Value → Except KindMismatch Int32
  | .integer i => .ok i
  | v => v.mismatch .integer

def asReal : Value → Except KindMismatch Binary64
  | .real r => .ok r
  | v => v.mismatch .real

def asString : Value → Except KindMismatch String
  | .string text => .ok text
  | v => v.mismatch .string

def asUri : Value → Except KindMismatch String
  | .uri text => .ok text
  | v => v.mismatch .uri

def asUuid : Value → Except KindMismatch Uuid
  | .uuid u => .ok u
  | v => v.mismatch .uuid

def asDate : Value → Except KindMismatch Instant
  | .date t => .ok t
  | v => v.mismatch .date

def asBinary : Value → Except KindMismatch (List UInt8)
  | .binary bytes => .ok bytes
  | v => v.mismatch .binary

def asArray : Value → Except KindMismatch (List Value)
  | .array items => .ok items
  | v => v.mismatch .array

def asMap : Value → Except KindMismatch (Entries Value)
  | .map entries => .ok entries
  | v => v.mismatch .map

mutual

/-- Equality of content: numbers compare as numbers, and an integer never equals a real. -/
def equal : Value → Value → Bool
  | .undefined, .undefined => true
  | .boolean a, .boolean b => a == b
  | .integer i, .integer j => i == j
  | .real r, .real s => r.equal s
  | .string s, .string t => s == t
  | .uuid u, .uuid v => u == v
  | .date s, .date t => s == t
  | .uri s, .uri t => s == t
  | .binary a, .binary b => a == b
  | .array a, .array b => equalItems a b
  | .map a, .map b => equalEntries a b
  | _, _ => false

/-- Equality of arrays, item by item. -/
def equalItems : List Value → List Value → Bool
  | [], [] => true
  | v :: vs, w :: ws => v.equal w && equalItems vs ws
  | _, _ => false

/-- Equality of maps, entry by entry in the order of the keys. -/
def equalEntries : List (String × Value) → List (String × Value) → Bool
  | [], [] => true
  | (k, v) :: rest, (l, w) :: others => k == l && v.equal w && equalEntries rest others
  | _, _ => false

end

mutual

/-- The entries of every map in the value are in the order of their keys. -/
def Tidy : Value → Prop
  | .array items => TidyItems items
  | .map entries => Entries.Sorted entries ∧ TidyEntries entries
  | _ => True

/-- Every item is tidy. -/
def TidyItems : List Value → Prop
  | [] => True
  | v :: vs => v.Tidy ∧ TidyItems vs

/-- Every value at a key is tidy. -/
def TidyEntries : List (String × Value) → Prop
  | [] => True
  | (_, v) :: rest => v.Tidy ∧ TidyEntries rest

end

theorem tidyItems_iff {items : List Value} : TidyItems items ↔ ∀ v ∈ items, v.Tidy := by
  induction items with
  | nil => simp [TidyItems]
  | cons v items ih => simp [TidyItems, ih]

theorem tidyEntries_iff {entries : List (String × Value)} :
    TidyEntries entries ↔ ∀ e ∈ entries, e.2.Tidy := by
  induction entries with
  | nil => simp [TidyEntries]
  | cons e entries ih => simp [TidyEntries, ih]

end Value

end Conformance
