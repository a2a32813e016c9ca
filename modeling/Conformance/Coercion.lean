import Conformance.Decimal
import Conformance.Value.Notation
import Conformance.Value.UriReference

/-!
# Coercion of scalars

How a value becomes a value of a required kind. A value of the kind stays as it is, `undefined` becomes
the zero value of the kind, and some values of other kinds are converted:

* to boolean: the integers and reals 0 and 1, the texts `""` and `"true"`;
* to integer: booleans, reals and numeric texts that are integers of 32 bits;
* to real: booleans, integers, finite numeric texts;
* to string: booleans, integers, reals, UUIDs, dates and URIs;
* to UUID, date, URI: texts of that form.

The empty text counts as `undefined` for integer, real, UUID, date and URI.
-/

set_option autoImplicit false

namespace Conformance

/-- The value that stands for missing data of a kind. -/
def Kind.zero : Kind → Value
  | .undefined => .undefined
  | .boolean => .boolean false
  | .integer => .integer 0
  | .real => .real .zero
  | .string => .string ""
  | .uuid => .uuid .nil
  | .date => .date .epoch
  | .uri => .uri ""
  | .binary => .binary []
  | .array => .array []
  | .map => .map []

theorem Kind.kind_zero (kind : Kind) : kind.zero.kind = kind := by cases kind <;> rfl

/-- What becomes of a value where a kind is required. -/
inductive Coercion where
  /-- The value is of the kind already. -/
  | matched
  /-- The value is converted without loss. -/
  | converted (value : Value)
  /-- The value is missing or empty and is replaced by the zero value. -/
  | defaulted (value : Value)
  /-- No conversion is safe. -/
  | incompatible

namespace Coercion

/-- A conversion that may fail. -/
def ofOption : Option Value → Coercion
  | some value => .converted value
  | none => .incompatible

/-- The finite number that a text writes. -/
def number? (text : String) : Option Binary64 :=
  ((Decimal.ofText? text.toList).map Decimal.toBinary64).filter Binary64.isFinite

/-- The integer value that a number is. -/
def integer? (r : Binary64) : Option Value :=
  (r.toInt?.bind int32?).map Value.integer

def toBoolean? : Value → Option Bool
  | .integer i => if i = 0 then some false else if i = 1 then some true else none
  | .real r =>
    if r.equal .zero then some false else if r.equal (.ofInt 1) then some true else none
  | .string text => if text = "" then some false else if text = "true" then some true else none
  | _ => none

def toInteger? : Value → Option Value
  | .boolean b => some (.integer (if b then 1 else 0))
  | .real r => integer? r
  | .string text => (number? text).bind integer?
  | _ => none

def toReal? : Value → Option Binary64
  | .boolean b => some (if b then .ofInt 1 else .zero)
  | .integer i => some (.ofInt i.toInt)
  | .string text => number? text
  | _ => none

def toText? : Value → Option String
  | .boolean b => some (if b then "true" else "")
  | .integer i => some (String.ofList (Digits.ofInt i.toInt))
  | .real r => some (String.ofList r.plainText)
  | .uuid u => some u.text
  | .date t => some t.text
  | .uri text => some text
  | _ => none

def toUuid? : Value → Option Uuid
  | .string text => Uuid.ofText? text.toList
  | _ => none

def toDate? : Value → Option Instant
  | .string text => Instant.ofText? text.toList
  | _ => none

def toUri? : Value → Option String
  | .string text => if UriReference.isValid text.toList then some text else none
  | _ => none

/-- The value of another kind that a value is converted to. -/
def convert? (target : Kind) (value : Value) : Option Value :=
  match target with
  | .boolean => (toBoolean? value).map .boolean
  | .integer => toInteger? value
  | .real => (toReal? value).map .real
  | .string => (toText? value).map .string
  | .uuid => (toUuid? value).map .uuid
  | .date => (toDate? value).map .date
  | .uri => (toUri? value).map .uri
  | .undefined | .binary | .array | .map => none

/-- The kinds for which the empty text counts as missing data. -/
def emptyTextIsMissing : Kind → Bool
  | .integer | .real | .uuid | .date | .uri => true
  | _ => false

/-- The value is missing data as far as the kind is concerned. -/
def isMissing (target : Kind) : Value → Bool
  | .undefined => true
  | .string text => text.isEmpty && emptyTextIsMissing target
  | _ => false

end Coercion

/-- Coerces a value to a kind. -/
def coerce (target : Kind) (value : Value) : Coercion :=
  if value.kind = target then .matched
  else if Coercion.isMissing target value then .defaulted target.zero
  else .ofOption (Coercion.convert? target value)

theorem Coercion.kind_of_integer? {r : Binary64} {w : Value} (h : integer? r = some w) :
    w.kind = .integer := by
  obtain ⟨i, -, rfl⟩ := Option.map_eq_some_iff.1 h
  rfl

theorem Coercion.kind_of_toInteger? {v w : Value} (h : toInteger? v = some w) :
    w.kind = .integer := by
  unfold toInteger? at h
  split at h
  · cases h
    rfl
  · exact kind_of_integer? h
  · obtain ⟨r, -, h⟩ := Option.bind_eq_some_iff.1 h
    exact kind_of_integer? h
  · cases h

/-- What a value is converted to is of the kind that was asked for. -/
theorem Coercion.kind_of_convert? {target : Kind} {v w : Value} (h : convert? target v = some w) :
    w.kind = target := by
  unfold convert? at h
  split at h
  case h_2 => exact kind_of_toInteger? h
  all_goals
    first
    | cases h
    | obtain ⟨x, -, rfl⟩ := Option.map_eq_some_iff.1 h
      rfl

theorem Coercion.isMissing_text {target : Kind} {text : String} (hne : text ≠ "") :
    isMissing target (.string text) = false := by
  simp [isMissing, hne]

/-- A value of another kind that is not missing is converted, or else it is incompatible. -/
theorem coerce_of_present {target : Kind} {v : Value} (hkind : v.kind ≠ target)
    (hpresent : Coercion.isMissing target v = false) :
    coerce target v = .ofOption (Coercion.convert? target v) := by
  unfold coerce
  rw [if_neg hkind, hpresent]
  rfl

theorem coerce_eq_matched {target : Kind} {v : Value} :
    coerce target v = .matched ↔ v.kind = target := by
  unfold coerce
  split
  · rename_i h
    simp [h]
  · rename_i h
    split
    · simp [h]
    · simp only [h, iff_false]
      cases Coercion.convert? target v <;> simp [Coercion.ofOption]

/-- A coercion changes values of other kinds only: into what stands for missing data of the kind, or into
what they are converted to. -/
theorem coerce_cases {target : Kind} {v w : Value}
    (h : coerce target v = .converted w ∨ coerce target v = .defaulted w) :
    v.kind ≠ target ∧ (w = target.zero ∨ Coercion.convert? target v = some w) := by
  unfold coerce at h
  split at h
  · simp at h
  · rename_i hkind
    refine ⟨hkind, ?_⟩
    split at h
    · have hzero : target.zero = w := by simpa using h
      exact .inl hzero.symm
    · cases hw : Coercion.convert? target v with
      | none => simp [hw, Coercion.ofOption] at h
      | some u => exact .inr (by simpa [hw, Coercion.ofOption] using h)

/-- A value that a coercion changes gets the kind that was asked for, which it did not have before. -/
theorem kind_of_coerce {target : Kind} {v w : Value}
    (h : coerce target v = .converted w ∨ coerce target v = .defaulted w) :
    w.kind = target ∧ v.kind ≠ target := by
  obtain ⟨hkind, rfl | hw⟩ := coerce_cases h
  · exact ⟨target.kind_zero, hkind⟩
  · exact ⟨Coercion.kind_of_convert? hw, hkind⟩

end Conformance
