import Conformance.Grading.Outcome
import Conformance.Text.Digits
import Conformance.Value.Notation

/-!
# Findings

What a comparison decided at a place where the value does not conform as it is.

* `Step`, `pointerCharacters` — the way from a value to a part of it, and its text as a JSON pointer.
* `Reason` — the cause; `Reason.outcome` is the grade it gives.
* `Finding` — a cause at a place.
* `Grading` — the result of a comparison: a grade, the converted value, and the findings.
-/

set_option autoImplicit false

namespace Conformance

/-- One step from a value to a part of it. -/
inductive Step where
  | key (name : String)
  | index (i : Nat)
  deriving DecidableEq, Repr

/-- One step as a segment of a pointer, where a tilde is written `~0` and a slash `~1`. -/
def Step.characters : Step → List Char
  | .key name =>
    name.toList.flatMap fun c =>
      if c = '~' then ['~', '0'] else if c = '/' then ['~', '1'] else [c]
  | .index i => Digits.ofNat i

/-- The pointer to a place: a slash and a segment for each step. -/
def pointerCharacters (path : List Step) : List Char :=
  path.flatMap fun step => '/' :: step.characters

/-- The pointer to a place as text. -/
def pointerText (path : List Step) : String := String.ofList (pointerCharacters path)

/-- Why a part of a value does not conform as it is. -/
inductive Reason where
  /-- A scalar was converted. -/
  | converted (source target : Kind)
  /-- Missing or empty data was replaced by the zero value. -/
  | defaulted
  /-- The default was put in for a key that may be absent. -/
  | missingOptional
  /-- The default was put in for an array element. -/
  | missingElement
  /-- The value at a key that is not declared was dropped. -/
  | undeclaredKey
  /-- An array item without an element node was dropped. -/
  | extraElement
  /-- A scalar cannot be converted. -/
  | notConvertible (source target : Kind)
  /-- The value has no parts of the required sort. -/
  | wrongKind (expected found : Kind)
  /-- A key that must be present is absent. -/
  | missingRequired
  /-- The value is not the required one. -/
  | literalMismatch (expected : Value)
  /-- The value at the discriminant cannot choose an alternative. -/
  | badDiscriminant (key : String)
  /-- The value at the discriminant chooses no alternative. -/
  | unknownAlternative (key : Value)
  /-- A name has no definition. -/
  | unknownName (name : String)
  /-- The value is nested too deep to be looked at. -/
  | depthExceeded

namespace Reason

/-- The grade that a reason gives. -/
def outcome : Reason → Outcome
  | .converted _ _ => .converted
  | .defaulted | .missingOptional | .missingElement => .defaulted
  | .undeclaredKey | .extraElement => .additional
  | .notConvertible _ _ | .wrongKind _ _ | .missingRequired | .literalMismatch _
  | .badDiscriminant _ | .unknownAlternative _ | .unknownName _ | .depthExceeded => .incompatible

/-- The explanation of a reason. -/
def text : Reason → String
  | .converted source target => "converted " ++ source.name ++ " to " ++ target.name
  | .defaulted => "undefined or empty value replaced by the default"
  | .missingOptional => "missing optional key filled in with the default"
  | .missingElement => "missing array element filled in with the default"
  | .undeclaredKey => "undeclared key dropped"
  | .extraElement => "extra array element dropped"
  | .notConvertible source target => "cannot convert " ++ source.name ++ " to " ++ target.name
  | .wrongKind expected found => "expected " ++ expected.name ++ ", found " ++ found.name
  | .missingRequired => "missing required key"
  | .literalMismatch expected => "value does not equal the literal " ++ expected.text
  | .badDiscriminant key => "selector key " ++ key ++ " is missing or not a string or integer"
  | .unknownAlternative key => "no selector alternative for " ++ key.text
  | .unknownName name => "no definition named " ++ name
  | .depthExceeded => "maximum nesting depth exceeded"

end Reason

/-- A reason at a place, given by the steps to it. -/
structure Finding where
  path : List Step
  reason : Reason

namespace Finding

/-- The grade of the decision. -/
def outcome (f : Finding) : Outcome := f.reason.outcome

/-- The finding as seen from one step further out. -/
def under (step : Step) (f : Finding) : Finding := { f with path := step :: f.path }

/-- The finding as one line. -/
def text (f : Finding) : String :=
  let place := if f.path.isEmpty then "the root of the value" else pointerText f.path
  f.outcome.name ++ " at " ++ place ++ ": " ++ f.reason.text

end Finding

/-- The result of comparing a value with a node. -/
structure Grading where
  outcome : Outcome
  /-- The converted value, or the value itself where it is incompatible. -/
  value : Value
  findings : List Finding

/-- The grade of a value is below the one required. -/
structure GradeTooLow where
  outcome : Outcome
  threshold : Outcome
  findings : List Finding

/-- The message about a grade that is too low. -/
def GradeTooLow.message (e : GradeTooLow) : String :=
  "value graded " ++ e.outcome.name ++ ", at least " ++ e.threshold.name ++ " required"

namespace Grading

/-- The value conforms as it is. -/
def matched (v : Value) : Grading := ⟨.matched, v, []⟩

/-- One decision about the value as a whole. -/
def decided (reason : Reason) (v : Value) : Grading := ⟨reason.outcome, v, [⟨[], reason⟩]⟩

/-- The value has no parts of the required sort. -/
def wrongKind (expected : Kind) (v : Value) : Grading := decided (.wrongKind expected v.kind) v

/-- Some finding has the given grade. -/
def has (g : Grading) (outcome : Outcome) : Bool := g.findings.any fun f => f.outcome == outcome

/-- The converted value, if the grade is no worse than the threshold. -/
def check (g : Grading) (threshold : Outcome) : Except GradeTooLow Value :=
  if threshold ≤ g.outcome then .ok g.value else .error ⟨g.outcome, threshold, g.findings⟩

end Grading

end Conformance
