import Conformance.Grading.Compare
import Conformance.Schema.Text

/-!
# Suites and single schemas

A suite is a set of named resources with the definitions their bodies refer to. Each resource has a body
for requests and one for responses, and values are graded against either. A schema is one body by itself.

* `Suite.compare`, `Suite.check` — grade a value against a body of a resource.
* `Schema.compare`, `Schema.check` — grade a value against a schema.
* `Suite.text` — the text of a suite: its definitions, then its resources.
-/

set_option autoImplicit false

namespace Conformance

/-- Which of the two bodies of a resource is meant. -/
inductive Direction where
  | request
  | response
  deriving DecidableEq, Repr

/-- How a resource is accessed. -/
inductive Access where
  /-- A request is answered by a response. -/
  | post
  /-- The resource is only read. -/
  | get
  /-- The resource is only written. -/
  | put
  /-- The resource is read and written with one body. -/
  | getPut
  /-- The resource is read and written with one body, and can be deleted. -/
  | getPutDelete
  deriving DecidableEq, Repr

/-- The arrow by which a declaration names the access. -/
def Access.arrow : Access → String
  | .post => "->"
  | .get => "<<"
  | .put => ">>"
  | .getPut => "<>"
  | .getPutDelete => "<x>"

/-- A named resource. A body that its access has no use for describes any value. -/
structure Resource where
  name : String
  access : Access
  request : Node
  response : Node

namespace Resource

/-- The body for a direction. -/
def body (r : Resource) : Direction → Node
  | .request => r.request
  | .response => r.response

/-- Equality of declarations. -/
def equal (r s : Resource) : Bool :=
  r.name == s.name && r.access == s.access && r.request.equal s.request &&
    r.response.equal s.response

/-- The characters of the declaration. -/
def characters (r : Resource) : List Char :=
  "%% ".toList ++ r.name.toList ++
    match r.access with
    | .post =>
      "\n-> ".toList ++ r.request.characters ++ "\n<- ".toList ++ r.response.characters
    | .get => " << ".toList ++ r.response.characters
    | .put | .getPut | .getPutDelete =>
      ' ' :: r.access.arrow.toList ++ ' ' :: r.request.characters

/-- The text of the declaration. -/
def text (r : Resource) : String := String.ofList r.characters

end Resource

/-- Why a value could not be graded, or not be accepted. -/
inductive SuiteError where
  | unknownResource (name : String)
  | unknownDirection (name : String)
  | gradeTooLow (cause : GradeTooLow)

/-- The message about an error. -/
def SuiteError.message : SuiteError → String
  | .unknownResource name => "unknown resource " ++ name
  | .unknownDirection name =>
    "unknown direction " ++ name ++ ", expected request or response"
  | .gradeTooLow cause => cause.message

namespace Direction

def name : Direction → String
  | .request => "request"
  | .response => "response"

/-- Reads the name of a direction in any mixture of cases. -/
def ofText? (text : String) : Except SuiteError Direction :=
  let lower := text.toList.map Char.toLower
  if lower = (name .request).toList then .ok .request
  else if lower = (name .response).toList then .ok .response
  else .error (.unknownDirection text)

end Direction

/-- Resources, in the order of their names, with the definitions they refer to. -/
structure Suite where
  resources : Entries Resource
  definitions : Definitions
  maxDepth : Nat := defaultMaxDepth

namespace Suite

/-- The resource of a name. -/
def resource (s : Suite) (name : String) : Except SuiteError Resource :=
  match Entries.get? s.resources name with
  | some r => .ok r
  | none => .error (.unknownResource name)

/-- The body of a resource for a direction. -/
def body (s : Suite) (name : String) (direction : Direction) : Except SuiteError Node :=
  (s.resource name).map fun r => r.body direction

/-- Grades a value against a body of a resource. -/
def compare (s : Suite) (name : String) (direction : Direction) (v : Value) :
    Except SuiteError (Option Grading) :=
  (s.body name direction).map fun node => Conformance.compare s.definitions s.maxDepth node v

/-- The converted value, if its grade is no worse than the threshold. -/
def check (s : Suite) (name : String) (direction : Direction) (v : Value) (threshold : Outcome) :
    Except SuiteError (Option Value) := do
  match ← s.compare name direction v with
  | none => return none
  | some g =>
    match g.check threshold with
    | .ok w => return some w
    | .error cause => throw (.gradeTooLow cause)

/-- Equality of resources, one by one in the order of their names. -/
def equalResources : Entries Resource → Entries Resource → Bool
  | [], [] => true
  | (a, r) :: rest, (b, s) :: others => a == b && r.equal s && equalResources rest others
  | _, _ => false

/-- Equality of suites. -/
def equal (s t : Suite) : Bool :=
  equalResources s.resources t.resources && s.definitions.equal t.definitions &&
    s.maxDepth == t.maxDepth

/-- The characters of the text of a suite. -/
def characters (s : Suite) : List Char :=
  s.definitions.characters ++ s.resources.flatMap fun e => e.2.characters ++ ['\n']

/-- The text of a suite. -/
def text (s : Suite) : String := String.ofList s.characters

end Suite

/-- A body by itself, without definitions. -/
structure Schema where
  node : Node
  maxDepth : Nat := defaultMaxDepth

namespace Schema

/-- Grades a value. -/
def compare (s : Schema) (v : Value) : Option Grading := Conformance.compare [] s.maxDepth s.node v

/-- The converted value, if its grade is no worse than the threshold. -/
def check (s : Schema) (v : Value) (threshold : Outcome) : Option (Except GradeTooLow Value) :=
  (s.compare v).map fun g => g.check threshold

/-- Equality of schemas. -/
def equal (s t : Schema) : Bool := s.node.equal t.node && s.maxDepth == t.maxDepth

/-- The text of a schema. -/
def text (s : Schema) : String := s.node.text

end Schema

end Conformance
