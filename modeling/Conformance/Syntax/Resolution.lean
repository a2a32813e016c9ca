import Conformance.Suite
import Conformance.Syntax.Fault

/-!
# Checks that need all definitions

A name may be used before it is defined, so what depends on definitions is checked once a whole text has
been read: that every name is defined, that no name stands for itself, that selectors can choose, and
that declared defaults fit.

* `Check` — what was noted down while reading.
* `Definitions.isCyclic` — a name leads back to itself through bare names.
* `resolve` — carries out all checks; the first fault is reported.
-/

set_option autoImplicit false

namespace Conformance

/-- Something to be checked once all definitions are known. -/
inductive Check where
  /-- A name was used. -/
  | reference (name : String) (position : Position)
  /-- A selector was read; each alternative comes with the position of its key. -/
  | selector (discriminant : String) (alternatives : List (Position × Alternative Node))
  /-- A default was declared for a node. -/
  | default (node : Node) (literal : Value) (position : Position)

/-- The name that a node refers to, if it is nothing but a name. -/
def Node.bareName? : Node → Option String
  | .reference name => some name
  | _ => none

namespace Definitions

/-- The names that a name stands for directly. -/
def successors (definitions : Definitions) (name : String) : List String :=
  (definitions.nodes name).filterMap Node.bareName?

/-- Searches for a name among those that the pending names lead to, with names already seen passed
over; the first `Nat` bounds the number of names looked at. -/
def leadsTo (definitions : Definitions) (goal : String) : Nat → List String → List String → Bool
  | 0, _, _ => false
  | _, [], _ => false
  | steps + 1, name :: pending, seen =>
    let next := definitions.successors name
    if next.contains goal then true
    else
      let fresh := (next.filter fun n => !seen.contains n).eraseDups
      leadsTo definitions goal steps (fresh ++ pending) (fresh ++ seen)

/-- A chain of bare names leads from a name back to itself. Each name looked at, the first apart, is a node
of its own in the definitions, which bounds the search. -/
def isCyclic (definitions : Definitions) (name : String) : Bool :=
  definitions.leadsTo name (definitions.size + 1) [name] []

end Definitions

/-- A node whose values can serve as discriminants. -/
def Node.isDiscriminant : Node → Bool
  | .literal v => v.isDiscriminant
  | .primitive kind => kind == .string || kind == .integer
  | _ => false

/-- The node of a declared discriminant takes a key as it is. -/
def Node.acceptsKey (key : Value) : Node → Bool
  | .literal v => v.equal key
  | .primitive kind => kind == key.kind
  | _ => false

/-- An alternative is a map, and the discriminant it may declare accepts its key. -/
def checkAlternative (definitions : Definitions) (discriminant : String) (position : Position)
    (a : Alternative Node) : Except ParseError Unit :=
  match definitions.resolveMap? a.node with
  | none => .error (.structural .selectorAlternativeNotMap none position)
  | some fields =>
    match Field.find? fields discriminant with
    | none => .ok ()
    | some f =>
      if !f.node.isDiscriminant then
        .error (.structural .selectorDiscriminantNotScalar (some discriminant) position)
      else if !f.node.acceptsKey a.key then
        .error (.structural .selectorKeyRejected
          (some (discriminant ++ " is declared as " ++ f.node.text)) position)
      else .ok ()

/-- A declared default can be converted by its node. -/
def checkDefault (definitions : Definitions) (maxDepth : Nat) (node : Node) (literal : Value)
    (position : Position) : Except ParseError Unit :=
  match (compare definitions maxDepth node literal).map Grading.outcome with
  | some .incompatible =>
    .error (.structural .incompatibleDefault (some (literal.text ++ " for " ++ node.text)) position)
  | _ => .ok ()

/-- Carries out one check, names apart. -/
def Check.run (definitions : Definitions) (maxDepth : Nat) : Check → Except ParseError Unit
  | .reference _ _ => .ok ()
  | .selector discriminant alternatives =>
    alternatives.forM fun a => checkAlternative definitions discriminant a.1 a.2
  | .default node literal position => checkDefault definitions maxDepth node literal position

/-- The use of a name without a definition. -/
def Check.undefinedName? (definitions : Definitions) : Check → Option (String × Position)
  | .reference name position =>
    if (Entries.get? definitions name).isSome then none else some (name, position)
  | _ => none

/-- Every name that is used is defined. All undefined names are reported together. -/
def checkNames (definitions : Definitions) (checks : List Check) : Except ParseError Unit :=
  match checks.filterMap (Check.undefinedName? definitions) with
  | [] => .ok ()
  | (name, position) :: more =>
    let names := (name :: more.map Prod.fst).eraseDups
    .error (.structural .undefinedNames (some (String.intercalate ", " names)) position)

/-- No name stands for itself. The names come with the position of their first definition. -/
def checkCycles (definitions : Definitions) (positions : Entries Position) :
    Except ParseError Unit :=
  match positions.find? fun e => definitions.isCyclic e.1 with
  | none => .ok ()
  | some (name, position) => .error (.structural .cyclicName (some name) position)

/-- Carries out all checks: names, then cycles, then the others in the order of the text. -/
def resolve (definitions : Definitions) (positions : Entries Position) (maxDepth : Nat)
    (checks : List Check) : Except ParseError Unit := do
  checkNames definitions checks
  checkCycles definitions positions
  checks.forM (Check.run definitions maxDepth)

end Conformance
