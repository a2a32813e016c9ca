import Conformance.Coercion
import Conformance.Grading.Finding
import Conformance.Schema.Node

/-!
# Defaults

The value that is put in where a value has nothing at a place that a node describes. A name that is
already being expanded gives `undefined`, which ends the expansion of most recursive definitions. It does
not end that of a selector whose first alternative leads back to the selector, for that alternative is
looked up past its name: such a default has no value, and `defaultOf` gives `none`.

* `defaultOf` — the default of a node.
* `fieldDefault` — the default of a field, which a declared default takes precedence over.
-/

set_option autoImplicit false

namespace Conformance

/-- The default of a field: the declared one, converted by the field's node, where that is possible, and
the default of the node otherwise. -/
def fieldDefault (convert : Node → Value → Option Grading) (fill : Node → Option Value)
    (f : Field Node) : Option Value :=
  match f.default? with
  | none => fill f.node
  | some literal => do
    let g ← convert f.node literal
    if g.outcome.isValid then some g.value else fill f.node

/-- The map that a selector chooses carries the key by which it was chosen. -/
def withDiscriminant (discriminant : String) (key : Value) : Value → Value
  | .map entries => .map (Entries.insert discriminant key entries)
  | v => v

/-- The default of a node, found with at most so many expansions one inside the other. -/
def defaultWithin (definitions : Definitions) (convert : Node → Value → Option Grading) :
    Nat → List String → Node → Option Value
  | 0, _, _ => none
  | n + 1, expanding, node =>
    let fill := defaultWithin definitions convert n
    match node with
    | .any => some .undefined
    | .primitive kind => some kind.zero
    | .literal v => some v
    | .array elements .exact => (elements.mapM (fill expanding)).map .array
    | .array _ .repeating => some (.array [])
    | .map fields =>
      (fields.mapM fun f =>
        (fieldDefault convert (fill expanding) f).map fun v => (f.name, v)).map
          fun entries => .map (Entries.ofList entries)
    | .dictionary _ => some (.map [])
    | .selector _ [] => some (.map [])
    | .selector discriminant (first :: _) =>
      let chosen :=
        match definitions.resolveMap? first.node with
        | some fields => Node.map fields
        | none => first.node
      (fill expanding chosen).map (withDiscriminant discriminant first.key)
    | .reference name =>
      if expanding.contains name then some .undefined
      else
        match definitions.nodes name with
        | [] => some .undefined
        | first :: _ => fill (name :: expanding) first

/-- How many expansions stand one inside the other at most in an expansion that ends: between two names
that start to be expanded, none of the nodes at hand can come up twice. -/
def expansionBound (definitions : Definitions) (node : Node) : Nat :=
  (definitions.length + 1) * (node.size + definitions.size) + 1

/-- The default of a node, where the given names are being expanded already; nothing if its expansion
does not end. -/
def defaultOf (definitions : Definitions) (convert : Node → Value → Option Grading)
    (expanding : List String) (node : Node) : Option Value :=
  defaultWithin definitions convert (expansionBound definitions node) expanding node

end Conformance
