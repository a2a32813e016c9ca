import Conformance.Value.Basic

/-!
# Schema nodes

The tree that describes which values are expected at a place, and the named definitions that a tree may
refer to.

* `Node` — the tree; `Field` and `Alternative` are the parts of maps and selectors.
* `Node.equal` — equality, with literals compared as values.
* `Definitions` — the nodes each name stands for; a name with several is a variant.
* `Definitions.resolveMap?` — the map at the end of a chain of names.
-/

set_option autoImplicit false

namespace Conformance

/-- How the element nodes of an array apply to its items. -/
inductive ArraySize where
  /-- One item for each element node. -/
  | exact
  /-- The element nodes form a pattern that repeats. -/
  | repeating
  deriving DecidableEq, Repr

/-- A declared field of a map, with nodes of the given type. -/
structure Field (ν : Type) where
  name : String
  node : ν
  isOptional : Bool
  default? : Option Value

/-- One of the maps that a selector chooses from, with nodes of the given type. -/
structure Alternative (ν : Type) where
  key : Value
  node : ν

/-- A description of the values expected at a place. -/
inductive Node where
  /-- Any value. -/
  | any
  /-- A value of the kind, or one that is coerced to it. -/
  | primitive (kind : Kind)
  /-- Just this value. -/
  | literal (value : Value)
  /-- An array. -/
  | array (elements : List Node) (size : ArraySize)
  /-- A map with declared fields. -/
  | map (fields : List (Field Node))
  /-- A map with any keys, the values at which are all described by one node. -/
  | dictionary (entry : Node)
  /-- A map whose value at the discriminant chooses the alternative that describes it. -/
  | selector (discriminant : String) (alternatives : List (Alternative Node))
  /-- What the name stands for. -/
  | reference (name : String)

namespace Field

variable {ν : Type}

/-- A value without the field is acceptable. -/
def mayBeAbsent (f : Field ν) : Bool := f.isOptional || f.default?.isSome

/-- The field with a given name. -/
def find? (fields : List (Field ν)) (name : String) : Option (Field ν) :=
  fields.find? fun f => f.name == name

/-- Equality of declared defaults. -/
def equalDefault : Option Value → Option Value → Bool
  | none, none => true
  | some v, some w => v.equal w
  | _, _ => false

end Field

/-- The alternative whose key equals a value. -/
def Alternative.find? {ν : Type} (alternatives : List (Alternative ν)) (key : Value) :
    Option (Alternative ν) :=
  alternatives.find? fun a => a.key.equal key

namespace Node

mutual

/-- Equality of trees, with the values in them compared by content. -/
def equal : Node → Node → Bool
  | .any, .any => true
  | .primitive k, .primitive l => k == l
  | .literal v, .literal w => v.equal w
  | .array ms s, .array ns t => equalAll ms ns && s == t
  | .map fs, .map gs => equalFields fs gs
  | .dictionary m, .dictionary n => m.equal n
  | .selector d xs, .selector e ys => d == e && equalAlternatives xs ys
  | .reference a, .reference b => a == b
  | _, _ => false

def equalAll : List Node → List Node → Bool
  | [], [] => true
  | m :: ms, n :: ns => m.equal n && equalAll ms ns
  | _, _ => false

def equalFields : List (Field Node) → List (Field Node) → Bool
  | [], [] => true
  | ⟨a, m, o, v⟩ :: fs, ⟨b, n, p, w⟩ :: gs =>
    a == b && m.equal n && o == p && Field.equalDefault v w && equalFields fs gs
  | _, _ => false

def equalAlternatives : List (Alternative Node) → List (Alternative Node) → Bool
  | [], [] => true
  | ⟨k, m⟩ :: xs, ⟨l, n⟩ :: ys => k.equal l && m.equal n && equalAlternatives xs ys
  | _, _ => false

end

mutual

/-- The number of nodes in the tree. -/
def size : Node → Nat
  | .array ns _ => sizeAll ns + 1
  | .map fs => sizeFields fs + 1
  | .dictionary n => n.size + 1
  | .selector _ xs => sizeAlternatives xs + 1
  | _ => 1

def sizeAll : List Node → Nat
  | [] => 0
  | n :: ns => n.size + sizeAll ns

def sizeFields : List (Field Node) → Nat
  | [] => 0
  | ⟨_, n, _, _⟩ :: fs => n.size + sizeFields fs

def sizeAlternatives : List (Alternative Node) → Nat
  | [] => 0
  | ⟨_, n⟩ :: xs => n.size + sizeAlternatives xs

end

end Node

/-- The nodes each name stands for, in the order of their declaration. -/
abbrev Definitions := Entries (List Node)

namespace Definitions

/-- The nodes of a name; none if it is not defined. -/
def nodes (definitions : Definitions) (name : String) : List Node :=
  (Entries.get? definitions name).getD []

/-- Adds a node to those of a name. -/
def declare (definitions : Definitions) (name : String) (node : Node) : Definitions :=
  Entries.insert name (definitions.nodes name ++ [node]) definitions

/-- The number of nodes in all definitions together. -/
def size : Definitions → Nat
  | [] => 0
  | (_, ns) :: rest => Node.sizeAll ns + size rest

/-- Equality of definitions, name by name. -/
def equal : Definitions → Definitions → Bool
  | [], [] => true
  | (a, ms) :: rest, (b, ns) :: others => a == b && Node.equalAll ms ns && equal rest others
  | _, _ => false

/-- Follows names with one node each from a node to a map; the first `Nat` bounds the number of names
passed. -/
def resolveWithin? (definitions : Definitions) : Nat → Node → Option (List (Field Node))
  | _, .map fields => some fields
  | steps + 1, .reference name =>
    match definitions.nodes name with
    | [node] => resolveWithin? definitions steps node
    | _ => none
  | _, _ => none

/-- The fields of the map at the end of a chain of names, each of which stands for one node. A chain that
does not return to a name passes each at most once. -/
def resolveMap? (definitions : Definitions) (node : Node) : Option (List (Field Node)) :=
  definitions.resolveWithin? definitions.length node

end Definitions

end Conformance
