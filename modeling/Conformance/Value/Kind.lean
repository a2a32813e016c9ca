/-!
# Kinds of values

The eleven kinds a value can be of, with the name each has in messages (`Kind.name`) and the name each
has as a type in a schema text (`Kind.typeName`).
-/

set_option autoImplicit false

namespace Conformance

inductive Kind where
  | undefined
  | boolean
  | integer
  | real
  | string
  | uuid
  | date
  | uri
  | binary
  | array
  | map
  deriving DecidableEq, Repr

namespace Kind

/-- The name in messages. -/
def name : Kind → String
  | .undefined => "undef"
  | .boolean => "boolean"
  | .integer => "integer"
  | .real => "real"
  | .string => "string"
  | .uuid => "uuid"
  | .date => "date"
  | .uri => "uri"
  | .binary => "binary"
  | .array => "array"
  | .map => "map"

/-- The name as a type in a schema text. -/
def typeName : Kind → String
  | .boolean => "bool"
  | .integer => "int"
  | kind => kind.name

/-- Every kind, in the order of declaration. -/
def all : List Kind :=
  [.undefined, .boolean, .integer, .real, .string, .uuid, .date, .uri, .binary, .array, .map]

/-- Values of the kind hold data and have no parts. -/
def isScalar (kind : Kind) : Bool :=
  kind != .undefined && kind != .array && kind != .map

end Kind

end Conformance
