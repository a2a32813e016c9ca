import Conformance.Schema.Node
import Conformance.Text.Name
import Conformance.Text.Separated
import Conformance.Value.Notation

/-!
# Text of schemas

The text of a schema node, on one line, and of definitions, one line each. The text of a node that was
read from a schema text reads back as an equal node.

* `Node.characters`, `Node.text` — the text of a node.
* `Definitions.characters` — the text of all definitions, in the order of their names.
-/

set_option autoImplicit false

namespace Conformance

/-- A key as it is, if it is a name, and in quotes otherwise. -/
def keyCharacters (key : String) : List Char :=
  if Name.isName key.toList then key.toList else Quoted.write '"' key

/-- The literal for a value. A value of a kind that has no literals is written as the node for any
value. -/
def Value.literalCharacters : Value → List Char
  | .boolean b => (toString b).toList
  | .integer i => Digits.ofInt i.toInt
  | .real r => r.literalText
  | .string text | .uri text => Quoted.write '"' text
  | .uuid u => '"' :: u.characters ++ ['"']
  | .date t => '"' :: t.characters ++ ['"']
  | .undefined | .binary _ | .array _ | .map _ => "undef".toList

/-- A declared default with its sign. -/
def defaultCharacters : Option Value → List Char
  | some v => " = ".toList ++ v.literalCharacters
  | none => []

namespace Node

mutual

/-- The characters of the text of a node. -/
def characters : Node → List Char
  | .any => "undef".toList
  | .primitive kind => kind.typeName.toList
  | .literal v => v.literalCharacters
  | .array elements .exact => "[ ".toList ++ elementCharacters elements ++ " ]".toList
  | .array elements .repeating => "[ ".toList ++ elementCharacters elements ++ ", ... ]".toList
  | .map fields => "\x7b ".toList ++ fieldCharacters fields ++ " \x7d".toList
  | .dictionary entry => "\x7b $: ".toList ++ entry.characters ++ " \x7d".toList
  | .selector discriminant alternatives =>
    "select ".toList ++ keyCharacters discriminant ++ " \x7b ".toList ++
      alternativeCharacters alternatives ++ " \x7d".toList
  | .reference name => '&' :: name.toList

/-- The elements of an array with commas between. -/
def elementCharacters : List Node → List Char
  | [] => []
  | n :: ns => n.characters ++ separatorBefore ", " ns ++ elementCharacters ns

/-- The fields of a map with commas between. -/
def fieldCharacters : List (Field Node) → List Char
  | [] => []
  | ⟨name, node, isOptional, default?⟩ :: fs =>
    keyCharacters name ++ (if isOptional then ['?'] else []) ++ ": ".toList ++ node.characters ++
      defaultCharacters default? ++ separatorBefore ", " fs ++ fieldCharacters fs

/-- The alternatives of a selector with commas between. -/
def alternativeCharacters : List (Alternative Node) → List Char
  | [] => []
  | ⟨key, node⟩ :: xs =>
    key.literalCharacters ++ ": ".toList ++ node.characters ++ separatorBefore ", " xs ++
      alternativeCharacters xs

end

/-- The text of a node. -/
def text (node : Node) : String := String.ofList node.characters

end Node

namespace Definitions

/-- The declarations of a name, one line each. -/
def declarationCharacters (name : String) (nodes : List Node) : List Char :=
  nodes.flatMap fun node => '&' :: name.toList ++ " = ".toList ++ node.characters ++ ['\n']

/-- The declarations of all names, in the order of the names. -/
def characters (definitions : Definitions) : List Char :=
  definitions.flatMap fun e => declarationCharacters e.1 e.2

/-- The text of all definitions. -/
def text (definitions : Definitions) : String := String.ofList definitions.characters

end Definitions

end Conformance
