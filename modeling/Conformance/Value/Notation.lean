import Conformance.Binary64.Text
import Conformance.Text.Base64
import Conformance.Text.Quoted
import Conformance.Text.Separated
import Conformance.Value.Basic

/-!
# Notation of values

The one-line text of a value. Each kind has a mark of its own at the front, so the text tells the kind
as well as the content: `i3`, `r1.5`, `'text'`, `l"uri"`, `[i1,i2]`, `{'key':!}`.
-/

set_option autoImplicit false

namespace Conformance.Value

mutual

/-- The characters of the notation. -/
def characters : Value → List Char
  | .undefined => ['!']
  | .boolean b => (toString b).toList
  | .integer i => 'i' :: Digits.ofInt i.toInt
  | .real r => 'r' :: r.literalText
  | .string text => Quoted.write '\'' text
  | .uuid u => 'u' :: u.characters
  | .date t => 'd' :: '"' :: t.characters ++ ['"']
  | .uri text => 'l' :: Quoted.write '"' text
  | .binary bytes => "b64\"".toList ++ Base64.encode bytes ++ ['"']
  | .array items => '[' :: itemCharacters items ++ [']']
  | .map entries => '{' :: entryCharacters entries ++ ['}']

/-- The items of an array with commas between. -/
def itemCharacters : List Value → List Char
  | [] => []
  | v :: vs => v.characters ++ separatorBefore "," vs ++ itemCharacters vs

/-- The entries of a map with commas between. -/
def entryCharacters : List (String × Value) → List Char
  | [] => []
  | (k, v) :: rest =>
    Quoted.write '\'' k ++ ':' :: v.characters ++ separatorBefore "," rest ++ entryCharacters rest

end

/-- The text of a value in notation. -/
def text (v : Value) : String := String.ofList v.characters

end Conformance.Value
