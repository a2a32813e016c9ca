import Conformance.Binary64.Text
import Conformance.Value.Kind

/-!
# Tokens

The tokens of schema texts: names, keywords, literals and symbols.

* `Keyword`, `Symbol` — the tokens with a fixed text.
* `Token.ofName` — a name is a keyword if it is spelled like one.
* `Token.name?` — keywords may stand wherever a name may.
* `Token.shown` — how a token is shown.
-/

set_option autoImplicit false

namespace Conformance

/-- Names with a meaning of their own. -/
inductive Keyword where
  | undef
  | bool
  | int
  | real
  | string
  | date
  | uuid
  | uri
  | binary
  | trueLiteral
  | falseLiteral
  | select
  deriving DecidableEq, Repr

namespace Keyword

/-- The spelling of a keyword. -/
def text : Keyword → String
  | .undef => "undef"
  | .bool => "bool"
  | .int => "int"
  | .real => "real"
  | .string => "string"
  | .date => "date"
  | .uuid => "uuid"
  | .uri => "uri"
  | .binary => "binary"
  | .trueLiteral => "true"
  | .falseLiteral => "false"
  | .select => "select"

/-- Every keyword. -/
def all : List Keyword :=
  [.undef, .bool, .int, .real, .string, .date, .uuid, .uri, .binary, .trueLiteral, .falseLiteral,
    .select]

/-- The keyword with a given spelling. -/
def ofText? (text : String) : Option Keyword := all.find? fun k => k.text == text

/-- The kind that a keyword names as a type. -/
def kind? : Keyword → Option Kind
  | .bool => some .boolean
  | .int => some .integer
  | .real => some .real
  | .string => some .string
  | .date => some .date
  | .uuid => some .uuid
  | .uri => some .uri
  | .binary => some .binary
  | .undef | .trueLiteral | .falseLiteral | .select => none

/-- A keyword is written as the type it names. -/
theorem text_eq_typeName {k : Keyword} {kind : Kind} (h : k.kind? = some kind) :
    k.text = kind.typeName := by
  cases k <;> cases h <;> rfl

end Keyword

/-- Punctuation and arrows. -/
inductive Symbol where
  | openBrace
  | closeBrace
  | openBracket
  | closeBracket
  | comma
  | colon
  | equals
  | question
  | ampersand
  | dollar
  | ellipsis
  | resource
  | post
  | result
  | get
  | put
  | getPut
  | getPutDelete
  deriving DecidableEq, Repr

/-- The spelling of a symbol. -/
def Symbol.text : Symbol → String
  | .openBrace => "\x7b"
  | .closeBrace => "\x7d"
  | .openBracket => "["
  | .closeBracket => "]"
  | .comma => ","
  | .colon => ":"
  | .equals => "="
  | .question => "?"
  | .ampersand => "&"
  | .dollar => "$"
  | .ellipsis => "..."
  | .resource => "%%"
  | .post => "->"
  | .result => "<-"
  | .get => "<<"
  | .put => ">>"
  | .getPut => "<>"
  | .getPutDelete => "<x>"

/-- A token. -/
inductive Token where
  | endOfInput
  | name (text : String)
  | keyword (k : Keyword)
  | integer (i : Int32)
  | real (r : Binary64)
  | text (content : String)
  | symbol (s : Symbol)
  deriving DecidableEq, Repr

namespace Token

/-- The token for a name. -/
def ofName (text : String) : Token :=
  match Keyword.ofText? text with
  | some k => .keyword k
  | none => .name text

/-- The name that a token is; keywords are names too. -/
def name? : Token → Option String
  | .name spelling => some spelling
  | .keyword k => some k.text
  | _ => none

/-- The kind that a token names as a type. -/
def kind? : Token → Option Kind
  | .keyword k => k.kind?
  | _ => none

/-- A token as it is shown: like its spelling, except that the content of a text is not escaped. -/
def shown : Token → String
  | .endOfInput => ""
  | .name spelling => spelling
  | .keyword k => k.text
  | .integer i => String.ofList (Digits.ofInt i.toInt)
  | .real r => String.ofList r.literalText
  | .text content => "\"" ++ content ++ "\""
  | .symbol s => s.text

end Token

end Conformance
