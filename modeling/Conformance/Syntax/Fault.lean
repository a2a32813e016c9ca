import Conformance.Syntax.Place

/-!
# Faults in schema texts

What can be wrong with a schema text, with the wording of each fault.

* `Fault` — the faults; `Fault.text` is the wording.
* `Message` — a wording with an optional detail.
* `LexicalError`, `ParseError` — a fault at a position, found while reading tokens or afterwards.
-/

set_option autoImplicit false

namespace Conformance

inductive Fault where
  | expectedValue
  | expectedName
  | expectedNameInQuotes
  | expectedColon
  | expectedEqualsSign
  | expectedCloseBracket
  | expectedOpenBrace
  | expectedCloseBrace
  | expectedDeclaration
  | expectedResultArrow
  | expectedResourceArrow
  | expectedEndOfInput
  | expectedDefaultLiteral
  | expectedSelectorKey
  | emptyArray
  | emptyMap
  | unknownType
  | duplicateFieldName
  | duplicateResourceName
  | duplicateSelectorAlternative
  | selectorDiscriminantNotScalar
  | selectorAlternativeNotMap
  | selectorKeyRejected
  | undefinedNames
  | cyclicName
  | incompatibleDefault
  | nestingTooDeep
  | invalidCharacter
  | invalidEscapeCharacter
  | expectedCloseQuote
  | realOutOfRange
  | malformedName
  deriving DecidableEq, Repr

/-- The wording of a fault. -/
def Fault.text : Fault → String
  | .expectedValue => "expected value"
  | .expectedName => "expected name"
  | .expectedNameInQuotes => "expected name in quotes"
  | .expectedColon => "expected colon"
  | .expectedEqualsSign => "expected equals sign"
  | .expectedCloseBracket => "expected close bracket"
  | .expectedOpenBrace => "expected open brace"
  | .expectedCloseBrace => "expected close brace"
  | .expectedDeclaration => "expected resource (%%) or definition (&)"
  | .expectedResultArrow => "expected result arrow '<-'"
  | .expectedResourceArrow => "unknown resource type, expected ->, <<, >>, <> or <x>"
  | .expectedEndOfInput => "expected end of input"
  | .expectedDefaultLiteral => "expected default value literal"
  | .expectedSelectorKey => "expected selector alternative key"
  | .emptyArray => "empty array"
  | .emptyMap => "empty map"
  | .unknownType => "unknown type"
  | .duplicateFieldName => "duplicate key in map"
  | .duplicateResourceName => "duplicate resource name"
  | .duplicateSelectorAlternative => "duplicate selector alternative"
  | .selectorDiscriminantNotScalar => "selector discriminant must be a string or integer"
  | .selectorAlternativeNotMap => "selector alternative must be a map"
  | .selectorKeyRejected => "selector alternative does not accept its own key"
  | .undefinedNames => "missing definitions of variants"
  | .cyclicName => "variant definition refers only to itself"
  | .incompatibleDefault => "default value is incompatible with the field type"
  | .nestingTooDeep => "maximum nesting depth exceeded"
  | .invalidCharacter => "invalid character"
  | .invalidEscapeCharacter => "invalid escape character"
  | .expectedCloseQuote => "expected close quote"
  | .realOutOfRange => "real literal out of range"
  | .malformedName => "malformed name: hyphen (-) not allowed"

/-- A wording with an optional detail, such as the names it is about. -/
structure Message where
  short : String
  detail? : Option String := none
  deriving DecidableEq, Repr

/-- The whole message. -/
def Message.text (m : Message) : String :=
  match m.detail? with
  | some detail => m.short ++ ": " ++ detail
  | none => m.short

/-- What keeps characters from making up a token. -/
inductive LexicalFault where
  | malformed (fault : Fault)
  /-- An integer literal is above the range of 32 bits. -/
  | integerTooLarge
  /-- An integer literal is below the range of 32 bits. -/
  | integerTooSmall
  /-- A number of the given length ends in the mark of an exponent. -/
  | emptyExponent (length : Nat)
  deriving DecidableEq, Repr

namespace LexicalFault

/-- The wording, with what is known about a number as the detail. -/
def message : LexicalFault → Message
  | .malformed fault => ⟨fault.text, none⟩
  | .integerTooLarge =>
    ⟨"integer literal out of range", some "number too large to fit in target type"⟩
  | .integerTooSmall =>
    ⟨"integer literal out of range", some "number too small to fit in target type"⟩
  | .emptyExponent length =>
    ⟨"invalid number", some ("EmptyExponent(" ++ toString length ++ ")")⟩

/-- The label of the fault in a diagnostic. -/
def label : LexicalFault → String
  | .emptyExponent length => "EmptyExponent(\n    " ++ toString length ++ ",\n)"
  | .malformed fault => fault.text
  | fault => fault.message.detail?.getD fault.message.short

end LexicalFault

/-- Characters that make up no token. -/
structure LexicalError where
  fault : LexicalFault
  position : Position
  deriving DecidableEq, Repr

/-- Why a text is no schema or suite. -/
inductive ParseError where
  /-- A token could not be read. -/
  | lexical (error : LexicalError)
  /-- The tokens do not make up what they should, or what they make up is not consistent. -/
  | structural (fault : Fault) (detail? : Option String) (position : Position)
  deriving DecidableEq, Repr

namespace ParseError

def position : ParseError → Position
  | .lexical e => e.position
  | .structural _ _ position => position

def message : ParseError → Message
  | .lexical e => e.fault.message
  | .structural fault detail? _ => ⟨fault.text, detail?⟩

/-- An error in the structure as one line. -/
def text (e : ParseError) : String :=
  "parsing error: position " ++ e.position.text ++ ", msg: " ++ e.message.text

end ParseError

end Conformance
