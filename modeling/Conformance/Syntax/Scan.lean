import Conformance.Decimal
import Conformance.Syntax.Fault
import Conformance.Syntax.Token
import Conformance.Text.Blank
import Conformance.Text.Name
import Conformance.Text.Quoted
import Conformance.Value.Basic

/-!
# Reading one token

What stands at the front of a text: blanks and comments, or one token. A scan says how many characters
it took and what they are.

* `blankLength` — the number of characters of blanks and comments.
* `Scan.ofText` — the token at the front of a text, or its fault.
-/

set_option autoImplicit false

namespace Conformance

/-- How many characters at the front of a text are blanks or belong to a comment, which runs from a
semicolon to the end of the line. -/
def blankLength (inComment : Bool) : List Char → Nat
  | [] => 0
  | c :: rest =>
    if inComment then blankLength (c != '\n' && c != '\r') rest + 1
    else if c = ';' then blankLength true rest + 1
    else if isBlank c then blankLength false rest + 1
    else 0

/-- A fault, and the number of characters before the place where it shows. -/
structure ScanFault where
  offset : Nat
  fault : LexicalFault
  deriving DecidableEq, Repr

/-- The number of characters taken from a text, and what they make up. -/
structure Scan where
  length : Nat
  result : Except ScanFault Token

namespace Scan

/-- Characters that make up a token. -/
def token (length : Nat) (t : Token) : Scan := ⟨length, .ok t⟩

/-- Characters that make up none. -/
def fault (length offset : Nat) (f : LexicalFault) : Scan := ⟨length, .error ⟨offset, f⟩⟩

/-- The symbol at the front of a text. -/
def symbol? : List Char → Option Symbol
  | '{' :: _ => some .openBrace
  | '}' :: _ => some .closeBrace
  | '[' :: _ => some .openBracket
  | ']' :: _ => some .closeBracket
  | ',' :: _ => some .comma
  | ':' :: _ => some .colon
  | '=' :: _ => some .equals
  | '?' :: _ => some .question
  | '&' :: _ => some .ampersand
  | '$' :: _ => some .dollar
  | '%' :: '%' :: _ => some .resource
  | '.' :: '.' :: '.' :: _ => some .ellipsis
  | '-' :: '>' :: _ => some .post
  | '<' :: '-' :: _ => some .result
  | '<' :: '<' :: _ => some .get
  | '<' :: '>' :: _ => some .getPut
  | '<' :: 'x' :: '>' :: _ => some .getPutDelete
  | '>' :: '>' :: _ => some .put
  | _ => none

/-- A name. A hyphen may follow it only as the beginning of an arrow. -/
def name (text : List Char) : Scan :=
  let spelling := text.takeWhile Name.isPart
  match text.dropWhile Name.isPart with
  | '-' :: '>' :: _ => token spelling.length (.ofName (String.ofList spelling))
  | '-' :: _ => fault (spelling.length + 1) spelling.length (.malformed .malformedName)
  | _ => token spelling.length (.ofName (String.ofList spelling))

/-- The content of a text literal up to its closing quote, with the number of characters taken. -/
structure Quotation where
  length : Nat
  result : Except ScanFault (List Char)

/-- The quotation with more characters taken before it, which stand for one character. -/
def Quotation.after (taken : Nat) (c : Char) (q : Quotation) : Quotation where
  length := q.length + taken
  result :=
    match q.result with
    | .ok content => .ok (c :: content)
    | .error e => .error { e with offset := e.offset + taken }

/-- Reads the content of a text literal after its opening quote. -/
def quotation : List Char → Quotation
  | [] => ⟨0, .error ⟨0, .malformed .expectedCloseQuote⟩⟩
  | '"' :: _ => ⟨1, .ok []⟩
  | ['\\'] => ⟨1, .error ⟨1, .malformed .expectedCloseQuote⟩⟩
  | '\\' :: c :: rest =>
    match Quoted.unescape? c with
    | some d => (quotation rest).after 2 d
    | none => ⟨2, .error ⟨1, .malformed .invalidEscapeCharacter⟩⟩
  | c :: rest =>
    if c = '\n' ∨ c = '\r' then ⟨1, .error ⟨0, .malformed .expectedCloseQuote⟩⟩
    else (quotation rest).after 1 c

/-- A text literal, given what follows its opening quote. -/
def text (body : List Char) : Scan :=
  let q := quotation body
  match q.result with
  | .ok content => token (q.length + 1) (.text (String.ofList content))
  | .error e => fault (q.length + 1) (e.offset + 1) e.fault

/-- The characters of a number literal, in four parts. -/
structure NumberParts where
  sign : List Char
  whole : List Char
  fraction : List Char
  exponent : List Char

namespace NumberParts

/-- The fraction at the front of a text: a point with digits after it. -/
def fractionOf : List Char → List Char
  | '.' :: rest =>
    let digits := rest.takeWhile Char.isDigit
    if digits.isEmpty then [] else '.' :: digits
  | _ => []

/-- The exponent at the front of a text: its mark, a sign or digit, and more digits. -/
def exponentOf : List Char → List Char
  | e :: c :: rest =>
    if (e = 'e' ∨ e = 'E') ∧ (c.isDigit ∨ c = '+' ∨ c = '-') then
      e :: c :: rest.takeWhile Char.isDigit
    else []
  | _ => []

/-- The parts of the number at the front of a text. -/
def ofText (text : List Char) : NumberParts :=
  let sign := text.takeWhile (· == '-')
  let afterSign := text.drop sign.length
  let whole := afterSign.takeWhile Char.isDigit
  let afterWhole := afterSign.drop whole.length
  let fraction := fractionOf afterWhole
  ⟨sign, whole, fraction, exponentOf (afterWhole.drop fraction.length)⟩

/-- All characters of the number. -/
def characters (p : NumberParts) : List Char := p.sign ++ p.whole ++ p.fraction ++ p.exponent

/-- The number is written as an integer. -/
def isInteger (p : NumberParts) : Bool := p.fraction.isEmpty && p.exponent.isEmpty

/-- The integer that the sign and the whole digits write. -/
def integer (p : NumberParts) : Int :=
  let size : Int := Digits.value p.whole
  if p.sign.isEmpty then size else -size

/-- The token that the parts make up, or their fault. -/
def token (p : NumberParts) : Except LexicalFault Token :=
  if p.isInteger then
    match int32? p.integer with
    | some i => .ok (.integer i)
    | none => .error (if p.integer < 0 then .integerTooSmall else .integerTooLarge)
  else
    match Decimal.ofText? p.characters with
    | none => .error (.emptyExponent p.characters.length)
    | some d =>
      if d.toBinary64.isFinite then .ok (.real d.toBinary64)
      else .error (.malformed .realOutOfRange)

end NumberParts

/-- A number literal. -/
def number (text : List Char) : Scan :=
  let parts := NumberParts.ofText text
  ⟨parts.characters.length, parts.token.mapError fun f => ⟨0, f⟩⟩

/-- A number begins with a digit, or with a minus and a digit. -/
def startsNumber : List Char → Bool
  | '-' :: c :: _ => c.isDigit
  | c :: _ => c.isDigit
  | [] => false

/-- The token at the front of a text without blanks before it. -/
def ofText (input : List Char) : Scan :=
  match symbol? input with
  | some s => token s.text.length (.symbol s)
  | none =>
    match input with
    | [] => token 0 .endOfInput
    | '"' :: body => text body
    | c :: _ =>
      if Name.isStart c then name input
      else if startsNumber input then number input
      else fault 1 0 (.malformed .invalidCharacter)

end Scan

end Conformance
