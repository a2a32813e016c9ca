import Conformance.Decimal
import Conformance.Json.Basic

/-!
# Reading JSON

The reader of JSON text. It takes exactly one value with blanks around it. Of members with one name the
last counts, a number too large for a double is refused, and so are half surrogate pairs and containers
nested deeper than `Json.maxNesting`.

* `Json.ofText?` — the value that a text writes.
-/

set_option autoImplicit false

namespace Conformance.Json

/-- How many containers may be open at one time. -/
def maxNesting : Nat := 127

/-- Reads something off the front of a text. -/
abbrev Reader (α : Type) := List Char → Option (α × List Char)

def isJsonBlank (c : Char) : Bool := c == ' ' || c == '\n' || c == '\r' || c == '\t'

def skipBlanks (text : List Char) : List Char := text.dropWhile isJsonBlank

/-- Takes a fixed word off the front. -/
def skipWord? : List Char → List Char → Option (List Char)
  | [], text => some text
  | c :: word, d :: text => if c = d then skipWord? word text else none
  | _ :: _, [] => none

/-- The number that four hexadecimal digits write. -/
def codeUnit? (a b c d : Char) : Option Nat :=
  ([a, b, c, d].mapM hexDigit?).map fun digits => digits.foldl (fun n x => 16 * n + x.val) 0

/-- The character that a letter stands for after a backslash. -/
def escape? : Char → Option Char
  | '"' => some '"'
  | '\\' => some '\\'
  | '/' => some '/'
  | 'b' => some '\x08'
  | 'f' => some '\x0c'
  | 'n' => some '\n'
  | 'r' => some '\r'
  | 't' => some '\t'
  | _ => none

/-- The character of a pair of surrogates. -/
def pair? (high low : Nat) : Option Char :=
  if 0xDC00 ≤ low ∧ low ≤ 0xDFFF then
    some (Char.ofNat (0x10000 + (high - 0xD800) * 0x400 + (low - 0xDC00)))
  else none

/-- The rest of a string after its opening quote. -/
def stringBody : Reader (List Char)
  | '"' :: rest => some ([], rest)
  | '\\' :: 'u' :: a :: b :: c :: d :: rest => do
    let unit ← codeUnit? a b c d
    if 0xD800 ≤ unit ∧ unit ≤ 0xDBFF then
      match rest with
      | '\\' :: 'u' :: e :: f :: g :: h :: rest => do
        let char ← (codeUnit? e f g h).bind (pair? unit)
        let (text, rest) ← stringBody rest
        some (char :: text, rest)
      | _ => none
    else if 0xDC00 ≤ unit ∧ unit ≤ 0xDFFF then none
    else do
      let (text, rest) ← stringBody rest
      some (Char.ofNat unit :: text, rest)
  | '\\' :: c :: rest => do
    let char ← escape? c
    let (text, rest) ← stringBody rest
    some (char :: text, rest)
  | c :: rest =>
    if c.toNat < 0x20 ∨ c = '\\' then none
    else (stringBody rest).map fun (text, rest) => (c :: text, rest)
  | [] => none

/-- A string in quotes. -/
def readString : Reader String
  | '"' :: rest => (stringBody rest).map fun (text, rest) => (String.ofList text, rest)
  | _ => none

/-- A run of digits that is not empty. -/
def digits : Reader (List Char) := fun text =>
  match text.span Char.isDigit with
  | ([], _) => none
  | (run, rest) => some (run, rest)

/-- The digits of an integer, which begin with zero only for zero itself. -/
def wholeDigits : Reader (List Char) := fun text => do
  let (run, rest) ← digits text
  if run.head? = some '0' ∧ run ≠ ['0'] then none else some (run, rest)

/-- A fraction with its point, or nothing. -/
def fraction : Reader (List Char)
  | '.' :: text => (digits text).map fun (run, rest) => ('.' :: run, rest)
  | text => some ([], text)

/-- A power of ten with its mark, or nothing. -/
def exponent : Reader (List Char) := fun text =>
  match text with
  | c :: rest =>
    if c = 'e' ∨ c = 'E' then
      let sign := rest.takeWhile fun d => d == '-' || d == '+'
      if sign.length ≤ 1 then
        (digits (rest.drop sign.length)).map fun (run, rest) => ('e' :: sign ++ run, rest)
      else none
    else some ([], text)
  | [] => some ([], [])

/-- A number. Written without fraction and exponent it is an integer, except that minus zero is real. -/
def readNumber : Reader Json := fun text => do
  let (sign, text) :=
    match text with
    | '-' :: rest => (['-'], rest)
    | _ => ([], text)
  let (whole, text) ← wholeDigits text
  let (part, text) ← fraction text
  let (power, text) ← exponent text
  let decimal ← Decimal.ofText? (sign ++ whole ++ part ++ power)
  let real := decimal.toBinary64
  if !real.isFinite then none
  else if part.isEmpty && power.isEmpty && (sign.isEmpty || decimal.significand != 0) then
    let size : Int := decimal.significand
    some (.integer (if sign.isEmpty then size else -size), text)
  else some (.real real, text)

/-- What stands between commas up to a closing character; the first `Nat` bounds the number of items and
is never reached when it is the length of the text. -/
def items {α : Type} (close : Char) (item : Reader α) : Nat → Reader (List α)
  | 0, _ => none
  | n + 1, text => do
    let (x, text) ← item (skipBlanks text)
    match skipBlanks text with
    | ',' :: rest => (items close item n rest).map fun (xs, rest) => (x :: xs, rest)
    | c :: rest => if c = close then some ([x], rest) else none
    | [] => none

/-- The contents of a container after its opening character. -/
def contents {α : Type} (close : Char) (item : Reader α) : Reader (List α) := fun text =>
  match skipBlanks text with
  | c :: rest => if c = close then some ([], rest) else items close item text.length text
  | [] => none

/-- A member of an object: a name, a colon and a value. -/
def member (value : Reader Json) : Reader (String × Json) := fun text => do
  let (name, text) ← readString text
  match skipBlanks text with
  | ':' :: rest => (value (skipBlanks rest)).map fun (j, rest) => ((name, j), rest)
  | _ => none

/-- A value that is no container. -/
def readScalar : Reader Json
  | 'n' :: rest => (skipWord? "ull".toList rest).map fun rest => (.null, rest)
  | 't' :: rest => (skipWord? "rue".toList rest).map fun rest => (.boolean true, rest)
  | 'f' :: rest => (skipWord? "alse".toList rest).map fun rest => (.boolean false, rest)
  | '"' :: rest => (readString ('"' :: rest)).map fun (text, rest) => (.string text, rest)
  | text => readNumber text

/-- A value with at most so many containers open at one time. -/
def readValue : Nat → Reader Json
  | nesting, '[' :: rest =>
    match nesting with
    | 0 => none
    | n + 1 => (contents ']' (readValue n) rest).map fun (items, rest) => (.array items, rest)
  | nesting, '{' :: rest =>
    match nesting with
    | 0 => none
    | n + 1 =>
      (contents '}' (member (readValue n)) rest).map fun (members, rest) =>
        (.object (Entries.ofList members), rest)
  | _, text => readScalar text

/-- The value that a whole text writes. -/
def ofText? (text : String) : Option Json := do
  let (j, rest) ← readValue maxNesting (skipBlanks text.toList)
  if (skipBlanks rest).isEmpty then some j else none

end Conformance.Json
