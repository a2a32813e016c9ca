import Conformance.Text.Digits
import Conformance.Text.Separated
import Conformance.Value.Uuid

/-!
# URI references

Which texts are URI references. A text is cut at its delimiters into scheme, authority, path, query and
fragment, and each part may be spelled with characters of its own set and with percent-encoded bytes.

* `UriReference.isValid` — the whole reference.
* `UriReference.isAuthority`, `UriReference.isHost` — user information, host and port.
* `UriReference.isIpv6` — the address between the brackets of a host.
-/

set_option autoImplicit false

namespace Conformance.UriReference

/-- Splits a text before the first of the given characters. -/
def before (stops : List Char) (text : List Char) : List Char × List Char :=
  text.span (fun c => !stops.contains c)

def isHexDigit (c : Char) : Bool := (hexDigit? c).isSome

/-- Characters with no meaning of their own. -/
def isUnreserved (c : Char) : Bool :=
  c.isAlphanum || c == '-' || c == '.' || c == '_' || c == '~'

/-- Characters that may delimit parts within a component. -/
def isSubDelimiter (c : Char) : Bool := "!$&'()*+,;=".toList.contains c

/-- Characters of host names. -/
def isNameChar (c : Char) : Bool := isUnreserved c || isSubDelimiter c

/-- Characters of user information. -/
def isUserChar (c : Char) : Bool := isNameChar c || c == ':'

/-- Characters of paths, with the slash between segments. -/
def isPathChar (c : Char) : Bool := isUserChar c || c == '@' || c == '/'

/-- Characters of queries and fragments. -/
def isQueryChar (c : Char) : Bool := isPathChar c || c == '?'

/-- The text consists of allowed characters and of percent signs with two hexadecimal digits each. -/
def isSpelled (allowed : Char → Bool) : List Char → Bool
  | [] => true
  | '%' :: a :: b :: rest => isHexDigit a && isHexDigit b && isSpelled allowed rest
  | c :: rest => allowed c && isSpelled allowed rest

/-- A decimal number up to 255 without zeros in front. -/
def isOctet (text : List Char) : Bool :=
  !text.isEmpty && text.length ≤ 3 && text.all Char.isDigit && Digits.value text ≤ 255 &&
    (text.length == 1 || text.head? != some '0')

/-- Four numbers with points between. -/
def isIpv4 (text : List Char) : Bool :=
  let octets := splitOn '.' text
  octets.length == 4 && octets.all isOctet

/-- One to four hexadecimal digits. -/
def isGroup (text : List Char) : Bool :=
  !text.isEmpty && text.length ≤ 4 && text.all isHexDigit

/-- How many groups of sixteen bits a list of parts makes up; the last part may be the 32 bits of an
address of version 4 where that is allowed. -/
def groupCount? (allowIpv4 : Bool) : List (List Char) → Option Nat
  | [] => some 0
  | [last] =>
    if isGroup last then some 1 else if allowIpv4 && isIpv4 last then some 2 else none
  | part :: parts => if isGroup part then (groupCount? allowIpv4 parts).map (· + 1) else none

/-- The parts between colons; an empty text has none. -/
def colonParts (text : List Char) : List (List Char) :=
  if text.isEmpty then [] else splitOn ':' text

/-- Splits a text at the first pair of colons. -/
def splitAtGap? : List Char → Option (List Char × List Char)
  | [] => none
  | ':' :: ':' :: rest => some ([], rest)
  | c :: rest => (splitAtGap? rest).map fun parts => (c :: parts.1, parts.2)

/-- An address of version 6: eight groups, or fewer with a pair of colons in place of the zero groups
left out, of which there is at least one. -/
def isIpv6 (text : List Char) : Bool :=
  match splitAtGap? text with
  | some (front, back) =>
    match groupCount? false (colonParts front), groupCount? true (colonParts back) with
    | some m, some n => m + n ≤ 7
    | _, _ => false
  | none => groupCount? true (colonParts text) == some 8

/-- A host: an address in brackets or a name, which may be empty. -/
def isHost (text : List Char) : Bool :=
  match text with
  | '[' :: rest => rest.getLast? == some ']' && isIpv6 rest.dropLast
  | _ => isSpelled isNameChar text

/-- A port: digits of a number below 65536, or nothing. -/
def isPort (text : List Char) : Bool :=
  text.all Char.isDigit && Digits.value text ≤ 65535

/-- Splits host and port at the last colon that no closing bracket follows. -/
def splitPort (text : List Char) : List Char × List Char :=
  let tail := text.reverse.takeWhile fun c => c != ':' && c != ']'
  let front := text.take (text.length - tail.length)
  if front.getLast? = some ':' then (front.dropLast, tail.reverse) else (text, [])

/-- An authority: optional user information up to the first `@`, a host, and an optional port. -/
def isAuthority (text : List Char) : Bool :=
  let (user, address) :=
    match before ['@'] text with
    | (user, '@' :: address) => (user, address)
    | _ => ([], text)
  let (host, port) := splitPort address
  isSpelled isUserChar user && isHost host && isPort port

/-- What follows the scheme, where the text begins with one. -/
def afterScheme? (text : List Char) : Option (List Char) :=
  match before [':'] text with
  | (c :: scheme, ':' :: rest) =>
    if c.isAlpha && scheme.all (fun d => d.isAlphanum || d == '+' || d == '-' || d == '.') then some rest
    else none
  | _ => none

/-- The first segment of a path, after one slash at most. -/
def firstSegment : List Char → List Char
  | '/' :: rest => (before ['/'] rest).1
  | path => (before ['/'] path).1

/-- The text from the path on; `rooted` tells that a scheme or an authority stands before it, without
which a colon in the first segment would be taken for the end of a scheme. -/
def isPathAndRest (rooted : Bool) (text : List Char) : Bool :=
  let (path, rest) := before ['?', '#'] text
  let (query, fragment) := before ['#'] rest
  isSpelled isPathChar path && (rooted || !(firstSegment path).contains ':') &&
    isSpelled isQueryChar (query.drop 1) && isSpelled isQueryChar (fragment.drop 1)

/-- The text is a URI reference. -/
def isValid (text : List Char) : Bool :=
  let hasScheme := (afterScheme? text).isSome
  match (afterScheme? text).getD text with
  | '/' :: '/' :: rest =>
    let (authority, path) := before ['/', '?', '#'] rest
    isAuthority authority && isPathAndRest true path
  | rest => isPathAndRest hasScheme rest

end Conformance.UriReference
