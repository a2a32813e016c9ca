/-!
# Quoted text

Text between quotes. The quote, the backslash and the three characters that would break or blur a line
are written with a backslash before them.

* `Quoted.escape`, `Quoted.write` — the written form, for a given quote.
* `Quoted.unescape?` — the character that one escape stands for.
-/

set_option autoImplicit false

namespace Conformance.Quoted

/-- The character that a backslash and the given character stand for between double quotes. -/
def unescape? : Char → Option Char
  | '"' => some '"'
  | '\\' => some '\\'
  | '/' => some '/'
  | 'n' => some '\n'
  | 'r' => some '\r'
  | 't' => some '\t'
  | _ => none

/-- One character as it is written between quotes. -/
def escapeChar (quote c : Char) : List Char :=
  if c = '\\' then ['\\', '\\']
  else if c = '\n' then ['\\', 'n']
  else if c = '\r' then ['\\', 'r']
  else if c = '\t' then ['\\', 't']
  else if c = quote then ['\\', c]
  else [c]

/-- A text as it is written between quotes. -/
def escape (quote : Char) (text : List Char) : List Char :=
  text.flatMap (escapeChar quote)

/-- A text in quotes. -/
def write (quote : Char) (text : String) : List Char :=
  quote :: escape quote text.toList ++ [quote]

end Conformance.Quoted
