/-!
# Places in a text

Where something stands in a text. Lines and columns count from one and bytes from zero; a line ends at a
line feed, at a carriage return, or at the two together.

* `Place.after` — the place behind a character, which depends on the character that follows.
* `Cursor` — a place with the text that is left from there on; `Cursor.advance` moves it.
* `Position` — a place with the stretch of bytes that belongs to it.
-/

set_option autoImplicit false

namespace Conformance

/-- A place between two characters of a text. -/
structure Place where
  line : Nat := 1
  column : Nat := 1
  /-- The number of bytes before the place. -/
  index : Nat := 0
  deriving DecidableEq, Repr

/-- The place behind a character. A carriage return before a line feed does not end the line, since the
line feed does. -/
def Place.after (p : Place) (c : Char) (next? : Option Char) : Place :=
  if c = '\n' ∨ c = '\r' ∧ next? ≠ some '\n' then
    { line := p.line + 1, column := 1, index := p.index + c.utf8Size }
  else { line := p.line, column := p.column + 1, index := p.index + c.utf8Size }

/-- A place in a text with the characters from there on. -/
structure Cursor where
  place : Place
  rest : List Char
  deriving DecidableEq, Repr

namespace Cursor

/-- The beginning of a text. -/
def ofText (text : List Char) : Cursor := ⟨{}, text⟩

/-- The cursor behind the given number of characters, or at the end of the text. -/
def advance (k : Cursor) : Nat → Cursor
  | 0 => k
  | n + 1 =>
    match k.rest with
    | [] => k
    | c :: rest => advance ⟨k.place.after c rest.head?, rest⟩ n

end Cursor

/-- A place with the stretch of bytes that belongs to it, from `start` up to before `stop`. -/
structure Position extends Place where
  start : Nat := 0
  stop : Nat := 0
  deriving DecidableEq, Repr

/-- The line and the column of a position. -/
def Position.text (p : Position) : String :=
  "line " ++ toString p.line ++ ", char " ++ toString p.column

end Conformance
