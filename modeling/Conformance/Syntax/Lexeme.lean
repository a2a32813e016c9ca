import Conformance.Syntax.Scan

/-!
# Lexemes

The tokens of a text in their order, each with its position.

* `Cursor.read` — the token at a cursor, after blanks, and the cursor behind it.
* `lexemes` — all that is read from a text up to its end, also past faults.
-/

set_option autoImplicit false

namespace Conformance

/-- What was read at one place: a token with its position, or a fault, and where reading goes on. -/
structure Lexeme where
  result : Except LexicalError (Position × Token)
  next : Cursor

/-- The result is the end of the text. -/
def Lexeme.isEnd (l : Lexeme) : Bool :=
  match l.result with
  | .ok (_, .endOfInput) => true
  | _ => false

/-- Reads the token at a cursor. The end of the text has no bytes of its own, and its position says so by
the empty stretch at the beginning of the text. -/
def Cursor.read (k : Cursor) : Lexeme :=
  let start := k.advance (blankLength false k.rest)
  let scan := Scan.ofText start.rest
  let stop := start.advance scan.length
  match scan.result with
  | .ok .endOfInput => ⟨.ok (⟨start.place, 0, 0⟩, .endOfInput), stop⟩
  | .ok token => ⟨.ok (⟨start.place, start.place.index, stop.place.index⟩, token), stop⟩
  | .error e =>
    ⟨.error ⟨e.fault, ⟨(start.advance e.offset).place, start.place.index, stop.place.index⟩⟩, stop⟩

/-- What is read from a cursor on, in so many steps at most. -/
def Cursor.readAll : Nat → Cursor → List Lexeme
  | 0, _ => []
  | steps + 1, k =>
    let lexeme := k.read
    if lexeme.isEnd then [lexeme] else lexeme :: readAll steps lexeme.next

/-- What is read from a text up to its end. Every step but the last takes a character. -/
def lexemes (text : List Char) : List Lexeme :=
  Cursor.readAll (text.length + 1) (.ofText text)

end Conformance
