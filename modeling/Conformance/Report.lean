import Conformance.Syntax.Parser
import Conformance.Text.Separated
import Conformance.Text.Width

/-!
# Reports

A parse error drawn below the lines of the text that it is about. The stretch of the error is underlined
with carets; a stretch that goes on to the next line is marked in the margin instead.

* `Line`, `lineAt` — the lines of a text, which end at line feeds only.
* `Cell` — a character of a line with its width on the display; a tab reaches to the next multiple of
  four columns.
* `ParseError.report` — the report.
-/

set_option autoImplicit false

namespace Conformance

/-- A line of a text, with the number of bytes before it. -/
structure Line where
  number : Nat
  start : Nat
  characters : List Char

/-- The number of bytes of a list of characters. -/
def byteCount (characters : List Char) : Nat :=
  characters.foldl (fun n c => n + c.utf8Size) 0

/-- Numbers lines and finds where each starts. -/
def numberLines (number start : Nat) : List (List Char) → List Line
  | [] => []
  | characters :: rest =>
    ⟨number, start, characters⟩ ::
      numberLines (number + 1) (start + byteCount characters + 1) rest

/-- The line that a byte of a text is on. -/
def lineAt (text : List Char) (byte : Nat) : Line :=
  let lines := numberLines 1 0 (splitOn '\n' text)
  ((lines.filter fun line => line.start ≤ byte).getLast?).getD ⟨1, 0, []⟩

/-- A character as it is drawn, with the number of bytes before it on its line. -/
structure Cell where
  offset : Nat
  width : Nat
  character : Char

namespace Cell

/-- The width of a character that starts in a column. -/
def widthAt (column : Nat) (c : Char) : Nat :=
  if c = '\t' then 4 - column % 4 else charWidth c

/-- The cells of characters from an offset and a column on. -/
def ofCharacters (offset column : Nat) : List Char → List Cell
  | [] => []
  | c :: rest =>
    let width := widthAt column c
    ⟨offset, width, c⟩ :: ofCharacters (offset + c.utf8Size) (column + width) rest

/-- A character as it is written; a tab is written as blanks. -/
def written (cell : Cell) : List Char :=
  if cell.character = '\t' then List.replicate cell.width ' ' else [cell.character]

end Cell

namespace Line

/-- The characters of a line that are drawn: those before the carriage returns and null characters at
its end. -/
def drawn (line : Line) : List Char :=
  (line.characters.reverse.dropWhile fun c => c == '\r' || c == '\x00').reverse

def cells (line : Line) : List Cell := Cell.ofCharacters 0 0 line.drawn

/-- The line as it is written. -/
def written (line : Line) : List Char := line.cells.flatMap Cell.written

/-- The cells of a line and one more behind its end. -/
def cellsAndEnd (line : Line) : List Cell := line.cells ++ [⟨byteCount line.drawn, 1, '\n'⟩]

/-- Blanks up to an offset and carets from there up to another. -/
def carets (line : Line) (start stop : Nat) : List Char :=
  line.cellsAndEnd.flatMap fun cell =>
    if stop ≤ cell.offset then []
    else List.replicate cell.width (if cell.offset < start then ' ' else '^')

/-- A dash for each column up to and including the character at an offset. -/
def dashes (line : Line) (start : Nat) : List Char :=
  line.cells.flatMap fun cell =>
    if cell.offset ≤ start then List.replicate cell.width '─' else []

/-- The column of a character, counted in characters from one. -/
def columnOf (line : Line) (offset : Nat) : Nat :=
  ((Cell.ofCharacters 0 0 line.characters).filter fun cell => cell.offset < offset).length + 1

/-- Nothing but blanks stands before an offset. -/
def isBlankBefore (line : Line) (offset : Nat) : Bool :=
  line.cells.all fun cell => offset ≤ cell.offset || isBlank cell.character

end Line

namespace Report

/-- A line of a report: a margin of the given width with an optional line number, and what is drawn. -/
def row (width : Nat) (number? : Option Nat) (content : List Char) : List Char :=
  let number :=
    match number? with
    | some n => Digits.ofNat n
    | none => []
  List.replicate (width - number.length) ' ' ++ number ++ " │".toList ++ content ++ ['\n']

/-- A line of a report without a line number. -/
def unnumbered (width : Nat) (content : String) : List Char := row width none content.toList

/-- The rows for a stretch on one line. -/
def singleLine (width : Nat) (line : Line) (start stop : Nat) (label : String) : List Char :=
  let offset := start - line.start
  let carets := line.carets offset (Nat.max (offset + 1) (stop - line.start))
  unnumbered width "" ++ row width (some line.number) (' ' :: line.written) ++
    row width none (' ' :: carets ++ ' ' :: label.toList)

/-- The rows for a stretch that ends at the beginning of the next line. -/
def twoLines (width : Nat) (first second : Line) (start : Nat) (label : String) : List Char :=
  let offset := start - first.start
  let opening :=
    if first.isBlankBefore offset then
      row width (some first.number) (" ╭ ".toList ++ first.written)
    else
      row width (some first.number) ("   ".toList ++ first.written) ++
        row width none (" ╭".toList ++ first.dashes offset ++ ['^'])
  unnumbered width "  " ++ opening ++
    row width (some second.number) (" │ ".toList ++ second.written) ++
    unnumbered width (" ╰^ " ++ label)

/-- The report on a stretch of a text, with a title and a label. -/
def render (title label : String) (text : List Char) (start stop : Nat) : String :=
  let first := lineAt text start
  let last := lineAt text stop
  let width := (Digits.ofNat last.number).length
  let place := Digits.ofNat first.number ++ ':' :: Digits.ofNat (first.columnOf (start - first.start))
  let rows :=
    if first.number = last.number then singleLine width first start stop label
    else twoLines width first last start label
  String.ofList ("error: ".toList ++ title.toList ++ '\n' :: List.replicate width ' ' ++
    " ┌─ input:".toList ++ place ++ '\n' :: rows ++ ['\n'])

end Report

/-- The report on an error in a text. -/
def ParseError.report (e : ParseError) (text : String) : String :=
  match e with
  | .lexical cause =>
    Report.render "lexer error" cause.fault.label text.toList cause.position.start cause.position.stop
  | .structural _ _ position =>
    Report.render "parser error" e.message.text text.toList position.start position.stop

end Conformance
