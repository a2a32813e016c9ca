import Conformance.Text.Digits
import Conformance.Value.Calendar

/-!
# Instants

A point of time in UTC to the nanosecond, and its text `YYYY-MM-DDTHH:MM:SS(.digits)Z`. The inside of a
leap second is told apart from the second before it: it has the same whole seconds and nanoseconds from
10⁹ on. A program can give any second such nanoseconds; read from a text, only a second that ends its minute
has them.

* `Instant.text` — the text, with the fewest of 0, 3, 6 or 9 fraction digits that lose nothing.
* `Instant.ofText?` — reads such a text, with any number of fraction digits.
-/

set_option autoImplicit false

namespace Conformance

structure Instant where
  /-- Whole seconds since the beginning of 1970, without leap seconds. -/
  seconds : Int
  /-- Nanoseconds since the second began; those of a leap second begin at 10⁹. -/
  nanos : Nat
  nanos_lt : nanos < 2000000000
  deriving DecidableEq, Repr

namespace Instant

/-- The beginning of 1970. -/
def epoch : Instant := ⟨0, 0, by decide⟩

/-- The instant, where the nanoseconds are possible at that second: those of a leap second are at the end of a
minute. -/
def ofParts? (seconds : Int) (nanos : Nat) : Option Instant :=
  if h : nanos < 2000000000 ∧ (1000000000 ≤ nanos → seconds % 60 = 59) then
    some ⟨seconds, nanos, h.1⟩
  else none

/-- A year is written with four digits, and with its sign where it does not fit. -/
def yearText (year : Int) : List Char :=
  if 0 ≤ year ∧ year ≤ 9999 then Digits.padded 4 year.natAbs
  else (if year < 0 then '-' else '+') :: Digits.padded 4 year.natAbs

/-- A point and 3, 6 or 9 digits, or nothing where there is no fraction. -/
def fractionText (nanos : Nat) : List Char :=
  if nanos = 0 then []
  else if nanos % 1000000 = 0 then '.' :: Digits.padded 3 (nanos / 1000000)
  else if nanos % 1000 = 0 then '.' :: Digits.padded 6 (nanos / 1000)
  else '.' :: Digits.padded 9 nanos

/-- The characters of the text; a leap second is written as the next second, which at the end of a minute is
second 60. -/
def characters (t : Instant) : List Char :=
  let day := CalendarDay.ofDays (t.seconds / 86400)
  let second := (t.seconds % 86400).toNat
  yearText day.year ++ '-' :: Digits.padded 2 day.month ++ '-' :: Digits.padded 2 day.day ++
    'T' :: Digits.padded 2 (second / 3600) ++ ':' :: Digits.padded 2 (second / 60 % 60) ++
    ':' :: Digits.padded 2 (second % 60 + t.nanos / 1000000000) ++
    fractionText (t.nanos % 1000000000) ++ ['Z']

/-- The text of an instant. -/
def text (t : Instant) : String := String.ofList t.characters

/-- Takes the given character off the front of a text. -/
def skip? (c : Char) : List Char → Option (List Char)
  | d :: rest => if c = d then some rest else none
  | [] => none

/-- The nanoseconds that the digits after a point stand for; digits after the ninth are cut off. -/
def nanosOfFraction (digits : List Char) : Nat :=
  Digits.value ((digits ++ List.replicate 9 '0').take 9)

/-- What may follow the seconds: an optional fraction, and the mark of UTC. -/
def fraction? : List Char → Option Nat
  | ['Z'] => some 0
  | '.' :: rest =>
    let digits := rest.takeWhile Char.isDigit
    if digits ≠ [] ∧ rest.dropWhile Char.isDigit = ['Z'] then some (nanosOfFraction digits) else none
  | _ => none

/-- The instant of a second of a day; second 60 lies inside the leap second after second 59. -/
def ofClock? (day : CalendarDay) (hour minute second nanos : Nat) : Option Instant :=
  if day.IsValid ∧ hour ≤ 23 ∧ minute ≤ 59 ∧ second ≤ 60 then
    let whole := fun s : Nat => day.toDays * 86400 + ((hour * 60 + minute) * 60 + s : Nat)
    if second = 60 then ofParts? (whole 59) (1000000000 + nanos) else ofParts? (whole second) nanos
  else none

/-- Reads the text of an instant of the years 0000 to 9999. -/
def ofText? (text : List Char) : Option Instant := do
  let (year, text) ← Digits.take? 4 text
  let (month, text) ← (skip? '-' text).bind (Digits.take? 2)
  let (day, text) ← (skip? '-' text).bind (Digits.take? 2)
  let (hour, text) ← (skip? 'T' text).bind (Digits.take? 2)
  let (minute, text) ← (skip? ':' text).bind (Digits.take? 2)
  let (second, text) ← (skip? ':' text).bind (Digits.take? 2)
  let nanos ← fraction? text
  ofClock? ⟨year, month, day⟩ hour minute second nanos

end Instant

end Conformance
