import Conformance.Binary64.Basic
import Conformance.Text.Digits

/-!
# Decimal numerals

A decimal numeral as written in texts and literals: an optional sign, digits with an optional
point, and an optional power of ten. The numeral stands for one exact number; the double-precision
number nearest to it is found from that exact number in a single rounding.

* `Decimal.ofText?` — reads the whole of a text as a numeral.
* `Decimal.toBinary64` — the nearest double-precision number.
* `Decimal.Denotes` — which integer, if any, the numeral stands for exactly.
-/

set_option autoImplicit false

namespace Conformance

/-- The number `±significand · 10 ^ exponent`. -/
structure Decimal where
  negative : Bool
  significand : Nat
  exponent : Int
  deriving DecidableEq, Repr

namespace Decimal

/-- Splits off a leading sign; tells whether it is a minus. -/
def takeSign : List Char → Bool × List Char
  | '-' :: rest => (true, rest)
  | '+' :: rest => (false, rest)
  | text => (false, text)

/-- The exponent part of a numeral, which may be missing altogether. -/
def exponentOf? : List Char → Option Int
  | [] => some 0
  | e :: rest =>
    let (negative, digits) := takeSign rest
    if (e = 'e' ∨ e = 'E') ∧ digits ≠ [] ∧ digits.all Char.isDigit then
      some (if negative then -(Digits.value digits : Int) else Digits.value digits)
    else none

/-- Reads a whole text as a numeral: at least one digit before or after the point, and at least one
digit in the exponent where there is one. -/
def ofText? (text : List Char) : Option Decimal :=
  let (negative, body) := takeSign text
  let whole := body.takeWhile Char.isDigit
  let afterWhole := body.dropWhile Char.isDigit
  let (fraction, afterFraction) :=
    match afterWhole with
    | '.' :: rest => (rest.takeWhile Char.isDigit, rest.dropWhile Char.isDigit)
    | rest => ([], rest)
  let digits := whole ++ fraction
  if digits.isEmpty then none
  else (exponentOf? afterFraction).map fun e => ⟨negative, Digits.value digits, e - fraction.length⟩

/-- The numeral stands for exactly this integer. -/
def Denotes (d : Decimal) (i : Int) : Prop :=
  let signed : Int := if d.negative then -(d.significand : Int) else d.significand
  signed * (Nat.pow 10 d.exponent.toNat : Nat) = i * (Nat.pow 10 (-d.exponent).toNat : Nat)

instance (d : Decimal) (i : Int) : Decidable (d.Denotes i) :=
  inferInstanceAs (Decidable (_ = _))

/-- The double-precision number nearest to the numeral. Numerals from 10³¹⁰ on are infinite and those
below 10⁻³³⁰ are zero whatever their digits, so no long power of ten is worked out for them. -/
def toBinary64 (d : Decimal) : Binary64 :=
  let decade := d.exponent + (Digits.ofNat d.significand).length
  if d.significand = 0 ∨ decade < -330 then .finite d.negative .zero
  else if 310 < decade then .infinite d.negative
  else
    .nearest d.negative
      (d.significand * Nat.pow 10 d.exponent.toNat * Magnitude.unitsPerOne)
      (Nat.pow 10 (-d.exponent).toNat)

end Decimal

end Conformance
