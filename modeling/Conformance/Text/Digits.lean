/-!
# Decimal digits

Natural numbers as runs of decimal digits: read (`Digits.value`), written plainly (`Digits.ofNat`) and
written with a least width (`Digits.padded`).
-/

set_option autoImplicit false

namespace Conformance.Digits

/-- The natural number that a run of decimal digits writes. -/
def value (digits : List Char) : Nat :=
  digits.foldl (fun n c => 10 * n + (c.toNat - '0'.toNat)) 0

/-- The decimal digits of a natural number, without zeros in front. -/
def ofNat (n : Nat) : List Char := Nat.toDigits 10 n

/-- The decimal digits with as many zeros in front as the width asks for. -/
def padded (width n : Nat) : List Char :=
  List.replicate (width - (ofNat n).length) '0' ++ ofNat n

/-- An integer with a minus in front if it is negative. -/
def ofInt (i : Int) : List Char :=
  if i < 0 then '-' :: ofNat i.natAbs else ofNat i.natAbs

/-- Splits the number that the first `count` characters write off a text. -/
def take? (count : Nat) (text : List Char) : Option (Nat × List Char) :=
  let digits := text.take count
  if digits.length = count ∧ digits.all Char.isDigit then some (value digits, text.drop count)
  else none

end Conformance.Digits
