import Conformance.Binary64.Basic
import Conformance.Text.Digits

/-!
# Decimal text of double-precision numbers

The digits of a number are the fewest that read back as the same number and, of those, the ones nearest
to it. Two layouts are built from them.

* `Magnitude.numeral` — the digits and the place of the decimal point.
* `Binary64.plainText` — never an exponent, no point after an integer: `1`, `0.00001`.
* `Binary64.literalText` — always a point or an exponent, so that the text cannot be taken for an
  integer: `1.0`, `1e-5`.
-/

set_option autoImplicit false

namespace Conformance

/-- Decimal digits `d₁d₂…` and the place of the point, counted from before `d₁`: the number
`0.d₁d₂… · 10 ^ point`. -/
structure Numeral where
  digits : List Char
  point : Int
  deriving DecidableEq, Repr

namespace Numeral

/-- The digits of zero. -/
def zero : Numeral := ⟨['0'], 1⟩

/-- The digits of `n · 10 ^ scale` without zeros at the end. -/
def ofScaled (n : Nat) (scale : Int) : Numeral :=
  let written := Digits.ofNat n
  ⟨(written.reverse.dropWhile (· == '0')).reverse, written.length + scale⟩

/-- Plain digits with a point where there is a fraction; `whole` is what follows an integer. -/
def positional (d : Numeral) (whole : List Char) : List Char :=
  if d.point ≤ 0 then '0' :: '.' :: List.replicate (-d.point).toNat '0' ++ d.digits
  else
    let places := d.point.toNat
    if d.digits.length ≤ places then
      d.digits ++ List.replicate (places - d.digits.length) '0' ++ whole
    else d.digits.take places ++ '.' :: d.digits.drop places

/-- One digit, the others after a point if there are any, and the power of ten. -/
def scientific (d : Numeral) : List Char :=
  let fraction := d.digits.drop 1
  d.digits.take 1 ++ (if fraction.isEmpty then [] else '.' :: fraction) ++
    'e' :: Digits.ofInt (d.point - 1)

end Numeral

namespace Magnitude

/-- The least `p` with the magnitude below `10 ^ p`, for a magnitude that is not zero. -/
def decade (m : Magnitude) : Int :=
  if unitsPerOne ≤ m.units then ((Digits.ofNat (m.units / unitsPerOne)).length : Int)
  else 1 - (Digits.ofNat ((unitsPerOne - 1) / m.units)).length

/-- The digits with `count` places that read back as the magnitude: of its two neighbours with so many
places those that round to it, and of two the nearer one. -/
def numeralOfCount? (m : Magnitude) (count : Nat) : Option Numeral :=
  let scale := m.decade - count
  let up := Nat.pow 10 scale.toNat
  let down := Nat.pow 10 (-scale).toNat
  let numerator := m.units * down
  let denominator := unitsPerOne * up
  let lower := numerator / denominator
  let readsBack := fun n => nearest? (n * denominator) down == some m
  let lowerIsNearer := 2 * (numerator % denominator) < denominator
  if readsBack lower && (lowerIsNearer || !readsBack (lower + 1)) then
    some (Numeral.ofScaled lower scale)
  else if readsBack (lower + 1) then some (Numeral.ofScaled (lower + 1) scale)
  else none

/-- The fewest digits that read back as the magnitude; seventeen are always enough. -/
def numeral (m : Magnitude) : Numeral :=
  if m.rank = 0 then .zero
  else ((List.range' 1 17).findSome? m.numeralOfCount?).getD .zero

end Magnitude

namespace Binary64

/-- Puts a minus before the text of a negative number. -/
def signed (negative : Bool) (text : List Char) : List Char :=
  if negative then '-' :: text else text

/-- Plain decimal text. -/
def plainText : Binary64 → List Char
  | .nan => "NaN".toList
  | .infinite negative => signed negative "inf".toList
  | .finite negative m => signed negative (m.numeral.positional [])

/-- The text of a literal: positional from 0.0001 up to below 10¹⁶, scientific elsewhere. -/
def literalText : Binary64 → List Char
  | .nan => "NaN".toList
  | .infinite negative => signed negative "inf".toList
  | .finite negative m =>
    let d := m.numeral
    signed negative
      (if -3 ≤ d.point ∧ d.point ≤ 16 then d.positional ".0".toList else d.scientific)

end Binary64

end Conformance
