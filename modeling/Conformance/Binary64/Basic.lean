/-!
# Double-precision numbers

A number of the IEEE 754 binary64 format, by its sign and its magnitude. All patterns that are not a
number count as one, `nan`, so structural equality is equality bit for bit; equality of values
(`Binary64.equal`) is the arithmetical one.

* `Magnitude` — a finite magnitude, by its rank among all finite magnitudes.
* `Magnitude.units` — its exact size as a multiple of 2⁻¹⁰⁷⁴, the smallest positive magnitude.
* `Magnitude.nearest?` — rounding of a quotient to the nearest magnitude, ties to the even rank.
* `Binary64.ofBits`, `Binary64.bits` — the 64-bit word of the format.
* `Binary64.toInt?`, `Binary64.ofInt` — the integers among the numbers.
-/

set_option autoImplicit false

namespace Conformance

/-- The number of ranks over which magnitudes keep one step: 2⁵². -/
abbrev Magnitude.runLength : Nat := 4503599627370496

/-- The number of finite magnitudes: 2047 runs of them. -/
abbrev Magnitude.count : Nat := 9218868437227405312

/-- A finite magnitude. Zero has rank 0 and each magnitude ranks one above the next smaller one,
which makes the rank the exponent and fraction fields of the format read as one number. -/
structure Magnitude where
  rank : Nat
  rank_lt : rank < Magnitude.count
  deriving DecidableEq, Repr

namespace Magnitude

/-- The magnitude of zero. -/
def zero : Magnitude := ⟨0, by decide⟩

/-- How many units of 2⁻¹⁰⁷⁴ make up one. -/
def unitsPerOne : Nat := Nat.pow 2 1074

/-- The exact size in units of 2⁻¹⁰⁷⁴. Ranks of the first run step by one unit; each later run steps by
twice the step of the run before, where the second run begins with the step of the first. -/
def units (m : Magnitude) : Nat :=
  if m.rank < runLength then m.rank
  else (runLength + m.rank % runLength) * Nat.pow 2 (m.rank / runLength - 1)

/-- The quotient rounded to the nearest natural number, a half to the even one. -/
def roundHalfEven (numerator denominator : Nat) : Nat :=
  let quotient := numerator / denominator
  let twice := 2 * (numerator % denominator)
  if twice < denominator then quotient
  else if denominator < twice then quotient + 1
  else quotient + quotient % 2

/-- The magnitude nearest to a quotient of units, a tie going to the even rank; nothing where the
quotient rounds past the largest magnitude. -/
def nearest? (numerator denominator : Nat) : Option Magnitude :=
  let shift := (numerator / denominator).log2 - 52
  let rank := shift * runLength + roundHalfEven numerator (denominator * Nat.pow 2 shift)
  if h : rank < count then some ⟨rank, h⟩ else none

end Magnitude

/-- A binary64 number. -/
inductive Binary64 where
  | nan
  | infinite (negative : Bool)
  | finite (negative : Bool) (magnitude : Magnitude)
  deriving DecidableEq, Repr

namespace Binary64

/-- Positive zero. -/
def zero : Binary64 := .finite false .zero

def isFinite : Binary64 → Bool
  | .finite _ _ => true
  | _ => false

/-- Equality of values: `nan` equals nothing, and the two zeros are equal. -/
def equal : Binary64 → Binary64 → Bool
  | .infinite s, .infinite t => s == t
  | .finite s m, .finite t n => m.rank == n.rank && (s == t || m.rank == 0)
  | _, _ => false

/-- The number with the given sign that is nearest to a quotient of units. -/
def nearest (negative : Bool) (numerator denominator : Nat) : Binary64 :=
  (Magnitude.nearest? numerator denominator).elim (.infinite negative) (.finite negative)

theorem nearest_eq {negative : Bool} {numerator denominator : Nat} {m : Magnitude}
    (h : Magnitude.nearest? numerator denominator = some m) :
    nearest negative numerator denominator = .finite negative m := by
  unfold nearest
  rw [h, Option.elim_some]

/-- The number nearest to an integer. -/
def ofInt (i : Int) : Binary64 :=
  nearest (decide (i < 0)) (i.natAbs * Magnitude.unitsPerOne) 1

/-- The integer that a number is, if it is one. -/
def toInt? : Binary64 → Option Int
  | .finite negative m =>
    if m.units % Magnitude.unitsPerOne = 0 then
      let size : Int := (m.units / Magnitude.unitsPerOne : Nat)
      some (if negative then -size else size)
    else none
  | _ => none

/-- The place value of the highest of 64 bits: 2⁶³. -/
abbrev signBit : Nat := 9223372036854775808

/-- Reads the word of the format: the highest bit is the sign, the others are the rank of a finite
magnitude, or the first number past those for infinity, or one further still for `nan`. -/
def ofBits (word : UInt64) : Binary64 :=
  let negative := decide (signBit ≤ word.toNat)
  let rank := word.toNat % signBit
  if h : rank < Magnitude.count then .finite negative ⟨rank, h⟩
  else if rank = Magnitude.count then .infinite negative
  else .nan

/-- The word of the format, with the usual word for `nan`. -/
def bits : Binary64 → UInt64
  | .nan => 0x7ff8000000000000
  | .infinite negative => word negative Magnitude.count
  | .finite negative m => word negative m.rank
where
  /-- A sign bit before 63 bits of rank. -/
  word (negative : Bool) (rank : Nat) : UInt64 :=
    UInt64.ofNat ((if negative then signBit else 0) + rank)

end Binary64

end Conformance
