/-!
# UUIDs

An identifier of 128 bits, by its 32 hexadecimal digits, and its one canonical text: the digits in lower
case in groups of 8, 4, 4, 4 and 12 with hyphens between.
-/

set_option autoImplicit false

namespace Conformance

/-- The value of a hexadecimal digit in either case. -/
def hexDigit? (c : Char) : Option (Fin 16) :=
  let n := c.toNat
  if 48 ≤ n ∧ n ≤ 57 then some (Fin.ofNat 16 (n - 48))
  else if 97 ≤ n ∧ n ≤ 102 then some (Fin.ofNat 16 (n - 87))
  else if 65 ≤ n ∧ n ≤ 70 then some (Fin.ofNat 16 (n - 55))
  else none

/-- The lower-case hexadecimal digit of a number below sixteen. -/
def hexChar (n : Fin 16) : Char := Nat.digitChar n.val

structure Uuid where
  digits : List (Fin 16)
  digits_length : digits.length = 32
  deriving DecidableEq, Repr

namespace Uuid

/-- The identifier with all digits zero. -/
def nil : Uuid := ⟨List.replicate 32 0, by simp⟩

/-- How many digits each group of the text has. -/
def groups : List Nat := [8, 4, 4, 4, 12]

/-- Cuts digits into groups and puts a hyphen between two groups. -/
def hyphenate : List Nat → List Char → List Char
  | [], digits => digits
  | [_], digits => digits
  | size :: sizes, digits => digits.take size ++ '-' :: hyphenate sizes (digits.drop size)

/-- The characters of the canonical text. -/
def characters (u : Uuid) : List Char := hyphenate groups (u.digits.map hexChar)

/-- The canonical text. -/
def text (u : Uuid) : String := String.ofList u.characters

/-- Takes the digits of the groups out of a text whose hyphens stand between the groups and nowhere
else. -/
def unhyphenate? : List Nat → List Char → Option (List Char)
  | [], text => if text.isEmpty then some [] else none
  | [size], text => if text.length = size then some text else none
  | size :: sizes, text =>
    match text.drop size with
    | '-' :: rest => (unhyphenate? sizes rest).map (text.take size ++ ·)
    | _ => none

/-- Reads the canonical text, with digits in either case. -/
def ofText? (text : List Char) : Option Uuid :=
  match (unhyphenate? groups text).bind (·.mapM hexDigit?) with
  | some digits => if h : digits.length = 32 then some ⟨digits, h⟩ else none
  | none => none

end Uuid

end Conformance
