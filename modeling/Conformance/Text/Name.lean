/-!
# Names

Which texts are names in a schema text: a letter or underscore, then letters, digits, underscores and
slashes, all of them ASCII.
-/

set_option autoImplicit false

namespace Conformance.Name

/-- A character that a name may begin with. -/
def isStart (c : Char) : Bool := c.isAlpha || c == '_'

/-- A character that a name may go on with. -/
def isPart (c : Char) : Bool := c.isAlphanum || c == '_' || c == '/'

/-- The whole text is a name. -/
def isName : List Char → Bool
  | [] => false
  | c :: rest => isStart c && rest.all isPart

theorem isPart_of_isStart {c : Char} (h : isStart c = true) : isPart c = true := by
  simp only [isStart, isPart, Char.isAlphanum, Bool.or_eq_true] at h ⊢
  exact h.elim (fun h => .inl (.inl (.inl h))) fun h => .inl (.inr h)

end Conformance.Name
