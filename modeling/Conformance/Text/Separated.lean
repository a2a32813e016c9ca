/-!
# Separators

Lists are written with a separator between two members: each member is followed by the separator if
there are members after it (`separatorBefore`). A text is cut into its members at each separator
(`splitOn`).
-/

set_option autoImplicit false

namespace Conformance

/-- What is written between a member of a list and the members after it. -/
def separatorBefore {α : Type} (separator : String) (rest : List α) : List Char :=
  if rest.isEmpty then [] else separator.toList

/-- The runs of characters between occurrences of a separator. -/
def splitOn (separator : Char) : List Char → List (List Char)
  | [] => [[]]
  | c :: rest =>
    if c = separator then [] :: splitOn separator rest
    else
      match splitOn separator rest with
      | part :: parts => (c :: part) :: parts
      | [] => [[c]]

end Conformance
