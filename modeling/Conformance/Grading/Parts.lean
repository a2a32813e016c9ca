import Conformance.Grading.Finding

/-!
# Parts of a composite value

An array or a map is graded part by part. Each part gives a grade, what is left of it in the converted
value, and its findings; the parts together give the grading of the whole.

* `Parts.append` — the parts of two stretches of one composite.
* `Parts.close` — the grading of the composite.
-/

set_option autoImplicit false

namespace Conformance

/-- The graded parts of a stretch of a composite: their common grade, the pieces of the converted
composite, and the findings. -/
structure Parts (α : Type) where
  outcome : Outcome
  pieces : List α
  findings : List Finding

namespace Parts

variable {α : Type}

/-- No parts. -/
def empty : Parts α := ⟨.matched, [], []⟩

/-- The parts of two stretches, one after the other. -/
def append (p q : Parts α) : Parts α :=
  ⟨p.outcome.join q.outcome, p.pieces ++ q.pieces, p.findings ++ q.findings⟩

/-- A piece that is kept as it is, without a finding. -/
def kept (piece : α) : Parts α := ⟨.matched, [piece], []⟩

/-- One decision about the part at a step. -/
def decided (step : Step) (reason : Reason) (pieces : List α) : Parts α :=
  ⟨reason.outcome, pieces, [⟨[step], reason⟩]⟩

/-- A part that was graded by itself. -/
def graded (step : Step) (piece : Value → α) (g : Grading) : Parts α :=
  ⟨g.outcome, [piece g.value], g.findings.map (Finding.under step)⟩

/-- The grading of a composite value, converted to what its pieces make up unless it is incompatible. -/
def close (p : Parts α) (compose : List α → Value) (whole : Value) : Grading :=
  ⟨p.outcome, if p.outcome = .incompatible then whole else compose p.pieces, p.findings⟩

@[simp] theorem empty_append (p : Parts α) : empty.append p = p := by
  simp [append, empty]

@[simp] theorem append_empty (p : Parts α) : p.append empty = p := by
  simp [append, empty]

theorem append_assoc (p q r : Parts α) : (p.append q).append r = p.append (q.append r) := by
  simp [append, Outcome.join_assoc, List.append_assoc]

end Parts

end Conformance
