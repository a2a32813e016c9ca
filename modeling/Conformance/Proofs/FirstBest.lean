import Conformance.Proofs.Inversion

/-!
# A name stands for the first of its best nodes

The grading by a name is the one by the first node that no other node of the name grades better, where an exact
match is not compared with what comes after it.

* `FirstBest` — the grading by a node that is better than those by the nodes before it and no worse than those
  by the nodes after it.
* `bestGrading_stays`, `bestGrading_of_firstBest`, `bestGrading_ends` — a run over nodes keeps what it began with,
  or comes to the first of the best, and to nothing else.
* `gradeReference_iff` — the gradings by a name.
-/

set_option autoImplicit false

namespace Conformance

/-- The grading by this node is better than by each node before it and at least as good as by each node after
it. What comes after an exact match need not have a grading at all. -/
structure FirstBest (grade : Node → Option Grading) (before : List Node) (node : Node) (after : List Node)
    (g : Grading) : Prop where
  graded : grade node = some g
  earlier : ∀ m ∈ before, ∃ h, grade m = some h ∧ h.outcome < g.outcome
  later : g.outcome = .matched ∨ ∀ m ∈ after, ∃ h, grade m = some h ∧ h.outcome ≤ g.outcome

section Runs

variable {grade : Node → Option Grading} {before after nodes : List Node} {node : Node} {best g h : Grading}

/-- One more node before, which is graded worse. -/
theorem FirstBest.cons (hfirst : FirstBest grade before node after g) {m : Node} (hm : grade m = some h)
    (hlt : h.outcome < g.outcome) : FirstBest grade (m :: before) node after g :=
  ⟨hfirst.graded, List.forall_mem_cons.2 ⟨⟨h, hm, hlt⟩, hfirst.earlier⟩, hfirst.later⟩

theorem Outcome.lt_matched {o : Outcome} (h : o ≠ .matched) : o < .matched := by
  revert h
  cases o <;> decide

theorem Outcome.ne_matched_of_lt {a b : Outcome} (h : a < b) : a ≠ .matched := by
  revert h
  cases a <;> cases b <;> decide

theorem bestGrading_of_matched (h : best.outcome = .matched) (nodes : List Node) :
    bestGrading grade best nodes = some best := by
  cases nodes with
  | nil => rfl
  | cons node nodes => exact if_pos h

/-- One more node, where what it began with is no exact match. -/
theorem bestGrading_cons (hbest : best.outcome ≠ .matched) {m : Node} (hm : grade m = some h) :
    bestGrading grade best (m :: nodes) =
      bestGrading grade (if best.outcome < h.outcome then h else best) nodes := by
  conv => lhs; unfold bestGrading
  rw [if_neg hbest, hm]
  rfl

/-- A run keeps what it began with where nothing is better. -/
theorem bestGrading_stays
    (hlater : best.outcome = .matched ∨ ∀ m ∈ nodes, ∃ h, grade m = some h ∧ h.outcome ≤ best.outcome) :
    bestGrading grade best nodes = some best := by
  by_cases hmatched : best.outcome = .matched
  · exact bestGrading_of_matched hmatched nodes
  have hall := hlater.resolve_left hmatched
  clear hlater
  induction nodes with
  | nil => rfl
  | cons m nodes ih =>
    obtain ⟨⟨h, hm, hle⟩, hall⟩ := List.forall_mem_cons.1 hall
    have hno : ¬ best.outcome < h.outcome := Nat.not_lt.2 hle
    rw [bestGrading_cons hmatched hm, if_neg hno]
    exact ih hall

/-- A run comes to the first of the best nodes where that is better than what it began with. -/
theorem bestGrading_of_firstBest (hfirst : FirstBest grade before node after g)
    (hlt : best.outcome < g.outcome) : bestGrading grade best (before ++ node :: after) = some g := by
  induction before generalizing best with
  | nil =>
    rw [List.nil_append, bestGrading_cons (Outcome.ne_matched_of_lt hlt) hfirst.graded, if_pos hlt]
    exact bestGrading_stays hfirst.later
  | cons b before ih =>
    obtain ⟨⟨h, hb, hworse⟩, hearlier⟩ := List.forall_mem_cons.1 hfirst.earlier
    rw [List.cons_append, bestGrading_cons (Outcome.ne_matched_of_lt hlt) hb]
    apply ih ⟨hfirst.graded, hearlier, hfirst.later⟩
    split
    · exact hworse
    · exact hlt

/-- A run keeps what it began with, and nothing is better, or it ends with the first of the best. -/
theorem bestGrading_ends (hrun : bestGrading grade best nodes = some g) :
    (g = best ∧ (best.outcome = .matched ∨ ∀ m ∈ nodes, ∃ h, grade m = some h ∧ h.outcome ≤ best.outcome)) ∨
      ∃ before node after, nodes = before ++ node :: after ∧ best.outcome < g.outcome ∧
        FirstBest grade before node after g := by
  induction nodes generalizing best with
  | nil => exact .inl ⟨(Option.some.inj hrun).symm, .inr (by simp)⟩
  | cons m nodes ih =>
    by_cases hmatched : best.outcome = .matched
    · rw [bestGrading_of_matched hmatched] at hrun
      exact .inl ⟨(Option.some.inj hrun).symm, .inl hmatched⟩
    cases hm : grade m with
    | none =>
      unfold bestGrading at hrun
      rw [if_neg hmatched, hm] at hrun
      cases hrun
    | some h =>
      rw [bestGrading_cons hmatched hm] at hrun
      by_cases hbetter : best.outcome < h.outcome
      · rw [if_pos hbetter] at hrun
        rcases ih hrun with ⟨rfl, hlater⟩ | ⟨before, node, after, rfl, hlt, hfirst⟩
        · exact .inr ⟨[], m, nodes, rfl, hbetter, hm, by simp, hlater⟩
        · exact .inr ⟨m :: before, node, after, rfl, Nat.lt_trans hbetter hlt, hfirst.cons hm hlt⟩
      · rw [if_neg hbetter] at hrun
        have hle : h.outcome ≤ best.outcome := Nat.not_lt.1 hbetter
        rcases ih hrun with ⟨rfl, hall⟩ | ⟨before, node, after, rfl, hlt, hfirst⟩
        · exact .inl ⟨rfl, .inr (List.forall_mem_cons.2 ⟨⟨h, hm, hle⟩, hall.resolve_left hmatched⟩)⟩
        · exact .inr ⟨m :: before, node, after, rfl, hlt, hfirst.cons hm (Nat.lt_of_le_of_lt hle hlt)⟩

/-- **The grading by a name is the one by the first of its best nodes**, findings included. -/
theorem gradeReference_iff {definitions : Definitions} {name : String} {v : Value}
    (hne : definitions.nodes name ≠ []) : gradeReference definitions grade name v = some g ↔
      ∃ before node after, definitions.nodes name = before ++ node :: after ∧
        FirstBest grade before node after g := by
  obtain ⟨m, nodes, hnodes⟩ := List.exists_cons_of_ne_nil hne
  unfold gradeReference
  rw [hnodes]
  simp only [Option.bind_eq_bind, Option.bind_eq_some_iff]
  constructor
  · rintro ⟨h, hh, hrun⟩
    rcases bestGrading_ends hrun with ⟨rfl, hlater⟩ | ⟨before, node, after, rfl, hlt, hfirst⟩
    · exact ⟨[], m, nodes, rfl, hh, by simp, hlater⟩
    · exact ⟨m :: before, node, after, rfl, hfirst.cons hh hlt⟩
  · rintro ⟨before, node, after, heq, hfirst⟩
    cases before with
    | nil =>
      obtain ⟨rfl, rfl⟩ := List.cons.inj heq
      exact ⟨g, hfirst.graded, bestGrading_stays hfirst.later⟩
    | cons b before =>
      obtain ⟨rfl, rfl⟩ := List.cons.inj heq
      obtain ⟨⟨h, hh, hworse⟩, hearlier⟩ := List.forall_mem_cons.1 hfirst.earlier
      exact ⟨h, hh, bestGrading_of_firstBest ⟨hfirst.graded, hearlier, hfirst.later⟩ hworse⟩

end Runs

end Conformance
