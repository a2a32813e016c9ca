import Conformance.Proofs.Inversion

/-!
# The grade is the verdict of the findings

A grading folds the grades of the parts together while it collects their findings. This file shows that
the two never part ways.

* `Grading.Balanced`, `Parts.Balanced` — the grade is the joint grade of the findings.
* `grade_balanced` — every grading is balanced, by induction on the levels.
* `IsVerdict` — the grade as it is read off the findings, without `Outcome.join`.
* `compare_isVerdict` — the grade of a comparison is the verdict of its findings; a name contributes the
  findings of one of its nodes and a field those of its own part.
-/

set_option autoImplicit false

namespace Conformance

/-- The grade is the joint grade of the findings. -/
def Grading.Balanced (g : Grading) : Prop :=
  g.outcome = Outcome.joinAll (g.findings.map Finding.outcome)

/-- The common grade of the parts is the joint grade of their findings. -/
def Parts.Balanced {α : Type} (p : Parts α) : Prop :=
  p.outcome = Outcome.joinAll (p.findings.map Finding.outcome)

/-- Parts are graded in balance. -/
def Inside.Balanced (inside : Inside) : Prop :=
  ∀ node v g, inside.grade node v = some g → g.Balanced

theorem Grading.balanced_matched (v : Value) : (Grading.matched v).Balanced := rfl

theorem Grading.balanced_decided (reason : Reason) (v : Value) :
    (Grading.decided reason v).Balanced := by
  simp [Grading.Balanced, Grading.decided, Finding.outcome]

namespace Parts

variable {α : Type}

theorem balanced_empty : (empty : Parts α).Balanced := rfl

theorem balanced_kept (piece : α) : (kept piece).Balanced := rfl

theorem balanced_decided (step : Step) (reason : Reason) (pieces : List α) :
    (decided step reason pieces).Balanced := by
  simp [Balanced, decided, Finding.outcome]

theorem balanced_graded (step : Step) (piece : Value → α) {g : Grading} (h : g.Balanced) :
    (graded step piece g).Balanced := by
  unfold Balanced graded
  rw [List.map_map]
  exact h

theorem Balanced.append {p q : Parts α} (hp : p.Balanced) (hq : q.Balanced) :
    (p.append q).Balanced := by
  unfold Balanced at *
  simp only [Parts.append, List.map_append, Outcome.joinAll_append, hp, hq]

theorem Balanced.close {p : Parts α} (h : p.Balanced) (compose : List α → Value) (whole : Value) :
    (p.close compose whole).Balanced := h

end Parts

/-! ## Scalars -/

theorem gradePrimitive_balanced (kind : Kind) (v : Value) : (gradePrimitive kind v).Balanced := by
  unfold gradePrimitive
  split
  · exact Grading.balanced_matched v
  · exact Grading.balanced_decided _ _
  · exact Grading.balanced_decided _ _
  · exact Grading.balanced_decided _ _

theorem gradeLiteral_balanced (expected v : Value) : (gradeLiteral expected v).Balanced := by
  unfold gradeLiteral
  split
  · exact Grading.balanced_matched v
  · exact Grading.balanced_decided _ _

/-! ## Composites -/

section Composites

variable {inside : Inside}

theorem extraItems_balanced (index : Nat) (items : List Value) :
    (extraItems index items).Balanced := by
  induction items generalizing index with
  | nil => exact Parts.balanced_empty
  | cons v items ih => exact (Parts.balanced_decided _ _ _).append (ih (index + 1))

theorem gradeItems_balanced (hin : inside.Balanced) :
    ∀ (index : Nat) (nodes : List Node) (items : List Value) {p : Parts Value},
      gradeItems inside index nodes items = some p → p.Balanced
  | index, [], items, p, h => by
    cases h
    exact extraItems_balanced index items
  | index, node :: nodes, v :: items, p, h => by
    obtain ⟨g, rest, hg, hrest, rfl⟩ := gradeItems_cons_cons.1 h
    exact (Parts.balanced_graded _ _ (hin _ _ _ hg)).append (gradeItems_balanced hin _ _ _ hrest)
  | index, node :: nodes, [], p, h => by
    obtain ⟨v, rest, -, hrest, rfl⟩ := gradeItems_cons_nil.1 h
    exact (Parts.balanced_decided _ _ _).append (gradeItems_balanced hin _ _ _ hrest)

theorem gradeArray_balanced (hin : inside.Balanced) {elements : List Node} {size : ArraySize}
    {v : Value} {g : Grading} (h : gradeArray inside elements size v = some g) : g.Balanced := by
  rcases gradeArray_cases h with rfl | ⟨rfl, -⟩ | ⟨items, p, rfl, -, hp, rfl⟩
  · exact Grading.balanced_matched _
  · exact Grading.balanced_decided _ _
  · exact (gradeItems_balanced hin _ _ _ hp).close _ _

theorem gradeField_balanced (hin : inside.Balanced) {entries : Entries Value} {f : Field Node}
    {p : Parts (String × Value)} (h : gradeField inside entries f = some p) : p.Balanced := by
  cases gradeField_cases h with
  | graded _ _ hg => exact Parts.balanced_graded _ _ (hin _ _ _ hg)
  | kept => exact Parts.balanced_kept _
  | replaced => exact Parts.balanced_decided _ _ _
  | filled => exact Parts.balanced_decided _ _ _
  | required => exact Parts.balanced_decided _ _ _

theorem gradeFields_balanced (hin : inside.Balanced) {entries : Entries Value} :
    ∀ {fields : List (Field Node)} {p : Parts (String × Value)},
      gradeFields inside entries fields = some p → p.Balanced
  | [], p, h => by
    cases h
    exact Parts.balanced_empty
  | f :: fields, p, h => by
    obtain ⟨part, rest, hpart, hrest, rfl⟩ := gradeFields_cons.1 h
    exact (gradeField_balanced hin hpart).append (gradeFields_balanced hin hrest)

theorem undeclaredEntries_balanced (fields : List (Field Node)) (kept : Option String)
    (entries : Entries Value) : (undeclaredEntries fields kept entries).Balanced := by
  induction entries with
  | nil => exact Parts.balanced_empty
  | cons e entries ih =>
    simp only [undeclaredEntries]
    split
    · exact ih
    split
    · exact (Parts.balanced_kept _).append ih
    · exact (Parts.balanced_decided _ _ _).append ih

theorem gradeMap_balanced (hin : inside.Balanced) {fields : List (Field Node)}
    {kept : Option String} {v : Value} {g : Grading}
    (h : gradeMap inside fields kept v = some g) : g.Balanced := by
  rcases gradeMap_cases h with ⟨rfl, -⟩ | ⟨entries, p, rfl, hp, rfl⟩
  · exact Grading.balanced_decided _ _
  · exact ((gradeFields_balanced hin hp).append (undeclaredEntries_balanced _ _ _)).close _ _

theorem gradeEntries_balanced (hin : inside.Balanced) {entry : Node} :
    ∀ {entries : Entries Value} {p : Parts (String × Value)},
      gradeEntries inside entry entries = some p → p.Balanced
  | [], p, h => by
    cases h
    exact Parts.balanced_empty
  | e :: entries, p, h => by
    obtain ⟨g, rest, hg, hrest, rfl⟩ := gradeEntries_cons.1 h
    exact (Parts.balanced_graded _ _ (hin _ _ _ hg)).append (gradeEntries_balanced hin hrest)

theorem gradeDictionary_balanced (hin : inside.Balanced) {entry : Node} {v : Value} {g : Grading}
    (h : gradeDictionary inside entry v = some g) : g.Balanced := by
  rcases gradeDictionary_cases h with ⟨rfl, -⟩ | ⟨entries, p, rfl, hp, rfl⟩
  · exact Grading.balanced_decided _ _
  · exact (gradeEntries_balanced hin hp).close _ _

theorem gradeSelector_balanced (hin : inside.Balanced) {definitions : Definitions}
    {discriminant : String} {alternatives : List (Alternative Node)} {v : Value} {g : Grading}
    (h : gradeSelector definitions inside discriminant alternatives v = some g) : g.Balanced := by
  rcases gradeSelector_cases h with
    ⟨⟨reason, -, rfl⟩, -⟩ | ⟨entries, a, rfl, -, ⟨fields, -, hg⟩ | ⟨-, hg⟩⟩
  · exact Grading.balanced_decided _ _
  · exact gradeMap_balanced hin hg
  · exact hin _ _ _ hg

end Composites

/-! ## Every grading -/

/-- **Every grading is balanced**, at every level and below all names. -/
theorem grade_balanced {definitions : Definitions} {levels : Nat} {entered : List String}
    {node : Node} {v : Value} {g : Grading}
    (h : grade definitions levels entered node v = some g) : g.Balanced := by
  induction levels generalizing entered node v g with
  | zero =>
    cases h
    exact Grading.balanced_decided _ _
  | succ levels ih =>
    have hin : (Inside.below definitions levels entered).Balanced := fun _ _ _ hg => ih hg
    cases node
    case any =>
      cases h
      exact Grading.balanced_matched v
    case primitive kind =>
      cases h
      exact gradePrimitive_balanced kind v
    case literal expected =>
      cases h
      exact gradeLiteral_balanced expected v
    case array elements size => exact gradeArray_balanced hin h
    case map fields => exact gradeMap_balanced hin h
    case dictionary entry => exact gradeDictionary_balanced hin h
    case selector discriminant alternatives => exact gradeSelector_balanced hin h
    case reference name =>
      rcases gradeReference_cases h with ⟨-, rfl⟩ | ⟨n, -, hg⟩
      · exact Grading.balanced_decided _ _
      · exact ih hg

/-! ## The verdict -/

/-- What the findings say about the grade: it is the worst if some finding has that grade, the best if
there is no finding, the one grade that all findings have, and `mixed` if two of them differ. -/
structure IsVerdict (o : Outcome) (findings : List Finding) : Prop where
  incompatible_iff : o = .incompatible ↔ ∃ f ∈ findings, f.outcome = .incompatible
  matched_iff : o = .matched ↔ findings = []
  single_iff : ∀ p ∈ [Outcome.converted, .defaulted, .additional],
    o = p ↔ findings ≠ [] ∧ ∀ f ∈ findings, f.outcome = p
  mixed_iff : o = .mixed ↔ (∀ f ∈ findings, f.outcome ≠ .incompatible) ∧
    ∃ f ∈ findings, ∃ f' ∈ findings, f.outcome ≠ f'.outcome

theorem Reason.outcome_ne_matched (r : Reason) : r.outcome ≠ .matched := by
  cases r <;> simp [Reason.outcome]

theorem Reason.outcome_ne_mixed (r : Reason) : r.outcome ≠ .mixed := by
  cases r <;> simp [Reason.outcome]

theorem Grading.Balanced.outcome_eq_matched {g : Grading} (h : g.Balanced) :
    g.outcome = .matched ↔ g.findings = [] := by
  rw [h, Outcome.joinAll_eq_matched]
  constructor
  · intro hall
    refine List.eq_nil_iff_forall_not_mem.2 fun f hf => ?_
    exact f.reason.outcome_ne_matched (hall _ (List.mem_map_of_mem hf))
  · intro hnil
    simp [hnil]

theorem Grading.Balanced.outcome_eq_incompatible {g : Grading} (h : g.Balanced) :
    g.outcome = .incompatible ↔ ∃ f ∈ g.findings, f.outcome = .incompatible := by
  rw [h, Outcome.joinAll_eq_incompatible, List.mem_map]

theorem Grading.Balanced.outcome_eq_single {g : Grading} (h : g.Balanced) {p : Outcome}
    (hi : p ≠ .incompatible) (hx : p ≠ .mixed) (hm : p ≠ .matched) :
    g.outcome = p ↔ g.findings ≠ [] ∧ ∀ f ∈ g.findings, f.outcome = p := by
  constructor
  · intro hp
    refine ⟨fun hnil => hm (hp ▸ h.outcome_eq_matched.2 hnil), fun f hf => ?_⟩
    have hall := Outcome.eq_or_matched_of_joinAll_eq hi hx (h ▸ hp)
    exact (hall _ (List.mem_map_of_mem hf)).resolve_right f.reason.outcome_ne_matched
  · rintro ⟨hne, hall⟩
    rw [h]
    exact Outcome.joinAll_of_forall_eq (by simpa using hne) (by simpa using hall)

theorem Grading.Balanced.isVerdict {g : Grading} (h : g.Balanced) :
    IsVerdict g.outcome g.findings := by
  have hsingle : ∀ p ∈ [Outcome.converted, .defaulted, .additional],
      g.outcome = p ↔ g.findings ≠ [] ∧ ∀ f ∈ g.findings, f.outcome = p := by
    intro p hp
    apply h.outcome_eq_single <;> rintro rfl <;> simp at hp
  refine ⟨h.outcome_eq_incompatible, h.outcome_eq_matched, hsingle, ?_⟩
  constructor
  · intro hmixed
    have hnot : ∀ f ∈ g.findings, f.outcome ≠ .incompatible := fun f hf hfi => by
      have := h.outcome_eq_incompatible.2 ⟨f, hf, hfi⟩
      rw [hmixed] at this
      cases this
    refine ⟨hnot, Classical.byContradiction fun hsame => ?_⟩
    have hall : ∀ f ∈ g.findings, ∀ f' ∈ g.findings, f.outcome = f'.outcome :=
      fun f hf f' hf' => Classical.byContradiction fun hne => hsame ⟨f, hf, f', hf', hne⟩
    cases hfs : g.findings with
    | nil =>
      have := h.outcome_eq_matched.2 hfs
      rw [hmixed] at this
      cases this
    | cons f fs =>
      have hf : f ∈ g.findings := hfs ▸ List.mem_cons_self
      have hp := (h.outcome_eq_single (hnot f hf) f.reason.outcome_ne_mixed
        f.reason.outcome_ne_matched).2 ⟨hfs ▸ List.cons_ne_nil f fs, fun f' hf' => hall f' hf' f hf⟩
      exact f.reason.outcome_ne_mixed (hp.symm.trans hmixed)
  · rintro ⟨hnot, f, hf, f', hf', hne⟩
    have hsplit : ∀ p, g.outcome = p → p ≠ .incompatible → p ≠ .mixed → p ≠ .matched → False :=
      fun p hp hi hx hm => by
        have hall := ((h.outcome_eq_single hi hx hm).1 hp).2
        exact hne ((hall f hf).trans (hall f' hf').symm)
    cases ho : g.outcome with
    | mixed => rfl
    | incompatible =>
      obtain ⟨e, he, hei⟩ := h.outcome_eq_incompatible.1 ho
      exact absurd hei (hnot e he)
    | matched =>
      rw [h.outcome_eq_matched.1 ho] at hf
      cases hf
    | converted => exact (hsplit _ ho (by decide) (by decide) (by decide)).elim
    | defaulted => exact (hsplit _ ho (by decide) (by decide) (by decide)).elim
    | additional => exact (hsplit _ ho (by decide) (by decide) (by decide)).elim

/-- **The grade of a comparison is the verdict of its findings.**  No finding comes in from elsewhere and
none is lost: below a name the grading is that of one of its nodes, with just the findings of that node,
and a field that is filled in has at most a finding of its own at its key. -/
theorem compare_isVerdict {definitions : Definitions} {maxDepth : Nat} {node : Node} {v : Value}
    {g : Grading} (h : compare definitions maxDepth node v = some g) :
    IsVerdict g.outcome g.findings ∧
    (∀ levels entered name w r,
      grade definitions (levels + 1) entered (.reference name) w = some r →
      definitions.nodes name ≠ [] →
      ∃ n ∈ definitions.nodes name, grade definitions levels (name :: entered) n w = some r) ∧
    (∀ inside entries f p, gradeField inside entries f = some p →
      (∃ w r, Entries.get? entries f.name = some w ∧ inside.grade f.node w = some r ∧
        p.findings = r.findings.map (Finding.under (.key f.name))) ∨
      p.findings = [] ∨ ∃ reason, p.findings = [⟨[.key f.name], reason⟩]) := by
  refine ⟨(grade_balanced h).isVerdict, ?_, ?_⟩
  · intro levels entered name w r hr hne
    rcases gradeReference_cases hr with ⟨hnil, -⟩ | hn
    · exact absurd hnil hne
    · exact hn
  · intro inside entries f p hp
    cases gradeField_cases hp with
    | graded hw _ hr => exact .inl ⟨_, _, hw, hr, rfl⟩
    | kept => exact .inr (.inl rfl)
    | replaced => exact .inr (.inr ⟨_, rfl⟩)
    | filled => exact .inr (.inr ⟨_, rfl⟩)
    | required => exact .inr (.inr ⟨_, rfl⟩)

/-- The first node of `v` refuses the integer, the second converts it, and the declared default of `d` is
itself converted on the way in: one finding for each key is left. -/
theorem compare_isVerdict_variant :
    let definitions : Definitions := [("v", [.dictionary .any, .primitive .string])]
    let node : Node := .map [⟨"x", .reference "v", false, none⟩,
      ⟨"d", .primitive .boolean, true, some (.string "true")⟩]
    ∃ g, compare definitions 3 node (.map [("x", .integer 7)]) = some g ∧ g.outcome = .mixed ∧
      g.findings.length = 2 ∧ IsVerdict g.outcome g.findings := by
  intro definitions node
  obtain ⟨g, hg, ho, hl⟩ : ∃ g, compare definitions 3 node (.map [("x", .integer 7)]) = some g ∧
      g.outcome = .mixed ∧ g.findings.length = 2 := ⟨_, rfl, rfl, rfl⟩
  exact ⟨g, hg, ho, hl, (compare_isVerdict hg).1⟩

end Conformance
