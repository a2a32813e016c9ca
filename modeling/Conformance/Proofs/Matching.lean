import Conformance.Proofs.Inversion
import Mathlib.Data.List.Forall2

/-!
# What it takes to match

A value matches a node just where each of its parts matches the node for the part and nothing is missing or
in excess. This is the grading of a value without what it does to values that do not match.

* `Matches` — a value is graded as conforming as it is.
* `FieldMatches`, `MapMatches` — what a map has at a field, and at all of its keys.
* `grade_array_matched_iff`, `grade_map_matched_iff`, … — the matches of one node, by those of its parts.
-/

set_option autoImplicit false

namespace Conformance

/-- The value is graded as conforming as it is. -/
def Matches (definitions : Definitions) (levels : Nat) (entered : List String) (node : Node)
    (v : Value) : Prop :=
  ∃ g, grade definitions levels entered node v = some g ∧ g.outcome = .matched

/-- A part of a value is graded as conforming as it is. -/
def Inside.Matches (inside : Inside) (node : Node) (v : Value) : Prop :=
  ∃ g, inside.grade node v = some g ∧ g.outcome = .matched

/-- What a map has at a declared field conforms as it is: a value that matches, or `undefined` where that
is the default as well. -/
def FieldMatches (inside : Inside) (entries : Entries Value) (f : Field Node) : Prop :=
  (∃ v, Entries.get? entries f.name = some v ∧ (v.isUndefined && f.mayBeAbsent) = false ∧
    inside.Matches f.node v) ∨
  (Entries.get? entries f.name = some .undefined ∧ f.mayBeAbsent = true ∧
    inside.fillField f = some .undefined)

/-- The entries of a map conform as they are: at each declared field, and there is none elsewhere but at the
key that is kept. -/
structure MapMatches (inside : Inside) (fields : List (Field Node)) (kept : Option String)
    (entries : Entries Value) : Prop where
  declared : ∀ f ∈ fields, FieldMatches inside entries f
  others : ∀ e ∈ entries, (Field.find? fields e.1).isSome = true ∨ kept = some e.1

/-! ## Parts -/

section Parts

variable {inside : Inside}

theorem gradeItems_matched_iff {index : Nat} {nodes : List Node} {items : List Value} :
    (∃ p, gradeItems inside index nodes items = some p ∧ p.outcome = .matched) ↔
      List.Forall₂ inside.Matches nodes items := by
  induction nodes generalizing index items with
  | nil =>
    rw [List.forall₂_nil_left_iff]
    constructor
    · rintro ⟨p, hp, hm⟩
      cases hp
      cases items with
      | nil => rfl
      | cons v items => cases (Outcome.join_eq_matched.1 hm).1
    · rintro rfl
      exact ⟨_, rfl, rfl⟩
  | cons node nodes ih =>
    cases items with
    | nil =>
      refine iff_of_false ?_ fun h => by cases h
      rintro ⟨p, hp, hm⟩
      obtain ⟨v, rest, -, -, rfl⟩ := gradeItems_cons_nil.1 hp
      cases (Outcome.join_eq_matched.1 hm).1
    | cons v items =>
      rw [List.forall₂_cons, ← ih]
      constructor
      · rintro ⟨p, hp, hm⟩
        obtain ⟨g, rest, hg, hrest, rfl⟩ := gradeItems_cons_cons.1 hp
        obtain ⟨hfirst, hothers⟩ := Outcome.join_eq_matched.1 hm
        exact ⟨⟨g, hg, hfirst⟩, rest, hrest, hothers⟩
      · rintro ⟨⟨g, hg, hfirst⟩, rest, hrest, hothers⟩
        refine ⟨_, gradeItems_cons_cons.2 ⟨g, rest, hg, hrest, rfl⟩, ?_⟩
        exact Outcome.join_eq_matched.2 ⟨hfirst, hothers⟩

theorem gradeField_matched_iff {entries : Entries Value} {f : Field Node} :
    (∃ p, gradeField inside entries f = some p ∧ p.outcome = .matched) ↔
      FieldMatches inside entries f := by
  constructor
  · rintro ⟨p, hp, hm⟩
    cases gradeField_cases hp with
    | graded hget hpresent hg => exact .inl ⟨_, hget, hpresent, _, hg, hm⟩
    | kept hget habsent hfill => exact .inr ⟨hget, habsent, hfill⟩
    | replaced => cases hm
    | filled => cases hm
    | required => cases hm
  · rintro (⟨v, hget, hpresent, g, hg, hm⟩ | ⟨hget, habsent, hfill⟩)
    · refine ⟨.graded (.key f.name) (f.name, ·) g, ?_, hm⟩
      simp [gradeField, hget, hpresent, hg]
    · refine ⟨.kept (f.name, .undefined), ?_, rfl⟩
      simp [gradeField, gradeField.fillIn, hget, habsent, hfill, Value.isUndefined]

theorem gradeFields_matched_iff {entries : Entries Value} {fields : List (Field Node)} :
    (∃ p, gradeFields inside entries fields = some p ∧ p.outcome = .matched) ↔
      ∀ f ∈ fields, FieldMatches inside entries f := by
  induction fields with
  | nil => exact iff_of_true ⟨_, rfl, rfl⟩ (by simp)
  | cons f fields ih =>
    rw [List.forall_mem_cons, ← gradeField_matched_iff, ← ih]
    constructor
    · rintro ⟨p, hp, hm⟩
      obtain ⟨part, rest, hpart, hrest, rfl⟩ := gradeFields_cons.1 hp
      obtain ⟨hfirst, hothers⟩ := Outcome.join_eq_matched.1 hm
      exact ⟨⟨part, hpart, hfirst⟩, rest, hrest, hothers⟩
    · rintro ⟨⟨part, hpart, hfirst⟩, rest, hrest, hothers⟩
      refine ⟨_, gradeFields_cons.2 ⟨part, rest, hpart, hrest, rfl⟩, ?_⟩
      exact Outcome.join_eq_matched.2 ⟨hfirst, hothers⟩

theorem undeclaredEntries_matched_iff {fields : List (Field Node)} {kept : Option String}
    {entries : Entries Value} : (undeclaredEntries fields kept entries).outcome = .matched ↔
      ∀ e ∈ entries, (Field.find? fields e.1).isSome = true ∨ kept = some e.1 := by
  induction entries with
  | nil => exact iff_of_true rfl (by simp)
  | cons e entries ih =>
    rw [List.forall_mem_cons, ← ih]
    simp only [undeclaredEntries]
    by_cases hfind : (Field.find? fields e.1).isSome = true
    · simp [hfind]
    by_cases hkept : kept = some e.1
    · simp [hfind, hkept, Parts.append, Parts.kept]
    · simp [hfind, hkept, Parts.append, Parts.decided, Reason.outcome, Outcome.join_eq_matched]

theorem gradeEntries_matched_iff {entry : Node} {entries : Entries Value} :
    (∃ p, gradeEntries inside entry entries = some p ∧ p.outcome = .matched) ↔
      ∀ e ∈ entries, inside.Matches entry e.2 := by
  induction entries with
  | nil => exact iff_of_true ⟨_, rfl, rfl⟩ (by simp)
  | cons e entries ih =>
    rw [List.forall_mem_cons, ← ih]
    constructor
    · rintro ⟨p, hp, hm⟩
      obtain ⟨g, rest, hg, hrest, rfl⟩ := gradeEntries_cons.1 hp
      obtain ⟨hfirst, hothers⟩ := Outcome.join_eq_matched.1 hm
      exact ⟨⟨g, hg, hfirst⟩, rest, hrest, hothers⟩
    · rintro ⟨⟨g, hg, hfirst⟩, rest, hrest, hothers⟩
      refine ⟨_, gradeEntries_cons.2 ⟨g, rest, hg, hrest, rfl⟩, ?_⟩
      exact Outcome.join_eq_matched.2 ⟨hfirst, hothers⟩

/-! ## Composites -/

theorem gradeArray_matched_iff {elements : List Node} {size : ArraySize} {v : Value} :
    (∃ g, gradeArray inside elements size v = some g ∧ g.outcome = .matched) ↔
      ∃ items, v = .array items ∧ (elements = [] ∨
        List.Forall₂ inside.Matches (size.unroll elements items.length) items) := by
  constructor
  · rintro ⟨g, hg, hm⟩
    cases v
    case array items =>
      refine ⟨items, rfl, ?_⟩
      by_cases hnil : elements = []
      · exact .inl hnil
      rcases gradeArray_cases hg with rfl | ⟨-, hno⟩ | ⟨others, p, heq, -, hp, rfl⟩
      · simp only [gradeArray, List.isEmpty_iff, hnil, if_false] at hg
        obtain ⟨p, hp, hclose⟩ := Option.map_eq_some_iff.1 hg
        have hpm : p.outcome = .matched := congrArg Grading.outcome hclose
        exact .inr (gradeItems_matched_iff.1 ⟨p, hp, hpm⟩)
      · exact absurd rfl (hno items)
      · cases heq
        exact .inr (gradeItems_matched_iff.1 ⟨p, hp, hm⟩)
    all_goals
      cases hg
      cases hm
  · rintro ⟨items, rfl, hnil | hall⟩
    · subst hnil
      exact ⟨.matched (.array items), rfl, rfl⟩
    · by_cases hnil : elements = []
      · subst hnil
        exact ⟨.matched (.array items), rfl, rfl⟩
      obtain ⟨p, hp, hm⟩ : ∃ p, gradeItems inside 0 (size.unroll elements items.length) items =
          some p ∧ p.outcome = .matched := gradeItems_matched_iff.2 hall
      refine ⟨p.close .array (.array items), ?_, hm⟩
      simp [gradeArray, hnil, hp]

theorem gradeMap_matched_iff {fields : List (Field Node)} {kept : Option String} {v : Value} :
    (∃ g, gradeMap inside fields kept v = some g ∧ g.outcome = .matched) ↔
      ∃ entries, v = .map entries ∧ MapMatches inside fields kept entries := by
  constructor
  · rintro ⟨g, hg, hm⟩
    rcases gradeMap_cases hg with ⟨rfl, -⟩ | ⟨entries, p, rfl, hp, rfl⟩
    · cases hm
    · obtain ⟨hdeclared, hothers⟩ := Outcome.join_eq_matched.1 hm
      refine ⟨entries, rfl, ?_, ?_⟩
      · exact gradeFields_matched_iff.1 ⟨p, hp, hdeclared⟩
      · exact undeclaredEntries_matched_iff.1 hothers
  · rintro ⟨entries, rfl, hdeclared, hothers⟩
    obtain ⟨p, hp, hm⟩ := gradeFields_matched_iff.2 hdeclared
    refine ⟨_, by rw [gradeMap, hp, Option.map_some], ?_⟩
    exact Outcome.join_eq_matched.2 ⟨hm, undeclaredEntries_matched_iff.2 hothers⟩

theorem gradeDictionary_matched_iff {entry : Node} {v : Value} :
    (∃ g, gradeDictionary inside entry v = some g ∧ g.outcome = .matched) ↔
      ∃ entries, v = .map entries ∧ ∀ e ∈ entries, inside.Matches entry e.2 := by
  constructor
  · rintro ⟨g, hg, hm⟩
    rcases gradeDictionary_cases hg with ⟨rfl, -⟩ | ⟨entries, p, rfl, hp, rfl⟩
    · cases hm
    · exact ⟨entries, rfl, gradeEntries_matched_iff.1 ⟨p, hp, hm⟩⟩
  · rintro ⟨entries, rfl, hall⟩
    obtain ⟨p, hp, hm⟩ := gradeEntries_matched_iff.2 hall
    exact ⟨_, by rw [gradeDictionary, hp, Option.map_some], hm⟩

end Parts

/-! ## Nodes -/

section Nodes

variable {definitions : Definitions} {levels : Nat} {entered : List String}

theorem not_matches_zero {node : Node} {v : Value} : ¬ Matches definitions 0 entered node v := by
  rintro ⟨g, hg, hm⟩
  cases hg
  cases hm

theorem grade_primitive_matched_iff {kind : Kind} {v : Value} :
    Matches definitions (levels + 1) entered (.primitive kind) v ↔ v.kind = kind := by
  rw [← coerce_eq_matched]
  constructor
  · rintro ⟨g, hg, hm⟩
    cases hg
    unfold gradePrimitive at hm
    split at hm
    · assumption
    all_goals cases hm
  · intro h
    refine ⟨gradePrimitive kind v, rfl, ?_⟩
    rw [gradePrimitive, h]
    rfl

theorem grade_literal_matched_iff {expected v : Value} :
    Matches definitions (levels + 1) entered (.literal expected) v ↔ expected.equal v = true := by
  constructor
  · rintro ⟨g, hg, hm⟩
    cases hg
    unfold gradeLiteral at hm
    split at hm
    · assumption
    · cases hm
  · intro h
    refine ⟨gradeLiteral expected v, rfl, ?_⟩
    rw [gradeLiteral, if_pos h]
    rfl

theorem grade_array_matched_iff {elements : List Node} {size : ArraySize} {v : Value} :
    Matches definitions (levels + 1) entered (.array elements size) v ↔
      ∃ items, v = .array items ∧ (elements = [] ∨
        List.Forall₂ (Matches definitions levels entered) (size.unroll elements items.length) items) :=
  gradeArray_matched_iff

theorem grade_map_matched_iff {fields : List (Field Node)} {v : Value} :
    Matches definitions (levels + 1) entered (.map fields) v ↔ ∃ entries, v = .map entries ∧
      MapMatches (.below definitions levels entered) fields none entries :=
  gradeMap_matched_iff

theorem grade_dictionary_matched_iff {entry : Node} {v : Value} :
    Matches definitions (levels + 1) entered (.dictionary entry) v ↔
      ∃ entries, v = .map entries ∧ ∀ e ∈ entries, Matches definitions levels entered entry e.2 :=
  gradeDictionary_matched_iff

/-- A selector grades a map by the alternative that it chooses. -/
theorem gradeSelector_of_chosen {inside : Inside} {discriminant : String}
    {alternatives : List (Alternative Node)} {entries : Entries Value} {a : Alternative Node}
    (h : Alternative.chosen? alternatives discriminant entries = some a) :
    gradeSelector definitions inside discriminant alternatives (.map entries) =
      match definitions.resolveMap? a.node with
      | some fields => gradeMap inside fields (some discriminant) (.map entries)
      | none => inside.grade a.node (.map entries) := by
  obtain ⟨key, hget, hdiscriminant, hfind⟩ := Alternative.chosen?_eq_some.1 h
  unfold gradeSelector
  cases hfields : definitions.resolveMap? a.node <;>
    simp only [hget, Option.filter_some, hdiscriminant, if_true, hfind, hfields]

/-- A selector that chooses a map matches where the map matches, with the discriminant as the key that is
kept. -/
theorem grade_selector_matched {discriminant : String} {alternatives : List (Alternative Node)}
    {v : Value} (h : Matches definitions (levels + 1) entered (.selector discriminant alternatives) v) :
    ∃ entries a, v = .map entries ∧ Alternative.chosen? alternatives discriminant entries = some a ∧
      ((∃ fields, definitions.resolveMap? a.node = some fields ∧
          MapMatches (.below definitions levels entered) fields (some discriminant) entries) ∨
        definitions.resolveMap? a.node = none ∧ Matches definitions levels entered a.node v) := by
  obtain ⟨g, hg, hm⟩ := h
  rw [grade_selector] at hg
  rcases gradeSelector_cases hg with ⟨⟨reason, hreason, rfl⟩, -⟩ | ⟨entries, a, rfl, ha, hcase⟩
  · exact absurd (hreason.symm.trans hm) (by decide)
  refine ⟨entries, a, rfl, ha, ?_⟩
  rcases hcase with ⟨fields, hfields, hmap⟩ | ⟨hnone, hother⟩
  · obtain ⟨others, heq, hmatches⟩ := gradeMap_matched_iff.1 ⟨g, hmap, hm⟩
    cases heq
    exact .inl ⟨fields, hfields, hmatches⟩
  · exact .inr ⟨hnone, g, hother, hm⟩

/-- A selector that matches a map matches it by the fields of the alternative that the map chooses. -/
theorem mapMatches_of_chosen {discriminant : String} {alternatives : List (Alternative Node)}
    {entries : Entries Value} {a : Alternative Node} {fields : List (Field Node)}
    (h : Matches definitions (levels + 1) entered (.selector discriminant alternatives) (.map entries))
    (ha : Alternative.chosen? alternatives discriminant entries = some a)
    (hfields : definitions.resolveMap? a.node = some fields) :
    MapMatches (.below definitions levels entered) fields (some discriminant) entries := by
  obtain ⟨others, b, heq, hb, hcase⟩ := grade_selector_matched h
  cases heq
  obtain rfl := Option.some.inj (ha.symm.trans hb)
  rcases hcase with ⟨fields', hfields', hmatches⟩ | ⟨hnone, -⟩
  · obtain rfl := Option.some.inj (hfields.symm.trans hfields')
    exact hmatches
  · rw [hfields] at hnone
    cases hnone

end Nodes

end Conformance
