import Conformance.Grading.Compare

/-!
# What each grading is made of

For each function that grades a composite value, what it can have done if it gives a grading. Everything
else about gradings is derived from these.

* `Inside.below` — how parts are graded; `grade_array`, … grade a node by it.
* `gradeItems_cons_cons`, `gradeFields_cons`, … — the first part and the rest.
* `FieldGraded` — the ways in which a declared field is graded (`gradeField_cases`).
* `Alternative.chosen?` — the alternative of a selector that entries choose.
* `gradeArray_cases`, `gradeMap_cases`, `gradeDictionary_cases`, `gradeSelector_cases` — refusals apart,
  the parts that make up the grading of a composite.
* `bestGrading_cases`, `bestGrading_best` — the best grading is one of those at hand, and the best of them.
-/

set_option autoImplicit false

namespace Conformance

/-- How the parts of a value are graded with so many levels left below the names that were entered. -/
def Inside.below (definitions : Definitions) (levels : Nat) (entered : List String) : Inside :=
  let convert := Conformance.grade definitions levels []
  let fill := defaultOf definitions convert entered
  ⟨Conformance.grade definitions levels entered, fill, fieldDefault convert fill⟩

section Nodes

variable {definitions : Definitions} {levels : Nat} {entered : List String}

theorem grade_array (elements : List Node) (size : ArraySize) (v : Value) :
    grade definitions (levels + 1) entered (.array elements size) v =
      gradeArray (.below definitions levels entered) elements size v := rfl

theorem grade_map (fields : List (Field Node)) (v : Value) :
    grade definitions (levels + 1) entered (.map fields) v =
      gradeMap (.below definitions levels entered) fields none v := rfl

theorem grade_dictionary (entry : Node) (v : Value) :
    grade definitions (levels + 1) entered (.dictionary entry) v =
      gradeDictionary (.below definitions levels entered) entry v := rfl

theorem grade_selector (discriminant : String) (alternatives : List (Alternative Node)) (v : Value) :
    grade definitions (levels + 1) entered (.selector discriminant alternatives) v =
      gradeSelector definitions (.below definitions levels entered) discriminant alternatives v := rfl

theorem grade_reference (name : String) (v : Value) :
    grade definitions (levels + 1) entered (.reference name) v = gradeReference definitions
      (fun n => grade definitions levels (name :: entered) n v) name v := rfl

end Nodes

/-! ## The first part and the rest -/

section Composites

variable {inside : Inside}

theorem gradeItems_cons_cons {index : Nat} {node : Node} {nodes : List Node} {v : Value}
    {items : List Value} {p : Parts Value} :
    gradeItems inside index (node :: nodes) (v :: items) = some p ↔
      ∃ g rest, inside.grade node v = some g ∧
        gradeItems inside (index + 1) nodes items = some rest ∧
        p = (Parts.graded (.index index) id g).append rest := by
  simp only [gradeItems, Option.bind_eq_bind, Option.bind_eq_some_iff, Option.some.injEq]
  constructor
  · rintro ⟨g, hg, rest, hrest, rfl⟩
    exact ⟨g, rest, hg, hrest, rfl⟩
  · rintro ⟨g, rest, hg, hrest, rfl⟩
    exact ⟨g, hg, rest, hrest, rfl⟩

theorem gradeItems_cons_nil {index : Nat} {node : Node} {nodes : List Node} {p : Parts Value} :
    gradeItems inside index (node :: nodes) [] = some p ↔
      ∃ v rest, inside.fill node = some v ∧ gradeItems inside (index + 1) nodes [] = some rest ∧
        p = (Parts.decided (.index index) .missingElement [v]).append rest := by
  simp only [gradeItems, Option.bind_eq_bind, Option.bind_eq_some_iff, Option.some.injEq]
  constructor
  · rintro ⟨v, hv, rest, hrest, rfl⟩
    exact ⟨v, rest, hv, hrest, rfl⟩
  · rintro ⟨v, rest, hv, hrest, rfl⟩
    exact ⟨v, hv, rest, hrest, rfl⟩

theorem gradeFields_cons {entries : Entries Value} {f : Field Node} {fields : List (Field Node)}
    {p : Parts (String × Value)} : gradeFields inside entries (f :: fields) = some p ↔
      ∃ part rest, gradeField inside entries f = some part ∧
        gradeFields inside entries fields = some rest ∧ p = part.append rest := by
  simp only [gradeFields, Option.bind_eq_bind, Option.bind_eq_some_iff, Option.some.injEq]
  constructor
  · rintro ⟨part, hpart, rest, hrest, rfl⟩
    exact ⟨part, rest, hpart, hrest, rfl⟩
  · rintro ⟨part, rest, hpart, hrest, rfl⟩
    exact ⟨part, hpart, rest, hrest, rfl⟩

theorem gradeEntries_cons {entry : Node} {e : String × Value} {entries : Entries Value}
    {p : Parts (String × Value)} : gradeEntries inside entry (e :: entries) = some p ↔
      ∃ g rest, inside.grade entry e.2 = some g ∧ gradeEntries inside entry entries = some rest ∧
        p = (Parts.graded (.key e.1) (e.1, ·) g).append rest := by
  simp only [gradeEntries, Option.bind_eq_bind, Option.bind_eq_some_iff, Option.some.injEq]
  constructor
  · rintro ⟨g, hg, rest, hrest, rfl⟩
    exact ⟨g, rest, hg, hrest, rfl⟩
  · rintro ⟨g, rest, hg, hrest, rfl⟩
    exact ⟨g, hg, rest, hrest, rfl⟩

/-! ## Fields -/

/-- The ways in which what a map has at a declared field is graded. -/
inductive FieldGraded (inside : Inside) (entries : Entries Value) (f : Field Node) :
    Parts (String × Value) → Prop where
  | graded {v : Value} {g : Grading} : Entries.get? entries f.name = some v →
    (v.isUndefined && f.mayBeAbsent) = false → inside.grade f.node v = some g →
    FieldGraded inside entries f (.graded (.key f.name) (f.name, ·) g)
  /-- It is undefined, and so is the default. -/
  | kept : Entries.get? entries f.name = some .undefined → f.mayBeAbsent = true →
    inside.fillField f = some .undefined → FieldGraded inside entries f (.kept (f.name, .undefined))
  /-- It is undefined and replaced by the default. -/
  | replaced {d : Value} : Entries.get? entries f.name = some .undefined → f.mayBeAbsent = true →
    inside.fillField f = some d → d.isUndefined = false →
    FieldGraded inside entries f (.decided (.key f.name) .missingOptional [(f.name, d)])
  | filled {d : Value} : Entries.get? entries f.name = none → f.mayBeAbsent = true →
    inside.fillField f = some d →
    FieldGraded inside entries f (.decided (.key f.name) .missingOptional [(f.name, d)])
  | required : Entries.get? entries f.name = none → f.mayBeAbsent = false →
    FieldGraded inside entries f (.decided (.key f.name) .missingRequired [])

theorem Value.eq_undefined {v : Value} (h : v.isUndefined = true) : v = .undefined := by
  cases v <;> first | rfl | cases h

theorem gradeField_cases {entries : Entries Value} {f : Field Node} {p : Parts (String × Value)}
    (h : gradeField inside entries f = some p) : FieldGraded inside entries f p := by
  unfold gradeField gradeField.fillIn at h
  simp only at h
  split at h
  · rename_i v hget
    split at h
    · rename_i habsent
      obtain ⟨d, hd, rfl⟩ := Option.map_eq_some_iff.1 h
      rw [Bool.and_eq_true] at habsent
      obtain rfl := Value.eq_undefined habsent.1
      rw [hget, Option.isNone_some, Bool.false_or]
      cases hdefined : d.isUndefined with
      | false => exact .replaced hget habsent.2 hd hdefined
      | true =>
        obtain rfl := Value.eq_undefined hdefined
        exact .kept hget habsent.2 hd
    · rename_i hpresent
      obtain ⟨g, hg, rfl⟩ := Option.map_eq_some_iff.1 h
      exact .graded hget (by simpa using hpresent) hg
  · rename_i hget
    split at h
    · rename_i habsent
      obtain ⟨d, hd, rfl⟩ := Option.map_eq_some_iff.1 h
      rw [hget, Option.isNone_none, Bool.true_or, if_pos rfl]
      exact .filled hget habsent hd
    · rename_i hrequired
      cases h
      exact .required hget (by simpa using hrequired)

/-- A value at a declared field is graded, or it is undefined and the default is taken. -/
theorem gradeField_of_get? {entries : Entries Value} {f : Field Node} {v : Value}
    {p : Parts (String × Value)} (hget : Entries.get? entries f.name = some v)
    (h : gradeField inside entries f = some p) :
    ((v.isUndefined && f.mayBeAbsent) = false ∧ ∃ g, inside.grade f.node v = some g ∧
      p = .graded (.key f.name) (f.name, ·) g) ∨
    (v = .undefined ∧ f.mayBeAbsent = true ∧
      ∀ d, inside.fillField f = some d → d = .undefined → p = .kept (f.name, .undefined)) := by
  cases gradeField_cases h with
  | graded hw hpresent hg =>
    obtain rfl := Option.some.inj (hget.symm.trans hw)
    exact .inl ⟨hpresent, _, hg, rfl⟩
  | kept hw habsent => exact .inr ⟨Option.some.inj (hget.symm.trans hw), habsent, fun _ _ _ => rfl⟩
  | @replaced d hw habsent hd hdefined =>
    refine .inr ⟨Option.some.inj (hget.symm.trans hw), habsent, fun d' hd' hundefined => ?_⟩
    obtain rfl : d = .undefined := (Option.some.inj (hd.symm.trans hd')).trans hundefined
    cases hdefined
  | filled hw =>
    rw [hget] at hw
    cases hw
  | required hw =>
    rw [hget] at hw
    cases hw

/-! ## Composites -/

theorem gradeArray_cases {elements : List Node} {size : ArraySize} {v : Value} {g : Grading}
    (h : gradeArray inside elements size v = some g) :
    g = .matched v ∨ (g = .wrongKind .array v ∧ ∀ items, v ≠ .array items) ∨
      ∃ items p, v = .array items ∧ elements ≠ [] ∧
        gradeItems inside 0 (size.unroll elements items.length) items = some p ∧
        g = p.close .array v := by
  unfold gradeArray at h
  split at h
  · rename_i items
    split at h
    · exact .inl (Option.some.inj h).symm
    · rename_i hne
      obtain ⟨p, hp, rfl⟩ := Option.map_eq_some_iff.1 h
      exact .inr (.inr ⟨items, p, rfl, by simpa using hne, hp, rfl⟩)
  · rename_i hno
    exact .inr (.inl ⟨(Option.some.inj h).symm, hno⟩)

theorem gradeMap_cases {fields : List (Field Node)} {kept : Option String} {v : Value} {g : Grading}
    (h : gradeMap inside fields kept v = some g) :
    (g = .wrongKind .map v ∧ ∀ entries, v ≠ .map entries) ∨ ∃ entries p, v = .map entries ∧
      gradeFields inside entries fields = some p ∧
      g = (p.append (undeclaredEntries fields kept entries)).close
        (fun pieces => .map (Entries.ofList pieces)) v := by
  unfold gradeMap at h
  split at h
  · rename_i entries
    obtain ⟨p, hp, rfl⟩ := Option.map_eq_some_iff.1 h
    exact .inr ⟨entries, p, rfl, hp, rfl⟩
  · rename_i hno
    exact .inl ⟨(Option.some.inj h).symm, hno⟩

theorem gradeDictionary_cases {entry : Node} {v : Value} {g : Grading}
    (h : gradeDictionary inside entry v = some g) :
    (g = .wrongKind .map v ∧ ∀ entries, v ≠ .map entries) ∨ ∃ entries p, v = .map entries ∧
      gradeEntries inside entry entries = some p ∧
      g = p.close (fun pieces => .map (Entries.ofList pieces)) v := by
  unfold gradeDictionary at h
  split at h
  · rename_i entries
    obtain ⟨p, hp, rfl⟩ := Option.map_eq_some_iff.1 h
    exact .inr ⟨entries, p, rfl, hp, rfl⟩
  · rename_i hno
    exact .inl ⟨(Option.some.inj h).symm, hno⟩

/-- The alternative that the entries of a map choose. -/
def Alternative.chosen? (alternatives : List (Alternative Node)) (discriminant : String)
    (entries : Entries Value) : Option (Alternative Node) :=
  ((Entries.get? entries discriminant).filter Value.isDiscriminant).bind fun key =>
    Alternative.find? alternatives key

theorem Alternative.chosen?_eq_some {alternatives : List (Alternative Node)} {discriminant : String}
    {entries : Entries Value} {a : Alternative Node} :
    Alternative.chosen? alternatives discriminant entries = some a ↔
      ∃ key, Entries.get? entries discriminant = some key ∧ key.isDiscriminant = true ∧
        Alternative.find? alternatives key = some a := by
  simp only [chosen?, Option.bind_eq_some_iff, Option.filter_eq_some_iff, and_assoc]

theorem Alternative.mem_of_chosen? {alternatives : List (Alternative Node)} {discriminant : String}
    {entries : Entries Value} {a : Alternative Node}
    (h : Alternative.chosen? alternatives discriminant entries = some a) : a ∈ alternatives := by
  obtain ⟨key, -, -, ha⟩ := Alternative.chosen?_eq_some.1 h
  exact List.mem_of_find?_eq_some ha

/-- A selector refuses a value, or grades it by the map of the chosen alternative or else by the
alternative itself. -/
theorem gradeSelector_cases {definitions : Definitions} {discriminant : String}
    {alternatives : List (Alternative Node)} {v : Value} {g : Grading}
    (h : gradeSelector definitions inside discriminant alternatives v = some g) :
    ((∃ reason : Reason, reason.outcome = .incompatible ∧ g = .decided reason v) ∧
      ∀ entries, v = .map entries →
        Alternative.chosen? alternatives discriminant entries = none) ∨
    ∃ entries a, v = .map entries ∧
      Alternative.chosen? alternatives discriminant entries = some a ∧
      ((∃ fields, definitions.resolveMap? a.node = some fields ∧
          gradeMap inside fields (some discriminant) v = some g) ∨
        definitions.resolveMap? a.node = none ∧ inside.grade a.node v = some g) := by
  unfold gradeSelector at h
  split at h
  · rename_i entries
    split at h
    · rename_i key hkey
      split at h
      · rename_i a ha
        have hchosen : Alternative.chosen? alternatives discriminant entries = some a := by
          rw [Alternative.chosen?, hkey, Option.bind_some, ha]
        refine .inr ⟨entries, a, rfl, hchosen, ?_⟩
        split at h
        · rename_i fields hfields
          exact .inl ⟨fields, hfields, h⟩
        · rename_i hnone
          exact .inr ⟨hnone, h⟩
      · rename_i hnone
        refine .inl ⟨⟨_, rfl, (Option.some.inj h).symm⟩, ?_⟩
        rintro _ ⟨⟩
        rw [Alternative.chosen?, hkey, Option.bind_some, hnone]
    · rename_i hnone
      refine .inl ⟨⟨_, rfl, (Option.some.inj h).symm⟩, ?_⟩
      rintro _ ⟨⟩
      rw [Alternative.chosen?, hnone, Option.bind_none]
  · rename_i hno
    exact .inl ⟨⟨_, rfl, (Option.some.inj h).symm⟩, fun entries heq => absurd heq (hno entries)⟩

end Composites

/-! ## Names -/

section Names

variable {grade : Node → Option Grading}

/-- The best grading is one of those at hand as it is. -/
theorem bestGrading_cases :
    ∀ {nodes : List Node} {best g : Grading}, bestGrading grade best nodes = some g →
      g = best ∨ ∃ node ∈ nodes, grade node = some g
  | [], best, g, h => .inl (Option.some.inj h).symm
  | node :: nodes, best, g, h => by
    simp only [bestGrading, Option.bind_eq_bind] at h
    split at h
    · exact .inl (Option.some.inj h).symm
    · obtain ⟨g', hg', h⟩ := Option.bind_eq_some_iff.1 h
      rcases bestGrading_cases h with hb | ⟨n, hn, hg⟩
      · split at hb
        · exact .inr ⟨node, List.mem_cons_self, hb ▸ hg'⟩
        · exact .inl hb
      · exact .inr ⟨n, List.mem_cons_of_mem _ hn, hg⟩

/-- The best grading matches, or no node grades the value better. -/
theorem bestGrading_best :
    ∀ {nodes : List Node} {best g : Grading}, bestGrading grade best nodes = some g →
      g.outcome = .matched ∨ best.outcome ≤ g.outcome ∧
        ∀ node ∈ nodes, ∃ g', grade node = some g' ∧ g'.outcome ≤ g.outcome
  | [], best, g, h => by
    cases h
    exact .inr ⟨Nat.le_refl _, by simp⟩
  | node :: nodes, best, g, h => by
    simp only [bestGrading, Option.bind_eq_bind] at h
    split at h
    · rename_i hmatched
      cases h
      exact .inl hmatched
    · obtain ⟨g', hg', h⟩ := Option.bind_eq_some_iff.1 h
      refine (bestGrading_best h).imp_right fun ⟨hle, hall⟩ => ?_
      have hboth : best.outcome ≤ g.outcome ∧ g'.outcome ≤ g.outcome := by
        split at hle
        · rename_i hlt
          exact ⟨Nat.le_trans (Nat.le_of_lt hlt) hle, hle⟩
        · rename_i hge
          exact ⟨hle, Nat.le_trans (Nat.not_lt.1 hge) hle⟩
      exact ⟨hboth.1, List.forall_mem_cons.2 ⟨⟨g', hg', hboth.2⟩, hall⟩⟩

/-- The grading by a name is the grading by one of its nodes, findings included. -/
theorem gradeReference_cases {definitions : Definitions} {name : String} {v : Value} {g : Grading}
    (h : gradeReference definitions grade name v = some g) :
    (definitions.nodes name = [] ∧ g = .decided (.unknownName name) v) ∨
      ∃ node ∈ definitions.nodes name, grade node = some g := by
  unfold gradeReference at h
  split at h
  · rename_i hn
    exact .inl ⟨hn, (Option.some.inj h).symm⟩
  · rename_i node nodes hn
    rw [hn]
    obtain ⟨g', hg', h⟩ := Option.bind_eq_some_iff.1 h
    rcases bestGrading_cases h with rfl | ⟨n, hn, hg⟩
    · exact .inr ⟨node, List.mem_cons_self, hg'⟩
    · exact .inr ⟨n, List.mem_cons_of_mem _ hn, hg⟩

theorem gradeReference_best {definitions : Definitions} {name : String} {v : Value} {g : Grading}
    (h : gradeReference definitions grade name v = some g) :
    g.outcome = .matched ∨
      ∀ node ∈ definitions.nodes name, ∃ g', grade node = some g' ∧ g'.outcome ≤ g.outcome := by
  unfold gradeReference at h
  split at h
  · rename_i hn
    rw [hn]
    exact .inr (by simp)
  · rename_i node nodes hn
    rw [hn]
    obtain ⟨g', hg', h⟩ := Option.bind_eq_some_iff.1 h
    rcases bestGrading_best h with hmatched | ⟨hle, hall⟩
    · exact .inl hmatched
    · exact .inr (List.forall_mem_cons.2 ⟨⟨g', hg', hle⟩, hall⟩)

end Names

end Conformance
