import Conformance.Proofs.Inversion

/-!
# A deeper limit keeps what is valid

With more levels another node of a name can be the best one, other defaults can be put in, and the grade can
be another one for either reason. What is not refused with few levels is not refused with more, however.

* `Outcome.StaysValid` — the second grade is valid if the first is; parts hand this on to the whole.
* `Inside.StaysValid` — what one way to grade parts does not refuse, the other does not refuse.
* `gradeArray_staysValid`, `gradeMap_staysValid`, … — the composites, from their parts.
* `grade_staysValid` — every grading, by induction on the levels.
* `compare_valid_mono` — comparisons with two limits.
-/

set_option autoImplicit false

namespace Conformance

/-! ## Grades -/

namespace Outcome

/-- The second grade is valid if the first is. -/
def StaysValid (a b : Outcome) : Prop := a ≠ .incompatible → b ≠ .incompatible

theorem StaysValid.refl (a : Outcome) : a.StaysValid a := id

theorem StaysValid.join {a b c d : Outcome} (h : a.StaysValid c) (h' : b.StaysValid d) :
    (a.join b).StaysValid (c.join d) := by
  intro hvalid
  obtain ⟨ha, hb⟩ := join_ne_incompatible.1 hvalid
  exact join_ne_incompatible.2 ⟨h ha, h' hb⟩

theorem ne_incompatible_of_le {a b : Outcome} (h : a ≤ b) (ha : a ≠ .incompatible) :
    b ≠ .incompatible := by
  revert h ha
  cases a <;> cases b <;> decide

end Outcome

/-! ## Composites -/

/-- What the first way to grade parts does not refuse, the second does not refuse if it gives a grading. -/
def Inside.StaysValid (inside inside' : Inside) : Prop :=
  ∀ n v g h, inside.grade n v = some g → inside'.grade n v = some h → g.outcome.StaysValid h.outcome

section Composites

variable {inside inside' : Inside}

theorem gradeItems_staysValid (hin : inside.StaysValid inside') {index : Nat} {nodes : List Node}
    {items : List Value} {p q : Parts Value} (hp : gradeItems inside index nodes items = some p)
    (hq : gradeItems inside' index nodes items = some q) : p.outcome.StaysValid q.outcome := by
  induction nodes generalizing index items p q with
  | nil =>
    cases hp
    cases hq
    exact .refl _
  | cons node nodes ih =>
    cases items with
    | cons v items =>
      obtain ⟨g, rest, hg, hrest, rfl⟩ := gradeItems_cons_cons.1 hp
      obtain ⟨h, rest', hh, hrest', rfl⟩ := gradeItems_cons_cons.1 hq
      exact (hin node v g h hg hh).join (ih hrest hrest')
    | nil =>
      -- The values that are filled in may differ, but each counts as a missing element.
      obtain ⟨d, rest, -, hrest, rfl⟩ := gradeItems_cons_nil.1 hp
      obtain ⟨d', rest', -, hrest', rfl⟩ := gradeItems_cons_nil.1 hq
      exact (Outcome.StaysValid.refl _).join (ih hrest hrest')

theorem gradeArray_staysValid (hin : inside.StaysValid inside') {elements : List Node}
    {size : ArraySize} {v : Value} {g h : Grading} (hg : gradeArray inside elements size v = some g)
    (hh : gradeArray inside' elements size v = some h) : g.outcome.StaysValid h.outcome := by
  unfold gradeArray at hg hh
  split at hg
  · split at hg
    · rename_i hempty
      simp only [if_pos hempty] at hh
      cases hg
      cases hh
      exact .refl _
    · rename_i hne
      simp only [if_neg hne] at hh
      obtain ⟨p, hp, rfl⟩ := Option.map_eq_some_iff.1 hg
      obtain ⟨q, hq, rfl⟩ := Option.map_eq_some_iff.1 hh
      exact gradeItems_staysValid hin hp hq
  · cases hg
    exact fun hvalid => absurd rfl hvalid

theorem gradeField_staysValid (hin : inside.StaysValid inside') {entries : Entries Value}
    {f : Field Node} {p q : Parts (String × Value)} (hp : gradeField inside entries f = some p)
    (hq : gradeField inside' entries f = some q) : p.outcome.StaysValid q.outcome := by
  intro hvalid
  cases gradeField_cases hq with
  | @graded v h hget hpresent hh =>
    rcases gradeField_of_get? hget hp with ⟨-, g, hg, rfl⟩ | ⟨rfl, habsent, -⟩
    · exact hin f.node v g h hg hh hvalid
    · rw [habsent] at hpresent
      cases hpresent
  | required hget hmust =>
    cases gradeField_cases hp with
    | required => exact hvalid
    | filled _ habsent =>
      rw [habsent] at hmust
      cases hmust
    | _ hsome =>
      rw [hget] at hsome
      cases hsome
  | _ => exact nofun

theorem gradeFields_staysValid (hin : inside.StaysValid inside') {entries : Entries Value}
    {fields : List (Field Node)} {p q : Parts (String × Value)}
    (hp : gradeFields inside entries fields = some p) (hq : gradeFields inside' entries fields = some q) :
    p.outcome.StaysValid q.outcome := by
  induction fields generalizing p q with
  | nil =>
    cases hp
    cases hq
    exact .refl _
  | cons f fields ih =>
    obtain ⟨part, rest, hpart, hrest, rfl⟩ := gradeFields_cons.1 hp
    obtain ⟨part', rest', hpart', hrest', rfl⟩ := gradeFields_cons.1 hq
    exact (gradeField_staysValid hin hpart hpart').join (ih hrest hrest')

theorem gradeMap_staysValid (hin : inside.StaysValid inside') {fields : List (Field Node)}
    {kept : Option String} {v : Value} {g h : Grading} (hg : gradeMap inside fields kept v = some g)
    (hh : gradeMap inside' fields kept v = some h) : g.outcome.StaysValid h.outcome := by
  rcases gradeMap_cases hg with ⟨rfl, -⟩ | ⟨entries, p, rfl, hp, rfl⟩
  · exact fun hvalid => absurd rfl hvalid
  · rcases gradeMap_cases hh with ⟨-, hno⟩ | ⟨_, q, heq, hq, rfl⟩
    · exact absurd rfl (hno entries)
    · cases heq
      exact (gradeFields_staysValid hin hp hq).join (.refl _)

theorem gradeEntries_staysValid (hin : inside.StaysValid inside') {entry : Node}
    {entries : Entries Value} {p q : Parts (String × Value)}
    (hp : gradeEntries inside entry entries = some p)
    (hq : gradeEntries inside' entry entries = some q) : p.outcome.StaysValid q.outcome := by
  induction entries generalizing p q with
  | nil =>
    cases hp
    cases hq
    exact .refl _
  | cons e entries ih =>
    obtain ⟨g, rest, hg, hrest, rfl⟩ := gradeEntries_cons.1 hp
    obtain ⟨h, rest', hh, hrest', rfl⟩ := gradeEntries_cons.1 hq
    exact (hin entry e.2 g h hg hh).join (ih hrest hrest')

theorem gradeDictionary_staysValid (hin : inside.StaysValid inside') {entry : Node} {v : Value}
    {g h : Grading} (hg : gradeDictionary inside entry v = some g)
    (hh : gradeDictionary inside' entry v = some h) : g.outcome.StaysValid h.outcome := by
  rcases gradeDictionary_cases hg with ⟨rfl, -⟩ | ⟨entries, p, rfl, hp, rfl⟩
  · exact fun hvalid => absurd rfl hvalid
  · rcases gradeDictionary_cases hh with ⟨-, hno⟩ | ⟨_, q, heq, hq, rfl⟩
    · exact absurd rfl (hno entries)
    · cases heq
      exact gradeEntries_staysValid hin hp hq

/-- The alternative is chosen by the value alone. -/
theorem gradeSelector_staysValid (hin : inside.StaysValid inside') {definitions : Definitions}
    {discriminant : String} {alternatives : List (Alternative Node)} {v : Value} {g h : Grading}
    (hg : gradeSelector definitions inside discriminant alternatives v = some g)
    (hh : gradeSelector definitions inside' discriminant alternatives v = some h) :
    g.outcome.StaysValid h.outcome := by
  rcases gradeSelector_cases hg with
    ⟨⟨reason, hreason, rfl⟩, -⟩ | ⟨entries, a, rfl, ha, hcases⟩
  · exact fun hvalid => absurd hreason hvalid
  rcases gradeSelector_cases hh with ⟨-, hnone⟩ | ⟨_, a', heq, ha', hcases'⟩
  · rw [hnone entries rfl] at ha
    cases ha
  cases heq
  obtain rfl := Option.some.inj (ha.symm.trans ha')
  rcases hcases with ⟨fields, hfields, hg⟩ | ⟨hnone, hg⟩
  · rcases hcases' with ⟨fields', hfields', hh⟩ | ⟨hnone, -⟩
    · obtain rfl := Option.some.inj (hfields.symm.trans hfields')
      exact gradeMap_staysValid hin hg hh
    · rw [hnone] at hfields
      cases hfields
  · rcases hcases' with ⟨fields', hfields', -⟩ | ⟨-, hh⟩
    · rw [hnone] at hfields'
      cases hfields'
    · exact hin a.node _ g h hg hh

end Composites

/-! ## Every grading -/

/-- A name is not refused where one of its nodes is not, though the two gradings may be by different nodes. -/
theorem gradeReference_staysValid {definitions : Definitions} {grade grade' : Node → Option Grading}
    (hgrade : ∀ n g h, grade n = some g → grade' n = some h → g.outcome.StaysValid h.outcome)
    {name : String} {v : Value} {g h : Grading}
    (hg : gradeReference definitions grade name v = some g)
    (hh : gradeReference definitions grade' name v = some h) : g.outcome.StaysValid h.outcome := by
  intro hvalid
  rcases gradeReference_cases hg with ⟨-, rfl⟩ | ⟨n, hn, hg⟩
  · exact absurd rfl hvalid
  rcases gradeReference_best hh with hmatched | hall
  · rw [hmatched]
    decide
  · obtain ⟨h', hh', hbest⟩ := hall n hn
    exact Outcome.ne_incompatible_of_le hbest (hgrade n g h' hg hh' hvalid)

/-- **What is valid stays valid with more levels**, below whichever names the value is graded. -/
theorem grade_staysValid {definitions : Definitions} {levels more : Nat} (hle : levels ≤ more)
    {names names' : List String} {node : Node} {v : Value} {g h : Grading}
    (hg : grade definitions levels names node v = some g)
    (hh : grade definitions more names' node v = some h) : g.outcome.StaysValid h.outcome := by
  induction levels generalizing more names names' node v g h with
  | zero =>
    cases hg
    exact fun hvalid => absurd rfl hvalid
  | succ levels ih =>
    obtain ⟨more, rfl⟩ : ∃ above, more = above + 1 := ⟨more - 1, by omega⟩
    have hle' : levels ≤ more := Nat.le_of_succ_le_succ hle
    have hin : (Inside.below definitions levels names).StaysValid (.below definitions more names') :=
      fun _ _ _ _ => ih hle'
    cases node
    case any =>
      cases hh
      exact fun _ => nofun
    case primitive kind =>
      cases hg
      cases hh
      exact .refl _
    case literal expected =>
      cases hg
      cases hh
      exact .refl _
    case array elements size => exact gradeArray_staysValid hin hg hh
    case map fields => exact gradeMap_staysValid hin hg hh
    case dictionary entry => exact gradeDictionary_staysValid hin hg hh
    case selector discriminant alternatives => exact gradeSelector_staysValid hin hg hh
    case reference name =>
      exact gradeReference_staysValid (fun _ _ _ => ih hle') hg hh

/-- **A deeper limit makes no usable value unusable.** Whatever the node and the definitions are, a value that
is not incompatible with one limit is not incompatible with a limit that is no lower. -/
theorem compare_valid_mono {definitions : Definitions} {node : Node} {v : Value} {limit deeper : Nat}
    (hle : limit ≤ deeper) {g h : Grading} (hg : compare definitions limit node v = some g)
    (hh : compare definitions deeper node v = some h) (hvalid : g.outcome ≠ .incompatible) :
    h.outcome ≠ .incompatible := grade_staysValid hle hg hh hvalid

/-- With three levels only the last node of `v` takes the value, and an element is filled in; with six levels
the first node, which leads back to `v`, has the integer converted. -/
theorem compare_valid_mono_recursive :
    let definitions : Definitions := [("v", [.array [.reference "v"] .repeating, .primitive .string,
      .array [.any, .any] .exact])]
    let v : Value := .array [.array [.integer 7]]
    ∃ g h, compare definitions 3 (.reference "v") v = some g ∧
      compare definitions 6 (.reference "v") v = some h ∧ 3 ≤ 6 ∧ g.outcome = .defaulted ∧
      g.outcome ≠ .incompatible ∧ h.outcome = .converted ∧ h.outcome ≠ .incompatible := by
  intro definitions v
  obtain ⟨g, hg, ho⟩ : ∃ g, compare definitions 3 (.reference "v") v = some g ∧
      g.outcome = .defaulted := ⟨_, rfl, rfl⟩
  obtain ⟨h, hh, ho'⟩ : ∃ h, compare definitions 6 (.reference "v") v = some h ∧
      h.outcome = .converted := ⟨_, rfl, rfl⟩
  have hle : 3 ≤ 6 := by decide
  have hvalid : g.outcome ≠ .incompatible := by
    rw [ho]
    decide
  exact ⟨g, h, hg, hh, hle, ho, hvalid, ho', compare_valid_mono hle hg hh hvalid⟩

end Conformance
