import Conformance.Proofs.Evolution

/-!
# Parts that agree make up wholes that agree

Two ways to grade the parts of a value, by nodes that correspond to each other, give gradings with the same
grade and the same value. Whether their findings are the same, too, or the same in some order, is left open:
composites only append the findings of their parts and put a step in front of them.

* `Finding.Congruence` — a relation of lists of findings that composites hand on.
* `Grading.Agrees`, `Parts.Agrees`, `Inside.Agrees` — gradings, parts, and ways to grade parts that agree.
* `gradeArray_agrees`, `gradeMap_agrees`, `gradeDictionary_agrees`, `gradeSelector_agrees`,
  `gradeReference_agrees` — then composites and names agree: both give a grading, or neither does.
* `Field.Carried.fieldDefault_eq` — and fields are filled in with the same values.
-/

set_option autoImplicit false

namespace Conformance

/-! ## Results that may be missing -/

section Optional

variable {α β γ δ : Type} {R : α → β → Prop} {S : γ → δ → Prop}

theorem rel_bind {a? : Option α} {b? : Option β} {f : α → Option γ} {g : β → Option δ}
    (h : Option.Rel R a? b?) (hfg : ∀ a b, R a b → Option.Rel S (f a) (g b)) :
    Option.Rel S (a?.bind f) (b?.bind g) := by
  cases h with
  | none => exact .none
  | some hab => exact hfg _ _ hab

theorem rel_map {a? : Option α} {b? : Option β} {f : α → γ} {g : β → δ} (h : Option.Rel R a? b?)
    (hfg : ∀ a b, R a b → S (f a) (g b)) : Option.Rel S (a?.map f) (b?.map g) := by
  cases h with
  | none => exact .none
  | some hab => exact .some (hfg _ _ hab)

theorem rel_eq_iff {a? b? : Option α} : Option.Rel Eq a? b? ↔ a? = b? := by
  constructor
  · intro h
    cases h with
    | none => rfl
    | some hab => exact congrArg some hab
  · rintro rfl
    cases a? with
    | none => exact .none
    | some a => exact .some rfl

end Optional

/-! ## Gradings that agree -/

/-- A relation of lists of findings that composites hand on. -/
structure Finding.Congruence (S : List Finding → List Finding → Prop) : Prop where
  refl : ∀ fs, S fs fs
  append : ∀ {fs gs fs' gs'}, S fs gs → S fs' gs' → S (fs ++ fs') (gs ++ gs')
  under : ∀ step {fs gs}, S fs gs → S (fs.map (Finding.under step)) (gs.map (Finding.under step))

/-- The grades and the converted values are the same, and the findings are related by `S`. -/
structure Grading.Agrees (S : List Finding → List Finding → Prop) (g h : Grading) : Prop where
  outcome : g.outcome = h.outcome
  value : g.value = h.value
  findings : S g.findings h.findings

/-- The grades and the pieces are the same, and the findings are related by `S`. -/
structure Parts.Agrees {α : Type} (S : List Finding → List Finding → Prop) (p q : Parts α) : Prop where
  outcome : p.outcome = q.outcome
  pieces : p.pieces = q.pieces
  findings : S p.findings q.findings

/-- Parts are graded and filled in by nodes that are related by `R` with results that agree. -/
structure Inside.Agrees (S : List Finding → List Finding → Prop) (R : Node → Node → Prop)
    (inside other : Inside) : Prop where
  grade : ∀ m n v, R m n → Option.Rel (Grading.Agrees S) (inside.grade m v) (other.grade n v)
  fill : ∀ m n, R m n → inside.fill m = other.fill n
  fillField : ∀ f g : Field Node, f.Carried R g → inside.fillField f = other.fillField g

theorem Finding.congruence_eq : Finding.Congruence Eq where
  refl _ := rfl
  append h h' := congrArg₂ (· ++ ·) h h'
  under _ _ _ h := congrArg (List.map _) h

theorem Finding.congruence_perm : Finding.Congruence List.Perm where
  refl := .refl
  append h h' := h.append h'
  under _ _ _ h := h.map _

variable {S : List Finding → List Finding → Prop}

theorem Grading.Agrees.eq {g h : Grading} (hgh : g.Agrees Eq h) : g = h := by
  obtain ⟨o, v, fs⟩ := g
  obtain ⟨rfl, rfl, rfl⟩ := hgh
  rfl

theorem rel_grading_eq_iff {g? h? : Option Grading} :
    Option.Rel (Grading.Agrees Eq) g? h? ↔ g? = h? := by
  have hsame : Grading.Agrees Eq = Eq := by
    funext g h
    refine propext ⟨Grading.Agrees.eq, ?_⟩
    rintro rfl
    exact ⟨rfl, rfl, rfl⟩
  rw [hsame, rel_eq_iff]

theorem Grading.Agrees.refl (hS : Finding.Congruence S) (g : Grading) : g.Agrees S g :=
  ⟨rfl, rfl, hS.refl _⟩

/-- Composites agree where the same is made of their pieces. -/
theorem Parts.close_agrees {α : Type} {p q : Parts α} {compose : List α → Value}
    (houtcome : p.outcome = q.outcome) (hvalue : compose p.pieces = compose q.pieces)
    (hfindings : S p.findings q.findings) (whole : Value) :
    (p.close compose whole).Agrees S (q.close compose whole) where
  outcome := houtcome
  value := by
    unfold Parts.close
    rw [houtcome, hvalue]
  findings := hfindings

namespace Parts.Agrees

variable {α : Type} {p q p' q' : Parts α} {g h : Grading}

theorem refl (hS : Finding.Congruence S) (p : Parts α) : p.Agrees S p := ⟨rfl, rfl, hS.refl _⟩

theorem append (hS : Finding.Congruence S) (h : p.Agrees S q) (h' : p'.Agrees S q') :
    (p.append p').Agrees S (q.append q') where
  outcome := congrArg₂ Outcome.join h.outcome h'.outcome
  pieces := congrArg₂ (· ++ ·) h.pieces h'.pieces
  findings := hS.append h.findings h'.findings

theorem graded (hS : Finding.Congruence S) (step : Step) (piece : Value → α) (hgh : g.Agrees S h) :
    (Parts.graded step piece g).Agrees S (Parts.graded step piece h) where
  outcome := hgh.outcome
  pieces := congrArg (fun v => [piece v]) hgh.value
  findings := hS.under step hgh.findings

theorem close (h : p.Agrees S q) (compose : List α → Value) (whole : Value) :
    (p.close compose whole).Agrees S (q.close compose whole) :=
  close_agrees h.outcome (congrArg compose h.pieces) h.findings whole

end Parts.Agrees

/-! ## Composites -/

section Composites

variable {R : Node → Node → Prop} {inside other : Inside} (hS : Finding.Congruence S)
  (hin : inside.Agrees S R other)

include hS hin

theorem gradeItems_agrees {ms ns : List Node} (h : List.Forall₂ R ms ns) (index : Nat)
    (items : List Value) : Option.Rel (Parts.Agrees S) (gradeItems inside index ms items)
      (gradeItems other index ns items) := by
  induction h generalizing index items with
  | nil => exact .some (.refl hS _)
  | cons hfirst _ ih =>
    cases items with
    | nil =>
      refine rel_bind (rel_eq_iff.2 (hin.fill _ _ hfirst)) ?_
      rintro v _ rfl
      exact rel_bind (ih (index + 1) []) fun p q hpq => .some ((Parts.Agrees.refl hS _).append hS hpq)
    | cons v items =>
      refine rel_bind (hin.grade _ _ v hfirst) fun g h hgh => ?_
      exact rel_bind (ih (index + 1) items) fun p q hpq =>
        .some ((Parts.Agrees.graded hS _ _ hgh).append hS hpq)

theorem gradeArray_agrees {ms ns : List Node} (h : List.Forall₂ R ms ns) (size : ArraySize)
    (v : Value) : Option.Rel (Grading.Agrees S) (gradeArray inside ms size v)
      (gradeArray other ns size v) := by
  have hempty : ms.isEmpty = ns.isEmpty := by cases h <;> rfl
  cases v
  case array items =>
    simp only [gradeArray, hempty]
    split
    · exact .some (.refl hS _)
    · have hunroll := ArraySize.forall₂_unroll h size items.length
      exact rel_map (gradeItems_agrees hS hin hunroll 0 items) fun p q hpq => hpq.close _ _
  all_goals exact .some (.refl hS _)

theorem gradeField_agrees {f g : Field Node} (h : f.Carried R g) (entries : Entries Value) :
    Option.Rel (Parts.Agrees S) (gradeField inside entries f) (gradeField other entries g) := by
  have hfill : ∀ present?, Option.Rel (Parts.Agrees S) (gradeField.fillIn inside f present?)
      (gradeField.fillIn other g present?) := by
    intro present?
    unfold gradeField.fillIn
    rw [hin.fillField f g h, h.name]
    refine rel_map (rel_eq_iff.2 rfl) ?_
    rintro v _ rfl
    exact .refl hS _
  simp only [gradeField, h.name, h.mayBeAbsent]
  split
  · rename_i v _
    split
    · exact hfill _
    · exact rel_map (hin.grade _ _ v h.node) fun p q hpq => .graded hS _ _ hpq
  · split
    · exact hfill _
    · exact .some (.refl hS _)

theorem gradeFields_agrees {fs gs : List (Field Node)} (h : List.Forall₂ (Field.Carried R) fs gs)
    (entries : Entries Value) : Option.Rel (Parts.Agrees S) (gradeFields inside entries fs)
      (gradeFields other entries gs) := by
  induction h with
  | nil => exact .some (.refl hS _)
  | cons hfirst _ ih =>
    refine rel_bind (gradeField_agrees hS hin hfirst entries) fun p q hpq => ?_
    exact rel_bind ih fun rest rest' hrest => .some (hpq.append hS hrest)

omit hS hin in
/-- What becomes of keys that are not declared depends only on which keys are declared. -/
theorem undeclaredEntries_congr {fs gs : List (Field Node)}
    (h : ∀ key, (Field.find? fs key).isSome = (Field.find? gs key).isSome) (kept : Option String)
    (entries : Entries Value) : undeclaredEntries fs kept entries = undeclaredEntries gs kept entries := by
  induction entries with
  | nil => rfl
  | cons e entries ih => simp only [undeclaredEntries, h, ih]

omit hS hin in
theorem isSome_find?_carried {fs gs : List (Field Node)} (h : List.Forall₂ (Field.Carried R) fs gs)
    (key : String) : (Field.find? fs key).isSome = (Field.find? gs key).isSome := by
  unfold Field.find?
  induction h with
  | nil => rfl
  | cons hfirst _ ih =>
    rw [List.find?_cons, List.find?_cons, hfirst.name]
    split
    · rfl
    · exact ih

theorem gradeMap_agrees {fs gs : List (Field Node)} (h : List.Forall₂ (Field.Carried R) fs gs)
    (kept : Option String) (v : Value) :
    Option.Rel (Grading.Agrees S) (gradeMap inside fs kept v) (gradeMap other gs kept v) := by
  cases v
  case map entries =>
    have hundeclared := undeclaredEntries_congr (isSome_find?_carried h) kept entries
    refine rel_map (gradeFields_agrees hS hin h entries) fun p q hpq => ?_
    rw [hundeclared]
    exact (hpq.append hS (.refl hS _)).close _ _
  all_goals exact .some (.refl hS _)

theorem gradeEntries_agrees {m n : Node} (h : R m n) (entries : Entries Value) :
    Option.Rel (Parts.Agrees S) (gradeEntries inside m entries) (gradeEntries other n entries) := by
  induction entries with
  | nil => exact .some (.refl hS _)
  | cons e entries ih =>
    refine rel_bind (hin.grade m n e.2 h) fun g h hgh => ?_
    exact rel_bind ih fun p q hpq => .some ((Parts.Agrees.graded hS _ _ hgh).append hS hpq)

theorem gradeDictionary_agrees {m n : Node} (h : R m n) (v : Value) :
    Option.Rel (Grading.Agrees S) (gradeDictionary inside m v) (gradeDictionary other n v) := by
  cases v
  case map entries =>
    exact rel_map (gradeEntries_agrees hS hin h entries) fun p q hpq => hpq.close _ _
  all_goals exact .some (.refl hS _)

/-- Selectors agree where their alternatives lead to maps that agree, or none of them leads to a map. -/
theorem gradeSelector_agrees {definitions others : Definitions} {xs ys : List (Alternative Node)}
    (h : AlternativesEvolve R xs ys)
    (hmap : ∀ m n, R m n → (∃ fs gs, definitions.resolveMap? m = some fs ∧
      others.resolveMap? n = some gs ∧ ∀ kept v,
        Option.Rel (Grading.Agrees S) (gradeMap inside fs kept v) (gradeMap other gs kept v)) ∨
      definitions.resolveMap? m = none ∧ others.resolveMap? n = none)
    (discriminant : String) (v : Value) :
    Option.Rel (Grading.Agrees S) (gradeSelector definitions inside discriminant xs v)
      (gradeSelector others other discriminant ys v) := by
  cases v
  case map entries =>
    cases hkey : (Entries.get? entries discriminant).filter Value.isDiscriminant with
    | none =>
      simp only [gradeSelector, hkey]
      exact .some (.refl hS _)
    | some key =>
      rcases h.find? key with ⟨hxs, hys⟩ | ⟨a, b, hxs, hys, hnode⟩
      · simp only [gradeSelector, hkey, hxs, hys]
        exact .some (.refl hS _)
      · rcases hmap _ _ hnode with ⟨fs, gs, hfs, hgs, hfields⟩ | ⟨hfs, hgs⟩
        · simp only [gradeSelector, hkey, hxs, hys, hfs, hgs]
          exact hfields _ _
        · simp only [gradeSelector, hkey, hxs, hys, hfs, hgs]
          exact hin.grade _ _ _ hnode
  all_goals exact .some (.refl hS _)

end Composites

/-! ## Names -/

section Names

variable {R : Node → Node → Prop} {grade grade' : Node → Option Grading} {ms ns : List Node}

/-- The choice among several nodes rests on the grades alone. -/
theorem bestGrading_agrees
    (hgrade : ∀ m n, R m n → Option.Rel (Grading.Agrees S) (grade m) (grade' n))
    (h : List.Forall₂ R ms ns) {best best' : Grading} (hbest : best.Agrees S best') :
    Option.Rel (Grading.Agrees S) (bestGrading grade best ms) (bestGrading grade' best' ns) := by
  induction h generalizing best best' with
  | nil => exact .some hbest
  | cons hfirst _ ih =>
    simp only [bestGrading, hbest.outcome]
    split
    · exact .some hbest
    · refine rel_bind (hgrade _ _ hfirst) fun g g' hg => ih ?_
      rw [hg.outcome]
      split
      · exact hg
      · exact hbest

theorem gradeReference_agrees (hS : Finding.Congruence S) {definitions others : Definitions} {name : String}
    (hgrade : ∀ m n, R m n → Option.Rel (Grading.Agrees S) (grade m) (grade' n))
    (h : List.Forall₂ R (definitions.nodes name) (others.nodes name)) (v : Value) :
    Option.Rel (Grading.Agrees S) (gradeReference definitions grade name v)
      (gradeReference others grade' name v) := by
  unfold gradeReference
  generalize definitions.nodes name = ms at h
  generalize others.nodes name = ns at h
  cases h with
  | nil => exact .some (.refl hS _)
  | cons hfirst hrest =>
    exact rel_bind (hgrade _ _ hfirst) fun g g' hg => bestGrading_agrees hgrade hrest hg

end Names

/-! ## Fields that are filled in -/

/-- A declared default is put in as it was converted, or the node is filled in if it cannot be. -/
theorem Field.Carried.fieldDefault_eq {R : Node → Node → Prop}
    {convert convert' : Node → Value → Option Grading} {fill fill' : Node → Option Value}
    {f g : Field Node} (h : f.Carried R g)
    (hconvert : ∀ v, Option.Rel (Grading.Agrees S) (convert f.node v) (convert' g.node v))
    (hfill : fill f.node = fill' g.node) :
    fieldDefault convert fill f = fieldDefault convert' fill' g := by
  unfold fieldDefault
  rw [h.default?]
  split
  · exact hfill
  · rename_i literal _
    refine rel_eq_iff.1 (rel_bind (hconvert literal) fun r r' hr => rel_eq_iff.2 ?_)
    rw [hr.outcome, hr.value, hfill]

end Conformance
