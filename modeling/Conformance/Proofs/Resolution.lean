import Conformance.Proofs.Accepted
import Conformance.Proofs.CycleSearch
import Conformance.Proofs.Expansion
import Conformance.Proofs.Inversion

/-!
# What the checks at the end decide

The reader notes down what depends on definitions and decides it by bounded searches. Here the same is
said without a search, and the two are shown to agree.

* `Definitions.Leads` — names that have been passed lead on; none is passed twice (`Leads.unexpanded_lt`).
* `Definitions.MapOf` — the map at the end of a chain of names; `Definitions.resolveMap?_iff`.
* `compare_scalar` — a value without parts is always graded, so a check of a default is decided.
* `Check.Passes`, `resolve_ok_iff` — all checks are passed.
* `Node.Resolved` — what the checks that a node gives rise to come down to.
-/

set_option autoImplicit false

namespace Conformance

open Relation (TransGen)

/-! ## Chains of bare names -/

namespace Definitions

variable {definitions : Definitions} {name : String}

/-- No chain of bare names leads back to its start. -/
def Acyclic (definitions : Definitions) : Prop := ∀ name, ¬ TransGen definitions.Bare name name

/-- Names have been passed one after the other that lead on to the node, if that is a name. -/
def Leads (definitions : Definitions) (passed : List String) (node : Node) : Prop :=
  ∀ name ∈ passed, ∀ next, node = .reference next → TransGen definitions.Bare name next

section Leads

variable {passed : List String} {node n : Node}

theorem leads_nil : definitions.Leads [] node := fun _ h => (List.not_mem_nil h).elim

theorem Leads.cons (h : definitions.Leads passed (.reference name)) (hn : n ∈ definitions.nodes name) :
    definitions.Leads (name :: passed) n := by
  rintro other hother next rfl
  have hbare : definitions.Bare name next := hn
  rcases List.mem_cons.1 hother with rfl | hother
  · exact .single hbare
  · exact (h other hother name rfl).tail hbare

/-- A name that is passed leaves one fewer that can still be passed. -/
theorem Leads.unexpanded_lt (h : definitions.Leads passed (.reference name)) (hacyclic : definitions.Acyclic)
    (hn : n ∈ definitions.nodes name) : definitions.unexpanded (name :: passed) < definitions.unexpanded passed := by
  have hnew : name ∉ passed := fun hmem => hacyclic name (h name hmem name rfl)
  obtain ⟨m, ms, hnodes⟩ := List.exists_cons_of_ne_nil (List.ne_nil_of_mem hn)
  exact unexpanded_cons_lt hnew hnodes

end Leads

/-! ## The map at the end of a chain of names -/

/-- A chain of so many names, each of which stands for one node, leads from the node to the map. -/
inductive MapAt (definitions : Definitions) : Nat → Node → List (Field Node) → Prop where
  | map {fields : List (Field Node)} : MapAt definitions 0 (.map fields) fields
  | reference {n : Nat} {name : String} {node : Node} {fields : List (Field Node)} :
    definitions.nodes name = [node] → MapAt definitions n node fields →
    MapAt definitions (n + 1) (.reference name) fields

/-- The node leads to the map. -/
def MapOf (definitions : Definitions) (node : Node) (fields : List (Field Node)) : Prop :=
  ∃ n, definitions.MapAt n node fields

theorem MapAt.unique {n m : Nat} {node : Node} {fields others : List (Field Node)}
    (h : definitions.MapAt n node fields) (h' : definitions.MapAt m node others) :
    n = m ∧ fields = others := by
  induction h generalizing m with
  | map =>
    cases h'
    exact ⟨rfl, rfl⟩
  | reference hnodes _ ih =>
    cases h' with
    | reference hnodes' hmap =>
      cases hnodes.symm.trans hnodes'
      obtain ⟨rfl, rfl⟩ := ih hmap
      exact ⟨rfl, rfl⟩

theorem resolveWithin?_mono {steps more : Nat} {node : Node} {fields : List (Field Node)}
    (hle : steps ≤ more) (h : definitions.resolveWithin? steps node = some fields) :
    definitions.resolveWithin? more node = some fields := by
  induction h using resolveWithin?_induction generalizing more with
  | map => exact resolveWithin?_map _ _ _
  | reference steps name n hn h ih =>
    obtain ⟨k, rfl⟩ : ∃ k, more = k + 1 := ⟨more - 1, by omega⟩
    rw [resolveWithin?_single hn]
    exact ih (Nat.le_of_succ_le_succ hle)

theorem mapOf_of_resolveWithin? {steps : Nat} {node : Node} {fields : List (Field Node)}
    (h : definitions.resolveWithin? steps node = some fields) : definitions.MapOf node fields := by
  induction h using resolveWithin?_induction with
  | map => exact ⟨0, .map⟩
  | reference steps name n hn h ih =>
    obtain ⟨k, hmap⟩ := ih
    exact ⟨k + 1, .reference hn hmap⟩

/-- A chain to a map does not come back to a name, as the number of names that are left tells the names
on it apart. The names given stand farther from the map than the node. -/
theorem MapAt.resolveWithin? {n : Nat} {node : Node} {fields : List (Field Node)}
    (h : definitions.MapAt n node fields) (names : List String)
    (hnames : ∀ name ∈ names, ∃ m, n < m ∧ definitions.MapAt m (.reference name) fields) :
    definitions.resolveWithin? (definitions.unexpanded names) node = some fields := by
  induction h generalizing names with
  | map => exact resolveWithin?_map _ _ _
  | @reference n name node fields hnodes hmap ih =>
    have hnew : name ∉ names := by
      intro hmem
      obtain ⟨m, hlt, hm⟩ := hnames name hmem
      have heq := (hm.unique (.reference hnodes hmap)).1
      omega
    have hlt := unexpanded_cons_lt hnew hnodes
    have hnext := ih (name :: names) (by
      refine List.forall_mem_cons.2 ⟨⟨n + 1, Nat.lt_succ_self _, .reference hnodes hmap⟩, fun other h => ?_⟩
      obtain ⟨m, hm, hother⟩ := hnames other h
      exact ⟨m, by omega, hother⟩)
    obtain ⟨steps, hsteps⟩ : ∃ steps, definitions.unexpanded names = steps + 1 :=
      Nat.exists_eq_succ_of_ne_zero (by omega)
    rw [hsteps, resolveWithin?_single hnodes]
    exact resolveWithin?_mono (by omega) hnext

/-- **The bounded look-up of a map is exact.** -/
theorem resolveMap?_iff {node : Node} {fields : List (Field Node)} :
    definitions.resolveMap? node = some fields ↔ definitions.MapOf node fields := by
  constructor
  · exact mapOf_of_resolveWithin?
  · rintro ⟨n, h⟩
    exact resolveWithin?_mono (definitions.unexpanded_le []) (h.resolveWithin? [] (by simp))

end Definitions

/-! ## Values without parts are graded -/

section Scalars

variable {definitions : Definitions} {v : Value}

theorem bestGrading_ne_none {grade : Node → Option Grading} (h : ∀ n, grade n ≠ none) (best : Grading)
    (nodes : List Node) : bestGrading grade best nodes ≠ none := by
  induction nodes generalizing best with
  | nil => exact Option.some_ne_none best
  | cons node nodes ih =>
    unfold bestGrading
    by_cases hmatched : best.outcome = .matched
    · rw [if_pos hmatched]
      exact Option.some_ne_none best
    · obtain ⟨g, hg⟩ := Option.ne_none_iff_exists'.1 (h node)
      rw [if_neg hmatched, hg]
      exact ih _

/-- A value without parts is of the wrong kind for what has parts. -/
theorem gradeArray_scalar (hv : v.kind.isScalar = true) (inside : Inside) (elements : List Node)
    (size : ArraySize) : gradeArray inside elements size v = some (.wrongKind .array v) := by
  cases v <;> first | rfl | cases hv

theorem gradeMap_scalar (hv : v.kind.isScalar = true) (inside : Inside) (fields : List (Field Node))
    (kept : Option String) : gradeMap inside fields kept v = some (.wrongKind .map v) := by
  cases v <;> first | rfl | cases hv

theorem gradeDictionary_scalar (hv : v.kind.isScalar = true) (inside : Inside) (entry : Node) :
    gradeDictionary inside entry v = some (.wrongKind .map v) := by
  cases v <;> first | rfl | cases hv

theorem gradeSelector_scalar (hv : v.kind.isScalar = true) (inside : Inside) (discriminant : String)
    (alternatives : List (Alternative Node)) :
    gradeSelector definitions inside discriminant alternatives v = some (.wrongKind .map v) := by
  cases v <;> first | rfl | cases hv

/-- **A value without parts is graded by every node**, as no default is needed for it. -/
theorem grade_scalar (hv : v.kind.isScalar = true) (levels : Nat) (entered : List String) (node : Node) :
    grade definitions levels entered node v ≠ none := by
  induction levels generalizing entered node with
  | zero => exact nofun
  | succ levels ih =>
    cases node with
    | any => exact nofun
    | primitive => exact nofun
    | literal => exact nofun
    | array elements size =>
      rw [grade_array, gradeArray_scalar hv]
      exact nofun
    | map fields =>
      rw [grade_map, gradeMap_scalar hv]
      exact nofun
    | dictionary entry =>
      rw [grade_dictionary, gradeDictionary_scalar hv]
      exact nofun
    | selector discriminant alternatives =>
      rw [grade_selector, gradeSelector_scalar hv]
      exact nofun
    | reference name =>
      rw [grade_reference]
      unfold gradeReference
      cases definitions.nodes name with
      | nil => exact nofun
      | cons first rest =>
        obtain ⟨g, hg⟩ := Option.ne_none_iff_exists'.1 (ih (name :: entered) first)
        dsimp only
        rw [hg]
        exact bestGrading_ne_none (ih (name :: entered)) g rest

theorem compare_scalar (hv : v.kind.isScalar = true) (maxDepth : Nat) (node : Node) :
    compare definitions maxDepth node v ≠ none := grade_scalar hv maxDepth [] node

end Scalars

/-! ## Checks -/

theorem Value.equal_iff_of_isDiscriminant {v w : Value} (h : w.isDiscriminant = true) :
    v.equal w = true ↔ v = w := by
  cases w <;> cases h <;> cases v <;> simp [Value.equal]

/-- The alternative leads to a map in which the discriminant, where it is declared, is the kind of the key
or the key itself. -/
def Alternative.Fits (definitions : Definitions) (discriminant : String) (a : Alternative Node) : Prop :=
  ∃ fields, definitions.MapOf a.node fields ∧ ∀ f, Field.find? fields discriminant = some f →
    f.node = .primitive a.key.kind ∨ f.node = .literal a.key

/-- The default can be converted by the node. -/
def DefaultFits (definitions : Definitions) (maxDepth : Nat) (node : Node) (v : Value) : Prop :=
  ∃ g, compare definitions maxDepth node v = some g ∧ g.outcome ≠ .incompatible

namespace Check

/-- A check that the grammar can give rise to: the keys of alternatives are discriminants, and a default
has no parts. -/
def Formed : Check → Prop
  | .reference _ _ => True
  | .selector _ found => ∀ x ∈ found, x.2.key.isDiscriminant = true
  | .default _ v _ => v.kind.isScalar = true

/-- What the check is about holds. -/
def Passes (definitions : Definitions) (maxDepth : Nat) : Check → Prop
  | .reference name _ => definitions.nodes name ≠ []
  | .selector discriminant found => ∀ x ∈ found, x.2.Fits definitions discriminant
  | .default node v _ => DefaultFits definitions maxDepth node v

end Check

section Checks

variable {definitions : Definitions} {maxDepth : Nat}

theorem acceptsKey_iff {node : Node} {key : Value} (hkey : key.isDiscriminant = true) :
    (node.isDiscriminant = true ∧ node.acceptsKey key = true) ↔
      node = .primitive key.kind ∨ node = .literal key := by
  cases node with
  | primitive kind =>
    simp only [Node.isDiscriminant, Node.acceptsKey, beq_iff_eq, Node.primitive.injEq, reduceCtorEq,
      or_false, and_iff_right_iff_imp]
    rintro rfl
    cases key <;> cases hkey <;> rfl
  | literal v =>
    simp only [Node.isDiscriminant, Node.acceptsKey, Value.equal_iff_of_isDiscriminant hkey,
      Node.literal.injEq, reduceCtorEq, false_or, and_iff_right_iff_imp]
    rintro rfl
    exact hkey
  | _ => simp [Node.acceptsKey]

theorem checkAlternative_ok_iff {discriminant : String} {position : Position} {a : Alternative Node}
    (hkey : a.key.isDiscriminant = true) :
    checkAlternative definitions discriminant position a = .ok () ↔ a.Fits definitions discriminant := by
  unfold checkAlternative Alternative.Fits
  cases hmap : definitions.resolveMap? a.node with
  | none =>
    have hnone : ∀ fields, ¬ definitions.MapOf a.node fields := by
      intro fields h
      rw [Definitions.resolveMap?_iff.2 h] at hmap
      cases hmap
    simp [hnone]
  | some fields =>
    have hfields := Definitions.resolveMap?_iff.1 hmap
    have hunique : ∀ others, definitions.MapOf a.node others ↔ fields = others := by
      intro others
      constructor
      · rintro ⟨m, hm⟩
        obtain ⟨n, hn⟩ := hfields
        exact (hn.unique hm).2
      · rintro rfl
        exact hfields
    simp only [hunique, exists_eq_left']
    cases hfind : Field.find? fields discriminant with
    | none => simp
    | some f =>
      simp only [Option.some.injEq, forall_eq', ← acceptsKey_iff hkey]
      cases f.node.isDiscriminant <;> cases f.node.acceptsKey a.key <;> simp

theorem checkDefault_ok_iff {node : Node} {v : Value} {position : Position}
    (hv : v.kind.isScalar = true) :
    checkDefault definitions maxDepth node v position = .ok () ↔
      DefaultFits definitions maxDepth node v := by
  unfold checkDefault DefaultFits
  have hgraded : compare definitions maxDepth node v ≠ none := compare_scalar hv maxDepth node
  obtain ⟨g, hg⟩ := Option.ne_none_iff_exists'.1 hgraded
  rw [hg]
  cases houtcome : g.outcome <;> simp [houtcome]

/-- Every name in the definitions has a node. -/
def Definitions.Inhabited (definitions : Definitions) : Prop :=
  ∀ name, (Entries.get? definitions name).isSome = true → definitions.nodes name ≠ []

theorem Definitions.nodes_ne_nil_iff (h : definitions.Inhabited) {name : String} :
    definitions.nodes name ≠ [] ↔ (Entries.get? definitions name).isSome = true := by
  refine ⟨fun hne => ?_, h name⟩
  unfold nodes at hne
  cases hget : Entries.get? definitions name with
  | none =>
    rw [hget] at hne
    exact absurd rfl hne
  | some ns => rfl

theorem checkNames_ok_iff {checks : List Check} :
    checkNames definitions checks = .ok () ↔
      ∀ c ∈ checks, c.undefinedName? definitions = none := by
  rw [← List.filterMap_eq_nil_iff]
  unfold checkNames
  cases checks.filterMap (Check.undefinedName? definitions) <;> simp

theorem checkCycles_ok_iff {positions : Entries Position} :
    checkCycles definitions positions = .ok () ↔
      ∀ e ∈ positions, ¬ TransGen definitions.Bare e.1 e.1 := by
  simp only [← Definitions.isCyclic_iff]
  rw [← List.find?_eq_none]
  unfold checkCycles
  cases positions.find? fun e => definitions.isCyclic e.1 <;> simp

/-- A check is passed if it is not about an undefined name and its run finds no fault. -/
theorem Check.passes_iff {c : Check} (hdefinitions : definitions.Inhabited) (hc : c.Formed) :
    c.Passes definitions maxDepth ↔
      c.undefinedName? definitions = none ∧ c.run definitions maxDepth = .ok () := by
  cases c with
  | reference name position =>
    simp only [Passes, undefinedName?, run, Definitions.nodes_ne_nil_iff hdefinitions]
    cases (Entries.get? definitions name).isSome <;> simp
  | selector discriminant found =>
    simp only [Passes, undefinedName?, run, forM_ok_iff, true_and]
    exact forall₂_congr fun x hx => (checkAlternative_ok_iff (hc x hx)).symm
  | default node v position =>
    simp only [Passes, undefinedName?, run, true_and]
    exact (checkDefault_ok_iff hc).symm

theorem resolve_ok_iff_runs {positions : Entries Position} {checks : List Check} :
    resolve definitions positions maxDepth checks = .ok () ↔
      (∀ c ∈ checks, c.undefinedName? definitions = none ∧ c.run definitions maxDepth = .ok ()) ∧
        ∀ e ∈ positions, ¬ TransGen definitions.Bare e.1 e.1 := by
  rw [← checkCycles_ok_iff, forall₂_and, ← checkNames_ok_iff, ← forM_ok_iff]
  unfold resolve
  cases checkNames definitions checks with
  | error e => simp [bind, Except.bind]
  | ok u =>
    cases checkCycles definitions positions with
    | error e => simp [bind, Except.bind]
    | ok u => simp [bind, Except.bind]

theorem forM_error {α ε : Type} {f : α → Except ε Unit} {l : List α} {e : ε} (h : l.forM f = .error e) :
    ∃ a ∈ l, f a = .error e := by
  induction l with
  | nil => cases h
  | cons a l ih =>
    change (f a >>= fun _ => l.forM f) = .error e at h
    cases ha : f a with
    | error e' =>
      rw [ha] at h
      exact ⟨a, List.mem_cons_self, ha.trans h⟩
    | ok u =>
      rw [ha] at h
      obtain ⟨b, hb, he⟩ := ih h
      exact ⟨b, List.mem_cons_of_mem _ hb, he⟩

/-- A check by itself finds fault with a selector or a default. -/
theorem Check.run_error {c : Check} {fault : Fault} {detail? : Option String} {place : Position}
    (h : c.run definitions maxDepth = .error (.structural fault detail? place)) :
    fault ∈ [.selectorAlternativeNotMap, .selectorDiscriminantNotScalar, .selectorKeyRejected,
      .incompatibleDefault] := by
  cases c with
  | reference name position => cases h
  | selector discriminant found =>
    obtain ⟨x, -, hx⟩ := forM_error h
    unfold checkAlternative at hx
    split at hx
    · cases hx
      decide
    · split at hx
      · cases hx
      · split at hx
        · cases hx
          decide
        · split at hx
          · cases hx
            decide
          · cases hx
  | default node v position =>
    rw [run, checkDefault] at h
    split at h
    · cases h
      decide
    · cases h

/-- Undefined names are reported before anything else. -/
theorem resolve_undefinedNames_iff {positions : Entries Position} {checks : List Check} {detail? : Option String}
    {place : Position} :
    resolve definitions positions maxDepth checks = .error (.structural .undefinedNames detail? place) ↔
      checkNames definitions checks = .error (.structural .undefinedNames detail? place) := by
  unfold resolve
  cases checkNames definitions checks with
  | error e => rfl
  | ok u =>
    refine iff_of_false (fun h => ?_) nofun
    change (checkCycles definitions positions >>= fun _ => checks.forM (Check.run definitions maxDepth)) = _ at h
    unfold checkCycles at h
    split at h
    · obtain ⟨c, -, hc⟩ := forM_error h
      exact absurd (Check.run_error hc) (by decide)
    · cases h

/-- Where all names are defined, cycles are reported before anything else. -/
theorem resolve_cyclicName_iff {positions : Entries Position} {checks : List Check} {detail? : Option String}
    {place : Position} (hnames : checkNames definitions checks = .ok ()) :
    resolve definitions positions maxDepth checks = .error (.structural .cyclicName detail? place) ↔
      checkCycles definitions positions = .error (.structural .cyclicName detail? place) := by
  unfold resolve
  rw [hnames]
  change (checkCycles definitions positions >>= fun _ => checks.forM (Check.run definitions maxDepth)) = _ ↔ _
  cases checkCycles definitions positions with
  | error e => rfl
  | ok u =>
    refine iff_of_false (fun h => ?_) nofun
    obtain ⟨c, -, hc⟩ := forM_error h
    exact absurd (Check.run_error hc) (by decide)

/-- A chain of bare names that leads back to its start would start at a name with a definition. -/
theorem Definitions.acyclic_iff {positions : Entries Position}
    (hpositions : ∀ name, definitions.nodes name ≠ [] → ∃ e ∈ positions, e.1 = name) :
    definitions.Acyclic ↔ ∀ e ∈ positions, ¬ TransGen definitions.Bare e.1 e.1 := by
  constructor
  · exact fun h e _ => h e.1
  · intro h name hcycle
    obtain ⟨next, hnext, -⟩ := Relation.TransGen.head'_iff.1 hcycle
    obtain ⟨e, he, rfl⟩ := hpositions name (List.ne_nil_of_mem hnext)
    exact h e he hcycle

/-- **All checks are passed** just where what each is about holds and no chain of bare names leads back to
its start. -/
theorem resolve_ok_iff {positions : Entries Position} {checks : List Check}
    (hdefinitions : definitions.Inhabited)
    (hpositions : ∀ name, definitions.nodes name ≠ [] → ∃ e ∈ positions, e.1 = name)
    (hchecks : ∀ c ∈ checks, c.Formed) :
    resolve definitions positions maxDepth checks = .ok () ↔
      (∀ c ∈ checks, c.Passes definitions maxDepth) ∧ definitions.Acyclic := by
  rw [resolve_ok_iff_runs, Definitions.acyclic_iff hpositions]
  refine and_congr_left fun _ => forall₂_congr fun c hc => ?_
  exact (Check.passes_iff hdefinitions (hchecks c hc)).symm

/-- Checks among those that are passed hold, whatever else has been noted down. -/
theorem passes_of_resolve {positions : Entries Position} {checks noted : List Check}
    (hdefinitions : definitions.Inhabited) (hnoted : ∀ c ∈ noted, c.Formed) (hsub : noted ⊆ checks)
    (h : resolve definitions positions maxDepth checks = .ok ()) :
    ∀ c ∈ noted, c.Passes definitions maxDepth := fun c hc =>
  (Check.passes_iff hdefinitions (hnoted c hc)).2 ((resolve_ok_iff_runs.1 h).1 c (hsub hc))

end Checks

end Conformance
