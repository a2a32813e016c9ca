import Conformance.Proofs.Placement

/-!
# Undefined names are reported completely

A suite may use a name before it is defined, so whether all names are defined is checked once it has been read. The
error names every undefined name, and it comes before those of all other checks.

* `Grammar.Placed.Undefined` — the undefined names of some declarations, each once in the order of first uses, and the
  position of the first use.
* `undefined_names_reported` — the error is there just where a name is undefined, and says which they are.
-/

set_option autoImplicit false

namespace Conformance

open Grammar (Placed)

/-! ## Undefined names -/

namespace Grammar.Placed

/-- The names that are used, each as often as it is, in the order of the text. -/
def usedNames (ps : List Placed) : List String := (ps.flatMap Placed.uses).map Prod.fst

/-- These are the names that are used without a definition, each once, in the order in which they are first used, and
this is the position of the first such use. -/
structure Undefined (ps : List Placed) (names : List String) (place : Position) : Prop where
  mem_iff : ∀ name, name ∈ names ↔ Used ps name ∧ ¬ Defined ps name
  ordered : names.Pairwise fun a b => (usedNames ps).idxOf a < (usedNames ps).idxOf b
  first : ∃ before name after, ps.flatMap Placed.uses = before ++ (name, place) :: after ∧ ¬ Defined ps name ∧
    ∀ u ∈ before, Defined ps u.1

end Grammar.Placed

/-- The definitions do not have the name. -/
def Definitions.lacks (definitions : Definitions) (name : String) : Bool := !(Entries.get? definitions name).isSome

/-- What is checked of names are the uses of those without a definition. -/
theorem undefinedName?_eq (definitions : Definitions) (checks : List Check) :
    checks.filterMap (Check.undefinedName? definitions) =
      (checks.filterMap Check.use?).filter fun u => definitions.lacks u.1 := by
  rw [List.filter_filterMap]
  congr 1
  funext c
  cases c with
  | reference name position =>
    simp only [Check.undefinedName?, Check.use?, Option.filter, Definitions.lacks]
    by_cases hsome : (Entries.get? definitions name).isSome <;> simp [hsome]
  | _ => rfl

namespace Parser.SuiteRead

variable {text name : String} {maxDepth : Nat} {d : Declarations} {ps : List Placed} {checks : List Check}

theorem lacks_iff (h : SuiteRead text maxDepth d ps checks) :
    d.definitions.lacks name = true ↔ ¬ Placed.Defined ps name := by
  rw [← h.defined_iff, Definitions.lacks, Bool.not_eq_true', Bool.not_eq_true]

/-- The names of the uses without a definition, the first of which is given. -/
theorem undefined (h : SuiteRead text maxDepth d ps checks) {place : Position} {more : List Use}
    (huses : checks.filterMap (Check.undefinedName? d.definitions) = (name, place) :: more) :
    Placed.Undefined ps (name :: more.map Prod.fst).eraseDups place := by
  rw [undefinedName?_eq, h.uses_eq] at huses
  have hnames : name :: more.map Prod.fst = (Placed.usedNames ps).filter d.definitions.lacks := by
    have hmap := congrArg (List.map Prod.fst) huses
    rw [List.map_cons] at hmap
    rw [← hmap, Placed.usedNames, List.filter_map]
    rfl
  obtain ⟨before, after, heq, hbefore, hlacks, -⟩ := List.filter_eq_cons_iff.1 huses
  refine ⟨fun other => ?_, ?_, before, name, after, heq, h.lacks_iff.1 hlacks, fun u hu => ?_⟩
  · rw [List.mem_eraseDups, hnames, List.mem_filter, h.lacks_iff, ← h.used_iff]
    simp [Placed.usedNames]
  · refine (pairwise_idxOf_eraseDups _).imp_of_mem fun {a b} ha hb hlt => ?_
    rw [hnames] at ha hb hlt
    have hlacks : ∀ c ∈ ((Placed.usedNames ps).filter d.definitions.lacks).eraseDups, d.definitions.lacks c = true :=
      fun c hc => (List.mem_filter.1 (List.mem_eraseDups.1 hc)).2
    exact (idxOf_filter_lt_iff (hlacks a ha) (hlacks b hb) _).1 hlt
  · exact not_not.1 (mt h.lacks_iff.2 (hbefore u hu))

/-- Whether there are uses without a definition. -/
theorem undefinedNames_nil_iff (h : SuiteRead text maxDepth d ps checks) :
    checks.filterMap (Check.undefinedName? d.definitions) = [] ↔
      ∀ name, Placed.Used ps name → Placed.Defined ps name := by
  rw [undefinedName?_eq, h.uses_eq, List.filter_eq_nil_iff]
  simp only [h.lacks_iff, not_not, ← h.used_iff]
  exact ⟨fun hall name ⟨place, hmem⟩ => hall _ hmem, fun hall u hu => hall u.1 ⟨u.2, hu⟩⟩

end Parser.SuiteRead

/-- **Undefined names are reported completely, and before anything else.** Where the declarations of a text can be read
up to its end, the text has one list of declarations. The call fails for undefined names just where a name is used in
them, at any depth, that has no definition among them, wherever that may stand. The error lists just these names, each
once, in the order in which they are first used, at the position of the first such use. -/
theorem undefined_names_reported {text : String} {maxDepth : Nat} {d : Parser.Declarations}
    (h : (Parser.suitePass maxDepth).run text = .ok d) :
    ∃ ps, Declares text maxDepth ps ∧ (∀ others, Declares text maxDepth others → others = ps) ∧
      ((∃ detail? place, Suite.ofText text maxDepth = .error (.structural .undefinedNames detail? place)) ↔
        ∃ name, Placed.Used ps name ∧ ¬ Placed.Defined ps name) ∧
      ∀ detail? place, Suite.ofText text maxDepth = .error (.structural .undefinedNames detail? place) →
        ∃ names, detail? = some (String.intercalate ", " names) ∧ Placed.Undefined ps names place := by
  obtain ⟨ps, checks, hread⟩ := Parser.suitePass_ok h
  have herror : ∀ detail? place, Suite.ofText text maxDepth = .error (.structural .undefinedNames detail? place) ↔
      checkNames d.definitions checks = .error (.structural .undefinedNames detail? place) := fun detail? place =>
    hread.error_iff.trans resolve_undefinedNames_iff
  refine ⟨ps, hread.declares, fun others hothers => hothers.unique hread.declares, ?_, fun detail? place he => ?_⟩
  · simp only [herror]
    have hnil := hread.undefinedNames_nil_iff
    unfold checkNames
    cases huses : checks.filterMap (Check.undefinedName? d.definitions) with
    | nil =>
      refine iff_of_false nofun ?_
      rintro ⟨name, hused, hundefined⟩
      exact hundefined (hnil.1 huses name hused)
    | cons first more =>
      refine iff_of_true ⟨_, _, rfl⟩ ?_
      rw [huses] at hnil
      simpa only [not_forall, exists_prop] using mt hnil.2 (List.cons_ne_nil _ _)
  · rw [herror] at he
    unfold checkNames at he
    cases huses : checks.filterMap (Check.undefinedName? d.definitions) with
    | nil =>
      rw [huses] at he
      cases he
    | cons first more =>
      rw [huses] at he
      cases he
      exact ⟨_, rfl, hread.undefined huses⟩

/-- Two undefined names, the first of which is used twice. -/
theorem undefined_names_reported_twice :
    (∃ d, (Parser.suitePass 2).run "&a = [&c, &b, &c, &a]" = .ok d) ∧
      ∃ ps names, Declares "&a = [&c, &b, &c, &a]" 2 ps ∧ some "c, b" = some (String.intercalate ", " names) ∧
        Placed.Undefined ps names ⟨⟨1, 7, 6⟩, 6, 7⟩ := by
  have hpass : ∃ d, (Parser.suitePass 2).run "&a = [&c, &b, &c, &a]" = .ok d := ⟨_, rfl⟩
  have herror : Suite.ofText "&a = [&c, &b, &c, &a]" 2 =
      .error (.structural .undefinedNames (some "c, b") ⟨⟨1, 7, 6⟩, 6, 7⟩) := by
    rfl
  obtain ⟨d, hd⟩ := hpass
  obtain ⟨ps, hdeclares, -, -, hlisted⟩ := undefined_names_reported hd
  obtain ⟨names, hdetail, hundefined⟩ := hlisted _ _ herror
  exact ⟨⟨d, hd⟩, ps, names, hdeclares, hdetail, hundefined⟩

end Conformance
