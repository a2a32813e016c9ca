import Conformance.Proofs.Expansion
import Conformance.Proofs.Inversion
import Conformance.Syntax.Parser

/-!
# What a comparison has to work out

A comparison grades parts of the value and fills in defaults, and each of these asks for others. This file
names them, says what each asks for, and derives when a comparison gives a result.

* `Request` — a grading or a default that is to be worked out.
* `Asks` — the requests that a request depends on directly.
* `grade_eq_none_iff` — a grading has no result just where one that it asks for has none.
* `Request.Endless` — the requests lead to the default of a selector that is built into itself.
* `Suite.compare_returns_iff` — a comparison gives a result just where it does not lead there.
* `compare_ne_none` — it always gives one if no selector starts with an alternative that is just a name.
-/

set_option autoImplicit false

namespace Conformance

open Relation (ReflTransGen TransGen)

/-- Something that a comparison has to work out. -/
inductive Request where
  /-- The grading of a value with so many levels left, below the names that were entered. -/
  | grade (levels : Nat) (entered : List String) (node : Node) (v : Value)
  /-- The default of a node while names are being expanded. Declared defaults are graded with so many
  levels left. -/
  | fill (levels : Nat) (expanding : List String) (node : Node)

namespace Request

/-- The levels that are left. -/
def levels : Request → Nat
  | .grade levels _ _ _ => levels
  | .fill levels _ _ => levels

/-- There is no result. -/
def Unanswered (definitions : Definitions) : Request → Prop
  | .grade levels entered node v => Conformance.grade definitions levels entered node v = none
  | .fill levels expanding node =>
    defaultOf definitions (Conformance.grade definitions levels []) expanding node = none

end Request

/-- What the default of a field depends on. -/
inductive FieldAsks (definitions : Definitions) (levels : Nat) (names : List String)
    (f : Field Node) : Request → Prop where
  | literal {literal : Value} : f.default? = some literal →
    FieldAsks definitions levels names f (.grade levels [] f.node literal)
  | fallback : f.FallsBack (grade definitions levels []) →
    FieldAsks definitions levels names f (.fill levels names f.node)

/-- What the grading of entries by fields depends on. -/
inductive MapAsks (definitions : Definitions) (levels : Nat) (names : List String)
    (entries : Entries Value) (fields : List (Field Node)) : Request → Prop where
  | present {f : Field Node} {v : Value} : f ∈ fields → Entries.get? entries f.name = some v →
    (v.isUndefined && f.mayBeAbsent) = false →
    MapAsks definitions levels names entries fields (.grade levels names f.node v)
  | absent {f : Field Node} {r : Request} : f ∈ fields → f.mayBeAbsent = true →
    (∀ v, Entries.get? entries f.name = some v → v.isUndefined = true) →
    FieldAsks definitions levels names f r → MapAsks definitions levels names entries fields r

/-- What a request depends on directly. -/
inductive Asks (definitions : Definitions) : Request → Request → Prop where
  | item {levels i : Nat} {names : List String} {elements : List Node} {size : ArraySize}
    {items : List Value} {n : Node} {v : Value} :
    (size.unroll elements items.length)[i]? = some n → items[i]? = some v →
    Asks definitions (.grade (levels + 1) names (.array elements size) (.array items))
      (.grade levels names n v)
  | missing {levels i : Nat} {names : List String} {elements : List Node} {size : ArraySize}
    {items : List Value} {n : Node} :
    (size.unroll elements items.length)[i]? = some n → items[i]? = none →
    Asks definitions (.grade (levels + 1) names (.array elements size) (.array items))
      (.fill levels names n)
  | map {levels : Nat} {names : List String} {fields : List (Field Node)} {entries : Entries Value}
    {r : Request} : MapAsks definitions levels names entries fields r →
    Asks definitions (.grade (levels + 1) names (.map fields) (.map entries)) r
  | entry {levels : Nat} {names : List String} {n : Node} {entries : Entries Value}
    {e : String × Value} : e ∈ entries →
    Asks definitions (.grade (levels + 1) names (.dictionary n) (.map entries))
      (.grade levels names n e.2)
  | alternative {levels : Nat} {names : List String} {discriminant : String}
    {alternatives : List (Alternative Node)} {entries : Entries Value} {a : Alternative Node}
    {fields : List (Field Node)} {r : Request} :
    Alternative.chosen? alternatives discriminant entries = some a →
    definitions.resolveMap? a.node = some fields →
    MapAsks definitions levels names entries fields r →
    Asks definitions (.grade (levels + 1) names (.selector discriminant alternatives) (.map entries)) r
  | other {levels : Nat} {names : List String} {discriminant : String}
    {alternatives : List (Alternative Node)} {entries : Entries Value} {a : Alternative Node} :
    Alternative.chosen? alternatives discriminant entries = some a →
    definitions.resolveMap? a.node = none →
    Asks definitions (.grade (levels + 1) names (.selector discriminant alternatives) (.map entries))
      (.grade levels names a.node (.map entries))
  /-- The nodes of a name are tried one after the other until one matches. -/
  | variant {levels : Nat} {names : List String} {name : String} {before after : List Node} {n : Node}
    {v : Value} : definitions.nodes name = before ++ n :: after →
    (∀ m ∈ before, ∃ g, grade definitions levels (name :: names) m v = some g ∧
      g.outcome ≠ .matched) →
    Asks definitions (.grade (levels + 1) names (.reference name) v)
      (.grade levels (name :: names) n v)
  | expands {levels : Nat} {names names' : List String} {n m : Node} :
    Expands definitions (grade definitions levels []) (names, n) (names', m) →
    Asks definitions (.fill levels names n) (.fill levels names' m)
  | converts {levels : Nat} {names : List String} {fields : List (Field Node)} {f : Field Node}
    {literal : Value} : f ∈ fields → f.default? = some literal →
    Asks definitions (.fill levels names (.map fields)) (.grade levels [] f.node literal)

/-! ## Parts without a result -/

section Parts

variable {inside : Inside}

theorem bind_bind_eq_none_iff {α β γ : Type} {x : Option α} {y : Option β} {f : α → β → γ} :
    (do
      let a ← x
      let b ← y
      some (f a b)) = none ↔ x = none ∨ y = none := by
  cases x <;> cases y <;> simp

theorem exists_getElem?_cons {node : Node} {nodes : List Node} {P : Nat → Node → Prop} :
    (∃ (i : Nat) (n : Node), (node :: nodes)[i]? = some n ∧ P i n) ↔
      P 0 node ∨ ∃ (i : Nat) (n : Node), nodes[i]? = some n ∧ P (i + 1) n := by
  rw [← Nat.or_exists_add_one]
  simp

theorem gradeItems_eq_none_iff {index : Nat} {nodes : List Node} {items : List Value} :
    gradeItems inside index nodes items = none ↔ ∃ (i : Nat) (n : Node), nodes[i]? = some n ∧
      ((∃ v, items[i]? = some v ∧ inside.grade n v = none) ∨
        items[i]? = none ∧ inside.fill n = none) := by
  induction nodes generalizing index items with
  | nil => simp [gradeItems]
  | cons node nodes ih =>
    cases items with
    | nil =>
      rw [gradeItems, bind_bind_eq_none_iff, ih, exists_getElem?_cons]
      simp
    | cons v items =>
      rw [gradeItems, bind_bind_eq_none_iff, ih, exists_getElem?_cons]
      simp

theorem gradeField_eq_none_iff {entries : Entries Value} {f : Field Node} :
    gradeField inside entries f = none ↔
      (∃ v, Entries.get? entries f.name = some v ∧ (v.isUndefined && f.mayBeAbsent) = false ∧
        inside.grade f.node v = none) ∨
      (∀ v, Entries.get? entries f.name = some v → v.isUndefined = true) ∧
        f.mayBeAbsent = true ∧ inside.fillField f = none := by
  unfold gradeField gradeField.fillIn
  cases hget : Entries.get? entries f.name with
  | none => cases f.mayBeAbsent <;> simp
  | some v => cases f.mayBeAbsent <;> cases hu : v.isUndefined <;> simp [hu]

theorem gradeFields_eq_none_iff {entries : Entries Value} {fields : List (Field Node)} :
    gradeFields inside entries fields = none ↔ ∃ f ∈ fields, gradeField inside entries f = none := by
  induction fields with
  | nil => simp [gradeFields]
  | cons f fields ih => rw [gradeFields, bind_bind_eq_none_iff, ih, List.exists_mem_cons_iff]

theorem gradeEntries_eq_none_iff {entry : Node} {entries : Entries Value} :
    gradeEntries inside entry entries = none ↔ ∃ e ∈ entries, inside.grade entry e.2 = none := by
  induction entries with
  | nil => simp [gradeEntries]
  | cons e entries ih => rw [gradeEntries, bind_bind_eq_none_iff, ih, List.exists_mem_cons_iff]

/-- One of the nodes has no result, and none of those before it matches. -/
def Blocked (grade : Node → Option Grading) (nodes : List Node) : Prop :=
  ∃ before n after, nodes = before ++ n :: after ∧
    (∀ m ∈ before, ∃ g, grade m = some g ∧ g.outcome ≠ .matched) ∧ grade n = none

theorem blocked_cons {grade : Node → Option Grading} {node : Node} {nodes : List Node} {g : Grading}
    (hg : grade node = some g) :
    Blocked grade (node :: nodes) ↔ g.outcome ≠ .matched ∧ Blocked grade nodes := by
  constructor
  · rintro ⟨before, n, after, hnodes, hbefore, hn⟩
    cases before with
    | nil =>
      cases hnodes
      rw [hg] at hn
      cases hn
    | cons m before =>
      cases hnodes
      obtain ⟨⟨g', hg', hne⟩, hrest⟩ := List.forall_mem_cons.1 hbefore
      rw [hg] at hg'
      cases hg'
      exact ⟨hne, before, n, after, rfl, hrest, hn⟩
  · rintro ⟨hne, before, n, after, rfl, hbefore, hn⟩
    exact ⟨node :: before, n, after, rfl, List.forall_mem_cons.2 ⟨⟨g, hg, hne⟩, hbefore⟩, hn⟩

theorem bestGrading_eq_none_iff {grade : Node → Option Grading} {best : Grading}
    {nodes : List Node} :
    bestGrading grade best nodes = none ↔ best.outcome ≠ .matched ∧ Blocked grade nodes := by
  induction nodes generalizing best with
  | nil => simp [bestGrading, Blocked]
  | cons node nodes ih =>
    rw [bestGrading]
    by_cases hbest : best.outcome = .matched
    · simp [hbest]
    rw [if_neg hbest, and_iff_right hbest]
    cases hg : grade node with
    | none => exact iff_of_true rfl ⟨[], node, nodes, rfl, by simp, hg⟩
    | some g =>
      have hnext : (if best.outcome < g.outcome then g else best).outcome ≠ .matched ↔
          g.outcome ≠ .matched := by
        split
        · exact Iff.rfl
        · rename_i hlt
          refine iff_of_true hbest fun hm => hlt ?_
          rw [hm]
          revert hbest
          cases best.outcome <;> decide
      rw [Option.bind_eq_bind, Option.bind_some, ih, hnext, blocked_cons hg]

theorem gradeReference_eq_none_iff {definitions : Definitions} {grade : Node → Option Grading}
    {name : String} {v : Value} :
    gradeReference definitions grade name v = none ↔ Blocked grade (definitions.nodes name) := by
  unfold gradeReference
  split
  · rename_i hnil
    simp [hnil, Blocked]
  · rename_i node nodes hnodes
    rw [hnodes]
    cases hg : grade node with
    | none => exact iff_of_true rfl ⟨[], node, nodes, rfl, by simp, hg⟩
    | some g => rw [Option.bind_eq_bind, Option.bind_some, bestGrading_eq_none_iff, blocked_cons hg]

end Parts

/-! ## Requests without a result -/

section Requests

variable {definitions : Definitions}

theorem fieldAsks_unanswered {levels : Nat} {names : List String} {f : Field Node} :
    (Inside.below definitions levels names).fillField f = none ↔
      ∃ r, FieldAsks definitions levels names f r ∧ r.Unanswered definitions := by
  refine fieldDefault_eq_none_iff.trans ?_
  constructor
  · rintro (⟨literal, hl, hnone⟩ | ⟨hb, hnone⟩)
    · exact ⟨_, .literal hl, hnone⟩
    · exact ⟨_, .fallback hb, hnone⟩
  · rintro ⟨r, hr, hnone⟩
    cases hr with
    | literal hl => exact .inl ⟨_, hl, hnone⟩
    | fallback hb => exact .inr ⟨hb, hnone⟩

theorem mapAsks_unanswered {levels : Nat} {names : List String} {entries : Entries Value}
    {fields : List (Field Node)} :
    gradeFields (Inside.below definitions levels names) entries fields = none ↔
      ∃ r, MapAsks definitions levels names entries fields r ∧ r.Unanswered definitions := by
  rw [gradeFields_eq_none_iff]
  constructor
  · rintro ⟨f, hf, hnone⟩
    rcases gradeField_eq_none_iff.1 hnone with ⟨v, hget, hp, hg⟩ | ⟨hget, hm, hfill⟩
    · exact ⟨_, .present hf hget hp, hg⟩
    · obtain ⟨r, hr, hu⟩ := fieldAsks_unanswered.1 hfill
      exact ⟨r, .absent hf hm hget hr, hu⟩
  · rintro ⟨r, hr, hu⟩
    cases hr with
    | @present f v hf hget hp => exact ⟨f, hf, gradeField_eq_none_iff.2 (.inl ⟨v, hget, hp, hu⟩)⟩
    | @absent f r hf hm hget hr =>
      have hfill := fieldAsks_unanswered.2 ⟨r, hr, hu⟩
      exact ⟨f, hf, gradeField_eq_none_iff.2 (.inr ⟨hget, hm, hfill⟩)⟩

theorem gradeArray_eq_none_iff {inside : Inside} {elements : List Node} {size : ArraySize}
    {v : Value} : gradeArray inside elements size v = none ↔ ∃ items, v = .array items ∧
      ∃ (i : Nat) (n : Node), (size.unroll elements items.length)[i]? = some n ∧
        ((∃ w, items[i]? = some w ∧ inside.grade n w = none) ∨
          items[i]? = none ∧ inside.fill n = none) := by
  cases v
  case array items =>
    simp only [Value.array.injEq, exists_eq_left', ← @gradeItems_eq_none_iff inside 0]
    cases elements with
    | nil => simp [gradeArray, ArraySize.unroll_nil, gradeItems]
    | cons n ns => simp [gradeArray]
  all_goals simp [gradeArray]

theorem gradeMap_eq_none_iff {inside : Inside} {fields : List (Field Node)} {kept : Option String}
    {v : Value} : gradeMap inside fields kept v = none ↔
      ∃ entries, v = .map entries ∧ gradeFields inside entries fields = none := by
  cases v <;> simp [gradeMap]

theorem gradeDictionary_eq_none_iff {inside : Inside} {entry : Node} {v : Value} :
    gradeDictionary inside entry v = none ↔
      ∃ entries, v = .map entries ∧ ∃ e ∈ entries, inside.grade entry e.2 = none := by
  cases v
  case map entries =>
    simp only [Value.map.injEq, exists_eq_left', ← gradeEntries_eq_none_iff]
    simp [gradeDictionary]
  all_goals simp [gradeDictionary]

theorem gradeSelector_eq_none_iff {inside : Inside} {discriminant : String}
    {alternatives : List (Alternative Node)} {v : Value} :
    gradeSelector definitions inside discriminant alternatives v = none ↔
      ∃ entries, v = .map entries ∧ ∃ a,
        Alternative.chosen? alternatives discriminant entries = some a ∧
        ((∃ fields, definitions.resolveMap? a.node = some fields ∧
            gradeFields inside entries fields = none) ∨
          definitions.resolveMap? a.node = none ∧ inside.grade a.node v = none) := by
  cases v
  case map entries =>
    simp only [Value.map.injEq, exists_eq_left', Alternative.chosen?, gradeSelector]
    cases hkey : (Entries.get? entries discriminant).filter Value.isDiscriminant with
    | none => simp
    | some key =>
      cases ha : Alternative.find? alternatives key with
      | none => simp [ha]
      | some a => cases hr : definitions.resolveMap? a.node <;> simp [ha, hr, gradeMap]
  all_goals simp [gradeSelector]

/-- **A grading has no result just where one of the requests it asks for has none.** -/
theorem grade_eq_none_iff {levels : Nat} {entered : List String} {node : Node} {v : Value} :
    grade definitions (levels + 1) entered node v = none ↔
      ∃ r, Asks definitions (.grade (levels + 1) entered node v) r ∧ r.Unanswered definitions := by
  constructor
  · intro h
    cases node
    case any => cases h
    case primitive => cases h
    case literal => cases h
    case array elements size =>
      rw [grade_array] at h
      obtain ⟨items, rfl, i, n, hn, ⟨w, hw, hg⟩ | ⟨hw, hf⟩⟩ := gradeArray_eq_none_iff.1 h
      · exact ⟨_, .item hn hw, hg⟩
      · exact ⟨_, .missing hn hw, hf⟩
    case map fields =>
      rw [grade_map] at h
      obtain ⟨entries, rfl, hnone⟩ := gradeMap_eq_none_iff.1 h
      obtain ⟨r, hr, hu⟩ := mapAsks_unanswered.1 hnone
      exact ⟨r, .map hr, hu⟩
    case dictionary entry =>
      rw [grade_dictionary] at h
      obtain ⟨entries, rfl, e, he, hg⟩ := gradeDictionary_eq_none_iff.1 h
      exact ⟨_, .entry he, hg⟩
    case selector discriminant alternatives =>
      rw [grade_selector] at h
      obtain ⟨entries, rfl, a, ha, ⟨fields, hf, hnone⟩ | ⟨hr, hg⟩⟩ := gradeSelector_eq_none_iff.1 h
      · obtain ⟨r, hr, hu⟩ := mapAsks_unanswered.1 hnone
        exact ⟨r, .alternative ha hf hr, hu⟩
      · exact ⟨_, .other ha hr, hg⟩
    case reference name =>
      rw [grade_reference] at h
      obtain ⟨before, n, after, hnodes, hbefore, hn⟩ := gradeReference_eq_none_iff.1 h
      exact ⟨_, .variant hnodes hbefore, hn⟩
  · rintro ⟨r, hr, hu⟩
    cases hr with
    | item hn hw =>
      rw [grade_array, gradeArray_eq_none_iff]
      exact ⟨_, rfl, _, _, hn, .inl ⟨_, hw, hu⟩⟩
    | missing hn hw =>
      rw [grade_array, gradeArray_eq_none_iff]
      exact ⟨_, rfl, _, _, hn, .inr ⟨hw, hu⟩⟩
    | map hr =>
      rw [grade_map, gradeMap_eq_none_iff]
      exact ⟨_, rfl, mapAsks_unanswered.2 ⟨r, hr, hu⟩⟩
    | entry he =>
      rw [grade_dictionary, gradeDictionary_eq_none_iff]
      exact ⟨_, rfl, _, he, hu⟩
    | alternative ha hf hr =>
      rw [grade_selector, gradeSelector_eq_none_iff]
      exact ⟨_, rfl, _, ha, .inl ⟨_, hf, mapAsks_unanswered.2 ⟨r, hr, hu⟩⟩⟩
    | other ha hr =>
      rw [grade_selector, gradeSelector_eq_none_iff]
      exact ⟨_, rfl, _, ha, .inr ⟨hr, hu⟩⟩
    | variant hnodes hbefore =>
      rw [grade_reference, gradeReference_eq_none_iff]
      exact ⟨_, _, _, hnodes, hbefore, hu⟩

/-- A request that depends on one without a result has none. -/
theorem Asks.unanswered {r q : Request} (h : Asks definitions r q) (hq : q.Unanswered definitions) :
    r.Unanswered definitions := by
  cases r with
  | grade levels entered node v =>
    cases levels with
    | zero => cases h
    | succ levels => exact grade_eq_none_iff.2 ⟨q, h, hq⟩
  | fill levels names node =>
    cases h with
    | expands he =>
      obtain ⟨names', m, hreach, hm⟩ := defaultOf_eq_none_iff.1 hq
      exact defaultOf_eq_none_iff.2 ⟨names', m, .head he hreach, hm⟩
    | converts hf hl => exact defaultOf_eq_none_iff.2 ⟨_, _, .refl, .inl ⟨_, rfl, _, hf, _, hl, hq⟩⟩

theorem MapAsks.levels_eq {levels : Nat} {names : List String} {entries : Entries Value}
    {fields : List (Field Node)} {r : Request}
    (h : MapAsks definitions levels names entries fields r) : r.levels = levels := by
  cases h with
  | present => rfl
  | absent _ _ _ hr => cases hr <;> rfl

theorem Asks.levels_eq {levels : Nat} {entered : List String} {node : Node} {v : Value} {r : Request}
    (h : Asks definitions (.grade (levels + 1) entered node v) r) : r.levels = levels := by
  cases h with
  | map hr => exact hr.levels_eq
  | alternative _ _ hr => exact hr.levels_eq
  | _ => rfl

/-! ## Requests that never end -/

/-- The request leads to the default of a selector that is built into itself, which takes a first
alternative that is nothing but a name. -/
def Request.Endless (definitions : Definitions) (r : Request) : Prop :=
  ∃ levels names discriminant key name alternatives,
    let node : Node := .selector discriminant (⟨key, .reference name⟩ :: alternatives)
    ReflTransGen (Asks definitions) r (.fill levels names node) ∧
      TransGen (Embeds definitions (Conformance.grade definitions levels [])) node node

theorem Request.Endless.head {r q : Request} (h : Asks definitions r q)
    (hq : q.Endless definitions) : r.Endless definitions := by
  obtain ⟨levels, names, discriminant, key, name, alternatives, hreach, hloop⟩ := hq
  exact ⟨levels, names, discriminant, key, name, alternatives, .head h hreach, hloop⟩

/-- The steps of an expansion are requests for defaults. -/
theorem Asks.of_expansion {levels : Nat} {s t : List String × Node}
    (h : ReflTransGen (Expands definitions (grade definitions levels [])) s t) :
    ReflTransGen (Asks definitions) (.fill levels s.1 s.2) (.fill levels t.1 t.2) :=
  h.lift (fun s : List String × Node => Request.fill levels s.1 s.2) fun _ _ => .expands

theorem endless_of_fill {levels : Nat} {names : List String} {node : Node}
    (hconvert : ∀ n v, grade definitions levels [] n v = none →
      (Request.grade levels [] n v).Endless definitions)
    (h : (Request.fill levels names node).Unanswered definitions) :
    (Request.fill levels names node).Endless definitions := by
  obtain ⟨names', m, hreach, hm⟩ := defaultOf_eq_none_iff.1 h
  have hto := Asks.of_expansion hreach
  rcases hm with ⟨fields, rfl, f, hf, literal, hl, hnone⟩ | hloop
  · have hask : Asks definitions (.fill levels names' (.map fields)) (.grade levels [] f.node literal) :=
      .converts hf hl
    obtain ⟨l, ns, discriminant, key, name, alternatives, hreach', hloop⟩ :=
      (hconvert _ _ hnone).head hask
    exact ⟨l, ns, discriminant, key, name, alternatives, hto.trans hreach', hloop⟩
  · obtain ⟨discriminant, key, name, alternatives, hpath, hself⟩ := Embeds.loop_cases hloop
    have hlift : ReflTransGen (Expands definitions (grade definitions levels [])) (names', m)
        (names', .selector discriminant (⟨key, .reference name⟩ :: alternatives)) :=
      hpath.lift (fun n => (names', n)) fun _ _ => .embeds
    exact ⟨levels, names', discriminant, key, name, alternatives,
      hto.trans (Asks.of_expansion hlift), hself⟩

theorem endless_of_grade {levels : Nat} {entered : List String} {node : Node} {v : Value}
    (h : grade definitions levels entered node v = none) :
    (Request.grade levels entered node v).Endless definitions := by
  induction levels generalizing entered node v with
  | zero => cases h
  | succ levels ih =>
    obtain ⟨r, hr, hu⟩ := grade_eq_none_iff.1 h
    refine Request.Endless.head hr ?_
    obtain rfl := hr.levels_eq
    cases r with
    | grade levels entered n w => exact ih hu
    | fill levels names n => exact endless_of_fill (fun _ _ => ih) hu

/-- **A request has no result just where it leads to a selector that is built into itself.** -/
theorem unanswered_iff_endless {r : Request} :
    r.Unanswered definitions ↔ r.Endless definitions := by
  constructor
  · intro h
    cases r with
    | grade levels entered node v => exact endless_of_grade h
    | fill levels names node =>
      exact endless_of_fill (fun _ _ => endless_of_grade) h
  · rintro ⟨levels, names, discriminant, key, name, alternatives, hreach, hloop⟩
    induction hreach using ReflTransGen.head_induction_on with
    | refl => exact defaultOf_eq_none_iff.2 ⟨_, _, .refl, .inr hloop⟩
    | head hstep _ ih => exact hstep.unanswered ih

end Requests

/-! ## Comparisons that give a result -/

/-- The node that a request is about. -/
def Request.node : Request → Node
  | .grade _ _ node _ => node
  | .fill _ _ node => node

theorem FieldAsks.node_eq {definitions : Definitions} {levels : Nat} {names : List String}
    {f : Field Node} {r : Request} (h : FieldAsks definitions levels names f r) :
    r.node = f.node := by
  cases h <;> rfl

theorem MapAsks.exists_field {definitions : Definitions} {levels : Nat} {names : List String}
    {entries : Entries Value} {fields : List (Field Node)} {r : Request}
    (h : MapAsks definitions levels names entries fields r) : ∃ f ∈ fields, r.node = f.node := by
  cases h with
  | present hf _ _ => exact ⟨_, hf, rfl⟩
  | absent hf _ _ hr => exact ⟨_, hf, hr.node_eq⟩

/-- What holds of every node in a tree and in the definitions holds for each request that comes up. -/
theorem Asks.everywhere {definitions : Definitions} {P : Node → Prop} {r q : Request}
    (h : Asks definitions r q) (hr : definitions.Everywhere P r.node) :
    definitions.Everywhere P q.node := by
  cases h with
  | item hn _ => exact hr.part (.element (ArraySize.mem_unroll (List.mem_of_getElem? hn)))
  | missing hn _ => exact hr.part (.element (ArraySize.mem_unroll (List.mem_of_getElem? hn)))
  | map hm =>
    obtain ⟨f, hf, hnode⟩ := hm.exists_field
    exact hnode ▸ hr.part (.field hf)
  | entry _ => exact hr.part .entry
  | alternative ha hfields hm =>
    obtain ⟨f, hf, hnode⟩ := hm.exists_field
    have ha := hr.part (.alternative (Alternative.mem_of_chosen? ha))
    exact hnode ▸ (ha.resolved hfields).part (.field hf)
  | other ha _ => exact hr.part (.alternative (Alternative.mem_of_chosen? ha))
  | variant hnodes _ => exact hr.definition (hnodes ▸ List.mem_append_cons_self)
  | expands he =>
    cases he with
    | embeds he => exact he.everywhere hr
    | enters _ hn => exact hr.definition (hn ▸ List.mem_cons_self)
  | converts hf _ => exact hr.part (.field hf)

/-- The first alternative of a selector is not just a name. -/
def Node.StartsInline : Node → Prop
  | .selector _ (a :: _) => ∀ name, a.node ≠ .reference name
  | _ => True

/-- A comparison gives a result if no selector starts with a name. -/
theorem compare_ne_none {definitions : Definitions} {maxDepth : Nat} {node : Node} {v : Value}
    (h : definitions.Everywhere Node.StartsInline node) :
    compare definitions maxDepth node v ≠ none := by
  intro hnone
  obtain ⟨levels, names, discriminant, key, name, alternatives, hreach, -⟩ := endless_of_grade hnone
  have hlast : definitions.Everywhere Node.StartsInline
      (.selector discriminant (⟨key, .reference name⟩ :: alternatives)) := by
    generalize hq : Request.fill levels names _ = q at hreach
    suffices hall : definitions.Everywhere Node.StartsInline q.node by rwa [← hq] at hall
    clear hq
    induction hreach with
    | refl => exact h
    | tail _ hask ih => exact hask.everywhere ih
  exact hlast.self name rfl

/-- **A comparison gives a result just where it does not lead to the default of a selector that is built
into itself.** The first alternative of such a selector is a name, and the names that lead on to its map
are not counted among those that are being expanded. -/
theorem Suite.compare_returns_iff (s : Suite) (name : String) (direction : Direction) (v : Value) :
    s.compare name direction v ≠ .ok none ↔ ∀ node, s.body name direction = .ok node →
      ¬ (Request.grade s.maxDepth [] node v).Endless s.definitions := by
  unfold Suite.compare
  cases hbody : s.body name direction with
  | error e => simp [Except.map]
  | ok node =>
    simp only [Except.map, ne_eq, Except.ok.injEq, forall_eq', ← unanswered_iff_endless]
    exact Iff.rfl

/-- The selector at `g` leads past `m` to a map whose field `f` has the same selector for its default. -/
theorem Suite.compare_self_embedding : ∃ s,
    Suite.ofText ("%% r >> \x7b g?: select k \x7b \"x\": &m \x7d, n: int \x7d\n" ++
      "&m = \x7b f?: select k \x7b \"x\": &m \x7d \x7d") = .ok s ∧
    s.compare "r" .request (.map [("n", .string "abc")]) = .ok none := by
  have h : ((Suite.ofText ("%% r >> \x7b g?: select k \x7b \"x\": &m \x7d, n: int \x7d\n" ++
      "&m = \x7b f?: select k \x7b \"x\": &m \x7d \x7d")).toOption.any fun s =>
        (s.compare "r" .request (.map [("n", .string "abc")])).toOption.any Option.isNone) = true := by
    decide +kernel
  generalize Suite.ofText _ = read at h ⊢
  cases read with
  | error e => cases h
  | ok s =>
    have hnone : (s.compare "r" .request (.map [("n", .string "abc")])).toOption.any Option.isNone := h
    refine ⟨s, rfl, ?_⟩
    generalize s.compare "r" .request (.map [("n", .string "abc")]) = result at hnone ⊢
    cases result with
    | error e => cases hnone
    | ok g =>
      cases g with
      | none => rfl
      | some g => cases hnone

end Conformance
