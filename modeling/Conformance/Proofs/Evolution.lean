import Conformance.Proofs.Matching
import Conformance.Proofs.Selection

/-!
# Evolution of schemas

A schema evolves by new fields that may be absent, in any of its maps. This file compares the gradings of one
value by the schema before and by the schema after.

* `FieldsEvolve`, `AlternativesEvolve`, `Node.Evolves` — a schema without names and what it evolves into.
* `FieldsEvolve.reports_of_old`, `FieldsEvolve.descends_of_old` — what a map reports with the new fields
  where the entries match the old ones; `FieldsEvolve.reports_of_new`, `FieldsEvolve.descends_of_new` — the
  other way round.
* `Node.Evolves.findings_of_old`, `Node.Evolves.findings_of_new` — all findings by one schema about a value
  that matches the other.
* `Schema.compare_evolved` — values that match the old schema can be used with the new one, and values that
  match the new schema with the old one.
-/

set_option autoImplicit false

namespace Conformance

/-! ## Schemas before and after -/

/-- The second list of fields is the first one with other nodes, as related by `R`, and with more fields at any
place, each of which may be absent. -/
inductive FieldsEvolve (R : Node → Node → Prop) : List (Field Node) → List (Field Node) → Prop where
  | nil : FieldsEvolve R [] []
  | kept {name : String} {m n : Node} {isOptional : Bool} {default? : Option Value}
    {fs gs : List (Field Node)} : R m n → FieldsEvolve R fs gs →
    FieldsEvolve R (⟨name, m, isOptional, default?⟩ :: fs) (⟨name, n, isOptional, default?⟩ :: gs)
  | added {g : Field Node} {fs gs : List (Field Node)} : g.mayBeAbsent = true →
    FieldsEvolve R fs gs → FieldsEvolve R fs (g :: gs)

/-- The second list of alternatives is the first one with other nodes, as related by `R`. -/
inductive AlternativesEvolve (R : Node → Node → Prop) :
    List (Alternative Node) → List (Alternative Node) → Prop where
  | nil : AlternativesEvolve R [] []
  | cons {key : Value} {m n : Node} {xs ys : List (Alternative Node)} : R m n →
    AlternativesEvolve R xs ys → AlternativesEvolve R (⟨key, m⟩ :: xs) (⟨key, n⟩ :: ys)

/-- No name occurs in either node, and the second is the first with more fields in its maps, each of which may
be absent. That their names are new in a map follows where the second declares no name twice. -/
inductive Node.Evolves : Node → Node → Prop where
  | any : Evolves .any .any
  | primitive (kind : Kind) : Evolves (.primitive kind) (.primitive kind)
  | literal (v : Value) : Evolves (.literal v) (.literal v)
  | array {ms ns : List Node} {size : ArraySize} : List.Forall₂ Evolves ms ns →
    Evolves (.array ms size) (.array ns size)
  | map {fs gs : List (Field Node)} : FieldsEvolve Evolves fs gs → Evolves (.map fs) (.map gs)
  | dictionary {m n : Node} : Evolves m n → Evolves (.dictionary m) (.dictionary n)
  | selector {discriminant : String} {xs ys : List (Alternative Node)} :
    AlternativesEvolve Evolves xs ys →
    Evolves (.selector discriminant xs) (.selector discriminant ys)

/-- Two fields that differ in nothing but their nodes, which are related by `R`. -/
structure Field.Carried (R : Node → Node → Prop) (f g : Field Node) : Prop where
  name : f.name = g.name
  mayBeAbsent : f.mayBeAbsent = g.mayBeAbsent
  default? : f.default? = g.default?
  node : R f.node g.node

section Relations

variable {R : Node → Node → Prop} {fs gs : List (Field Node)} {xs ys : List (Alternative Node)}

theorem FieldsEvolve.of_old (h : FieldsEvolve R fs gs) {f : Field Node} (hf : f ∈ fs) :
    ∃ g ∈ gs, f.Carried R g := by
  induction h with
  | nil => exact (List.not_mem_nil hf).elim
  | kept hnode _ ih =>
    rcases List.mem_cons.1 hf with rfl | hf
    · exact ⟨_, List.mem_cons_self, rfl, rfl, rfl, hnode⟩
    · obtain ⟨g, hg, hcarried⟩ := ih hf
      exact ⟨g, List.mem_cons_of_mem _ hg, hcarried⟩
  | added _ _ ih =>
    obtain ⟨g, hg, hcarried⟩ := ih hf
    exact ⟨g, List.mem_cons_of_mem _ hg, hcarried⟩

/-- A field of the new map is one of the old map, or it is added under a fresh name. -/
theorem FieldsEvolve.of_new (h : FieldsEvolve R fs gs) (hnd : (gs.map Field.name).Nodup)
    {g : Field Node} (hg : g ∈ gs) : (∃ f ∈ fs, f.Carried R g) ∨
      g.mayBeAbsent = true ∧ ∀ f ∈ fs, f.name ≠ g.name := by
  induction h with
  | nil => exact (List.not_mem_nil hg).elim
  | kept hnode _ ih =>
    obtain ⟨hhead, hnd⟩ := List.nodup_cons.1 hnd
    rcases List.mem_cons.1 hg with rfl | hg
    · exact .inl ⟨_, List.mem_cons_self, rfl, rfl, rfl, hnode⟩
    · rcases ih hnd hg with ⟨f, hf, hcarried⟩ | ⟨habsent, hfresh⟩
      · exact .inl ⟨f, List.mem_cons_of_mem _ hf, hcarried⟩
      · refine .inr ⟨habsent, List.forall_mem_cons.2 ⟨fun heq => hhead ?_, hfresh⟩⟩
        exact List.mem_map.2 ⟨g, hg, heq.symm⟩
  | added habsent hrest ih =>
    obtain ⟨hhead, hnd⟩ := List.nodup_cons.1 hnd
    rcases List.mem_cons.1 hg with rfl | hg
    · refine .inr ⟨habsent, fun f hf heq => hhead ?_⟩
      obtain ⟨g', hg', hcarried⟩ := hrest.of_old hf
      exact List.mem_map.2 ⟨g', hg', hcarried.name.symm.trans heq⟩
    · exact ih hnd hg

theorem Field.isSome_find? {fields : List (Field Node)} {name : String} :
    (Field.find? fields name).isSome = true ↔ ∃ f ∈ fields, f.name = name := by
  simp [Field.find?, List.find?_isSome]

theorem AlternativesEvolve.find? (h : AlternativesEvolve R xs ys) (key : Value) :
    (Alternative.find? xs key = none ∧ Alternative.find? ys key = none) ∨ ∃ a b,
      Alternative.find? xs key = some a ∧ Alternative.find? ys key = some b ∧ R a.node b.node := by
  induction h with
  | nil => exact .inl ⟨rfl, rfl⟩
  | @cons k m n xs ys hnode _ ih =>
    unfold Alternative.find? at ih ⊢
    by_cases hkey : k.equal key = true
    · refine .inr ⟨⟨k, m⟩, ⟨k, n⟩, ?_, ?_, hnode⟩
      · exact List.find?_cons_of_pos hkey
      · exact List.find?_cons_of_pos hkey
    · have hskip : ∀ (p : Node) (zs : List (Alternative Node)),
          List.find? (fun a => a.key.equal key) (⟨k, p⟩ :: zs) =
            List.find? (fun a => a.key.equal key) zs := fun _ _ => List.find?_cons_of_neg hkey
      rw [hskip, hskip]
      exact ih

/-- Both selectors choose alternatives at the same place, or neither chooses one. -/
theorem AlternativesEvolve.chosen? (h : AlternativesEvolve R xs ys) (discriminant : String)
    (entries : Entries Value) :
    (Alternative.chosen? xs discriminant entries = none ∧
      Alternative.chosen? ys discriminant entries = none) ∨
    ∃ a b, Alternative.chosen? xs discriminant entries = some a ∧
      Alternative.chosen? ys discriminant entries = some b ∧ R a.node b.node := by
  unfold Alternative.chosen?
  cases (Entries.get? entries discriminant).filter Value.isDiscriminant with
  | none => exact .inl ⟨rfl, rfl⟩
  | some key => exact h.find? key

theorem forall₂_getElem? {α β : Type} {S : α → β → Prop} {as : List α} {bs : List β}
    (h : List.Forall₂ S as bs) {i : Nat} {b : β} (hb : bs[i]? = some b) :
    ∃ a, as[i]? = some a ∧ S a b := by
  induction h generalizing i with
  | nil => cases hb
  | cons hs _ ih =>
    cases i with
    | zero =>
      cases hb
      exact ⟨_, rfl, hs⟩
    | succ i => exact ih hb

theorem ArraySize.forall₂_unroll {ms ns : List Node} (h : List.Forall₂ R ms ns) (size : ArraySize)
    (items : Nat) : List.Forall₂ R (size.unroll ms items) (size.unroll ns items) := by
  cases size with
  | exact => exact h
  | repeating =>
    simp only [unroll, h.length_eq]
    induction (items + ns.length - 1) / ns.length with
    | zero => exact .nil
    | succ times ih =>
      rw [List.replicate_succ, List.replicate_succ, List.flatten_cons, List.flatten_cons]
      exact List.rel_append h ih

end Relations

/-! ## Defaults before and after -/

/-- The default of a composite node is composite. -/
theorem defaultWithin_ne_undefined {definitions : Definitions}
    {convert : Node → Value → Option Grading} {n : Nat} {names : List String} {node : Node}
    (hkind : node.compositeKind? ≠ none) (hsound : node.Sound definitions) :
    defaultWithin definitions convert n names node ≠ some .undefined := by
  have hmap : ∀ n fields, defaultWithin definitions convert n names (.map fields) ≠
      some .undefined := by
    intro n fields h
    cases n with
    | zero => cases h
    | succ n =>
      obtain ⟨entries, -, heq⟩ := Option.map_eq_some_iff.1 h
      cases heq
  intro h
  cases n with
  | zero => cases h
  | succ n =>
    cases node
    case any => exact hkind rfl
    case primitive => exact hkind rfl
    case literal => exact hkind rfl
    case reference => exact hkind rfl
    case map fields => exact hmap (n + 1) fields h
    case dictionary => cases h
    case array elements size =>
      cases size with
      | exact =>
        obtain ⟨items, -, heq⟩ := Option.map_eq_some_iff.1 h
        cases heq
      | repeating => cases h
    case selector discriminant alternatives =>
      cases alternatives with
      | nil => cases h
      | cons first rest =>
        obtain ⟨fields, hfields, -⟩ := hsound first List.mem_cons_self
        simp only [defaultWithin, hfields] at h
        obtain ⟨d, hd, heq⟩ := Option.map_eq_some_iff.1 h
        cases d <;> cases heq
        exact hmap n fields hd

/-- A composite node refuses a literal. -/
theorem grade_literal_refused {definitions : Definitions} {levels : Nat} {names : List String}
    {node : Node} {v : Value} {g : Grading} (hkind : node.compositeKind? ≠ none) (hv : v.IsLiteral)
    (h : grade definitions levels names node v = some g) : g.outcome = .incompatible := by
  cases levels with
  | zero =>
    cases h
    rfl
  | succ levels =>
    cases node <;> first | exact absurd rfl hkind | skip
    all_goals
      cases v <;> first | exact hv.elim | skip
      all_goals
        cases h
        rfl

/-- The default of a field is not `undefined` where the node is composite. -/
theorem fieldDefault_ne_undefined {definitions : Definitions} {levels : Nat} {names : List String}
    {f : Field Node} (hkind : f.node.compositeKind? ≠ none) (hsound : f.node.Sound definitions)
    (hliteral : ∀ v, f.default? = some v → v.IsLiteral) :
    (Inside.below definitions levels names).fillField f ≠ some .undefined := by
  intro h
  have hfill : defaultOf definitions (grade definitions levels []) names f.node ≠ some .undefined :=
    defaultWithin_ne_undefined hkind hsound
  simp only [Inside.below, fieldDefault] at h
  cases hdefault : f.default? with
  | none =>
    rw [hdefault] at h
    exact hfill h
  | some literal =>
    rw [hdefault] at h
    obtain ⟨g, hg, h⟩ := Option.bind_eq_some_iff.1 h
    have hrefused := grade_literal_refused hkind (hliteral literal hdefault) hg
    rw [hrefused, if_neg (by decide)] at h
    exact hfill h

theorem Node.Evolves.eq_or_composite {m n : Node} (h : m.Evolves n) :
    m = n ∨ (m.compositeKind? ≠ none ∧ n.compositeKind? ≠ none) := by
  cases h
  case any => exact .inl rfl
  case primitive => exact .inl rfl
  case literal => exact .inl rfl
  all_goals exact .inr ⟨Option.some_ne_none _, Option.some_ne_none _⟩

/-- A node without definitions that is sound and has literals for its defaults, throughout. -/
def Node.SoundAlone (node : Node) : Prop :=
  Definitions.Everywhere [] (fun m => m.Sound [] ∧ m.LiteralDefaults) node

/-- Where `undefined` is the default of a field after, it is so before. -/
theorem Field.Carried.fillField_of_new {levels : Nat} {f g : Field Node}
    (h : f.Carried Node.Evolves g) (hg : g.node.SoundAlone)
    (hliteral : ∀ v, g.default? = some v → v.IsLiteral)
    (hfill : (Inside.below [] levels []).fillField g = some .undefined) :
    (Inside.below [] levels []).fillField f = some .undefined := by
  rcases h.node.eq_or_composite with hsame | ⟨-, hkind⟩
  · have hfield : ∀ e : Field Node, (Inside.below [] levels []).fillField e =
        (Inside.below [] levels []).fillField ⟨"", e.node, false, e.default?⟩ := fun _ => rfl
    rw [hfield] at hfill ⊢
    rw [hsame, h.default?]
    exact hfill
  · exact absurd hfill (fieldDefault_ne_undefined hkind hg.self.1 hliteral)

/-! ## Maps before and after -/

section Maps

variable {R : Node → Node → Prop} {old new : Inside} {fs gs : List (Field Node)}
  {kept : Option String} {entries : Entries Value}

theorem FieldMatches.get?_ne_none {inside : Inside} {f : Field Node}
    (h : FieldMatches inside entries f) : Entries.get? entries f.name ≠ none := by
  intro hnone
  rcases h with ⟨v, hget, -⟩ | ⟨hget, -⟩
  · rw [hnone] at hget
    cases hget
  · rw [hnone] at hget
    cases hget

/-- A value that is not left as undefined at a field that matches matches the node of the field. -/
theorem FieldMatches.of_get? {inside : Inside} {f : Field Node} (h : FieldMatches inside entries f)
    {w : Value} (hget : Entries.get? entries f.name = some w)
    (hpresent : (w.isUndefined && f.mayBeAbsent) = false) : inside.Matches f.node w := by
  rcases h with ⟨v, hv, -, hmatches⟩ | ⟨hv, habsent, -⟩
  · obtain rfl := Option.some.inj (hget.symm.trans hv)
    exact hmatches
  · obtain rfl := Option.some.inj (hget.symm.trans hv)
    rw [habsent] at hpresent
    cases hpresent

/-- Where the entries match the old fields, all that the new map reports by itself is that a new field has
been filled in. -/
theorem FieldsEvolve.reports_of_old (h : FieldsEvolve R fs gs) (hnd : (gs.map Field.name).Nodup)
    (hm : MapMatches old fs kept entries) {f : Finding} (hf : MapReports new gs kept entries f) :
    f.reason = .missingOptional := by
  cases hf with
  | filled => rfl
  | replaced => rfl
  | required hg hget hrequired =>
    rcases h.of_new hnd hg with ⟨f, hf, hcarried⟩ | ⟨habsent, -⟩
    · exact absurd (hcarried.name ▸ hget) (hm.declared f hf).get?_ne_none
    · rw [hrequired] at habsent
      cases habsent
  | @undeclared e he hnone hkept =>
    rcases hm.others e he with hdeclared | hkey
    · obtain ⟨f, hf, hname⟩ := Field.isSome_find?.1 hdeclared
      obtain ⟨g, hg, hcarried⟩ := h.of_old hf
      have hfound := Field.isSome_find?.2 ⟨g, hg, hcarried.name.symm.trans hname⟩
      rw [hnone] at hfound
      cases hfound
    · exact absurd hkey hkept

/-- Where the entries match the old fields, a value that is graded by a new field matches the old one, or it
stands at the key that was kept and is declared now. -/
theorem FieldsEvolve.descends_of_old (h : FieldsEvolve R fs gs) (hnd : (gs.map Field.name).Nodup)
    (hm : MapMatches old fs kept entries) {step : Step} {n : Node} {w : Value}
    (hd : MapDescends gs entries step n w) : (∃ m, R m n ∧ old.Matches m w) ∨
      ∃ g ∈ gs, g.node = n ∧ step = .key g.name ∧ kept = some g.name ∧
        Entries.get? entries g.name = some w := by
  obtain @⟨g, w, hg, hget, hpresent⟩ := hd
  rcases h.of_new hnd hg with ⟨f, hf, hcarried⟩ | ⟨-, hfresh⟩
  · rw [← hcarried.name] at hget
    rw [← hcarried.mayBeAbsent] at hpresent
    exact .inl ⟨f.node, hcarried.node, (hm.declared f hf).of_get? hget hpresent⟩
  · rcases hm.others _ (Entries.mem_of_get? hget) with hdeclared | hkey
    · obtain ⟨f, hf, hname⟩ := Field.isSome_find?.1 hdeclared
      exact absurd hname (hfresh f hf)
    · exact .inr ⟨g, hg, rfl, rfl, hkey, hget⟩

/-- Where the entries match the new fields, all that the old map reports by itself is that a key is not
declared. -/
theorem FieldsEvolve.reports_of_new (h : FieldsEvolve R fs gs)
    (hfill : ∀ f, ∀ g ∈ gs, f.Carried R g → new.fillField g = some .undefined →
      old.fillField f = some .undefined)
    (hm : MapMatches new gs kept entries) {f : Finding} (hf : MapReports old fs kept entries f) :
    f.reason = .undeclaredKey := by
  have hpresent : ∀ f ∈ fs, Entries.get? entries f.name ≠ none := by
    intro f hf
    obtain ⟨g, hg, hcarried⟩ := h.of_old hf
    exact hcarried.name ▸ (hm.declared g hg).get?_ne_none
  cases hf with
  | required hf hget => exact absurd hget (hpresent _ hf)
  | filled hf hget => exact absurd hget (hpresent _ hf)
  | @replaced f d hf hget habsent hd hdefined =>
    obtain ⟨g, hg, hcarried⟩ := h.of_old hf
    rcases hm.declared g hg with ⟨v, hv, hgraded, -⟩ | ⟨-, -, hundefined⟩
    · obtain rfl := Option.some.inj (hv.symm.trans (hcarried.name ▸ hget))
      rw [← hcarried.mayBeAbsent, habsent] at hgraded
      cases hgraded
    · rw [hfill f g hg hcarried hundefined] at hd
      cases hd
      cases hdefined
  | undeclared => rfl

/-- Where the entries match the new fields, a value that is graded by an old field matches the new one. -/
theorem FieldsEvolve.descends_of_new (h : FieldsEvolve R fs gs) (hm : MapMatches new gs kept entries)
    {step : Step} {m : Node} {w : Value} (hd : MapDescends fs entries step m w) :
    ∃ g ∈ gs, R m g.node ∧ new.Matches g.node w := by
  obtain @⟨f, w, hf, hget, hpresent⟩ := hd
  obtain ⟨g, hg, hcarried⟩ := h.of_old hf
  rw [hcarried.name] at hget
  rw [hcarried.mayBeAbsent] at hpresent
  exact ⟨g, hg, hcarried.node, (hm.declared g hg).of_get? hget hpresent⟩

end Maps

/-! ## Whole gradings -/

theorem Definitions.resolveMap?_nil {node : Node} {fields : List (Field Node)} :
    Definitions.resolveMap? [] node = some fields ↔ node = .map fields := by
  constructor
  · intro h
    rcases Definitions.resolveMap?_cases h with hnode | ⟨name, hmem⟩
    · exact hnode
    · exact (List.not_mem_nil hmem).elim
  · rintro rfl
    rfl

/-- A node that takes a key as it is matches it, if there is a level left to look at it. -/
theorem matches_of_acceptsKey {definitions : Definitions} {levels : Nat} {names : List String}
    {n : Node} {key v : Value} (hv : v.isDiscriminant = true) (haccepts : n.acceptsKey key = true)
    (hequal : key.equal v = true) : Matches definitions (levels + 1) names n v := by
  obtain rfl := (Value.equal_iff_of_isDiscriminant hv).1 hequal
  cases n <;> try cases haccepts
  case primitive kind => exact grade_primitive_matched_iff.2 (beq_iff_eq.1 haccepts).symm
  case literal expected => exact grade_literal_matched_iff.2 haccepts

theorem Matches.findings_eq_nil {definitions : Definitions} {levels : Nat} {names : List String}
    {n : Node} {v : Value} {g : Grading} (hm : Matches definitions levels names n v)
    (hg : grade definitions levels names n v = some g) : g.findings = [] := by
  obtain ⟨g', hg', hmatched⟩ := hm
  obtain rfl := Option.some.inj (hg.symm.trans hg')
  exact (grade_balanced hg).outcome_eq_matched.1 hmatched

/-- All that is ever reported of a key by a node that takes it is that no level is left to look at it. -/
theorem exhausted_of_acceptsKey {definitions : Definitions} {levels : Nat} {names : List String}
    {n : Node} {key v : Value} {g : Grading} {f : Finding} (hv : v.isDiscriminant = true)
    (haccepts : n.acceptsKey key = true) (hequal : key.equal v = true)
    (hg : grade definitions levels names n v = some g) (hf : f ∈ g.findings) :
    levels = 0 ∧ f = ⟨[], .depthExceeded⟩ := by
  cases levels with
  | zero =>
    cases hg
    exact ⟨rfl, List.mem_singleton.1 hf⟩
  | succ levels =>
    rw [(matches_of_acceptsKey hv haccepts hequal).findings_eq_nil hg] at hf
    exact (List.not_mem_nil hf).elim

/-- A node without parts does not ask how many levels are left. -/
theorem Matches.leaf {l k : Nat} {n : Node} {v : Value} (hn : n.compositeKind? = none)
    (hname : ∀ name, n ≠ .reference name) (h : Matches [] (l + 1) [] n v) :
    Matches [] (k + 1) [] n v := by
  cases n
  case any => exact ⟨_, rfl, rfl⟩
  case primitive => exact grade_primitive_matched_iff.2 (grade_primitive_matched_iff.1 h)
  case literal => exact grade_literal_matched_iff.2 (grade_literal_matched_iff.1 h)
  case reference name => exact absurd rfl (hname name)
  all_goals cases hn

/-- The finding says that no level was left for the discriminant of a selector in the node. -/
structure Finding.IsExhausted (node : Node) (levels : Nat) (f : Finding) : Prop where
  reason : f.reason = .depthExceeded
  length : f.path.length = levels
  discriminant : ∃ discriminant alternatives, .selector discriminant alternatives ∈ node.subnodes ∧
    f.path.getLast? = some (.key discriminant)

theorem Finding.IsExhausted.under {node part : Node} {levels : Nat} {f : Finding}
    (h : f.IsExhausted part levels) (hpart : ∀ m ∈ part.subnodes, m ∈ node.subnodes) (step : Step) :
    (f.under step).IsExhausted node (levels + 1) := by
  obtain ⟨hreason, hlength, discriminant, alternatives, hmem, hlast⟩ := h
  refine ⟨hreason, congrArg Nat.succ hlength, discriminant, alternatives, hpart _ hmem, ?_⟩
  change (step :: f.path).getLast? = _
  rw [List.getLast?_cons, hlast]
  rfl

/-- What the new node may report of a value that matches the old node: with as many levels, none may be left
for a discriminant that is declared now. -/
def Finding.IsAddition (node : Node) (before after : Nat) (f : Finding) : Prop :=
  f.reason = .missingOptional ∨ after = before ∧ f.IsExhausted node after

theorem Finding.IsAddition.under {node part : Node} {before after : Nat} {f : Finding}
    (h : f.IsAddition part before after) (hpart : ∀ m ∈ part.subnodes, m ∈ node.subnodes)
    (step : Step) : (f.under step).IsAddition node (before + 1) (after + 1) := by
  refine h.imp id fun ⟨hlevels, hexhausted⟩ => ?_
  exact ⟨congrArg Nat.succ hlevels, hexhausted.under hpart step⟩

theorem Node.Part.subset {k n : Node} (h : k.Part n) : ∀ m ∈ k.subnodes, m ∈ n.subnodes :=
  fun _ hm => Node.mem_subnodes_trans hm (Node.part_mem_subnodes n.mem_subnodes_self h)

/-! ### Arrays, dictionaries and selectors -/

section Composites

variable {definitions : Definitions} {levels : Nat} {names names' : List String}
  {R : Node → Node → Prop} {M : Node → Value → Prop}

/-- An array with as many items as there are nodes for them, each of which is graded, has nothing to report by
itself. -/
theorem not_reports_array {ms ns : List Node} {size : ArraySize} {items : List Value} {f : Finding}
    (hE : List.Forall₂ R ms ns)
    (hall : ms = [] ∨ List.Forall₂ M (size.unroll ms items.length) items) :
    ¬ (Node.array ns size).Reports definitions levels names (.array items) f := by
  have hlength : ns = [] ∨ (size.unroll ns items.length).length = items.length := by
    refine hall.imp ?_ fun hall => ?_
    · rintro rfl
      exact List.forall₂_nil_left_iff.1 hE
    · have hunroll := ArraySize.forall₂_unroll hE size items.length
      exact hunroll.length_eq.symm.trans hall.length_eq
  intro h
  cases h with
  | wrongKind hkind hne =>
    cases hkind
    exact hne rfl
  | extra hne hle hlt =>
    have := hlength.resolve_left hne
    omega
  | missing hle hlt =>
    rcases hlength with rfl | hlength
    · rw [ArraySize.unroll_nil] at hlt
      exact absurd hlt (Nat.not_lt_zero _)
    · omega

theorem descends_array {ms ns : List Node} {size : ArraySize} {items : List Value} {step? : Option Step}
    {n : Node} {w : Value} (hE : List.Forall₂ R ms ns)
    (hall : ms = [] ∨ List.Forall₂ M (size.unroll ms items.length) items)
    (hd : Descends definitions levels names (.array ns size) (.array items) step? names' n w) :
    names' = names ∧ n ∈ ns ∧ (∃ i, step? = some (.index i)) ∧ ∃ m ∈ ms, R m n ∧ M m w := by
  cases hd with
  | item hn hw =>
    refine ⟨rfl, ArraySize.mem_unroll (List.mem_of_getElem? hn), ⟨_, rfl⟩, ?_⟩
    obtain ⟨m, hm, hmn⟩ := forall₂_getElem? (ArraySize.forall₂_unroll hE size items.length) hn
    rcases hall with rfl | hall
    · rw [ArraySize.unroll_nil] at hm
      cases hm
    · obtain ⟨m', hm', hmatches⟩ := forall₂_getElem? hall hw
      rw [hm] at hm'
      cases hm'
      exact ⟨m, ArraySize.mem_unroll (List.mem_of_getElem? hm), hmn, hmatches⟩

theorem not_reports_dictionary {entry : Node} {entries : Entries Value} {f : Finding} :
    ¬ (Node.dictionary entry).Reports definitions levels names (.map entries) f := by
  intro h
  cases h with
  | wrongKind hkind hne =>
    cases hkind
    exact hne rfl

/-- What the map of the chosen alternative reports is all that the selector reports. -/
theorem reports_selector {discriminant : String} {xs : List (Alternative Node)}
    {entries : Entries Value} {a : Alternative Node} {fs : List (Field Node)} {f : Finding}
    (ha : Alternative.chosen? xs discriminant entries = some a) (hmap : a.node = .map fs)
    (h : (Node.selector discriminant xs).Reports [] levels names (.map entries) f) :
    MapReports (.below [] levels names) fs (some discriminant) entries f := by
  cases h with
  | wrongKind hkind hne =>
    cases hkind
    exact absurd rfl hne
  | alternative ha' hfields hreports =>
    rw [ha] at ha'
    cases ha'
    rw [Definitions.resolveMap?_nil, hmap] at hfields
    cases hfields
    exact hreports
  | badDiscriminant hno =>
    obtain ⟨key, hget, hkey, -⟩ := Alternative.chosen?_eq_some.1 ha
    rw [hno key hget] at hkey
    cases hkey
  | unknownAlternative hget hkey hnone =>
    obtain ⟨key, hget', -, hfind⟩ := Alternative.chosen?_eq_some.1 ha
    obtain rfl := Option.some.inj (hget.symm.trans hget')
    rw [hnone] at hfind
    cases hfind

theorem descends_selector {discriminant : String} {xs : List (Alternative Node)}
    {entries : Entries Value} {a : Alternative Node} {fs : List (Field Node)} {step? : Option Step}
    {n : Node} {w : Value} (ha : Alternative.chosen? xs discriminant entries = some a)
    (hmap : a.node = .map fs)
    (h : Descends [] levels names (.selector discriminant xs) (.map entries) step? names' n w) :
    names' = names ∧ ∃ step, step? = some step ∧ MapDescends fs entries step n w := by
  cases h with
  | alternative ha' hfields hpart =>
    rw [ha] at ha'
    cases ha'
    rw [Definitions.resolveMap?_nil, hmap] at hfields
    cases hfields
    exact ⟨rfl, _, rfl, hpart⟩
  | other ha' hnone =>
    rw [ha] at ha'
    cases ha'
    rw [hmap] at hnone
    cases hnone

/-- The alternatives that are chosen before and after are maps. -/
theorem AlternativesEvolve.maps {discriminant : String} {xs ys : List (Alternative Node)}
    (h : AlternativesEvolve Node.Evolves xs ys) (hsound : (Node.selector discriminant ys).Sound [])
    (entries : Entries Value) :
    (Alternative.chosen? xs discriminant entries = none ∧
      Alternative.chosen? ys discriminant entries = none) ∨
    ∃ a b fs gs, Alternative.chosen? xs discriminant entries = some a ∧
      Alternative.chosen? ys discriminant entries = some b ∧ a.node = .map fs ∧ b.node = .map gs ∧
      FieldsEvolve Node.Evolves fs gs ∧
      ∀ g, Field.find? gs discriminant = some g → g.node.acceptsKey b.key = true := by
  refine (h.chosen? discriminant entries).imp_right ?_
  rintro ⟨⟨key, m⟩, b, ha, hb, hnode⟩
  obtain ⟨gs, hgs, haccepts⟩ := hsound b (Alternative.mem_of_chosen? hb)
  rw [Definitions.resolveMap?_nil] at hgs
  simp only [hgs] at hnode
  cases hnode with
  | @map fs _ hE => exact ⟨⟨key, .map fs⟩, b, fs, gs, ha, hb, rfl, hgs, hE, haccepts⟩

end Composites

/-- **What the new node reports of a value that matches the old node**, with as many levels or more. -/
theorem Node.Evolves.findings_of_old {before after : Nat} (hlevels : before ≤ after) {m n : Node}
    {v : Value} {h : Grading} (hE : m.Evolves n) (hn : n.SoundAlone) (hm : Matches [] before [] m v)
    (hh : grade [] after [] n v = some h) : ∀ f ∈ h.findings, f.IsAddition n before after := by
  induction before generalizing after m n v h with
  | zero => exact absurd hm not_matches_zero
  | succ l ih =>
    obtain ⟨k, rfl⟩ : ∃ k, after = k + 1 := ⟨after - 1, by omega⟩
    have hlevels : l ≤ k := Nat.le_of_succ_le_succ hlevels
    intro f hf
    have hleaf : n.compositeKind? = none → (∀ name, n ≠ .reference name) → m = n →
        f.IsAddition n (l + 1) (k + 1) := by
      rintro hkind hname rfl
      rw [(hm.leaf hkind hname).findings_eq_nil hh] at hf
      exact (List.not_mem_nil hf).elim
    cases hE
    case any => exact hleaf rfl (by simp) rfl
    case primitive => exact hleaf rfl (by simp) rfl
    case literal => exact hleaf rfl (by simp) rfl
    case array ms ns size hE =>
      obtain ⟨items, rfl, hall⟩ := grade_array_matched_iff.1 hm
      rcases grade_findings hh hf with hown | ⟨step?, names, p, w, g, f, hpart, hg, hf', rfl⟩
      · exact absurd hown (not_reports_array hE hall)
      · obtain ⟨rfl, hmem, ⟨i, rfl⟩, q, -, hqp, hq⟩ := descends_array hE hall hpart
        have hrec := ih hlevels hqp (hn.part (.element hmem)) hq hg f hf'
        exact hrec.under (Node.Part.subset (.element hmem)) _
    case map fs gs hE =>
      obtain ⟨entries, rfl, hmatches⟩ := grade_map_matched_iff.1 hm
      have hnd : (gs.map Field.name).Nodup := hn.self.1
      rcases grade_findings hh hf with hown | ⟨step?, names, p, w, g, f, hpart, hg, hf', rfl⟩
      · cases hown with
        | wrongKind hkind hne =>
          cases hkind
          exact absurd rfl hne
        | map hown => exact .inl (hE.reports_of_old hnd hmatches hown)
      · cases hpart with
        | map hpart =>
          rcases hE.descends_of_old hnd hmatches hpart with ⟨q, hqp, hq⟩ | ⟨e, -, -, -, hkept, -⟩
          · obtain ⟨hmem, -, -⟩ := hpart
            have hrec := ih hlevels hqp (hn.part (.field hmem)) hq hg f hf'
            exact hrec.under (Node.Part.subset (.field hmem)) _
          · cases hkept
    case dictionary q p hE =>
      obtain ⟨entries, rfl, hall⟩ := grade_dictionary_matched_iff.1 hm
      rcases grade_findings hh hf with hown | ⟨step?, names, p, w, g, f, hpart, hg, hf', rfl⟩
      · exact absurd hown not_reports_dictionary
      · cases hpart with
        | entry he =>
          have hrec := ih hlevels hE (hn.part .entry) (hall _ he) hg f hf'
          exact hrec.under (Node.Part.subset .entry) _
    case selector discriminant xs ys hE =>
      obtain ⟨entries, c, rfl, hc, -⟩ := grade_selector_matched hm
      rcases hE.maps hn.self.1 entries with ⟨hnone, -⟩ | ⟨a, b, fs, gs, ha, hb, hfs, hgs, hE, haccepts⟩
      · rw [hnone] at hc
        cases hc
      rw [ha] at hc
      cases hc
      have hmap := hn.part (.alternative (Alternative.mem_of_chosen? hb))
      have hsub := Node.Part.subset (.alternative (Alternative.mem_of_chosen? hb) :
        b.node.Part (.selector discriminant ys))
      rw [hgs] at hmap hsub
      have hnd : (gs.map Field.name).Nodup := hmap.self.1
      have hmatches := mapMatches_of_chosen hm ha (Definitions.resolveMap?_nil.2 hfs)
      rcases grade_findings hh hf with hown | ⟨step?, names, p, w, g, f, hpart, hg, hf', rfl⟩
      · exact .inl (hE.reports_of_old hnd hmatches (reports_selector hb hgs hown))
      obtain ⟨rfl, step, rfl, hpart'⟩ := descends_selector hb hgs hpart
      rcases hE.descends_of_old hnd hmatches hpart' with
        ⟨q, hqp, hq⟩ | ⟨e, he, rfl, rfl, hkept, hget⟩
      · obtain ⟨hmem, -, -⟩ := hpart'
        have hrec := ih hlevels hqp (hmap.part (.field hmem)) hq hg f hf'
        exact hrec.under (fun m hm => hsub m (Node.Part.subset (.field hmem) m hm)) _
      -- The discriminant is declared now, so it takes a level of its own.
      obtain rfl := Option.some.inj hkept
      obtain ⟨key, hkey, hdiscriminant, hfind⟩ := Alternative.chosen?_eq_some.1 hb
      obtain rfl := Option.some.inj (hget.symm.trans hkey)
      have hequal : b.key.equal w = true := by simpa using List.find?_some hfind
      have haccepts := haccepts e (Field.find?_of_mem hnd he)
      obtain ⟨rfl, rfl⟩ := exhausted_of_acceptsKey hdiscriminant haccepts hequal hg hf'
      exact .inr ⟨by omega, rfl, rfl, e.name, ys, Node.mem_subnodes_self _, rfl⟩

/-- **What the old node reports of a value that matches the new node**, with as many levels: nothing but keys
that it does not declare. -/
theorem Node.Evolves.findings_of_new {levels : Nat} {m n : Node} {v : Value} {g : Grading}
    (hE : m.Evolves n) (hn : n.SoundAlone) (hm : Matches [] levels [] n v)
    (hg : grade [] levels [] m v = some g) : ∀ f ∈ g.findings, f.reason = .undeclaredKey := by
  induction levels generalizing m n v g with
  | zero => exact absurd hm not_matches_zero
  | succ l ih =>
    intro f hf
    have hleaf : n.compositeKind? = none → m = n → f.reason = .undeclaredKey := by
      rintro - rfl
      rw [hm.findings_eq_nil hg] at hf
      exact (List.not_mem_nil hf).elim
    have hfill : ∀ gs, (Node.map gs).SoundAlone → ∀ f, ∀ g ∈ gs, f.Carried Node.Evolves g →
        (Inside.below [] l []).fillField g = some .undefined →
        (Inside.below [] l []).fillField f = some .undefined := fun gs hgs f g hg hcarried =>
      hcarried.fillField_of_new (hgs.part (.field hg)) (hgs.self.2 g hg)
    cases hE
    case any => exact hleaf rfl rfl
    case primitive => exact hleaf rfl rfl
    case literal => exact hleaf rfl rfl
    case array ms ns size hE =>
      obtain ⟨items, rfl, hall⟩ := grade_array_matched_iff.1 hm
      rcases grade_findings hg hf with hown | ⟨step?, names, p, w, g', f, hpart, hg', hf', rfl⟩
      · exact absurd hown (not_reports_array (List.Forall₂.flip hE) hall)
      · obtain ⟨rfl, -, ⟨i, rfl⟩, q, hmem, hpq, hq⟩ :=
          descends_array (List.Forall₂.flip hE) hall hpart
        exact ih hpq (hn.part (.element hmem)) hq hg' f hf'
    case map fs gs hE =>
      obtain ⟨entries, rfl, hmatches⟩ := grade_map_matched_iff.1 hm
      rcases grade_findings hg hf with hown | ⟨step?, names, p, w, g', f, hpart, hg', hf', rfl⟩
      · cases hown with
        | wrongKind hkind hne =>
          cases hkind
          exact absurd rfl hne
        | map hown => exact hE.reports_of_new (hfill gs hn) hmatches hown
      · cases hpart with
        | map hpart =>
          obtain ⟨e, he, hpq, hq⟩ := hE.descends_of_new hmatches hpart
          exact ih hpq (hn.part (.field he)) hq hg' f hf'
    case dictionary q p hE =>
      obtain ⟨entries, rfl, hall⟩ := grade_dictionary_matched_iff.1 hm
      rcases grade_findings hg hf with hown | ⟨step?, names, p, w, g', f, hpart, hg', hf', rfl⟩
      · exact absurd hown not_reports_dictionary
      · cases hpart with
        | entry he => exact ih hE (hn.part .entry) (hall _ he) hg' f hf'
    case selector discriminant xs ys hE =>
      obtain ⟨entries, c, rfl, hc, -⟩ := grade_selector_matched hm
      rcases hE.maps hn.self.1 entries with ⟨-, hnone⟩ | ⟨a, b, fs, gs, ha, hb, hfs, hgs, hE, -⟩
      · rw [hnone] at hc
        cases hc
      rw [hb] at hc
      cases hc
      have hmap := hn.part (.alternative (Alternative.mem_of_chosen? hb))
      rw [hgs] at hmap
      have hmatches := mapMatches_of_chosen hm hb (Definitions.resolveMap?_nil.2 hgs)
      rcases grade_findings hg hf with hown | ⟨step?, names, p, w, g', f, hpart, hg', hf', rfl⟩
      · exact hE.reports_of_new (hfill gs hmap) hmatches (reports_selector ha hfs hown)
      · obtain ⟨rfl, step, rfl, hpart'⟩ := descends_selector ha hfs hpart
        obtain ⟨e, he, hpq, hq⟩ := hE.descends_of_new hmatches hpart'
        exact ih hpq (hmap.part (.field he)) hq hg' f hf'

/-! ## Accepted schemas -/

theorem Node.Sound.startsInline {node : Node} (h : node.Sound []) : node.StartsInline := by
  cases node <;> try trivial
  case selector discriminant alternatives =>
    cases alternatives with
    | nil => trivial
    | cons a rest =>
      obtain ⟨fields, hfields, -⟩ := h a List.mem_cons_self
      intro name hname
      rw [Definitions.resolveMap?_nil, hname] at hfields
      cases hfields

/-- A comparison by sound nodes without definitions gives a result. -/
theorem Node.SoundAlone.exists_compare {node : Node} (h : node.SoundAlone) (maxDepth : Nat) (v : Value) :
    ∃ g, compare [] maxDepth node v = some g :=
  Option.ne_none_iff_exists'.1 (compare_ne_none (h.mono fun _ hm => hm.1.startsInline))

theorem Schema.soundAlone {text : String} {depth : Nat} {s : Schema}
    (h : Schema.ofText text depth = .ok s) : s.node.SoundAlone := by
  have hsound := (Accepted.of_schema h).sound
  have hwell := (Schema.wellFormed_of_text h).node.wellFormed
  refine ⟨fun m hm => ⟨hsound.inTree m hm, (hwell m hm).literalDefaults⟩, fun name n hn => ?_⟩
  exact (List.not_mem_nil hn).elim

/-- Where all findings are of one grade, the value has this grade or it is matched. -/
theorem Grading.Balanced.outcome_of_forall {g : Grading} (h : g.Balanced) {p : Outcome}
    (hp : ∀ f ∈ g.findings, f.outcome = p) : g.outcome = .matched ∨ g.outcome = p := by
  by_cases hnil : g.findings = []
  · exact .inl (h.outcome_eq_matched.2 hnil)
  · refine .inr (Eq.trans h (Outcome.joinAll_of_forall_eq (by simpa using hnil) ?_))
    simpa using hp

/-- **Schemas evolve safely.** Let a schema evolve into another by new fields that may be absent. A value that
matches the old schema has at most defaults filled in by the new one where more levels are looked at, and also
with as many levels, except that none may be left for the discriminant of a selector: the old schema keeps it
without a look where the chosen map does not declare it. A value that matches the new schema has at most data
dropped by the old one. -/
theorem Schema.compare_evolved {oldText newText : String} {oldDepth newDepth : Nat} {old new : Schema}
    (hold : Schema.ofText oldText oldDepth = .ok old) (hnew : Schema.ofText newText newDepth = .ok new)
    (hE : old.node.Evolves new.node) (maxDepth : Nat) (v : Value) :
    (∀ levels g, maxDepth ≤ levels → Conformance.compare [] maxDepth old.node v = some g →
      g.outcome = .matched → ∃ h, Conformance.compare [] levels new.node v = some h ∧
        ((h.outcome = .matched ∨ h.outcome = .defaulted) ∨
          levels = maxDepth ∧ h.outcome = .incompatible ∧ ∀ f ∈ h.findings,
            f.reason = .missingOptional ∨ f.IsExhausted new.node levels)) ∧
    ∀ h, Conformance.compare [] maxDepth new.node v = some h → h.outcome = .matched →
      ∃ g, Conformance.compare [] maxDepth old.node v = some g ∧
        (g.outcome = .matched ∨ g.outcome = .additional) := by
  have hn : new.node.SoundAlone := soundAlone hnew
  constructor
  · intro levels g hlevels hg hm
    obtain ⟨h, hh⟩ := hn.exists_compare levels v
    have hfindings := hE.findings_of_old hlevels hn ⟨g, hg, hm⟩ hh
    refine ⟨h, hh, ?_⟩
    by_cases hfilled : ∀ f ∈ h.findings, f.reason = .missingOptional
    · refine .inl ((grade_balanced hh).outcome_of_forall fun f hf => ?_)
      rw [Finding.outcome, hfilled f hf]
      rfl
    · simp only [not_forall] at hfilled
      obtain ⟨f, hf, hreason⟩ := hfilled
      obtain ⟨hsame, hexhausted⟩ := (hfindings f hf).resolve_left hreason
      refine .inr ⟨hsame, ?_, fun e he => (hfindings e he).imp_right And.right⟩
      refine (grade_balanced hh).outcome_eq_incompatible.2 ⟨f, hf, ?_⟩
      rw [Finding.outcome, hexhausted.reason]
      rfl
  · intro h hh hm
    obtain ⟨g, hg⟩ := (soundAlone hold).exists_compare maxDepth v
    refine ⟨g, hg, (grade_balanced hg).outcome_of_forall fun f hf => ?_⟩
    rw [Finding.outcome, hE.findings_of_new hn ⟨h, hh, hm⟩ hg f hf]
    rfl

/-- A field with a default is added to the map that a selector chooses. -/
theorem Schema.compare_evolved_selector :
    let old : Schema := { node := .selector "k" [⟨.integer 7, .map [⟨"x", .primitive .integer, false, none⟩]⟩] }
    let new : Schema := { node := .selector "k" [⟨.integer 7, .map [⟨"x", .primitive .integer, false, none⟩,
      ⟨"y", .primitive .integer, false, some (.integer 2)⟩]⟩] }
    let v : Value := .map [("k", .integer 7), ("x", .integer 1)]
    Schema.ofText "select k \x7b 7: \x7b x: int \x7d \x7d" = .ok old ∧
    Schema.ofText "select k \x7b 7: \x7b x: int, y: int = 2 \x7d \x7d" = .ok new ∧
    old.node.Evolves new.node ∧
    (∃ g, Conformance.compare [] 2 old.node v = some g ∧ g.outcome = .matched) ∧
    ∃ h, Conformance.compare [] 3 new.node v = some h ∧
      (h.outcome = .matched ∨ h.outcome = .defaulted) := by
  intro old new v
  have hold : Schema.ofText "select k \x7b 7: \x7b x: int \x7d \x7d" = .ok old := rfl
  have hnew : Schema.ofText "select k \x7b 7: \x7b x: int, y: int = 2 \x7d \x7d" = .ok new := rfl
  have hE : old.node.Evolves new.node :=
    .selector (.cons (.map (.kept (.primitive .integer) (.added rfl .nil))) .nil)
  obtain ⟨g, hg, hm⟩ : ∃ g, Conformance.compare [] 2 old.node v = some g ∧ g.outcome = .matched :=
    ⟨_, rfl, by decide +kernel⟩
  refine ⟨hold, hnew, hE, ⟨g, hg, hm⟩, ?_⟩
  obtain ⟨h, hh, houtcome⟩ := (compare_evolved hold hnew hE 2 v).1 3 g (by decide) hg hm
  exact ⟨h, hh, houtcome.resolve_right fun hsame => absurd hsame.1 (by decide)⟩

/-- With one level, the old schema keeps the discriminant without a look and takes an undefined value for the
default, while the new one declares the discriminant and has no level left for it. -/
theorem Schema.compare_evolved_same_depth :
    let old : Schema := { node := .selector "k" [⟨.integer 7, .map [⟨"x", .any, true, none⟩]⟩] }
    let new : Schema := { node := .selector "k" [⟨.integer 7, .map [⟨"x", .any, true, none⟩,
      ⟨"k", .primitive .integer, true, none⟩]⟩] }
    let v : Value := .map [("k", .integer 7), ("x", .undefined)]
    Schema.ofText "select k \x7b 7: \x7b x?: undef \x7d \x7d" = .ok old ∧
    Schema.ofText "select k \x7b 7: \x7b x?: undef, k?: int \x7d \x7d" = .ok new ∧
    old.node.Evolves new.node ∧
    (∃ g, Conformance.compare [] 1 old.node v = some g ∧ g.outcome = .matched) ∧
    ∃ h, Conformance.compare [] 1 new.node v = some h ∧ h.outcome = .incompatible := by
  intro old new v
  have hE : old.node.Evolves new.node :=
    .selector (.cons (.map (.kept .any (.added rfl .nil))) .nil)
  exact ⟨rfl, rfl, hE, ⟨_, rfl, by decide +kernel⟩, _, rfl, by decide +kernel⟩

end Conformance
