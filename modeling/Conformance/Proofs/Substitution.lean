import Conformance.Proofs.Completion
import Conformance.Proofs.Congruence
import Conformance.Proofs.FirstBest
import Conformance.Proofs.Subjects

/-!
# Declared defaults are what is put in

A declared default is converted with the levels that are left at its field, and the default of the node is taken
where the conversion fails. A default has no parts, so it takes no levels but for the names that it is graded by:
with more levels than such names follow one another it is converted as it is without a limit.

* `Definitions.NamesWithin` — how many names follow one another before a node that is not a name.
* `grade_settled` — more levels than that make no difference to a value without parts.
* `Fills` — a field is filled in while a value is graded.
* `fills_of_missingOptional` — each finding about a missing key is about such a field.
* `Fills.reach?` — what stands there in the converted value.
* `Fills.length_lt` — a limit with which enough levels are left there.
* `compare_substitutes` — it is the declared default, converted, where the levels reach past the names.
-/

set_option autoImplicit false

namespace Conformance

open Relation (TransGen)

/-! ## Chains of names -/

namespace Definitions

/-- Names follow one another from the node on, each one of the nodes of the name before, and there are at most so
many of them. -/
def NamesWithin (definitions : Definitions) : Nat → Node → Prop
  | 0, .reference _ => False
  | chain + 1, .reference name => ∀ n ∈ definitions.nodes name, NamesWithin definitions chain n
  | _, _ => True

variable {definitions : Definitions} {depth chain : Nat} {passed : List String} {node : Node}

/-- Only names that have not been passed can follow. The induction is on how many of them there are at most. -/
theorem Leads.namesWithin (hacyclic : definitions.Acyclic)
    (hq : definitions.Everywhere (Node.WellFormed definitions depth) node) (hleads : definitions.Leads passed node)
    (hchain : definitions.unexpanded passed ≤ chain) : definitions.NamesWithin chain node := by
  induction chain generalizing passed node with
  | zero =>
    cases node with
    | reference name =>
      obtain ⟨n, hn⟩ := List.exists_mem_of_ne_nil _ hq.self
      have hlt := hleads.unexpanded_lt hacyclic hn
      omega
    | _ => trivial
  | succ chain ih =>
    cases node with
    | reference name =>
      intro n hn
      have hlt := hleads.unexpanded_lt hacyclic hn
      exact ih (hq.definition hn) (hleads.cons hn) (by omega)
    | _ => trivial

/-- No more names follow one another than there are. -/
theorem Acyclic.namesWithin (hacyclic : definitions.Acyclic)
    (hq : definitions.Everywhere (Node.WellFormed definitions depth) node) :
    definitions.NamesWithin definitions.length node :=
  leads_nil.namesWithin hacyclic hq (definitions.unexpanded_le [])

end Definitions

/-! ## Values without parts -/

section Scalars

variable {definitions : Definitions} {depth chain levels more : Nat} {node : Node} {v : Value}

theorem gradeReference_congr {grade grade' : Node → Option Grading} {name : String}
    (h : ∀ n ∈ definitions.nodes name, grade n = grade' n) (v : Value) :
    gradeReference definitions grade name v = gradeReference definitions grade' name v := by
  have hsame : List.Forall₂ (fun m n => m = n ∧ m ∈ definitions.nodes name) (definitions.nodes name)
      (definitions.nodes name) := List.forall₂_same.2 fun n hn => ⟨rfl, hn⟩
  rw [← rel_grading_eq_iff]
  refine gradeReference_agrees Finding.congruence_eq ?_ hsame v
  rintro m _ ⟨rfl, hm⟩
  rw [rel_grading_eq_iff]
  exact h m hm

/-- A node that is not a name takes one level to grade it. -/
theorem grade_inline (hv : v.kind.isScalar = true) (hnode : ∀ name, node ≠ .reference name)
    (names names' : List String) :
    grade definitions (levels + 1) names node v = grade definitions (more + 1) names' node v := by
  cases node with
  | reference name => exact absurd rfl (hnode name)
  | array => rw [grade_array, grade_array, gradeArray_scalar hv, gradeArray_scalar hv]
  | map => rw [grade_map, grade_map, gradeMap_scalar hv, gradeMap_scalar hv]
  | dictionary => rw [grade_dictionary, grade_dictionary, gradeDictionary_scalar hv, gradeDictionary_scalar hv]
  | selector => rw [grade_selector, grade_selector, gradeSelector_scalar hv, gradeSelector_scalar hv]
  | _ => rfl

/-- **A value without parts is graded alike wherever the levels reach past the names**, below whichever names. -/
theorem grade_settled (hv : v.kind.isScalar = true) (hchain : definitions.NamesWithin chain node)
    (hlevels : chain < levels) (hmore : chain < more) (names names' : List String) :
    grade definitions levels names node v = grade definitions more names' node v := by
  induction levels generalizing chain more node names names' with
  | zero => exact absurd hlevels (Nat.not_lt_zero chain)
  | succ levels ih =>
    obtain ⟨more, rfl⟩ := Nat.exists_eq_add_one_of_ne_zero (Nat.ne_zero_of_lt hmore)
    cases node with
    | reference name =>
      cases chain with
      | zero => exact hchain.elim
      | succ chain =>
        rw [grade_reference, grade_reference]
        refine gradeReference_congr (fun n hn => ?_) v
        exact ih (hchain n hn) (Nat.lt_of_succ_lt_succ hlevels) (Nat.lt_of_succ_lt_succ hmore) _ _
    | _ => exact grade_inline hv (fun _ => Node.noConfusion) names names'

/-- What a default is converted to without a limit: the same with all levels that reach past the names, if it can
be converted with any number of levels. -/
theorem exists_settled (hacyclic : definitions.Acyclic)
    (hq : definitions.Everywhere (Node.WellFormed definitions depth) node) (hv : v.kind.isScalar = true)
    (hfits : DefaultFits definitions depth node v) : ∃ h, h.outcome ≠ .incompatible ∧
      ∀ chain, definitions.NamesWithin chain node → ∀ levels names, chain < levels →
        grade definitions levels names node v = some h := by
  have hall := hacyclic.namesWithin hq
  obtain ⟨h, hh⟩ := Option.ne_none_iff_exists'.1 (grade_scalar hv (definitions.length + 1) [] node)
  have hsettled : ∀ chain, definitions.NamesWithin chain node → ∀ levels names, chain < levels →
      grade definitions levels names node v = some h := by
    intro chain hchain levels names hlevels
    -- Both are the grading with levels enough for either bound.
    have hmore : chain < chain + definitions.length + 1 := by omega
    have hmore' : definitions.length < chain + definitions.length + 1 := by omega
    rw [grade_settled hv hchain hlevels hmore names [],
      grade_settled hv hall hmore' (Nat.lt_succ_self definitions.length) [] [], hh]
  obtain ⟨g, hg, hvalid⟩ := hfits
  have hdeep := hsettled definitions.length hall (depth + definitions.length + 1) [] (by omega)
  exact ⟨h, grade_staysValid (by omega) hg hdeep hvalid, hsettled⟩

end Scalars

/-! ## Fields that are filled in -/

section Filling

/-- While the value is graded, a field of a map in it is filled in: at these steps, with so many levels left for
its default, and below these names. Of the nodes that a name stands for, it is the first of the best that counts. -/
inductive Fills (definitions : Definitions) :
    Nat → List String → Node → Value → List Step → Nat → List String → Field Node → Prop where
  | absent {levels : Nat} {names : List String} {node : Node} {fields : List (Field Node)}
    {f : Field Node} {entries : Entries Value} : Applies definitions entries node fields → f ∈ fields →
    f.mayBeAbsent = true → (∀ v, Entries.get? entries f.name = some v → v.isUndefined = true) →
    Fills definitions (levels + 1) names node (.map entries) [.key f.name] levels names f
  | present {levels left : Nat} {names below : List String} {node : Node} {fields : List (Field Node)}
    {e f : Field Node} {entries : Entries Value} {v : Value} {path : List Step} :
    Applies definitions entries node fields → e ∈ fields → Entries.get? entries e.name = some v →
    (v.isUndefined && e.mayBeAbsent) = false → Fills definitions levels names e.node v path left below f →
    Fills definitions (levels + 1) names node (.map entries) (.key e.name :: path) left below f
  | item {levels left i : Nat} {names below : List String} {elements : List Node} {size : ArraySize}
    {items : List Value} {n : Node} {f : Field Node} {v : Value} {path : List Step} :
    (size.unroll elements items.length)[i]? = some n → items[i]? = some v →
    Fills definitions levels names n v path left below f →
    Fills definitions (levels + 1) names (.array elements size) (.array items) (.index i :: path) left below f
  | entry {levels left : Nat} {names below : List String} {n : Node} {f : Field Node}
    {entries : Entries Value} {e : String × Value} {path : List Step} : e ∈ entries →
    Fills definitions levels names n e.2 path left below f →
    Fills definitions (levels + 1) names (.dictionary n) (.map entries) (.key e.1 :: path) left below f
  | variant {levels left : Nat} {names below : List String} {name : String} {before after : List Node}
    {n : Node} {f : Field Node} {v : Value} {g : Grading} {path : List Step} :
    definitions.nodes name = before ++ n :: after →
    FirstBest (fun m => grade definitions levels (name :: names) m v) before n after g →
    Fills definitions levels (name :: names) n v path left below f →
    Fills definitions (levels + 1) names (.reference name) v path left below f

variable {definitions : Definitions} {depth levels left : Nat} {names below : List String} {node : Node}
  {v : Value} {f : Field Node} {path : List Step}

theorem MapReports.fills {inside : Inside} {fields : List (Field Node)} {kept : Option String}
    {entries : Entries Value} (h : MapReports inside fields kept entries ⟨path, .missingOptional⟩)
    (happlies : Applies definitions entries node fields) :
    ∃ f, Fills definitions (levels + 1) names node (.map entries) path levels names f := by
  cases h with
  | filled hf hget habsent =>
    refine ⟨_, .absent happlies hf habsent fun v hv => ?_⟩
    rw [hget] at hv
    cases hv
  | replaced hf hget habsent =>
    refine ⟨_, .absent happlies hf habsent fun v hv => ?_⟩
    rw [hget] at hv
    cases hv
    rfl

/-- What a node reports by itself to be missing and filled in is a field of the map at hand. -/
theorem Node.Reports.fills (h : node.Reports definitions levels names v ⟨path, .missingOptional⟩) :
    ∃ f, Fills definitions (levels + 1) names node v path levels names f := by
  cases h with
  | map h => exact h.fills (.map _)
  | alternative ha hfields h => exact h.fills (.alternative ha hfields)

/-- What is filled in inside a part is filled in inside the whole. -/
theorem Descends.fills {step : Step} {names' : List String} {n : Node} {w : Value}
    (hd : Descends definitions levels names node v (some step) names' n w)
    (hfills : Fills definitions levels names' n w path left below f) :
    Fills definitions (levels + 1) names node v (step :: path) left below f := by
  cases hd with
  | item hn hw => exact .item hn hw hfills
  | map hpart =>
    obtain ⟨he, hget, hpresent⟩ := hpart
    exact .present (.map _) he hget hpresent hfills
  | entry he => exact .entry he hfills
  | alternative ha hfields hpart =>
    obtain ⟨he, hget, hpresent⟩ := hpart
    exact .present (.alternative ha hfields) he hget hpresent hfills

/-- **Each finding about a missing key is about a field that is filled in.** -/
theorem fills_of_missingOptional
    (hq : definitions.Everywhere (Node.WellFormed definitions depth) node) {g : Grading}
    (h : grade definitions levels names node v = some g) (hf : ⟨path, .missingOptional⟩ ∈ g.findings) :
    ∃ left below f, Fills definitions levels names node v path left below f := by
  induction levels generalizing names node v g path with
  | zero =>
    cases h
    cases List.mem_singleton.1 hf
  | succ levels ih =>
    by_cases hname : ∃ name, node = .reference name
    · obtain ⟨name, rfl⟩ := hname
      rw [grade_reference] at h
      obtain ⟨before, n, after, hnodes, hfirst⟩ := (gradeReference_iff hq.self).1 h
      have hn : n ∈ definitions.nodes name := hnodes ▸ List.mem_append_cons_self
      obtain ⟨left, below, f, hfills⟩ := ih (hq.definition hn) hfirst.graded hf
      exact ⟨left, below, f, .variant hnodes hfirst hfills⟩
    rcases grade_findings h hf with hown | ⟨step?, names', n, w, g', f', hd, hg', hf', heq⟩
    · obtain ⟨f, hfills⟩ := hown.fills
      exact ⟨levels, names, f, hfills⟩
    cases step? with
    | some step =>
      obtain ⟨path', reason⟩ := f'
      cases heq
      obtain ⟨left, below, f, hfills⟩ := ih (hd.asks.everywhere hq) hg' hf'
      exact ⟨left, below, f, hd.fills hfills⟩
    | none =>
      cases hd with
      | other ha hnone =>
        -- Each alternative of a sound selector leads to a map.
        obtain ⟨fields, hfields, -⟩ := hq.self.sound _ (Alternative.mem_of_chosen? ha)
        rw [hfields] at hnone
        cases hnone
      | variant => exact absurd ⟨_, rfl⟩ hname

/-! ## What stands there in the converted value -/

theorem Applies.everywhere {fields : List (Field Node)} {entries : Entries Value} {P : Node → Prop}
    (happlies : Applies definitions entries node fields) (hq : definitions.Everywhere P node) :
    definitions.Everywhere P (.map fields) := by
  cases happlies with
  | map => exact hq
  | alternative ha hfields => exact (hq.part (.alternative (Alternative.mem_of_chosen? ha))).resolved hfields

/-- Where a map is graded by these fields, what is left of it is what it is converted to. -/
theorem Applies.remainder {fields : List (Field Node)} {entries : Entries Value} {g : Grading}
    (happlies : Applies definitions entries node fields)
    (hq : definitions.Everywhere (Node.WellFormed definitions depth) node)
    (h : grade definitions (levels + 1) names node (.map entries) = some g) (hvalid : g.outcome ≠ .incompatible) :
    ∃ kept p, gradeFields (.below definitions levels names) entries fields = some p ∧
      p.outcome ≠ .incompatible ∧ g.value = .map (remainder fields kept entries p) := by
  have hmap : ∃ kept, gradeMap (.below definitions levels names) fields kept (.map entries) = some g := by
    cases happlies with
    | map => exact ⟨none, h⟩
    | @alternative discriminant _ _ _ ha hfields =>
      rw [grade_selector] at h
      rcases gradeSelector_sound hq.self.sound h with ⟨hi, -⟩ | ⟨_, a', fields', heq, ha', hfields', hmap⟩
      · exact absurd hi hvalid
      cases heq
      obtain rfl := Option.some.inj (ha.symm.trans ha')
      obtain rfl := Option.some.inj (hfields.symm.trans hfields')
      exact ⟨some discriminant, hmap⟩
  obtain ⟨kept, hmap⟩ := hmap
  obtain ⟨_, p, heq, hp, hp', hvalue⟩ := gradeMap_remainder hmap hvalid
  cases heq
  exact ⟨kept, p, hp, hp', hvalue⟩

/-- The item at an index for which there is an element node stands there in the converted array, converted. -/
theorem gradeArray_part {inside : Inside} {elements : List Node} {size : ArraySize} {items : List Value}
    {g : Grading} {i : Nat} {n : Node} (hg : gradeArray inside elements size (.array items) = some g)
    (hvalid : g.outcome ≠ .incompatible) (hn : (size.unroll elements items.length)[i]? = some n)
    (hv : items[i]? = some v) : ∃ r, inside.grade n v = some r ∧ r.outcome ≠ .incompatible ∧
      g.value.part? (.index i) = some r.value := by
  have hne : elements ≠ [] := List.ne_nil_of_mem (ArraySize.mem_unroll (List.mem_of_getElem? hn))
  have hempty : ¬ elements.isEmpty = true := by simpa using hne
  rw [gradeArray, if_neg hempty] at hg
  obtain ⟨p, hp, rfl⟩ := Option.map_eq_some_iff.1 hg
  obtain ⟨hlen, hpieces⟩ := gradeItems_pieces hp hvalid
  have hi : i < p.pieces.length := hlen ▸ (List.getElem?_eq_some_iff.1 hn).1
  have hpiece := List.getElem?_eq_getElem hi
  have hvalue : (p.close .array (.array items)).value = .array p.pieces := if_neg hvalid
  rcases hpieces i n _ hn hpiece with ⟨u, r, hu, hr, hr', hsame⟩ | ⟨hnone, -⟩
  · cases hv.symm.trans hu
    refine ⟨r, hr, hr', ?_⟩
    rw [hvalue, ← hsame]
    exact hpiece
  · rw [hnone] at hv
    cases hv

/-- The value at a key of a dictionary stands there in the converted one, converted. -/
theorem gradeDictionary_part {inside : Inside} {entry : Node} {entries : Entries Value} {g : Grading}
    (hv : (Value.map entries).Tidy) (hg : gradeDictionary inside entry (.map entries) = some g)
    (hvalid : g.outcome ≠ .incompatible) {e : String × Value} (he : e ∈ entries) :
    ∃ r, inside.grade entry e.2 = some r ∧ r.outcome ≠ .incompatible ∧
      g.value.part? (.key e.1) = some r.value := by
  obtain ⟨_, pieces, heq, hvalue, hsorted, hpieces⟩ := gradeDictionary_converted hv hg hvalid
  cases heq
  obtain ⟨piece, hpiece, hkey, r, hr, hr', hsame⟩ := forall₂_of_mem hpieces.flip he
  refine ⟨r, hr, hr', ?_⟩
  rw [hvalue, ← hkey, ← hsame]
  exact Entries.get?_of_mem hsorted.nodup_keys hpiece

/-- **A field that is filled in holds its default in the converted value**, at the steps at which it was missing. -/
theorem Fills.reach? (hfills : Fills definitions levels names node v path left below f)
    (hq : definitions.Everywhere (Node.WellFormed definitions depth) node) (hv : v.Tidy) {g : Grading}
    (hg : grade definitions levels names node v = some g) (hvalid : g.outcome ≠ .incompatible) :
    ∃ w, g.value.reach? path = some w ∧ (Inside.below definitions left below).fillField f = some w := by
  have hb : ∀ {levels names}, (Inside.below definitions levels names).Balanced := fun _ _ _ => grade_balanced
  induction hfills generalizing g with
  | absent happlies hf habsent hundefined =>
    obtain ⟨kept, p, hp, hp', hvalue⟩ := happlies.remainder hq hg hvalid
    have hq := happlies.everywhere hq
    obtain ⟨w, hw, ⟨u, r, hget, hpresent, -⟩ | ⟨-, -, hfill⟩⟩ :=
      get?_remainder hb hq.self.2.1 hv hp hp' kept hf
    · rw [hundefined u hget, habsent] at hpresent
      cases hpresent
    · rw [hvalue]
      exact ⟨w, Value.reach?_cons hw rfl, hfill⟩
  | present happlies he hget hpresent _ ih =>
    obtain ⟨kept, p, hp, hp', hvalue⟩ := happlies.remainder hq hg hvalid
    have hq := happlies.everywhere hq
    obtain ⟨w, hw, ⟨u, r, hget', -, hr, hr', rfl⟩ | ⟨habsent, hundefined, -⟩⟩ :=
      get?_remainder hb hq.self.2.1 hv hp hp' kept he
    · cases hget.symm.trans hget'
      have hu := Value.tidyEntries_iff.1 hv.2 _ (Entries.mem_of_get? hget)
      obtain ⟨d, hd, hfill⟩ := ih (hq.part (.field he)) hu hr hr'
      rw [hvalue]
      exact ⟨d, Value.reach?_cons hw hd, hfill⟩
    · rw [hundefined _ hget, habsent] at hpresent
      cases hpresent
  | item hn hw _ ih =>
    obtain ⟨r, hr, hr', hpart⟩ := gradeArray_part hg hvalid hn hw
    have hnode := hq.part (.element (ArraySize.mem_unroll (List.mem_of_getElem? hn)))
    have hw := Value.tidyItems_iff.1 hv _ (List.mem_of_getElem? hw)
    obtain ⟨d, hd, hfill⟩ := ih hnode hw hr hr'
    exact ⟨d, Value.reach?_cons hpart hd, hfill⟩
  | entry he _ ih =>
    obtain ⟨r, hr, hr', hpart⟩ := gradeDictionary_part hv hg hvalid he
    obtain ⟨d, hd, hfill⟩ := ih (hq.part .entry) (Value.tidyEntries_iff.1 hv.2 _ he) hr hr'
    exact ⟨d, Value.reach?_cons hpart hd, hfill⟩
  | variant hnodes hfirst _ ih =>
    rw [grade_reference] at hg
    rw [(gradeReference_iff hq.self).2 ⟨_, _, _, hnodes, hfirst⟩] at hg
    cases hg
    exact ih (hq.definition (hnodes ▸ List.mem_append_cons_self)) hv hfirst.graded hvalid

/-- The field is declared by a map in the node or in a definition. -/
theorem Fills.declared {P : Node → Prop} (hfills : Fills definitions levels names node v path left below f)
    (hq : definitions.Everywhere P node) : ∃ fields, definitions.Everywhere P (.map fields) ∧ f ∈ fields := by
  induction hfills with
  | absent happlies hf => exact ⟨_, happlies.everywhere hq, hf⟩
  | present happlies he _ _ _ ih => exact ih ((happlies.everywhere hq).part (.field he))
  | item hn _ _ ih => exact ih (hq.part (.element (ArraySize.mem_unroll (List.mem_of_getElem? hn))))
  | entry _ _ ih => exact ih (hq.part .entry)
  | variant hnodes _ _ ih =>
    exact ih (hq.definition (hnodes ▸ List.mem_append_cons_self))

/-- Each step to the field takes one level, and one for each name that is passed before it, which no name is twice. -/
theorem Fills.levels_le (hfills : Fills definitions levels names node v path left below f)
    (hacyclic : definitions.Acyclic) {passed : List String} (hleads : definitions.Leads passed node) :
    levels + definitions.length ≤
      left + path.length * (definitions.length + 1) + definitions.unexpanded passed := by
  have hstep : ∀ {levels left length : Nat}, levels + definitions.length ≤
      left + length * (definitions.length + 1) + definitions.unexpanded [] →
        levels + 1 + definitions.length ≤ left + (length + 1) * (definitions.length + 1) := by
    intro levels left length h
    have hall := definitions.unexpanded_le []
    rw [Nat.succ_mul]
    omega
  induction hfills generalizing passed with
  | absent =>
    rw [List.length_singleton, Nat.one_mul]
    omega
  | present _ _ _ _ _ ih => exact Nat.le_add_right_of_le (hstep (ih Definitions.leads_nil))
  | item _ _ _ ih => exact Nat.le_add_right_of_le (hstep (ih Definitions.leads_nil))
  | entry _ _ ih => exact Nat.le_add_right_of_le (hstep (ih Definitions.leads_nil))
  | variant hnodes _ _ ih =>
    have hn := hnodes ▸ List.mem_append_cons_self
    have hlt := hleads.unexpanded_lt hacyclic hn
    have hrest := ih (hleads.cons hn)
    omega

/-- So many levels are left at a field that no more names can follow one another there. -/
theorem Fills.length_lt (hfills : Fills definitions levels names node v path left below f)
    (hacyclic : definitions.Acyclic) (hlevels : (path.length + 1) * (definitions.length + 1) ≤ levels) :
    definitions.length < left := by
  have hle := hfills.levels_le hacyclic Definitions.leads_nil
  have hall := definitions.unexpanded_le []
  rw [Nat.succ_mul] at hlevels
  omega

end Filling

/-! ## Nodes that have been read -/

/-- A call of the reader has returned the node, as a schema or as a body of a suite, with these definitions. Other
calls on the text may have come before it. -/
inductive Returned : Definitions → Node → Prop where
  | schema {text : String} {maxDepth : Nat} {s t : Parser.State} {schema : Schema} :
    Parser.Reachable text s → Parser.schema maxDepth s = .ok schema t → Returned [] schema.node
  | body {text : String} {maxDepth : Nat} {s t : Parser.State} {suite : Suite} {name : String}
    {direction : Direction} {node : Node} : Parser.Reachable text s →
    Parser.suite maxDepth s = .ok suite t → suite.body name direction = .ok node →
    Returned suite.definitions node

theorem Returned.wellFormed {definitions : Definitions} {node : Node} (h : Returned definitions node) :
    definitions.Acyclic ∧ ∃ depth, definitions.Everywhere (Node.WellFormed definitions depth) node := by
  cases h with
  | schema hs h =>
    have hwell := Parser.schema_wellFormed hs.proper h
    exact ⟨Definitions.acyclic_nil, _, hwell.node.wellFormed, fun _ _ hn => (List.not_mem_nil hn).elim⟩
  | body hs h hbody =>
    have hwell := Parser.suite_wellFormed hs.proper h
    exact ⟨hwell.acyclic, _, hwell.everywhere hbody⟩

theorem Value.IsLiteral.isScalar {v : Value} (h : v.IsLiteral) : v.kind.isScalar = true := by
  cases v <;> first | rfl | cases h

/-- **A declared default is what is put in.** Compare a value, with any limit, with what a call of the reader has
returned, and let the value not be refused. Each key that is reported to be missing, and to have been filled in, is
a field of a map in the value, where the converted value has the default of the field. A declared default converts
to one value with every limit above the number of names, and it is that value which is put in if the levels that
are left at the field are more than the names that follow one another there. They are if the limit is as high as the
number of steps to the field and one more, times one more than there are names. -/
theorem compare_substitutes {definitions : Definitions} {node : Node} (hread : Returned definitions node)
    {maxDepth : Nat} {v : Value} {g : Grading} (hv : v.Tidy)
    (h : compare definitions maxDepth node v = some g) (hvalid : g.outcome ≠ .incompatible) :
    (∀ path, ⟨path, .missingOptional⟩ ∈ g.findings → ∃ left below f,
      Fills definitions maxDepth [] node v path left below f) ∧
    ∀ path left below f, Fills definitions maxDepth [] node v path left below f →
      ∃ w, g.value.reach? path = some w ∧ (Inside.below definitions left below).fillField f = some w ∧
        ∀ literal, f.default? = some literal → ∃ r, r.outcome ≠ .incompatible ∧
          (∀ more, definitions.length < more → compare definitions more f.node literal = some r) ∧
          (∀ chain, definitions.NamesWithin chain f.node → chain < left → w = r.value) ∧
          ((path.length + 1) * (definitions.length + 1) ≤ maxDepth → w = r.value) := by
  obtain ⟨hacyclic, depth, hq⟩ := hread.wellFormed
  refine ⟨fun path hf => fills_of_missingOptional hq h hf, fun path left below f hfills => ?_⟩
  obtain ⟨w, hw, hfill⟩ := hfills.reach? hq hv h hvalid
  refine ⟨w, hw, hfill, fun literal hl => ?_⟩
  obtain ⟨fields, hfields, hf⟩ := hfills.declared hq
  have hnode := hfields.part (.field hf)
  obtain ⟨hliteral, hfits⟩ := hfields.self.2.2 f hf literal hl
  obtain ⟨r, hr, hsettled⟩ := exists_settled hacyclic hnode hliteral.isScalar hfits
  have hall := hacyclic.namesWithin hnode
  have hput : ∀ chain, definitions.NamesWithin chain f.node → chain < left → w = r.value := by
    intro chain hchain hleft
    -- The conversion with the levels that are left does not fail, so the default is not that of the node.
    have hconverted := hsettled chain hchain left [] hleft
    rcases fieldDefault_cases hfill with ⟨l, r', hl', hr', -, rfl⟩ | ⟨hback, -⟩
    · cases hl.symm.trans hl'
      cases hconverted.symm.trans hr'
      rfl
    · obtain ⟨r', hr', hinvalid⟩ := hback literal hl
      cases hconverted.symm.trans hr'
      simp [Outcome.isValid, hr] at hinvalid
  exact ⟨r, hr, fun more hmore => hsettled _ hall more [] hmore, hput,
    fun hlevels => hput _ hall (hfills.length_lt hacyclic hlevels)⟩

/-- Two names before a primitive, which the declared integer is converted to. Three levels are left at the field,
just enough for it. -/
theorem compare_substitutes_converted :
    let definitions : Definitions := [("a", [.reference "b"]), ("b", [.primitive .string])]
    let f : Field Node := ⟨"n", .reference "a", false, some (.integer 5)⟩
    Returned definitions (.map [f]) ∧ ∃ g r, compare definitions 4 (.map [f]) (.map []) = some g ∧
      g.outcome = .defaulted ∧ g.value = .map [("n", .string "5")] ∧
      ⟨[.key "n"], .missingOptional⟩ ∈ g.findings ∧
      Fills definitions 4 [] (.map [f]) (.map []) [.key "n"] 3 [] f ∧ definitions.NamesWithin 2 f.node ∧
      (∀ more, definitions.length < more → compare definitions more f.node (.integer 5) = some r) ∧
      g.value.reach? [.key "n"] = some r.value := by
  intro definitions f
  let s : Suite := { resources := [("r", ⟨"r", .put, .map [f], .any⟩)], definitions }
  have hsuite : Suite.ofText "%% r >> \x7b n: &a = 5 \x7d\n&a = &b\n&b = string" = .ok s := rfl
  have hbody : s.body "r" .request = .ok (.map [f]) := rfl
  have hread : Returned definitions (.map [f]) := by
    obtain ⟨start, rest, hstart, hrun⟩ := Parser.run_ok_iff.1 hsuite
    exact .body (.start hstart) hrun hbody
  have hv : (Value.map []).Tidy := ⟨List.Pairwise.nil, trivial⟩
  obtain ⟨g, hg, ho, hvalue, hfinding⟩ : ∃ g, compare definitions 4 (.map [f]) (.map []) = some g ∧
      g.outcome = .defaulted ∧ g.value = .map [("n", .string "5")] ∧
      ⟨[.key "n"], .missingOptional⟩ ∈ g.findings :=
    ⟨_, rfl, rfl, rfl, List.mem_singleton_self _⟩
  have hvalid : g.outcome ≠ .incompatible := by
    rw [ho]
    decide
  have hfills : Fills definitions 4 [] (.map [f]) (.map []) [.key "n"] 3 [] f :=
    .absent (.map [f]) List.mem_cons_self rfl nofun
  have hnames : definitions.NamesWithin 2 f.node := by
    intro n hn
    obtain rfl := List.mem_singleton.1 hn
    intro m hm
    obtain rfl := List.mem_singleton.1 hm
    trivial
  obtain ⟨-, hput⟩ := compare_substitutes hread hv hg hvalid
  obtain ⟨w, hw, -, hdeclared⟩ := hput [.key "n"] 3 [] f hfills
  obtain ⟨r, -, hunlimited, hsame, -⟩ := hdeclared (.integer 5) rfl
  obtain rfl := hsame 2 hnames (by decide)
  exact ⟨hread, g, r, hg, ho, hvalue, hfinding, hfills, hnames, hunlimited, hw⟩

/-- With one level, none is left for the declared default, and the zero of its kind is put in instead. One level is
enough for the default itself. -/
theorem compare_substitutes_shallow :
    let f : Field Node := ⟨"a", .primitive .integer, false, some (.integer 5)⟩
    Schema.ofText "\x7b a: int = 5 \x7d" = .ok { node := .map [f] } ∧
    ∃ g, compare [] 1 (.map [f]) (.map []) = some g ∧ g.outcome = .defaulted ∧
      g.findings = [⟨[.key "a"], .missingOptional⟩] ∧ g.value.reach? [.key "a"] = some Kind.integer.zero ∧
      ∀ more, 0 < more → compare [] more f.node (.integer 5) = some (.matched (.integer 5)) := by
  intro f
  refine ⟨rfl, _, rfl, rfl, rfl, rfl, fun more hmore => ?_⟩
  obtain ⟨more, rfl⟩ := Nat.exists_eq_add_one_of_ne_zero (Nat.ne_zero_of_lt hmore)
  rfl

end Conformance
