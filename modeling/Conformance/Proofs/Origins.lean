import Conformance.Proofs.Requests

/-!
# Where findings come from

Each finding of a grading is about the value itself or about what is at one step of it, or it is the finding
of the grading of a part, seen from one step further out, or of another grading of the same value.

* `MapReports`, `Node.Reports` — what a node reports by itself.
* `MapDescends`, `Descends` — the gradings of parts that a grading hands the findings on from.
* `gradeItems_findings`, `gradeFields_findings`, `undeclaredEntries_findings`, `gradeEntries_findings` — the
  findings about parts.
* `gradeReference_asked` — the node of a name that gave the grading has been asked for.
* `grade_findings` — the findings of every grading.
* `finding_reasons` — what holds of all that the nodes which are asked for report holds of all findings.
-/

set_option autoImplicit false

namespace Conformance

/-- What is reported of the keys of a map where its fields are declared, parts that are graded apart. -/
inductive MapReports (inside : Inside) (fields : List (Field Node)) (kept : Option String)
    (entries : Entries Value) : Finding → Prop where
  | required {f : Field Node} : f ∈ fields → Entries.get? entries f.name = none →
    f.mayBeAbsent = false → MapReports inside fields kept entries ⟨[.key f.name], .missingRequired⟩
  | filled {f : Field Node} : f ∈ fields → Entries.get? entries f.name = none →
    f.mayBeAbsent = true → MapReports inside fields kept entries ⟨[.key f.name], .missingOptional⟩
  | replaced {f : Field Node} {d : Value} : f ∈ fields →
    Entries.get? entries f.name = some .undefined → f.mayBeAbsent = true →
    inside.fillField f = some d → d.isUndefined = false →
    MapReports inside fields kept entries ⟨[.key f.name], .missingOptional⟩
  | undeclared {e : String × Value} : e ∈ entries → Field.find? fields e.1 = none →
    kept ≠ some e.1 → MapReports inside fields kept entries ⟨[.key e.1], .undeclaredKey⟩

/-- The kind of composite value that a node describes. -/
def Node.compositeKind? : Node → Option Kind
  | .array _ _ => some .array
  | .map _ | .dictionary _ | .selector _ _ => some .map
  | _ => none

/-- What a node reports of a value by itself with one level more than are left below it, the findings of
other gradings apart. -/
inductive Node.Reports (definitions : Definitions) (levels : Nat) (names : List String) :
    Node → Value → Finding → Prop where
  | converted {kind : Kind} {v w : Value} : coerce kind v = .converted w →
    Reports definitions levels names (.primitive kind) v ⟨[], .converted v.kind kind⟩
  | defaulted {kind : Kind} {v w : Value} : coerce kind v = .defaulted w →
    Reports definitions levels names (.primitive kind) v ⟨[], .defaulted⟩
  | notConvertible {kind : Kind} {v : Value} : coerce kind v = .incompatible →
    Reports definitions levels names (.primitive kind) v ⟨[], .notConvertible v.kind kind⟩
  | mismatch {expected v : Value} : expected.equal v = false →
    Reports definitions levels names (.literal expected) v ⟨[], .literalMismatch expected⟩
  | wrongKind {node : Node} {kind : Kind} {v : Value} : node.compositeKind? = some kind →
    v.kind ≠ kind → Reports definitions levels names node v ⟨[], .wrongKind kind v.kind⟩
  | extra {elements : List Node} {size : ArraySize} {items : List Value} {i : Nat} : elements ≠ [] →
    (size.unroll elements items.length).length ≤ i → i < items.length →
    Reports definitions levels names (.array elements size) (.array items) ⟨[.index i], .extraElement⟩
  | missing {elements : List Node} {size : ArraySize} {items : List Value} {i : Nat} :
    items.length ≤ i → i < (size.unroll elements items.length).length →
    Reports definitions levels names (.array elements size) (.array items) ⟨[.index i], .missingElement⟩
  | map {fields : List (Field Node)} {entries : Entries Value} {f : Finding} :
    MapReports (.below definitions levels names) fields none entries f →
    Reports definitions levels names (.map fields) (.map entries) f
  | alternative {discriminant : String} {alternatives : List (Alternative Node)}
    {entries : Entries Value} {a : Alternative Node} {fields : List (Field Node)} {f : Finding} :
    Alternative.chosen? alternatives discriminant entries = some a →
    definitions.resolveMap? a.node = some fields →
    MapReports (.below definitions levels names) fields (some discriminant) entries f →
    Reports definitions levels names (.selector discriminant alternatives) (.map entries) f
  | badDiscriminant {discriminant : String} {alternatives : List (Alternative Node)}
    {entries : Entries Value} :
    (∀ key, Entries.get? entries discriminant = some key → key.isDiscriminant = false) →
    Reports definitions levels names (.selector discriminant alternatives) (.map entries)
      ⟨[], .badDiscriminant discriminant⟩
  | unknownAlternative {discriminant : String} {alternatives : List (Alternative Node)}
    {entries : Entries Value} {key : Value} : Entries.get? entries discriminant = some key →
    key.isDiscriminant = true → Alternative.find? alternatives key = none →
    Reports definitions levels names (.selector discriminant alternatives) (.map entries)
      ⟨[], .unknownAlternative key⟩
  | unknownName {name : String} {v : Value} : definitions.nodes name = [] →
    Reports definitions levels names (.reference name) v ⟨[], .unknownName name⟩

/-- The value at a declared field, which is graded by the node of the field. -/
inductive MapDescends (fields : List (Field Node)) (entries : Entries Value) :
    Step → Node → Value → Prop where
  | field {f : Field Node} {w : Value} : f ∈ fields → Entries.get? entries f.name = some w →
    (w.isUndefined && f.mayBeAbsent) = false → MapDescends fields entries (.key f.name) f.node w

/-- Grading the first value, with one level more than are left, hands on the findings about the second: about
the part at a step, or about the same value as graded by another node. -/
inductive Descends (definitions : Definitions) (levels : Nat) (names : List String) :
    Node → Value → Option Step → List String → Node → Value → Prop where
  | item {elements : List Node} {size : ArraySize} {items : List Value} {i : Nat} {n : Node}
    {w : Value} : (size.unroll elements items.length)[i]? = some n → items[i]? = some w →
    Descends definitions levels names (.array elements size) (.array items) (some (.index i)) names n w
  | map {fields : List (Field Node)} {entries : Entries Value} {step : Step} {n : Node} {w : Value} :
    MapDescends fields entries step n w →
    Descends definitions levels names (.map fields) (.map entries) (some step) names n w
  | entry {n : Node} {entries : Entries Value} {e : String × Value} : e ∈ entries →
    Descends definitions levels names (.dictionary n) (.map entries) (some (.key e.1)) names n e.2
  | alternative {discriminant : String} {alternatives : List (Alternative Node)}
    {entries : Entries Value} {a : Alternative Node} {fields : List (Field Node)} {step : Step}
    {n : Node} {w : Value} : Alternative.chosen? alternatives discriminant entries = some a →
    definitions.resolveMap? a.node = some fields → MapDescends fields entries step n w →
    Descends definitions levels names (.selector discriminant alternatives) (.map entries) (some step)
      names n w
  | other {discriminant : String} {alternatives : List (Alternative Node)} {entries : Entries Value}
    {a : Alternative Node} : Alternative.chosen? alternatives discriminant entries = some a →
    definitions.resolveMap? a.node = none →
    Descends definitions levels names (.selector discriminant alternatives) (.map entries) none names
      a.node (.map entries)
  | variant {name : String} {before after : List Node} {n : Node} {v : Value} :
    definitions.nodes name = before ++ n :: after →
    (∀ m ∈ before, ∃ g, grade definitions levels (name :: names) m v = some g ∧
      g.outcome ≠ .matched) →
    Descends definitions levels names (.reference name) v none (name :: names) n v

theorem Descends.asks {definitions : Definitions} {levels : Nat} {names names' : List String}
    {node n : Node} {v w : Value} {step? : Option Step}
    (h : Descends definitions levels names node v step? names' n w) :
    Asks definitions (.grade (levels + 1) names node v) (.grade levels names' n w) := by
  cases h with
  | item hn hw => exact .item hn hw
  | map h =>
    obtain ⟨hf, hget, hpresent⟩ := h
    exact .map (.present hf hget hpresent)
  | entry he => exact .entry he
  | alternative ha hfields h =>
    obtain ⟨hf, hget, hpresent⟩ := h
    exact .alternative ha hfields (.present hf hget hpresent)
  | other ha hnone => exact .other ha hnone
  | variant hnodes hbefore => exact .variant hnodes hbefore

/-- The finding as seen from one step further out, if there is one. -/
def Finding.outward (step? : Option Step) (f : Finding) : Finding :=
  match step? with
  | some step => f.under step
  | none => f

theorem Finding.reason_outward (step? : Option Step) (f : Finding) :
    (f.outward step?).reason = f.reason := by
  cases step? <;> rfl

/-! ## Parts -/

section Composites

variable {inside : Inside}

theorem extraItems_findings {index : Nat} {items : List Value} {f : Finding}
    (h : f ∈ (extraItems index items).findings) :
    ∃ i, i < items.length ∧ f = ⟨[.index (index + i)], .extraElement⟩ := by
  induction items generalizing index with
  | nil => exact (List.not_mem_nil h).elim
  | cons v items ih =>
    rcases List.mem_append.1 h with h | h
    · refine ⟨0, Nat.succ_pos _, ?_⟩
      exact List.mem_singleton.1 h
    · obtain ⟨i, hi, rfl⟩ := ih h
      refine ⟨i + 1, Nat.succ_lt_succ hi, ?_⟩
      rw [Nat.add_assoc, Nat.add_comm 1 i]

/-- A finding about the items of an array is about an item that is graded, about one too many, or about
one that is missing. -/
theorem gradeItems_findings {index : Nat} {nodes : List Node} {items : List Value} {p : Parts Value}
    {f : Finding} (h : gradeItems inside index nodes items = some p) (hf : f ∈ p.findings) :
    (∃ (i : Nat) (n : Node) (v : Value) (g : Grading) (f' : Finding), nodes[i]? = some n ∧
      items[i]? = some v ∧ inside.grade n v = some g ∧ f' ∈ g.findings ∧
      f = f'.under (.index (index + i))) ∨
    (∃ i, nodes.length ≤ i ∧ i < items.length ∧ f = ⟨[.index (index + i)], .extraElement⟩) ∨
    ∃ i, items.length ≤ i ∧ i < nodes.length ∧ f = ⟨[.index (index + i)], .missingElement⟩ := by
  induction nodes generalizing index items p with
  | nil =>
    cases h
    obtain ⟨i, hi, rfl⟩ := extraItems_findings hf
    exact .inr (.inl ⟨i, Nat.zero_le i, hi, rfl⟩)
  | cons node nodes ih =>
    have hshift : ∀ i, index + 1 + i = index + (i + 1) := fun i => by omega
    cases items with
    | cons v items =>
      obtain ⟨g, rest, hg, hrest, rfl⟩ := gradeItems_cons_cons.1 h
      rcases List.mem_append.1 hf with hf | hf
      · obtain ⟨f', hf', rfl⟩ := List.mem_map.1 hf
        exact .inl ⟨0, node, v, g, f', rfl, rfl, hg, hf', rfl⟩
      · rcases ih hrest hf with ⟨i, n, w, g', f', hn, hw, hg', hf', rfl⟩ | ⟨i, hn, hi, rfl⟩ |
          ⟨i, hn, hi, rfl⟩
        · exact .inl ⟨i + 1, n, w, g', f', hn, hw, hg', hf', by rw [hshift]⟩
        · exact .inr (.inl ⟨i + 1, Nat.succ_le_succ hn, Nat.succ_lt_succ hi, by rw [hshift]⟩)
        · exact .inr (.inr ⟨i + 1, Nat.succ_le_succ hn, Nat.succ_lt_succ hi, by rw [hshift]⟩)
    | nil =>
      obtain ⟨d, rest, -, hrest, rfl⟩ := gradeItems_cons_nil.1 h
      rcases List.mem_append.1 hf with hf | hf
      · refine .inr (.inr ⟨0, Nat.le_refl 0, Nat.succ_pos _, ?_⟩)
        exact List.mem_singleton.1 hf
      · rcases ih hrest hf with ⟨i, n, w, g', f', -, hw, -⟩ | ⟨i, -, hi, -⟩ | ⟨i, hn, hi, rfl⟩
        · cases hw
        · exact absurd hi (Nat.not_lt_zero i)
        · exact .inr (.inr ⟨i + 1, Nat.zero_le _, Nat.succ_lt_succ hi, by rw [hshift]⟩)

/-- A finding about a declared field is about the value there, or that there is none. -/
theorem gradeField_findings {entries : Entries Value} {field : Field Node}
    {p : Parts (String × Value)} {f : Finding} (h : gradeField inside entries field = some p)
    (hf : f ∈ p.findings) :
    (∃ v g f', Entries.get? entries field.name = some v ∧
      (v.isUndefined && field.mayBeAbsent) = false ∧ inside.grade field.node v = some g ∧
      f' ∈ g.findings ∧ f = f'.under (.key field.name)) ∨
    ∀ fields kept, field ∈ fields → MapReports inside fields kept entries f := by
  cases gradeField_cases h with
  | @graded v g hget hpresent hg =>
    obtain ⟨f', hf', rfl⟩ := List.mem_map.1 hf
    exact .inl ⟨v, g, f', hget, hpresent, hg, hf', rfl⟩
  | kept => exact (List.not_mem_nil hf).elim
  | replaced hget habsent hfill hdefined =>
    obtain rfl := List.mem_singleton.1 hf
    exact .inr fun fields kept hfield => .replaced hfield hget habsent hfill hdefined
  | filled hget habsent =>
    obtain rfl := List.mem_singleton.1 hf
    exact .inr fun fields kept hfield => .filled hfield hget habsent
  | required hget habsent =>
    obtain rfl := List.mem_singleton.1 hf
    exact .inr fun fields kept hfield => .required hfield hget habsent

theorem gradeFields_findings {entries : Entries Value} {fields : List (Field Node)}
    {p : Parts (String × Value)} {f : Finding} (h : gradeFields inside entries fields = some p)
    (hf : f ∈ p.findings) : ∃ field ∈ fields, ∃ part,
      gradeField inside entries field = some part ∧ f ∈ part.findings := by
  induction fields generalizing p with
  | nil =>
    cases h
    exact (List.not_mem_nil hf).elim
  | cons field fields ih =>
    obtain ⟨part, rest, hpart, hrest, rfl⟩ := gradeFields_cons.1 h
    rcases List.mem_append.1 hf with hf | hf
    · exact ⟨field, List.mem_cons_self, part, hpart, hf⟩
    · obtain ⟨field', hfield', part', hpart', hf'⟩ := ih hrest hf
      exact ⟨field', List.mem_cons_of_mem _ hfield', part', hpart', hf'⟩

theorem undeclaredEntries_findings {fields : List (Field Node)} {kept : Option String}
    {entries : Entries Value} {f : Finding}
    (hf : f ∈ (undeclaredEntries fields kept entries).findings) :
    ∃ e ∈ entries, Field.find? fields e.1 = none ∧ kept ≠ some e.1 ∧
      f = ⟨[.key e.1], .undeclaredKey⟩ := by
  induction entries with
  | nil => exact (List.not_mem_nil hf).elim
  | cons e entries ih =>
    have hrest : f ∈ (undeclaredEntries fields kept entries).findings → ∃ e' ∈ e :: entries,
        Field.find? fields e'.1 = none ∧ kept ≠ some e'.1 ∧
          f = ⟨[.key e'.1], .undeclaredKey⟩ := fun hf => by
      obtain ⟨e', he', h⟩ := ih hf
      exact ⟨e', List.mem_cons_of_mem _ he', h⟩
    simp only [undeclaredEntries] at hf
    by_cases hfind : (Field.find? fields e.1).isSome = true
    · rw [if_pos hfind] at hf
      exact hrest hf
    rw [if_neg hfind] at hf
    by_cases hkept : kept = some e.1
    · rw [if_pos hkept] at hf
      exact hrest hf
    · rw [if_neg hkept] at hf
      rcases List.mem_append.1 hf with hf | hf
      · have hnone : Field.find? fields e.1 = none := by simpa using hfind
        exact ⟨e, List.mem_cons_self, hnone, hkept, List.mem_singleton.1 hf⟩
      · exact hrest hf

theorem gradeEntries_findings {entry : Node} {entries : Entries Value}
    {p : Parts (String × Value)} {f : Finding} (h : gradeEntries inside entry entries = some p)
    (hf : f ∈ p.findings) : ∃ e ∈ entries, ∃ g f', inside.grade entry e.2 = some g ∧
      f' ∈ g.findings ∧ f = f'.under (.key e.1) := by
  induction entries generalizing p with
  | nil =>
    cases h
    exact (List.not_mem_nil hf).elim
  | cons e entries ih =>
    obtain ⟨g, rest, hg, hrest, rfl⟩ := gradeEntries_cons.1 h
    rcases List.mem_append.1 hf with hf | hf
    · obtain ⟨f', hf', rfl⟩ := List.mem_map.1 hf
      exact ⟨e, List.mem_cons_self, g, f', hg, hf', rfl⟩
    · obtain ⟨e', he', h'⟩ := ih hrest hf
      exact ⟨e', List.mem_cons_of_mem _ he', h'⟩

/-- The node of a name that gave the grading was looked at, for none of those before it matches. -/
theorem bestGrading_asked {grade : Node → Option Grading} {nodes : List Node} {best g : Grading}
    (h : bestGrading grade best nodes = some g) : g = best ∨ best.outcome ≠ .matched ∧
      ∃ before n after, nodes = before ++ n :: after ∧
        (∀ m ∈ before, ∃ g', grade m = some g' ∧ g'.outcome ≠ .matched) ∧ grade n = some g := by
  induction nodes generalizing best with
  | nil => exact .inl (Option.some.inj h).symm
  | cons node nodes ih =>
    simp only [bestGrading, Option.bind_eq_bind] at h
    split at h
    · exact .inl (Option.some.inj h).symm
    rename_i hbest
    obtain ⟨g', hg', h⟩ := Option.bind_eq_some_iff.1 h
    rcases ih h with hsame | ⟨hnext, before, n, after, rfl, hbefore, hn⟩
    · split at hsame
      · exact .inr ⟨hbest, [], node, nodes, rfl, by simp, hsame ▸ hg'⟩
      · exact .inl hsame
    · have hmatched : g'.outcome ≠ .matched := by
        intro hm
        have hlt : best.outcome < g'.outcome := by
          rw [hm]
          revert hbest
          cases best.outcome <;> decide
        rw [if_pos hlt] at hnext
        exact hnext hm
      exact .inr ⟨hbest, node :: before, n, after, rfl,
        List.forall_mem_cons.2 ⟨⟨g', hg', hmatched⟩, hbefore⟩, hn⟩

theorem gradeReference_asked {definitions : Definitions} {grade : Node → Option Grading}
    {name : String} {v : Value} {g : Grading}
    (h : gradeReference definitions grade name v = some g) :
    (definitions.nodes name = [] ∧ g = .decided (.unknownName name) v) ∨
      ∃ before n after, definitions.nodes name = before ++ n :: after ∧
        (∀ m ∈ before, ∃ g', grade m = some g' ∧ g'.outcome ≠ .matched) ∧ grade n = some g := by
  unfold gradeReference at h
  split at h
  · rename_i hnil
    exact .inl ⟨hnil, (Option.some.inj h).symm⟩
  · rename_i node nodes hnodes
    obtain ⟨g', hg', h⟩ := Option.bind_eq_some_iff.1 h
    rcases bestGrading_asked h with rfl | ⟨hmatched, before, n, after, rfl, hbefore, hn⟩
    · exact .inr ⟨[], node, nodes, hnodes, by simp, hg'⟩
    · exact .inr ⟨node :: before, n, after, hnodes,
        List.forall_mem_cons.2 ⟨⟨g', hg', hmatched⟩, hbefore⟩, hn⟩

end Composites

/-! ## Every grading -/

section Gradings

variable {definitions : Definitions}

theorem Value.kind_eq_array {v : Value} : v.kind = .array ↔ ∃ items, v = .array items := by
  cases v <;> simp [kind]

theorem Value.kind_eq_map {v : Value} : v.kind = .map ↔ ∃ entries, v = .map entries := by
  cases v <;> simp [kind]

theorem gradePrimitive_reports {levels : Nat} {names : List String} {kind : Kind} {v : Value}
    {f : Finding} (hf : f ∈ (gradePrimitive kind v).findings) :
    (Node.primitive kind).Reports definitions levels names v f := by
  unfold gradePrimitive at hf
  split at hf
  · exact (List.not_mem_nil hf).elim
  · rename_i w hw
    obtain rfl := List.mem_singleton.1 hf
    exact .converted hw
  · rename_i w hw
    obtain rfl := List.mem_singleton.1 hf
    exact .defaulted hw
  · rename_i hw
    obtain rfl := List.mem_singleton.1 hf
    exact .notConvertible hw

/-- The finding is one about a part, or about the value as graded by another node. -/
def Finding.IsInherited (definitions : Definitions) (levels : Nat) (names : List String) (node : Node)
    (v : Value) (f : Finding) : Prop :=
  ∃ step? names' n w g f', Descends definitions levels names node v step? names' n w ∧
    grade definitions levels names' n w = some g ∧ f' ∈ g.findings ∧ f = f'.outward step?

theorem gradeMap_findings {levels : Nat} {names : List String} {fields : List (Field Node)}
    {kept : Option String} {v : Value} {g : Grading} {f : Finding}
    (h : gradeMap (.below definitions levels names) fields kept v = some g) (hf : f ∈ g.findings) :
    (f = ⟨[], .wrongKind .map v.kind⟩ ∧ v.kind ≠ .map) ∨ ∃ entries, v = .map entries ∧
      (MapReports (.below definitions levels names) fields kept entries f ∨
        ∃ step n w g' f', MapDescends fields entries step n w ∧
        grade definitions levels names n w = some g' ∧ f' ∈ g'.findings ∧ f = f'.under step) := by
  rcases gradeMap_cases h with ⟨rfl, hno⟩ | ⟨entries, p, rfl, hp, rfl⟩
  · exact .inl ⟨List.mem_singleton.1 hf, mt Value.kind_eq_map.1 (not_exists.2 hno)⟩
  · refine .inr ⟨entries, rfl, ?_⟩
    rcases List.mem_append.1 hf with hf | hf
    · obtain ⟨field, hfield, part, hpart, hf⟩ := gradeFields_findings hp hf
      rcases gradeField_findings hpart hf with ⟨w, g', f', hget, hpresent, hg', hf', rfl⟩ | hreports
      · exact .inr ⟨_, field.node, w, g', f', .field hfield hget hpresent, hg', hf', rfl⟩
      · exact .inl (hreports fields kept hfield)
    · obtain ⟨e, he, hnone, hkept, rfl⟩ := undeclaredEntries_findings hf
      exact .inl (.undeclared he hnone hkept)

theorem gradeArray_findings {levels : Nat} {names : List String} {elements : List Node} {size : ArraySize}
    {v : Value} {g : Grading} {f : Finding}
    (h : gradeArray (.below definitions levels names) elements size v = some g) (hf : f ∈ g.findings) :
    (Node.array elements size).Reports definitions levels names v f ∨
      f.IsInherited definitions levels names (.array elements size) v := by
  rcases gradeArray_cases h with rfl | ⟨rfl, hno⟩ | ⟨items, p, rfl, hne, hp, rfl⟩
  · exact (List.not_mem_nil hf).elim
  · obtain rfl := List.mem_singleton.1 hf
    exact .inl (.wrongKind rfl (mt Value.kind_eq_array.1 (not_exists.2 hno)))
  · rcases gradeItems_findings hp hf with ⟨i, n, w, g', f', hn, hw, hg', hf', rfl⟩ |
      ⟨i, hn, hi, rfl⟩ | ⟨i, hn, hi, rfl⟩
    · rw [Nat.zero_add]
      exact .inr ⟨_, names, n, w, g', f', .item hn hw, hg', hf', rfl⟩
    · rw [Nat.zero_add]
      exact .inl (.extra hne hn hi)
    · rw [Nat.zero_add]
      exact .inl (.missing hn hi)

theorem gradeDictionary_findings {levels : Nat} {names : List String} {entry : Node} {v : Value}
    {g : Grading} {f : Finding} (h : gradeDictionary (.below definitions levels names) entry v = some g)
    (hf : f ∈ g.findings) : (Node.dictionary entry).Reports definitions levels names v f ∨
      f.IsInherited definitions levels names (.dictionary entry) v := by
  rcases gradeDictionary_cases h with ⟨rfl, hno⟩ | ⟨entries, p, rfl, hp, rfl⟩
  · obtain rfl := List.mem_singleton.1 hf
    exact .inl (.wrongKind rfl (mt Value.kind_eq_map.1 (not_exists.2 hno)))
  · obtain ⟨e, he, g', f', hg', hf', rfl⟩ := gradeEntries_findings hp hf
    exact .inr ⟨_, names, entry, e.2, g', f', .entry he, hg', hf', rfl⟩

/-- Where no alternative is chosen, the selector reports what is wrong with the discriminant. -/
theorem gradeSelector_reports {levels : Nat} {names : List String} {discriminant : String}
    {alternatives : List (Alternative Node)} {entries : Entries Value} {g : Grading} {f : Finding}
    (h : gradeSelector definitions (.below definitions levels names) discriminant alternatives
      (.map entries) = some g) (hchosen : Alternative.chosen? alternatives discriminant entries = none)
    (hf : f ∈ g.findings) :
    (Node.selector discriminant alternatives).Reports definitions levels names (.map entries) f := by
  simp only [gradeSelector] at h
  split at h
  · rename_i key hkey
    obtain ⟨hget, hdiscriminant⟩ := Option.filter_eq_some_iff.1 hkey
    have hnone : Alternative.find? alternatives key = none := by
      rw [Alternative.chosen?, hkey, Option.bind_some] at hchosen
      exact hchosen
    rw [hnone] at h
    cases h
    obtain rfl := List.mem_singleton.1 hf
    exact .unknownAlternative hget hdiscriminant hnone
  · rename_i hnone
    cases h
    obtain rfl := List.mem_singleton.1 hf
    refine .badDiscriminant fun key hget => ?_
    simpa using Option.filter_eq_none_iff.1 hnone key hget

theorem gradeSelector_findings {levels : Nat} {names : List String} {discriminant : String}
    {alternatives : List (Alternative Node)} {v : Value} {g : Grading} {f : Finding}
    (h : gradeSelector definitions (.below definitions levels names) discriminant alternatives v = some g)
    (hf : f ∈ g.findings) :
    (Node.selector discriminant alternatives).Reports definitions levels names v f ∨
      f.IsInherited definitions levels names (.selector discriminant alternatives) v := by
  rcases gradeSelector_cases h with ⟨-, hnone⟩ | ⟨entries, a, rfl, ha, hcase⟩
  · cases v
    case map entries => exact .inl (gradeSelector_reports h (hnone entries rfl) hf)
    all_goals
      cases h
      obtain rfl := List.mem_singleton.1 hf
      exact .inl (.wrongKind rfl (by simp [Value.kind]))
  rcases hcase with ⟨fields, hfields, hmap⟩ | ⟨hnone, hg⟩
  · rcases gradeMap_findings hmap hf with ⟨-, hkind⟩ | ⟨others, heq, hreports | hinherited⟩
    · exact absurd rfl hkind
    · cases heq
      exact .inl (.alternative ha hfields hreports)
    · cases heq
      obtain ⟨step, n, w, g', f', hpart, hg', hf', rfl⟩ := hinherited
      exact .inr ⟨some step, names, n, w, g', f', .alternative ha hfields hpart, hg', hf', rfl⟩
  · exact .inr ⟨none, names, a.node, .map entries, g, f, .other ha hnone, hg, hf, rfl⟩

/-- **Where findings come from.** A finding of a grading with levels left is what the node reports by itself,
or it is one about a part, or about the value as graded by another node. -/
theorem grade_findings {levels : Nat} {names : List String} {node : Node} {v : Value} {g : Grading}
    {f : Finding} (h : grade definitions (levels + 1) names node v = some g) (hf : f ∈ g.findings) :
    node.Reports definitions levels names v f ∨ f.IsInherited definitions levels names node v := by
  cases node
  case any =>
    cases h
    exact (List.not_mem_nil hf).elim
  case primitive kind =>
    cases h
    exact .inl (gradePrimitive_reports hf)
  case literal expected =>
    cases h
    unfold gradeLiteral at hf
    split at hf
    · exact (List.not_mem_nil hf).elim
    · rename_i hequal
      obtain rfl := List.mem_singleton.1 hf
      exact .inl (.mismatch (by simpa using hequal))
  case array elements size => exact gradeArray_findings h hf
  case map fields =>
    rw [grade_map] at h
    rcases gradeMap_findings h hf with ⟨rfl, hkind⟩ | ⟨entries, rfl, hreports | hinherited⟩
    · exact .inl (.wrongKind rfl hkind)
    · exact .inl (.map hreports)
    · obtain ⟨step, n, w, g', f', hpart, hg', hf', rfl⟩ := hinherited
      exact .inr ⟨some step, names, n, w, g', f', .map hpart, hg', hf', rfl⟩
  case dictionary entry => exact gradeDictionary_findings h hf
  case selector discriminant alternatives => exact gradeSelector_findings h hf
  case reference name =>
    rw [grade_reference] at h
    rcases gradeReference_asked h with ⟨hnil, rfl⟩ | ⟨before, n, after, hnodes, hbefore, hg⟩
    · obtain rfl := List.mem_singleton.1 hf
      exact .inl (.unknownName hnil)
    · exact .inr ⟨none, name :: names, n, v, g, f, .variant hnodes hbefore, hg, hf, rfl⟩

/-- A property of reasons that running out of levels has, and that each reason has which a node reports by
itself, is one of all reasons in the findings. -/
theorem finding_reasons {R : Reason → Prop} {P : Node → Prop} (hdepth : R .depthExceeded)
    (hreports : ∀ levels names node v f, P node → node.Reports definitions levels names v f →
      R f.reason)
    {levels : Nat} {names : List String} {node : Node} {v : Value} {g : Grading}
    (hnode : definitions.Everywhere P node) (h : grade definitions levels names node v = some g) :
    ∀ f ∈ g.findings, R f.reason := by
  induction levels generalizing names node v g with
  | zero =>
    cases h
    intro f hf
    obtain rfl := List.mem_singleton.1 hf
    exact hdepth
  | succ levels ih =>
    intro f hf
    rcases grade_findings h hf with hown | ⟨step?, names', n, w, g', f', hpart, hg', hf', rfl⟩
    · exact hreports levels names node v f hnode.self hown
    · rw [Finding.reason_outward]
      exact ih (hpart.asks.everywhere hnode) hg' f' hf'

end Gradings

end Conformance
