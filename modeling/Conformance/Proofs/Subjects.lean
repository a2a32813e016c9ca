import Conformance.Proofs.Account
import Conformance.Proofs.Idempotence
import Conformance.Proofs.Origins

/-!
# Findings point at what they are about

The pointer of a finding, read as the text that it is, leads from the compared value to the part that the
finding is about, or to the composite in which a part is missing.

* `Value.reach?` — the part of a value at the end of some steps; a pointer leads there too
  (`Value.locate?_segments`).
* `finding_reported` — a finding is what a node reports of a part of the value, seen from the value.
* `Reason.Describes`, `Reason.MissesAt` — what a reason says of the part at its place, or of the composite
  around it.
* `Finding.PointsInto` — the pointer of a finding leads to what its reason is about.
* `compare_pointsInto` — all findings of a comparison do so.
-/

set_option autoImplicit false

namespace Conformance

/-! ## Parts at the end of some steps -/

namespace Value

/-- The part of a value that some steps lead to. -/
def reach? (v : Value) : List Step → Option Value
  | [] => some v
  | step :: path => (v.part? step).bind fun w => w.reach? path

theorem reach?_cons {v w u : Value} {step : Step} {path : List Step} (h : v.part? step = some w)
    (hw : w.reach? path = some u) : v.reach? (step :: path) = some u := by
  rw [reach?, h, Option.bind_some, hw]

/-- Where steps lead to a part, a location that begins with their segments leads on from that part. -/
theorem locate?_segments {v w : Value} {path : List Step} (h : v.reach? path = some w)
    (location : List String) : v.locate? (path.map Step.segment ++ location) = w.locate? location := by
  induction path generalizing v with
  | nil =>
    cases h
    rfl
  | cons step path ih =>
    obtain ⟨u, hu, h⟩ := Option.bind_eq_some_iff.1 h
    rw [List.map_cons, List.cons_append, locate?, member?_segment (fits_of_part? hu), hu,
      Option.bind_some, ih h]

end Value

/-! ## Findings are reports about parts -/

section Gradings

variable {definitions : Definitions} {levels : Nat} {names names' : List String} {node n : Node}
  {v w : Value} {step : Step}

theorem MapDescends.part? {fields : List (Field Node)} {entries : Entries Value}
    (h : MapDescends fields entries step n w) : (Value.map entries).part? step = some w := by
  obtain ⟨-, hget, -⟩ := h
  exact hget

/-- What a grading hands on from one step further in is about the part at that step. -/
theorem Descends.part? (hv : v.Tidy)
    (h : Descends definitions levels names node v (some step) names' n w) : v.part? step = some w := by
  cases h with
  | item _ hw => exact hw
  | map h => exact h.part?
  | entry he => exact Entries.get?_of_mem hv.1.nodup_keys he
  | alternative _ _ h => exact h.part?

/-- What a grading hands on from where it is is about the same value. -/
theorem Descends.same (h : Descends definitions levels names node v none names' n w) : w = v := by
  cases h <;> rfl

/-- **A finding is what some node reports of a part of the value**, or that the levels are used up there, as
seen from the value. -/
theorem finding_reported (hv : v.Tidy) {g : Grading}
    (h : grade definitions levels names node v = some g) {f : Finding} (hf : f ∈ g.findings) :
    ∃ path w f', v.reach? path = some w ∧ f = ⟨path ++ f'.path, f'.reason⟩ ∧
      (f' = ⟨[], .depthExceeded⟩ ∨
        ∃ levels' names' n, Node.Reports definitions levels' names' n w f') := by
  induction levels generalizing names node v g f with
  | zero =>
    cases h
    obtain rfl := List.mem_singleton.1 hf
    exact ⟨[], v, _, rfl, rfl, .inl rfl⟩
  | succ levels ih =>
    rcases grade_findings h hf with hown | ⟨step?, names', n, w, g', f', hd, hg', hf', rfl⟩
    · exact ⟨[], v, f, rfl, rfl, .inr ⟨levels, names, node, hown⟩⟩
    cases step? with
    | none =>
      obtain rfl := hd.same
      exact ih hv hg' hf'
    | some step =>
      have hpart := hd.part? hv
      obtain ⟨path, u, f'', hu, rfl, hreported⟩ := ih (Value.tidy_part hv hpart) hg' hf'
      exact ⟨step :: path, u, f'', Value.reach?_cons hpart hu, rfl, hreported⟩

end Gradings

/-! ## What findings are about -/

/-- What a reason says of the value that it is given for. -/
def Reason.Describes : Reason → Value → Prop
  | .converted source target, w => w.kind = source ∧ ∃ u, coerce target w = .converted u
  | .defaulted, w => ∃ target u, coerce target w = .defaulted u
  | .notConvertible source target, w => w.kind = source ∧ coerce target w = .incompatible
  | .wrongKind expected found, w => w.kind = found ∧ found ≠ expected
  | .literalMismatch expected, w => expected.equal w = false
  | .badDiscriminant key, w => ∃ entries, w = .map entries ∧
    ∀ u, Entries.get? entries key = some u → u.isDiscriminant = false
  | .unknownAlternative key, w => ∃ entries discriminant, w = .map entries ∧
    Entries.get? entries discriminant = some key
  | .unknownName _, _ | .depthExceeded, _ | .undeclaredKey, _ | .extraElement, _ => True
  | .missingRequired, _ | .missingOptional, _ | .missingElement, _ => False

/-- What a reason says of a composite that lacks the part at a segment. A key that may be absent counts as
lacking also where it is undefined. -/
def Reason.MissesAt : Reason → Value → String → Prop
  | .missingRequired, .map entries, key => Entries.get? entries key = none
  | .missingOptional, .map entries, key =>
    Entries.get? entries key = none ∨ Entries.get? entries key = some .undefined
  | .missingElement, .array items, segment =>
    ∃ i, Pointer.index? segment = some i ∧ items.length ≤ i
  | _, _, _ => False

/-- The pointer of the finding leads to what its reason is about: to a part of the value, or else to a place in
a composite that lacks a part there. -/
def Finding.PointsInto (v : Value) (f : Finding) : Prop :=
  (∃ w, v.locate? f.place = some w ∧ f.reason.Describes w) ∨
    ∃ location segment composite, f.place = location ++ [segment] ∧
      v.locate? location = some composite ∧ f.reason.MissesAt composite segment

theorem Finding.place_eq (path : List Step) (f : Finding) :
    (⟨path ++ f.path, f.reason⟩ : Finding).place = path.map Step.segment ++ f.place := by
  simp only [place, Pointer.segments_pointerText, List.map_append]

namespace Finding.PointsInto

variable {v w : Value} {f : Finding}

/-- A finding about the value itself points into it. -/
theorem here {reason : Reason} (h : reason.Describes v) : PointsInto v ⟨[], reason⟩ :=
  .inl ⟨v, rfl, h⟩

/-- A finding about the part at one step points into the value. -/
theorem part (step : Step) {reason : Reason} (hw : v.part? step = some w) (h : reason.Describes w) :
    PointsInto v ⟨[step], reason⟩ := by
  have hreach : v.reach? [step] = some w := Value.reach?_cons hw rfl
  refine .inl ⟨w, ?_, h⟩
  rw [place, Pointer.segments_pointerText]
  exact Value.locate?_segments hreach []

/-- A finding about a part that the value lacks at one step points into the value. -/
theorem missing {step : Step} {reason : Reason} (h : reason.MissesAt v step.segment) :
    PointsInto v ⟨[step], reason⟩ :=
  .inr ⟨[], step.segment, v, Pointer.segments_pointerText [step], rfl, h⟩

/-- A finding that points into a part of a value points into the value, seen from there. -/
theorem outward {path : List Step} (hw : v.reach? path = some w) (h : f.PointsInto w) :
    PointsInto v ⟨path ++ f.path, f.reason⟩ := by
  unfold PointsInto
  rw [place_eq]
  rcases h with ⟨u, hu, hdescribes⟩ | ⟨location, segment, composite, hplace, hcomposite, hmisses⟩
  · exact .inl ⟨u, (Value.locate?_segments hw _).trans hu, hdescribes⟩
  · refine .inr ⟨path.map Step.segment ++ location, segment, composite, ?_, ?_, hmisses⟩
    · rw [hplace, List.append_assoc]
    · exact (Value.locate?_segments hw _).trans hcomposite

end Finding.PointsInto

theorem MapReports.pointsInto {inside : Inside} {fields : List (Field Node)} {kept : Option String}
    {entries : Entries Value} {f : Finding} (h : MapReports inside fields kept entries f) :
    f.PointsInto (.map entries) := by
  cases h with
  | required _ hget => exact .missing hget
  | filled _ hget => exact .missing (.inl hget)
  | replaced _ hget => exact .missing (.inr hget)
  | @undeclared e he =>
    cases hget : Entries.get? entries e.1 with
    | none => exact absurd rfl (Entries.get?_eq_none.1 hget e he)
    | some w => exact .part (.key e.1) hget trivial

/-- What a node reports of a value by itself is about the value, about a part of it, or about one that it
lacks. -/
theorem Node.Reports.pointsInto {definitions : Definitions} {levels : Nat} {names : List String}
    {node : Node} {v : Value} {f : Finding} (h : node.Reports definitions levels names v f) :
    f.PointsInto v := by
  cases h with
  | converted hw => exact .here ⟨rfl, _, hw⟩
  | defaulted hw => exact .here ⟨_, _, hw⟩
  | notConvertible hw => exact .here ⟨rfl, hw⟩
  | mismatch hne => exact .here hne
  | wrongKind _ hkind => exact .here ⟨rfl, hkind⟩
  | extra _ _ hi => exact .part (.index _) (List.getElem?_eq_getElem hi) trivial
  | missing hi _ => exact .missing ⟨_, Pointer.index?_ofNat _, hi⟩
  | map h => exact h.pointsInto
  | alternative _ _ h => exact h.pointsInto
  | badDiscriminant h => exact .here ⟨_, rfl, h⟩
  | unknownAlternative hget => exact .here ⟨_, _, rfl, hget⟩
  | unknownName => exact .here trivial

/-- **Every finding points at the data it is about.** The pointer of each finding, read as text, leads in the
compared value to the part that the finding is about, which is of the kind that it gives, or to the map or array
that lacks the key or index at its end. -/
theorem compare_pointsInto {definitions : Definitions} {maxDepth : Nat} {node : Node} {v : Value}
    {g : Grading} (hv : v.Tidy) (h : compare definitions maxDepth node v = some g) :
    ∀ f ∈ g.findings, f.PointsInto v := by
  intro f hf
  obtain ⟨path, w, f', hw, rfl, rfl | ⟨levels, names, n, hreports⟩⟩ := finding_reported hv h hf
  · have hhere : Finding.PointsInto w ⟨[], .depthExceeded⟩ := .here trivial
    exact hhere.outward hw
  · exact hreports.pointsInto.outward hw

/-- Keys that are empty or hold slashes and tildes: one finding inside a variant, and one that is missing. -/
theorem compare_pointsInto_escaped :
    let definitions : Definitions := [("t", [.primitive .uuid, .array [.primitive .integer, .any] .exact])]
    let node : Node := .map [⟨"~/", .reference "t", false, none⟩, ⟨"", .any, false, none⟩]
    let v : Value := .map [("~/", .array [.string "7"])]
    ∃ g, compare definitions 4 node v = some g ∧
      g.findings.map (fun f => pointerText f.path) = ["/~0~1/0", "/~0~1/1", "/"] ∧
      ∀ f ∈ g.findings, f.PointsInto v := by
  intro definitions node v
  have hv : v.Tidy := ⟨List.pairwise_singleton _ _, ⟨trivial, trivial⟩, trivial⟩
  obtain ⟨g, hg, hpointers⟩ : ∃ g, compare definitions 4 node v = some g ∧
      g.findings.map (fun f => pointerText f.path) = ["/~0~1/0", "/~0~1/1", "/"] :=
    ⟨_, rfl, by decide +kernel⟩
  exact ⟨g, hg, hpointers, compare_pointsInto hv hg⟩

end Conformance
