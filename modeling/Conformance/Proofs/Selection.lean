import Conformance.Proofs.Idempotence
import Conformance.Proofs.Origins
import Conformance.Proofs.WellFormed

/-!
# What the checks of the reader spare a comparison

In an accepted suite, every name that a comparison comes upon is defined, and every alternative that a
selector chooses leads to a map. What a comparison does where this is not so is never done.

* `Request.Tidy`, `Request.reached` — the gradings that come up are of tidy values, by nodes for which
  holds what holds everywhere.
* `Suite.compare_selection` — no finding is about an undefined name, each chosen alternative has a map, and
  a selector that does not refuse its value keeps the discriminant.
-/

set_option autoImplicit false

namespace Conformance

open Relation (ReflTransGen)

/-! ## The gradings that come up -/

/-- The value to be graded, where there is one, is tidy. -/
def Request.Tidy : Request → Prop
  | .grade _ _ _ v => v.Tidy
  | .fill _ _ _ => True

/-- Every default that a map declares is a literal. -/
def Node.LiteralDefaults : Node → Prop
  | .map fields => ∀ f ∈ fields, ∀ v, f.default? = some v → v.IsLiteral
  | _ => True

theorem Node.WellFormed.literalDefaults {definitions : Definitions} {maxDepth : Nat} {node : Node}
    (h : node.WellFormed definitions maxDepth) : node.LiteralDefaults := by
  cases node <;> try trivial
  case map fields => exact fun f hf v hv => (h.2.2 f hf v hv).1

theorem Value.IsLiteral.tidy {v : Value} (h : v.IsLiteral) : v.Tidy := by
  cases v <;> trivial

theorem FieldAsks.tidy {definitions : Definitions} {levels : Nat} {names : List String}
    {f : Field Node} {r : Request} (h : FieldAsks definitions levels names f r)
    (hf : ∀ v, f.default? = some v → v.IsLiteral) : r.Tidy := by
  cases h with
  | literal hl => exact (hf _ hl).tidy
  | fallback => trivial

theorem MapAsks.tidy {definitions : Definitions} {levels : Nat} {names : List String}
    {entries : Entries Value} {fields : List (Field Node)} {r : Request}
    (h : MapAsks definitions levels names entries fields r) (hv : (Value.map entries).Tidy)
    (hf : (Node.map fields).LiteralDefaults) : r.Tidy := by
  cases h with
  | present _ hget _ => exact Value.tidyEntries_iff.1 hv.2 _ (Entries.mem_of_get? hget)
  | absent hmem _ _ hr => exact hr.tidy (hf _ hmem)

theorem Asks.tidy {definitions : Definitions} {r q : Request} (h : Asks definitions r q)
    (hd : definitions.Everywhere Node.LiteralDefaults r.node) (hr : r.Tidy) : q.Tidy := by
  cases h with
  | item _ hv => exact Value.tidyItems_iff.1 hr _ (List.mem_of_getElem? hv)
  | missing => trivial
  | map hm => exact hm.tidy hr hd.self
  | entry he => exact Value.tidyEntries_iff.1 hr.2 _ he
  | alternative ha hfields hm =>
    have halternative := hd.part (.alternative (Alternative.mem_of_chosen? ha))
    exact hm.tidy hr (halternative.resolved hfields).self
  | other => exact hr
  | variant => exact hr
  | expands => trivial
  | converts hf hl => exact (hd.self _ hf _ hl).tidy

/-- Whatever a request leads to is about nodes and values such as its own. -/
theorem Request.reached {definitions : Definitions} {P : Node → Prop}
    (hP : ∀ m, P m → m.LiteralDefaults) {r q : Request} (h : ReflTransGen (Asks definitions) r q)
    (hd : definitions.Everywhere P r.node) (hr : r.Tidy) :
    definitions.Everywhere P q.node ∧ q.Tidy := by
  induction h with
  | refl => exact ⟨hd, hr⟩
  | tail _ hask ih =>
    obtain ⟨hd, hr⟩ := ih
    exact ⟨hask.everywhere hd, hask.tidy (hd.mono hP) hr⟩

/-! ## Names and alternatives -/

/-- A node that is well formed reports no undefined name by itself. -/
theorem Node.Reports.ne_unknownName {definitions : Definitions} {levels maxDepth : Nat}
    {names : List String} {node : Node} {v : Value} {f : Finding}
    (h : node.Reports definitions levels names v f)
    (hnode : node.WellFormed definitions maxDepth) : ∀ name, f.reason ≠ .unknownName name := by
  have hmap : ∀ {inside fields kept entries}, MapReports inside fields kept entries f →
      ∀ name, f.reason ≠ .unknownName name := by
    intro inside fields kept entries h name
    cases h <;> exact Reason.noConfusion
  intro name
  cases h with
  | unknownName hnil => exact absurd hnil hnode
  | map h => exact hmap h name
  | alternative _ _ h => exact hmap h name
  | _ => exact Reason.noConfusion

theorem Definitions.MapOf.resolveMap? {definitions : Definitions} {node : Node}
    {fields : List (Field Node)} (h : definitions.MapOf node fields) :
    definitions.resolveMap? node = some fields := resolveMap?_iff.2 h

/-- **The checks of the reader hold up in every comparison.** Take any comparison with a body of an accepted
suite. No finding is about an undefined name. Wherever it comes to a selector that chooses an alternative,
the alternative leads to a map. Where the selector then does not refuse the value, the converted map has
the same value at the discriminant, so it chooses the same alternative again. -/
theorem Suite.compare_selection {text : String} {depth : Nat} {s : Suite}
    (hs : Suite.ofText text depth = .ok s) {name : String} {direction : Direction} {node : Node}
    (hbody : s.body name direction = .ok node) {maxDepth : Nat} {v : Value} {g : Grading}
    (hv : v.Tidy) (h : Conformance.compare s.definitions maxDepth node v = some g) :
    (∀ f ∈ g.findings, ∀ name, f.reason ≠ .unknownName name) ∧
    ∀ levels entered discriminant alternatives w, ReflTransGen (Asks s.definitions)
        (.grade maxDepth [] node v) (.grade levels entered (.selector discriminant alternatives) w) →
      (∀ entries a, w = .map entries →
        Alternative.chosen? alternatives discriminant entries = some a →
        ∃ fields, s.definitions.resolveMap? a.node = some fields) ∧
      ∀ r, grade s.definitions levels entered (.selector discriminant alternatives) w = some r →
        r.outcome ≠ .incompatible → ∃ entries others a key, w = .map entries ∧ r.value = .map others ∧
          Entries.get? entries discriminant = some key ∧ Entries.get? others discriminant = some key ∧
          Alternative.chosen? alternatives discriminant entries = some a ∧
          Alternative.chosen? alternatives discriminant others = some a := by
  have hwell := (Suite.wellFormed_of_text hs).everywhere hbody
  have hsound := (Accepted.of_suite hs hbody).sound
  refine ⟨finding_reasons (R := fun reason => ∀ name, reason ≠ .unknownName name)
    (fun _ => Reason.noConfusion) (fun _ _ _ _ _ hn hr => hr.ne_unknownName hn) hwell h, ?_⟩
  intro levels entered discriminant alternatives w hreach
  obtain ⟨hselector, hw⟩ := Request.reached (fun _ => Node.WellFormed.literalDefaults) hreach hwell hv
  obtain ⟨hsoundly, -⟩ := Request.reached (P := fun m => m.Sound s.definitions ∧ m.LiteralDefaults)
    (fun _ hm => hm.2) hreach
    ⟨fun m hm => ⟨hsound.inTree m hm, (hwell.inTree m hm).literalDefaults⟩,
      fun name n hn m hm => ⟨hsound.inDefinitions name n hn m hm,
        (hwell.inDefinitions name n hn m hm).literalDefaults⟩⟩ hv
  refine ⟨fun entries a _ ha => ?_, fun r hr hvalid => ?_⟩
  · obtain ⟨-, -, hall⟩ := hselector.self
    obtain ⟨-, fields, hfields, -⟩ := hall a (Alternative.mem_of_chosen? ha)
    exact ⟨fields, ((hfields fields).2 rfl).resolveMap?⟩
  · cases levels with
    | zero =>
      cases hr
      exact absurd rfl hvalid
    | succ levels =>
      rw [grade_selector] at hr
      obtain ⟨entries, others, a, fields, key, hmap, hvalue, hget, hkept, ha, hagain, -⟩ :=
        gradeSelector_keeps (fun _ _ _ => grade_balanced) (fun _ _ _ _ => value_of_acceptsKey)
          hsoundly.self.1 (fun a ha fields hf =>
            ((hsoundly.part (.alternative ha)).resolved hf).self.1) hw hr hvalid
      exact ⟨entries, others, a, key, hmap, hvalue, hget, hkept, ha, hagain⟩

/-- The selector stands behind a name, and the chosen map declares the discriminant as an integer. -/
theorem Suite.compare_selection_integer :
    let alternatives : List (Alternative Node) := [⟨.integer 7, .map [⟨"k", .primitive .integer, false, none⟩]⟩]
    let s : Suite := { resources := [("r", ⟨"r", .put, .reference "s", .any⟩)],
                       definitions := [("s", [.selector "k" alternatives])] }
    let v : Value := .map [("k", .integer 7), ("z", .boolean true)]
    Suite.ofText "%% r >> &s\n&s = select k \x7b 7: \x7b k: int \x7d \x7d" = .ok s ∧
    s.body "r" .request = .ok (.reference "s") ∧
    ∃ g, Conformance.compare s.definitions 3 (.reference "s") v = some g ∧ g.outcome = .additional ∧
      (∀ f ∈ g.findings, ∀ name, f.reason ≠ .unknownName name) ∧
      ∃ others, g.value = .map others ∧ Entries.get? others "k" = some (.integer 7) := by
  intro alternatives s v
  have hs : Suite.ofText "%% r >> &s\n&s = select k \x7b 7: \x7b k: int \x7d \x7d" = .ok s := rfl
  have hv : v.Tidy := by
    refine ⟨?_, trivial, trivial, trivial⟩
    exact List.pairwise_pair.2 (by decide)
  have hbody : s.body "r" .request = .ok (.reference "s") := rfl
  obtain ⟨g, hg, hselector, ho⟩ : ∃ g, Conformance.compare s.definitions 3 (.reference "s") v = some g ∧
      grade s.definitions 2 ["s"] (.selector "k" alternatives) v = some g ∧ g.outcome = .additional :=
    ⟨_, rfl, rfl, by decide +kernel⟩
  obtain ⟨hnames, hselectors⟩ := compare_selection hs hbody hv hg
  have hasks : Asks s.definitions (.grade 3 [] (.reference "s") v)
      (.grade 2 ["s"] (.selector "k" alternatives) v) := .variant (List.nil_append _).symm (by simp)
  obtain ⟨-, hkeeps⟩ := hselectors _ _ _ _ _ (.single hasks)
  obtain ⟨entries, others, -, key, heq, hvalue, hget, hkept, -⟩ :=
    hkeeps g hselector (by rw [ho]; decide)
  obtain rfl : [("k", .integer 7), ("z", .boolean true)] = entries := Value.map.inj heq
  obtain rfl : .integer 7 = key := Option.some.inj hget
  exact ⟨hs, hbody, g, hg, ho, hnames, others, hvalue, hkept⟩

end Conformance
