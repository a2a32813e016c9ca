import Conformance.Proofs.Subjects

/-!
# Findings stand at places apart

No two findings of a comparison are at one place, and none is below another: a composite that reports
something of itself hands no findings on, each part has the findings at its own step, and different steps into
one value are written as different segments.

* `Finding.Diverges` — two findings part ways at some step; `compositional_diverges` says so of all findings of
  a grading by nodes that declare no name twice.
* `Value.Leads` — steps that lead through a value, so that their segments tell them apart
  (`Value.Leads.isPrefix_of_segments`).
* `Finding.Apart` — the pointers of two findings part ways.
* `compare_apart` — those of a comparison do, each from every other.
-/

set_option autoImplicit false

namespace Conformance

/-! ## Steps that part ways -/

/-- The steps to neither finding lead to the other or past it. -/
def Finding.Diverges (f f' : Finding) : Prop := ¬ f.path <+: f'.path ∧ ¬ f'.path <+: f.path

theorem Finding.Diverges.under {f f' : Finding} (h : f.Diverges f') (step : Step) :
    (f.under step).Diverges (f'.under step) :=
  ⟨fun hp => h.1 ((List.prefix_cons_inj step).1 hp), fun hp => h.2 ((List.prefix_cons_inj step).1 hp)⟩

theorem Finding.diverges_of_ne {step step' : Step} (hne : step ≠ step') (f f' : Finding) :
    (f.under step).Diverges (f'.under step') :=
  ⟨fun hp => hne (List.cons_prefix_cons.1 hp).1, fun hp => hne (List.cons_prefix_cons.1 hp).1.symm⟩

/-- Findings about parts part ways if those about each part do. -/
theorem pairwise_diverges_of_at {findings : List Finding} (hheaded : Headed (fun _ => True) findings)
    (h : ∀ step, (findingsAt step findings).Pairwise Finding.Diverges) :
    findings.Pairwise Finding.Diverges := by
  induction findings with
  | nil => exact .nil
  | cons f findings ih =>
    have hrest : Headed (fun _ => True) findings := fun f' hf' => hheaded f' (List.mem_cons_of_mem _ hf')
    obtain ⟨step, -, f₁, rfl⟩ := hheaded f List.mem_cons_self
    have hcons : ∀ s, findingsAt s (f₁.under step :: findings) =
        (Finding.within? s (f₁.under step)).toList ++ findingsAt s findings := by
      intro s
      rw [findingsAt, List.filterMap_cons]
      cases Finding.within? s (f₁.under step) <;> rfl
    refine List.pairwise_cons.2 ⟨fun f' hf' => ?_, ih hrest fun s => ?_⟩
    · obtain ⟨step', -, f₂, rfl⟩ := hrest f' hf'
      by_cases hstep : step = step'
      · subst hstep
        have hat := h step
        rw [hcons, Finding.within?_eq_some.2 rfl] at hat
        exact ((List.pairwise_cons.1 hat).1 f₂ (mem_findingsAt.2 hf')).under step
      · exact Finding.diverges_of_ne hstep f₁ f₂
    · have hat := h s
      rw [hcons] at hat
      exact (List.pairwise_append.1 hat).2.1

theorem PartChange.pairwise_diverges {x y : Option Value} {findings : List Finding}
    (h : PartChange (fun _ g => g.findings.Pairwise Finding.Diverges) x y findings) :
    findings.Pairwise Finding.Diverges := by
  cases h with
  | absent => exact .nil
  | kept => exact .nil
  | graded _ hg => exact hg
  | filled => exact List.pairwise_singleton _ _
  | replaced => exact List.pairwise_singleton _ _
  | dropped => exact List.pairwise_singleton _ _
  | required => exact List.pairwise_singleton _ _

theorem compositional_diverges :
    Compositional fun _ g => g.findings.Pairwise Finding.Diverges where
  matched := fun _ => .nil
  refused := fun _ _ _ => List.pairwise_singleton _ _
  coerced := fun kind v => by
    unfold gradePrimitive
    split
    · exact .nil
    · exact List.pairwise_singleton _ _
    · exact List.pairwise_singleton _ _
    · exact List.pairwise_singleton _ _
  composed := fun _ _ _ _ ⟨_, hstep, _⟩ =>
    pairwise_diverges_of_at hstep.headed fun step => (hstep.change step).pairwise_diverges

/-! ## Segments tell the steps apart -/

/-- Each step is of the sort that leads into the part before it, and leads to a part unless it is the last. -/
inductive Value.Leads : Value → List Step → Prop where
  | here (v : Value) : Leads v []
  | last {v : Value} {step : Step} : v.Fits step → Leads v [step]
  | step {v w : Value} {step : Step} {path : List Step} : v.part? step = some w → Leads w path →
    Leads v (step :: path)

namespace Value.Leads

variable {v w : Value} {path other : List Step}

theorem fits {step : Step} (h : v.Leads (step :: path)) : v.Fits step := by
  cases h with
  | last hfits => exact hfits
  | step hpart => exact Value.fits_of_part? hpart

theorem outward (hw : v.reach? path = some w) (h : w.Leads other) : v.Leads (path ++ other) := by
  induction path generalizing v with
  | nil =>
    cases hw
    exact h
  | cons step path ih =>
    obtain ⟨u, hu, hw⟩ := Option.bind_eq_some_iff.1 hw
    exact .step hu (ih hw)

end Value.Leads

/-- Steps of the sort that leads into one value are written as different segments. -/
theorem Value.Fits.eq_of_segment {v : Value} {step step' : Step} (h : v.Fits step) (h' : v.Fits step')
    (hsegment : step.segment = step'.segment) : step = step' := by
  cases v <;> cases step <;> first | exact h.elim | skip
  all_goals cases step' <;> first | exact h'.elim | skip
  case array.index.index i j =>
    have hdigits := congrArg Pointer.index? hsegment
    rw [Step.segment, Step.segment, Pointer.index?_ofNat, Pointer.index?_ofNat] at hdigits
    rw [Option.some.inj hdigits]
  case map.key.key name name' => exact congrArg Step.key hsegment

/-- **Of steps that lead through one value, some lead to where the others lead or past it only if their
segments do.** -/
theorem Value.Leads.isPrefix_of_segments {v : Value} {path other : List Step} (hp : v.Leads path)
    (ho : v.Leads other) (h : path.map Step.segment <+: other.map Step.segment) : path <+: other := by
  induction path generalizing v other with
  | nil => exact List.nil_prefix
  | cons step path ih =>
    cases other with
    | nil => exact absurd (List.prefix_nil.1 h) (List.cons_ne_nil _ _)
    | cons step' other =>
      rw [List.map_cons, List.map_cons] at h
      obtain ⟨hsegment, hrest⟩ := List.cons_prefix_cons.1 h
      obtain rfl := hp.fits.eq_of_segment ho.fits hsegment
      refine List.cons_prefix_cons.2 ⟨rfl, ?_⟩
      cases hp with
      | last => exact List.nil_prefix
      | step hpart hp =>
        cases ho with
        | last => exact List.prefix_nil.2 (List.map_eq_nil_iff.1 (List.prefix_nil.1 hrest))
        | step hpart' ho =>
          obtain rfl := Option.some.inj (hpart.symm.trans hpart')
          exact ih hp ho hrest

theorem MapReports.leads {inside : Inside} {fields : List (Field Node)} {kept : Option String}
    {entries : Entries Value} {f : Finding} (h : MapReports inside fields kept entries f) :
    (Value.map entries).Leads f.path := by
  cases h <;> exact .last trivial

theorem Node.Reports.leads {definitions : Definitions} {levels : Nat} {names : List String}
    {node : Node} {v : Value} {f : Finding} (h : node.Reports definitions levels names v f) :
    v.Leads f.path := by
  cases h with
  | extra => exact .last trivial
  | missing => exact .last trivial
  | map h => exact h.leads
  | alternative _ _ h => exact h.leads
  | _ => exact .here _

/-! ## Every comparison -/

/-- The pointers of two findings part ways: neither of them leads to the place of the other or past it. -/
def Finding.Apart (f f' : Finding) : Prop := ¬ f.place <+: f'.place ∧ ¬ f'.place <+: f.place

theorem Finding.Diverges.apart {v : Value} {f f' : Finding} (h : f.Diverges f') (hf : v.Leads f.path)
    (hf' : v.Leads f'.path) : f.Apart f' := by
  unfold Finding.Apart Finding.place
  rw [Pointer.segments_pointerText, Pointer.segments_pointerText]
  exact ⟨fun hp => h.1 (hf.isPrefix_of_segments hf' hp), fun hp => h.2 (hf'.isPrefix_of_segments hf hp)⟩

theorem finding_leads {definitions : Definitions} {levels : Nat} {names : List String} {node : Node}
    {v : Value} {g : Grading} (hv : v.Tidy) (h : grade definitions levels names node v = some g)
    {f : Finding} (hf : f ∈ g.findings) : v.Leads f.path := by
  obtain ⟨path, w, f', hw, rfl, rfl | ⟨levels, names, n, hreports⟩⟩ := finding_reported hv h hf
  · exact (Value.Leads.here w).outward hw
  · exact hreports.leads.outward hw

/-- **At most one finding per place.** The pointers of the findings are all different, and none of them leads
below another, whatever the grade is and whatever definitions of a name were tried. -/
theorem compare_apart {definitions : Definitions} {maxDepth : Nat} {node : Node} {v : Value}
    {g : Grading} (hd : definitions.Everywhere Node.DistinctNames node) (hv : v.Tidy)
    (h : compare definitions maxDepth node v = some g) :
    (g.findings.map fun f => pointerText f.path).Nodup ∧ g.findings.Pairwise Finding.Apart := by
  have hdiverges := compositional_diverges.of_grade hd hv h
  have hapart : g.findings.Pairwise Finding.Apart :=
    hdiverges.imp_of_mem fun hf hf' hff' => hff'.apart (finding_leads hv h hf) (finding_leads hv h hf')
  refine ⟨List.pairwise_map.2 (hapart.imp fun {f f'} hff' hsame => hff'.1 ?_), hapart⟩
  have hplace : f.place = f'.place := congrArg Pointer.segments hsame
  exact hplace ▸ List.prefix_refl _

/-- The first two definitions of `t` refuse the array and are abandoned, the last one drops an item and fills
another in; the keys `a/b` and `a` with `b` below it are told apart. -/
theorem compare_apart_variants :
    let definitions : Definitions :=
      [("t", [.array [.map []] .exact, .dictionary .any,
        .array [.primitive .integer, .primitive .integer] .exact])]
    let node : Node := .map [⟨"a", .map [⟨"b", .reference "t", false, none⟩], false, none⟩]
    let v : Value := .map [("a", .map [("b", .array [.string "7"])]), ("a/b", .undefined)]
    definitions.Everywhere Node.DistinctNames node ∧ v.Tidy ∧
    ∃ g, compare definitions 5 node v = some g ∧
      g.findings.map (fun f => pointerText f.path) = ["/a/b/0", "/a/b/1", "/a~1b"] ∧
      g.findings.Pairwise Finding.Apart := by
  intro definitions node v
  have hd : definitions.Everywhere Node.DistinctNames node := by
    refine ⟨?_, fun name n hn => ?_⟩
    · simp [node, Node.subnodes, Node.subnodesFields, Node.DistinctNames]
    · simp only [Definitions.nodes, definitions, Entries.get?_cons] at hn
      split at hn
      · simp only [Option.getD_some, List.mem_cons, List.not_mem_nil, or_false] at hn
        rcases hn with rfl | rfl | rfl <;>
          simp [Node.subnodes, Node.subnodesAll, Node.subnodesFields, Node.DistinctNames]
      · cases hn
  have hv : v.Tidy := by
    refine ⟨?_, ⟨List.pairwise_singleton _ _, ⟨trivial, trivial⟩, trivial⟩, trivial, trivial⟩
    exact .cons (by decide) (List.pairwise_singleton _ _)
  obtain ⟨g, hg, hpointers⟩ : ∃ g, compare definitions 5 node v = some g ∧
      g.findings.map (fun f => pointerText f.path) = ["/a/b/0", "/a/b/1", "/a~1b"] :=
    ⟨_, rfl, by decide +kernel⟩
  exact ⟨hd, hv, g, hg, hpointers, (compare_apart hd hv hg).2⟩

end Conformance
