import Conformance.Proofs.Stepwise

/-!
# The findings account for the changes

A grading that does not refuse its value reports every change that it makes to it, and nothing else.

* `Finding.place` — where the pointer of a finding leads.
* `Alike`, `Differ` — what two values have at one location is the same there, or it is not.
* `Account` — the values before and after a grading are alike away from the findings and differ at each.
* `compare_account` — every comparison gives such an account of its value.
-/

set_option autoImplicit false

namespace Conformance

/-- The location that the pointer text of the finding leads to. -/
def Finding.place (f : Finding) : List String := Pointer.segments (pointerText f.path)

@[simp] theorem Finding.place_under (step : Step) (f : Finding) :
    (f.under step).place = step.segment :: f.place := by
  simp only [place, under, Pointer.segments_pointerText, List.map_cons]

/-- What two values have at one location is the same there: nothing, or values of one kind that are equal
where they are scalars. -/
inductive Alike : Option Value → Option Value → Prop where
  | absent : Alike none none
  | equal (v : Value) : Alike (some v) (some v)
  | composite {v w : Value} : v.kind = w.kind → v.kind = .array ∨ v.kind = .map →
    Alike (some v) (some w)

/-- What two values have at one location differs: only one of them has a value there, or the kinds are
not the same. -/
inductive Differ : Option Value → Option Value → Prop where
  | added (w : Value) : Differ none (some w)
  | removed (v : Value) : Differ (some v) none
  | kind {v w : Value} : v.kind ≠ w.kind → Differ (some v) (some w)

theorem Alike.refl (x : Option Value) : Alike x x := by
  cases x with
  | none => exact .absent
  | some v => exact .equal v

theorem Differ.irrefl {x : Option Value} (h : Differ x x) : False := by
  cases h with
  | kind hne => exact hne rfl

/-- The account that a grading gives of a value. -/
structure Account (v : Value) (g : Grading) : Prop where
  refused : g.outcome = .incompatible → g.value = v
  alike : g.outcome ≠ .incompatible → ∀ place, (∀ f ∈ g.findings, ¬ f.place <+: place) →
    Alike (v.locate? place) (g.value.locate? place)
  differ : g.outcome ≠ .incompatible → ∀ f ∈ g.findings,
    Differ (v.locate? f.place) (g.value.locate? f.place)
  unchanged_iff : g.outcome ≠ .incompatible → (g.value = v ↔ g.outcome = .matched)

namespace Account

/-! ## Values graded as a whole -/

theorem matched (v : Value) : Account v (.matched v) where
  refused := fun _ => rfl
  alike := fun _ _ _ => .refl _
  differ := fun _ _ hf => absurd hf List.not_mem_nil
  unchanged_iff := fun _ => ⟨fun _ => rfl, fun _ => rfl⟩

theorem refusal (v : Value) {reason : Reason} (h : reason.outcome = .incompatible) :
    Account v (.decided reason v) where
  refused := fun _ => rfl
  alike := fun hne => absurd h hne
  differ := fun hne => absurd h hne
  unchanged_iff := fun hne => absurd h hne

/-- A value is replaced by one of another kind, which is reported. -/
theorem replaced {v w : Value} {reason : Reason} (h : reason.outcome ≠ .incompatible)
    (hkind : v.kind ≠ w.kind) : Account v (.decided reason w) where
  refused := fun hr => absurd hr h
  alike := fun _ place hfree => absurd (List.nil_prefix (l := place)) (hfree _ List.mem_cons_self)
  differ := fun _ f hf => by
    obtain rfl := List.mem_singleton.1 hf
    exact .kind hkind
  unchanged_iff := fun _ =>
    ⟨fun hw => absurd (congrArg Value.kind hw).symm hkind, fun hm => absurd hm reason.outcome_ne_matched⟩

theorem coerced (kind : Kind) (v : Value) : Account v (gradePrimitive kind v) := by
  unfold gradePrimitive
  split
  · exact matched v
  · rename_i w hw
    obtain ⟨hkind, hne⟩ := kind_of_coerce (.inl hw)
    exact replaced (by simp [Reason.outcome]) (hkind ▸ hne)
  · rename_i w hw
    obtain ⟨hkind, hne⟩ := kind_of_coerce (.inr hw)
    exact replaced (by simp [Reason.outcome]) (hkind ▸ hne)
  · exact refusal v rfl

end Account

/-! ## Parts -/

namespace PartChange

variable {x y : Option Value} {findings : List Finding}

/-- Without an incompatible finding, a part is alike at the locations that no finding about it is at or
above. -/
theorem alike (h : PartChange Account x y findings)
    (hvalid : ∀ f ∈ findings, f.outcome ≠ .incompatible) {place : List String}
    (hfree : ∀ f ∈ findings, ¬ f.place <+: place) :
    Alike (x.bind fun v => v.locate? place) (y.bind fun w => w.locate? place) := by
  have hroot : ∀ reason, (⟨[], reason⟩ : Finding) ∈ findings → False := fun _ hf =>
    hfree _ hf List.nil_prefix
  cases h with
  | absent => exact .absent
  | kept v => exact .refl _
  | graded hb ha =>
    refine ha.alike (fun hi => ?_) place hfree
    obtain ⟨f, hf, hfi⟩ := hb.outcome_eq_incompatible.1 hi
    exact hvalid f hf hfi
  | filled => exact (hroot _ List.mem_cons_self).elim
  | replaced => exact (hroot _ List.mem_cons_self).elim
  | dropped => exact (hroot _ List.mem_cons_self).elim
  | required => exact .absent

/-- Without an incompatible finding, a part differs at each finding about it. -/
theorem differ (h : PartChange Account x y findings)
    (hvalid : ∀ f ∈ findings, f.outcome ≠ .incompatible) {f : Finding} (hf : f ∈ findings) :
    Differ (x.bind fun v => v.locate? f.place) (y.bind fun w => w.locate? f.place) := by
  cases h with
  | absent => cases hf
  | kept v => cases hf
  | graded hb ha =>
    refine ha.differ (fun hi => ?_) f hf
    obtain ⟨f', hf', hfi⟩ := hb.outcome_eq_incompatible.1 hi
    exact hvalid f' hf' hfi
  | filled w =>
    obtain rfl := List.mem_singleton.1 hf
    exact .added w
  | replaced hdefined =>
    obtain rfl := List.mem_singleton.1 hf
    refine .kind fun hkind => ?_
    rename_i w
    cases w <;> simp [Value.kind, Value.isUndefined] at hkind hdefined
  | dropped v =>
    obtain rfl := List.mem_singleton.1 hf
    exact .removed v
  | required =>
    obtain rfl := List.mem_singleton.1 hf
    exact (hvalid _ hf rfl).elim

/-- A part without a finding is unchanged. -/
theorem unchanged (h : PartChange Account x y []) : x = y := by
  generalize hfindings : ([] : List Finding) = findings at h
  cases h with
  | absent => rfl
  | kept v => rfl
  | graded hb ha =>
    have hmatched := hb.outcome_eq_matched.2 hfindings.symm
    rw [(ha.unchanged_iff (by rw [hmatched]; decide)).2 hmatched]
  | filled => cases hfindings
  | replaced => cases hfindings
  | dropped => cases hfindings
  | required => cases hfindings

end PartChange

/-! ## Composites -/

namespace Stepwise

variable {v w : Value} {findings : List Finding}

theorem valid_at {outcome : Outcome} {step : Step} (hvalid : ∀ f ∈ findings, f.outcome ≠ outcome) :
    ∀ f ∈ findingsAt step findings, f.outcome ≠ outcome :=
  fun f hf => hvalid (f.under step) (mem_findingsAt.1 hf)

theorem alike (h : Stepwise Account v w findings)
    (hvalid : ∀ f ∈ findings, f.outcome ≠ .incompatible) {place : List String}
    (hfree : ∀ f ∈ findings, ¬ f.place <+: place) : Alike (v.locate? place) (w.locate? place) := by
  cases place with
  | nil => exact .composite h.shape.kind_eq (by cases h.shape <;> simp [Value.kind])
  | cons segment place =>
    simp only [Value.locate?]
    rcases h.shape.member?_cases segment with ⟨step, rfl, hv, hw⟩ | ⟨hv, hw⟩
    · rw [hv, hw]
      refine (h.change step).alike (valid_at hvalid) fun f hf hprefix => ?_
      refine hfree (f.under step) (mem_findingsAt.1 hf) ?_
      rw [Finding.place_under]
      exact (List.prefix_cons_inj _).2 hprefix
    · rw [hv, hw]
      exact .absent

theorem differ (h : Stepwise Account v w findings)
    (hvalid : ∀ f ∈ findings, f.outcome ≠ .incompatible) {f : Finding} (hf : f ∈ findings) :
    Differ (v.locate? f.place) (w.locate? f.place) := by
  obtain ⟨step, -, f, rfl⟩ := h.headed f hf
  have hdiffer := (h.change step).differ (valid_at hvalid) (mem_findingsAt.2 hf)
  -- A step that leads to a part of either value is of the sort that its segment is read as.
  have hfits : v.Fits step := by
    cases hv : v.part? step with
    | some x => exact Value.fits_of_part? hv
    | none =>
      cases hw : w.part? step with
      | some y => exact (h.shape.fits_iff step).2 (Value.fits_of_part? hw)
      | none =>
        rw [hv, hw] at hdiffer
        exact hdiffer.irrefl.elim
  rw [Finding.place_under, Value.locate?, Value.locate?, Value.member?_segment hfits,
    Value.member?_segment ((h.shape.fits_iff step).1 hfits)]
  exact hdiffer

theorem unchanged (h : Stepwise Account v w []) : v = w :=
  h.shape.ext fun step => (h.change step).unchanged

theorem account {g : Grading} (h : Stepwise Account v w g.findings) (hb : g.Balanced)
    (hg : g.value = if g.outcome = .incompatible then v else w) : Account v g := by
  have hvalid : g.outcome ≠ .incompatible → ∀ f ∈ g.findings, f.outcome ≠ .incompatible :=
    fun hne f hf hfi => hne (hb.outcome_eq_incompatible.2 ⟨f, hf, hfi⟩)
  have hvalue : g.outcome ≠ .incompatible → g.value = w := fun hne => hg.trans (if_neg hne)
  refine ⟨fun hi => hg.trans (if_pos hi), fun hne place hfree => ?_, fun hne f hf => ?_, fun hne => ?_⟩
  · rw [hvalue hne]
    exact h.alike (hvalid hne) hfree
  · rw [hvalue hne]
    exact h.differ (hvalid hne) hf
  · rw [hvalue hne, hb.outcome_eq_matched]
    constructor
    · intro hw
      refine List.eq_nil_iff_forall_not_mem.2 fun f hf => ?_
      have := h.differ (hvalid hne) hf
      rw [hw] at this
      exact this.irrefl
    · intro hnil
      rw [hnil] at h
      exact h.unchanged.symm

end Stepwise

/-! ## Every grading -/

theorem Account.compositional : Compositional Account where
  matched := Account.matched
  refused := fun v _ => Account.refusal v
  coerced := Account.coerced
  composed := fun _ _ _ hb ⟨_, hstep, hvalue⟩ => hstep.account hb hvalue

/-- **The findings are a complete and exact account of the changes.** A refused value is given back as it
is. Otherwise the value and the converted value are alike at each location that is not at or below a
finding, they differ at each finding, and nothing is changed just where the value is matched. -/
theorem compare_account {definitions : Definitions} {maxDepth : Nat} {node : Node} {v : Value}
    {g : Grading} (hd : definitions.Everywhere Node.DistinctNames node) (hv : v.Tidy)
    (h : compare definitions maxDepth node v = some g) : Account v g :=
  Account.compositional.of_grade hd hv h

/-- An array with a text to convert within a map, and an item to drop. -/
theorem compare_account_items :
    let node : Node := .array [.map [⟨"n", .primitive .integer, false, none⟩]] .exact
    let v : Value := .array [.map [("n", .string "7")], .boolean true]
    ∃ g, compare [] 3 node v = some g ∧ g.outcome = .mixed ∧
      g.findings.map Finding.place = [["0", "n"], ["1"]] ∧ Account v g := by
  intro node v
  have hd : Definitions.Everywhere [] Node.DistinctNames node := by
    refine ⟨?_, fun name n hn => absurd hn List.not_mem_nil⟩
    simp [node, Node.subnodes, Node.subnodesAll, Node.subnodesFields, Node.DistinctNames]
  have hv : v.Tidy := ⟨⟨List.pairwise_singleton _ _, trivial, trivial⟩, trivial, trivial⟩
  obtain ⟨g, hg, ho, hp⟩ : ∃ g, compare [] 3 node v = some g ∧ g.outcome = .mixed ∧
      g.findings.map Finding.place = [["0", "n"], ["1"]] :=
    ⟨_, rfl, by decide +kernel, by decide +kernel⟩
  exact ⟨g, hg, ho, hp, compare_account hd hv hg⟩

end Conformance
