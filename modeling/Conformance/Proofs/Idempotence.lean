import Conformance.Proofs.Accepted
import Conformance.Proofs.Account
import Conformance.Proofs.Matching

/-!
# Conversion is idempotent

A value that was converted without filling anything in matches the node that it was converted by.

* `Grading.Settled` — the value is not refused, and nothing that was missing has been filled in.
* `Grading.Settled.compositional_tidy` — the converted value is tidy then.
* `Inside.Stable` — values that are converted and settled match, part by part; `gradeArray_stable`, …
  pass this on to composites.
* `grade_stable` — every grading is stable, by induction on the levels.
* `compare_idempotent` — a second comparison matches and changes nothing.
-/

set_option autoImplicit false

namespace Conformance

/-- Something that was missing has been filled in. -/
def Reason.FillsIn (r : Reason) : Prop := r = .missingOptional ∨ r = .missingElement

/-- The value is not refused, and nothing that was missing has been filled in. -/
def Grading.Settled (g : Grading) : Prop :=
  g.outcome ≠ .incompatible ∧ ∀ f ∈ g.findings, ¬ f.reason.FillsIn

/-- None of the parts is refused or filled in. -/
def Parts.Settled {α : Type} (p : Parts α) : Prop :=
  p.outcome ≠ .incompatible ∧ ∀ f ∈ p.findings, ¬ f.reason.FillsIn

namespace Parts

variable {α : Type}

theorem Settled.left {p q : Parts α} (h : (p.append q).Settled) : p.Settled :=
  ⟨fun hp => h.1 (Outcome.join_eq_incompatible.2 (.inl hp)),
    fun f hf => h.2 f (List.mem_append_left _ hf)⟩

theorem Settled.right {p q : Parts α} (h : (p.append q).Settled) : q.Settled :=
  ⟨fun hq => h.1 (Outcome.join_eq_incompatible.2 (.inr hq)),
    fun f hf => h.2 f (List.mem_append_right _ hf)⟩

theorem Settled.of_graded {step : Step} {piece : Value → α} {g : Grading}
    (h : (graded step piece g).Settled) : g.Settled :=
  ⟨h.1, fun f hf => h.2 (f.under step) (List.mem_map_of_mem hf)⟩

theorem not_settled_of_fillsIn {step : Step} {reason : Reason} {pieces : List α}
    (h : reason.FillsIn) : ¬ (decided step reason pieces).Settled :=
  fun hs => hs.2 _ List.mem_cons_self h

end Parts

/-! ## Settled gradings -/

/-- A value that is matched is not changed. -/
theorem grade_matched {definitions : Definitions} {levels : Nat} {entered : List String} {node : Node}
    {v : Value} {g : Grading} (hd : definitions.Everywhere Node.DistinctNames node) (hv : v.Tidy)
    (h : grade definitions levels entered node v = some g) (hm : g.outcome = .matched) :
    g = .matched v := by
  have ha := Account.compositional.of_grade hd hv h
  have hvalue := (ha.unchanged_iff (by rw [hm]; decide)).2 hm
  have hfindings := (grade_balanced h).outcome_eq_matched.1 hm
  obtain ⟨outcome, value, findings⟩ := g
  obtain rfl : outcome = .matched := hm
  obtain rfl : value = v := hvalue
  obtain rfl : findings = [] := hfindings
  rfl

/-- What a coercion puts in is a value without parts, or else what stands for missing data of the kind. -/
theorem isScalar_or_zero_of_coerce {target : Kind} {v w : Value}
    (h : coerce target v = .converted w ∨ coerce target v = .defaulted w) :
    w.kind.isScalar = true ∨ w = target.zero := by
  rcases (coerce_cases h).2 with hzero | hw
  · exact .inr hzero
  · left
    rw [Coercion.kind_of_convert? hw]
    cases target
    case undefined => cases hw
    case array => cases hw
    case map => cases hw
    all_goals rfl

/-- What a coercion puts in is a scalar, or empty. -/
theorem tidy_of_coerce {target : Kind} {v w : Value}
    (h : coerce target v = .converted w ∨ coerce target v = .defaulted w) : w.Tidy := by
  rcases isScalar_or_zero_of_coerce h with hscalar | rfl
  · cases w <;> trivial
  · cases target <;> first | trivial | exact ⟨List.Pairwise.nil, trivial⟩

/-- A settled part of a composite is tidy if the part before was. -/
theorem PartChange.tidy {x y : Option Value} {findings : List Finding} {w : Value}
    (h : PartChange (fun v g => v.Tidy → g.Settled → g.value.Tidy) x y findings)
    (hx : ∀ v, x = some v → v.Tidy) (hvalid : ∀ f ∈ findings, f.outcome ≠ .incompatible)
    (hfills : ∀ f ∈ findings, ¬ f.reason.FillsIn) (hw : y = some w) : w.Tidy := by
  cases h with
  | absent => cases hw
  | kept v =>
    cases hw
    exact hx _ rfl
  | graded hb hp =>
    cases hw
    refine hp (hx _ rfl) ⟨fun hi => ?_, hfills⟩
    obtain ⟨f, hf, hfi⟩ := hb.outcome_eq_incompatible.1 hi
    exact hvalid f hf hfi
  | filled v hreason => exact absurd hreason (hfills _ List.mem_cons_self)
  | replaced => exact absurd (.inl rfl) (hfills _ List.mem_cons_self)
  | dropped => cases hw
  | required => cases hw

theorem Value.tidy_part {v w : Value} {step : Step} (hv : v.Tidy) (h : v.part? step = some w) :
    w.Tidy := by
  cases v <;> cases step <;> first | cases h | skip
  case array.index items i => exact Value.tidyItems_iff.1 hv w (List.mem_of_getElem? h)
  case map.key entries name => exact Value.tidyEntries_iff.1 hv.2 _ (Entries.mem_of_get? h)

theorem Value.SameShape.tidy {v w : Value} (h : v.SameShape w)
    (hp : ∀ step x, w.part? step = some x → x.Tidy) : w.Tidy := by
  cases h with
  | arrays items others =>
    refine Value.tidyItems_iff.2 fun x hx => ?_
    obtain ⟨i, hi⟩ := List.getElem?_of_mem hx
    exact hp (.index i) x hi
  | maps _ hw =>
    refine ⟨hw, Value.tidyEntries_iff.2 fun e he => ?_⟩
    exact hp (.key e.1) e.2 (Entries.get?_of_mem hw.nodup_keys he)

theorem Grading.Settled.compositional_tidy :
    Compositional fun v g => v.Tidy → g.Settled → g.value.Tidy where
  matched := fun _ hv _ => hv
  refused := fun _ _ _ hv _ => hv
  coerced := fun kind v hv _ => by
    unfold gradePrimitive
    split
    · exact hv
    · rename_i w hw
      exact tidy_of_coerce (.inl hw)
    · rename_i w hw
      exact tidy_of_coerce (.inr hw)
    · exact hv
  composed := fun v g hv hb ⟨w, hstep, hvalue⟩ _ hg => by
    rw [hvalue, if_neg hg.1]
    refine hstep.shape.tidy fun step x hx => ?_
    refine (hstep.change step).tidy (fun u hu => Value.tidy_part hv hu) ?_ ?_ hx
    · intro f hf hfi
      exact hg.1 (hb.outcome_eq_incompatible.2 ⟨_, mem_findingsAt.1 hf, hfi⟩)
    · exact fun f hf => hg.2 (f.under step) (mem_findingsAt.1 hf)

theorem coerce_undefined (v : Value) :
    coerce .undefined v = .matched ∨ coerce .undefined v = .incompatible := by
  cases v <;> simp [coerce, Value.kind, Coercion.isMissing, Coercion.emptyTextIsMissing,
    Coercion.convert?, Coercion.ofOption]

/-- Nothing but `undefined` is converted to it. -/
theorem compositional_undefined : Compositional fun v g => g.value = .undefined → v = .undefined where
  matched := fun _ h => h
  refused := fun _ _ _ h => h
  coerced := fun kind v h => by
    unfold gradePrimitive at h
    split at h
    · exact h
    · rename_i w hw
      obtain rfl : w = .undefined := h
      obtain rfl := (kind_of_coerce (.inl hw)).1
      rcases coerce_undefined v with hc | hc <;> rw [Value.kind, hc] at hw <;> cases hw
    · rename_i w hw
      obtain rfl : w = .undefined := h
      obtain rfl := (kind_of_coerce (.inr hw)).1
      rcases coerce_undefined v with hc | hc <;> rw [Value.kind, hc] at hw <;> cases hw
    · exact h
  composed := fun v g _ _ ⟨w, hstep, hvalue⟩ h => by
    rw [hvalue] at h
    split at h
    · exact h
    · have hshape := hstep.shape
      rw [h] at hshape
      cases hshape

/-! ## Values graded as a whole -/

theorem gradePrimitive_stable {kind : Kind} {v : Value}
    (h : (gradePrimitive kind v).outcome ≠ .incompatible) :
    (gradePrimitive kind (gradePrimitive kind v).value).outcome = .matched := by
  have hkind : (gradePrimitive kind v).value.kind = kind := by
    unfold gradePrimitive at h ⊢
    split at h
    · rename_i hc
      exact coerce_eq_matched.1 hc
    · rename_i w hc
      exact (kind_of_coerce (.inl hc)).1
    · rename_i w hc
      exact (kind_of_coerce (.inr hc)).1
    · exact absurd rfl h
  rw [gradePrimitive, coerce_eq_matched.2 hkind]
  rfl

theorem gradeLiteral_stable {expected v : Value}
    (h : (gradeLiteral expected v).outcome ≠ .incompatible) :
    (gradeLiteral expected (gradeLiteral expected v).value).outcome = .matched := by
  unfold gradeLiteral at h ⊢
  split at h
  · rename_i hequal
    rw [if_pos hequal]
    simp only [Grading.matched, hequal, if_true]
  · exact absurd rfl h

/-! ## Composites -/

/-- Parts are graded in balance, and by nodes with a property so that values that are converted and
settled match the node then; nothing else is converted to `undefined`. -/
structure Inside.Stable (inside : Inside) (Q : Node → Prop) : Prop where
  balanced : inside.Balanced
  defined : ∀ node v g, Q node → v.Tidy → inside.grade node v = some g → g.value = .undefined →
    v = .undefined
  again : ∀ node v g h, Q node → v.Tidy → inside.grade node v = some g → g.Settled →
    inside.grade node g.value = some h → h.outcome = .matched

section Composites

variable {inside : Inside} {Q : Node → Prop}

/-- The items that are left are as many as the nodes, and each matches its node. -/
theorem gradeItems_stable (hin : inside.Stable Q) :
    ∀ {index : Nat} {nodes : List Node} {items : List Value} {p : Parts Value},
      (∀ n ∈ nodes, Q n) → (∀ v ∈ items, v.Tidy) → gradeItems inside index nodes items = some p →
      p.Settled → p.pieces.length = nodes.length ∧ nodes.length ≤ items.length ∧
        ∀ {q}, gradeItems inside index nodes p.pieces = some q → q.outcome = .matched
  | index, [], items, p, _, _, h, _ => by
    cases h
    obtain ⟨hpieces, -⟩ := extraItems_change (P := fun _ _ => True) index items
    rw [hpieces]
    refine ⟨rfl, Nat.zero_le _, fun hq => ?_⟩
    cases hq
    rfl
  | index, node :: nodes, v :: items, p, hn, hv, h, hp => by
    obtain ⟨g, rest, hg, hrest, rfl⟩ := gradeItems_cons_cons.1 h
    obtain ⟨hnode, hnodes⟩ := List.forall_mem_cons.1 hn
    obtain ⟨hv, hitems⟩ := List.forall_mem_cons.1 hv
    obtain ⟨hlen, hle, hmatch⟩ := gradeItems_stable hin hnodes hitems hrest hp.right
    refine ⟨congrArg Nat.succ hlen, Nat.succ_le_succ hle, fun hq => ?_⟩
    obtain ⟨g', rest', hg', hrest', rfl⟩ := gradeItems_cons_cons.1 hq
    exact Outcome.join_eq_matched.2
      ⟨hin.again node v g g' hnode hv hg hp.left.of_graded hg', hmatch hrest'⟩
  | index, node :: nodes, [], p, _, _, h, hp => by
    obtain ⟨w, rest, -, -, rfl⟩ := gradeItems_cons_nil.1 h
    exact absurd hp.left (Parts.not_settled_of_fillsIn (.inr rfl))

/-- A pattern is repeated for at least as many items as there are. -/
theorem ArraySize.le_length_unroll {elements : List Node} (h : elements ≠ []) (items : Nat) :
    items ≤ (ArraySize.repeating.unroll elements items).length := by
  have hpos : 0 < elements.length := List.length_pos_iff.2 h
  have hdiv := Nat.div_add_mod (items + elements.length - 1) elements.length
  have hmod := Nat.mod_lt (items + elements.length - 1) hpos
  have hlen : (ArraySize.repeating.unroll elements items).length =
      elements.length * ((items + elements.length - 1) / elements.length) := by
    simp [unroll, Nat.mul_comm]
  omega

theorem gradeArray_stable (hin : inside.Stable Q) {elements : List Node} {size : ArraySize}
    {v : Value} {g h : Grading} (hq : ∀ n ∈ elements, Q n) (hv : v.Tidy)
    (hg : gradeArray inside elements size v = some g) (hs : g.Settled)
    (hh : gradeArray inside elements size g.value = some h) : h.outcome = .matched := by
  rcases gradeArray_cases hg with rfl | ⟨rfl, -⟩ | ⟨items, p, rfl, hne, hp, rfl⟩
  · have hsame : gradeArray inside elements size v = some h := hh
    rw [hg] at hsame
    cases hsame
    rfl
  · exact absurd rfl hs.1
  obtain ⟨hlen, hle, hmatch⟩ := gradeItems_stable hin (fun n hn => hq n (ArraySize.mem_unroll hn))
    (Value.tidyItems_iff.1 hv) hp hs
  have hunroll : size.unroll elements p.pieces.length = size.unroll elements items.length := by
    cases size with
    | exact => rfl
    | repeating =>
      have := ArraySize.le_length_unroll hne items.length
      rw [show p.pieces.length = items.length by omega]
  have hvalue : (p.close .array (.array items)).value = .array p.pieces := if_neg hs.1
  rw [hvalue] at hh
  rcases gradeArray_cases hh with rfl | ⟨-, hno⟩ | ⟨pieces, q, heq, -, hq, rfl⟩
  · rfl
  · exact absurd rfl (hno _)
  · cases heq
    rw [hunroll] at hq
    exact hmatch hq

theorem gradeEntries_stable (hin : inside.Stable Q) {entry : Node} (hq : Q entry) :
    ∀ {entries : Entries Value} {p : Parts (String × Value)}, (∀ e ∈ entries, e.2.Tidy) →
      gradeEntries inside entry entries = some p → p.Settled →
      p.pieces.map Prod.fst = entries.map Prod.fst ∧
        ∀ {q}, gradeEntries inside entry p.pieces = some q → q.outcome = .matched
  | [], p, _, h, _ => by
    cases h
    refine ⟨rfl, fun hq => ?_⟩
    cases hq
    rfl
  | e :: entries, p, hv, h, hp => by
    obtain ⟨g, rest, hg, hrest, rfl⟩ := gradeEntries_cons.1 h
    obtain ⟨hv, hentries⟩ := List.forall_mem_cons.1 hv
    obtain ⟨hkeys, hmatch⟩ := gradeEntries_stable hin hq hentries hrest hp.right
    refine ⟨congrArg (e.1 :: ·) hkeys, fun hq' => ?_⟩
    obtain ⟨g', rest', hg', hrest', rfl⟩ := gradeEntries_cons.1 hq'
    exact Outcome.join_eq_matched.2
      ⟨hin.again entry e.2 g g' hq hv hg hp.left.of_graded hg', hmatch hrest'⟩

theorem gradeDictionary_stable (hin : inside.Stable Q) {entry : Node} {v : Value} {g h : Grading}
    (hq : Q entry) (hv : v.Tidy) (hg : gradeDictionary inside entry v = some g) (hs : g.Settled)
    (hh : gradeDictionary inside entry g.value = some h) : h.outcome = .matched := by
  rcases gradeDictionary_cases hg with ⟨rfl, -⟩ | ⟨entries, p, rfl, hp, rfl⟩
  · exact absurd rfl hs.1
  obtain ⟨hkeys, hmatch⟩ := gradeEntries_stable hin hq (Value.tidyEntries_iff.1 hv.2) hp hs
  have hvalue : (p.close (fun pieces => .map (Entries.ofList pieces)) (.map entries)).value =
      .map p.pieces := by
    rw [← (Entries.Sorted.of_keys hv.1 hkeys).ofList_eq]
    exact if_neg hs.1
  rw [hvalue] at hh
  rcases gradeDictionary_cases hh with ⟨-, hno⟩ | ⟨pieces, q, heq, hq, rfl⟩
  · exact absurd rfl (hno _)
  · cases heq
    exact hmatch hq

/-! ## Maps -/

/-- What is left at a declared field is graded without a finding. -/
theorem gradeField_stable (hin : inside.Stable Q) {entries others : Entries Value} {f : Field Node}
    {p q : Parts (String × Value)} (hf : Q f.node)
    (hv : ∀ v, Entries.get? entries f.name = some v → v.Tidy)
    (hp : gradeField inside entries f = some p) (hs : p.Settled)
    (hget : Entries.get? others f.name = Entries.get? p.pieces f.name)
    (hq : gradeField inside others f = some q) : q.outcome = .matched := by
  have hpiece : ∀ v : Value, Entries.get? [(f.name, v)] f.name = some v := fun v =>
    (Entries.get?_cons _ _ _).trans (if_pos rfl)
  cases gradeField_cases hp with
  | @graded v g hbefore hpresent hg =>
    rcases gradeField_of_get? (hget.trans (hpiece g.value)) hq with
      ⟨-, g', hg', rfl⟩ | ⟨hundefined, habsent, -⟩
    · exact hin.again f.node v g g' hf (hv v hbefore) hg hs.of_graded hg'
    · obtain rfl := hin.defined f.node v g hf (hv v hbefore) hg hundefined
      rw [habsent] at hpresent
      cases hpresent
  | kept hbefore habsent hfill =>
    rcases gradeField_of_get? (hget.trans (hpiece .undefined)) hq with ⟨hpresent, -⟩ | ⟨-, -, hkept⟩
    · rw [habsent] at hpresent
      cases hpresent
    · rw [hkept _ hfill rfl]
      rfl
  | replaced => exact absurd hs (Parts.not_settled_of_fillsIn (.inl rfl))
  | filled => exact absurd hs (Parts.not_settled_of_fillsIn (.inl rfl))
  | required => exact absurd rfl hs.1

/-- The parts of the declared fields do not get into each other's way. -/
theorem gradeFields_part (hb : inside.Balanced) {entries : Entries Value} :
    ∀ {fields : List (Field Node)} {p : Parts (String × Value)}, (fields.map Field.name).Nodup →
      gradeFields inside entries fields = some p → ∀ f ∈ fields, ∃ before part after : Parts (String × Value),
        gradeField inside entries f = some part ∧ p = (before.append part).append after ∧
        Entries.get? p.pieces f.name = Entries.get? part.pieces f.name
  | [], _, _, _ => by simp
  | e :: fields, p, hnd, h => by
    obtain ⟨first, rest, hfirst, hrest, rfl⟩ := gradeFields_cons.1 h
    rw [List.map_cons, List.nodup_cons] at hnd
    have hc := gradeField_change (Q := fun _ => True) (V := fun _ => True) hb.grades trivial
      (fun _ _ => trivial) hfirst
    have hcs := gradeFields_change (Q := fun _ => True) (V := fun _ => True) hb.grades
      (fun _ _ _ => trivial) (fun _ _ => trivial) hnd.2 hrest
    refine List.forall_mem_cons.2 ⟨⟨.empty, first, rest, hfirst, ?_, ?_⟩, fun f hf => ?_⟩
    · rw [Parts.empty_append]
    · have hnot : ¬ ∃ f ∈ fields, f.name = e.name := fun ⟨f, hf, hname⟩ =>
        hnd.1 (hname ▸ List.mem_map_of_mem hf)
      rw [Parts.append, Entries.get?_append, hcs.get?_eq_none hnot, Option.or_none]
    · obtain ⟨before, part, after, hpart, rfl, hget⟩ := gradeFields_part hb hnd.2 hrest f hf
      have hne : f.name ≠ e.name := fun hname => hnd.1 (hname ▸ List.mem_map_of_mem hf)
      refine ⟨first.append before, part, after, hpart, ?_, ?_⟩
      · rw [Parts.append_assoc, Parts.append_assoc, Parts.append_assoc]
      · rw [Parts.append, Entries.get?_append, hc.get?_eq_none hne, Option.none_or, hget]

theorem gradeFields_matched {entries : Entries Value} :
    ∀ {fields : List (Field Node)} {p : Parts (String × Value)},
      gradeFields inside entries fields = some p →
      (∀ f ∈ fields, ∀ part, gradeField inside entries f = some part → part.outcome = .matched) →
      p.outcome = .matched
  | [], p, h, _ => by
    cases h
    rfl
  | f :: fields, p, h, hall => by
    obtain ⟨part, rest, hpart, hrest, rfl⟩ := gradeFields_cons.1 h
    obtain ⟨hf, hfields⟩ := List.forall_mem_cons.1 hall
    exact Outcome.join_eq_matched.2 ⟨hf part hpart, gradeFields_matched hrest hfields⟩

/-- What is left at keys that are not declared is what stands at the key that is kept. -/
theorem undeclaredEntries_pieces (fields : List (Field Node)) (kept : Option String)
    (entries : Entries Value) : (undeclaredEntries fields kept entries).pieces =
      entries.filter fun e => (Field.find? fields e.1).isNone && decide (kept = some e.1) := by
  induction entries with
  | nil => rfl
  | cons d entries ih =>
    simp only [undeclaredEntries]
    by_cases hfind : (Field.find? fields d.1).isSome = true
    · rw [if_pos hfind, ih, List.filter_cons_of_neg (by simp [Option.isNone_eq_false_iff.2 hfind])]
    · have hnone : Field.find? fields d.1 = none := by simpa using hfind
      rw [if_neg hfind]
      by_cases hkept : kept = some d.1
      · rw [if_pos hkept, List.filter_cons_of_pos (by simp [hnone, hkept]), ← ih]
        rfl
      · rw [if_neg hkept, List.filter_cons_of_neg (by simp [hkept]), ← ih]
        rfl

theorem mem_undeclaredEntries {fields : List (Field Node)} {kept : Option String}
    {entries : Entries Value} {e : String × Value} :
    e ∈ (undeclaredEntries fields kept entries).pieces ↔
      e ∈ entries ∧ Field.find? fields e.1 = none ∧ kept = some e.1 := by
  rw [undeclaredEntries_pieces, List.mem_filter]
  simp

/-- The map that is left after the grading by the fields of a map. -/
def remainder (fields : List (Field Node)) (kept : Option String) (entries : Entries Value)
    (p : Parts (String × Value)) : Entries Value :=
  Entries.ofList (p.append (undeclaredEntries fields kept entries)).pieces

section Remainder

variable {fields : List (Field Node)} {entries : Entries Value} {p : Parts (String × Value)}

theorem nodup_remainder (hb : inside.Balanced) (hnd : (fields.map Field.name).Nodup)
    (hv : (Value.map entries).Tidy) (hp : gradeFields inside entries fields = some p)
    (kept : Option String) :
    ((p.append (undeclaredEntries fields kept entries)).pieces.map Prod.fst).Nodup := by
  exact (gradeMap_change (Q := fun _ => True) hb.grades kept (fun _ _ => trivial) hnd hv hp).nodup

theorem get?_remainder_field (hb : inside.Balanced) (hnd : (fields.map Field.name).Nodup)
    (hv : (Value.map entries).Tidy) (hp : gradeFields inside entries fields = some p)
    (kept : Option String) {f : Field Node} (hf : f ∈ fields) :
    Entries.get? (remainder fields kept entries p) f.name = Entries.get? p.pieces f.name := by
  have hnone : Entries.get? (undeclaredEntries fields kept entries).pieces f.name = none := by
    refine Entries.get?_eq_none.2 fun e he hname => ?_
    have := List.find?_eq_none.1 (mem_undeclaredEntries.1 he).2.1 f hf
    simp [hname] at this
  rw [remainder, Entries.get?_ofList (nodup_remainder hb hnd hv hp kept), Parts.append,
    Entries.get?_append, hnone, Option.or_none]

theorem get?_remainder_kept (hb : inside.Balanced) (hnd : (fields.map Field.name).Nodup)
    (hv : (Value.map entries).Tidy) (hp : gradeFields inside entries fields = some p) {key : String}
    {v : Value} (hkey : Field.find? fields key = none) (hget : Entries.get? entries key = some v) :
    Entries.get? (remainder fields (some key) entries p) key = some v := by
  have hmem : (key, v) ∈ (undeclaredEntries fields (some key) entries).pieces :=
    mem_undeclaredEntries.2 ⟨Entries.mem_of_get? hget, hkey, rfl⟩
  have hnodup := nodup_remainder hb hnd hv hp (some key)
  rw [remainder, Entries.get?_ofList hnodup]
  exact Entries.get?_of_mem hnodup (List.mem_append_right p.pieces hmem)

theorem keys_remainder (hb : inside.Balanced) (hnd : (fields.map Field.name).Nodup)
    (hv : (Value.map entries).Tidy) (hp : gradeFields inside entries fields = some p)
    (kept : Option String) : ∀ e ∈ remainder fields kept entries p,
      (Field.find? fields e.1).isSome = true ∨ kept = some e.1 := by
  intro e he
  have hget := Entries.get?_of_mem (Entries.sorted_ofList _).nodup_keys he
  rw [Entries.get?_ofList (nodup_remainder hb hnd hv hp kept)] at hget
  rcases List.mem_append.1 (Entries.mem_of_get? hget) with hmem | hmem
  · have hchange := gradeFields_change (Q := fun _ => True) (V := fun _ => True) hb.grades
      (fun _ _ _ => trivial) (fun _ _ => trivial) hnd hp
    obtain ⟨f, hf, hname⟩ := hchange.keys _ hmem
    exact .inl (List.find?_isSome.2 ⟨f, hf, by simpa using hname⟩)
  · exact .inr (mem_undeclaredEntries.1 hmem).2.2

end Remainder

theorem gradeMap_stable (hin : inside.Stable Q) {fields : List (Field Node)} {kept : Option String}
    {v : Value} {g h : Grading} (hq : ∀ f ∈ fields, Q f.node) (hnd : (fields.map Field.name).Nodup)
    (hv : v.Tidy) (hg : gradeMap inside fields kept v = some g) (hs : g.Settled)
    (hh : gradeMap inside fields kept g.value = some h) : h.outcome = .matched := by
  rcases gradeMap_cases hg with ⟨rfl, -⟩ | ⟨entries, p, rfl, hp, rfl⟩
  · exact absurd rfl hs.1
  have hvalue : ((p.append (undeclaredEntries fields kept entries)).close
      (fun pieces => .map (Entries.ofList pieces)) (.map entries)).value =
      .map (remainder fields kept entries p) := if_neg hs.1
  have hsettled : p.Settled := Parts.Settled.left hs
  rw [hvalue] at hh
  rcases gradeMap_cases hh with ⟨-, hno⟩ | ⟨others, q, heq, hq', rfl⟩
  · exact absurd rfl (hno _)
  cases heq
  refine Outcome.join_eq_matched.2 ⟨gradeFields_matched hq' fun f hf part hpart => ?_, ?_⟩
  · obtain ⟨before, converted, after, hconverted, hparts, hget⟩ :=
      gradeFields_part hin.balanced hnd hp f hf
    have hsettled' : converted.Settled := (hparts ▸ hsettled).left.right
    refine gradeField_stable hin (hq f hf) (fun w hw => ?_) hconverted hsettled' ?_ hpart
    · exact Value.tidyEntries_iff.1 hv.2 _ (Entries.mem_of_get? hw)
    · rw [get?_remainder_field hin.balanced hnd hv hp kept hf, hget]
  · exact undeclaredEntries_matched_iff.2 (keys_remainder hin.balanced hnd hv hp kept)

/-! ## Selectors -/

/-- A sound selector grades a value by the map of the alternative that the value chooses. -/
theorem gradeSelector_sound {definitions : Definitions} {discriminant : String}
    {alternatives : List (Alternative Node)} {v : Value} {g : Grading}
    (hsound : (Node.selector discriminant alternatives).Sound definitions)
    (h : gradeSelector definitions inside discriminant alternatives v = some g) :
    (g.outcome = .incompatible ∧ ∀ entries, v = .map entries →
      Alternative.chosen? alternatives discriminant entries = none) ∨
    ∃ entries a fields, v = .map entries ∧
      Alternative.chosen? alternatives discriminant entries = some a ∧
      definitions.resolveMap? a.node = some fields ∧
      gradeMap inside fields (some discriminant) v = some g := by
  rcases gradeSelector_cases h with ⟨⟨reason, hr, rfl⟩, hnone⟩ | ⟨entries, a, rfl, ha, hcase⟩
  · exact .inl ⟨hr, hnone⟩
  obtain ⟨fields, hfields, -⟩ := hsound a (Alternative.mem_of_chosen? ha)
  refine .inr ⟨entries, a, fields, rfl, ha, hfields, ?_⟩
  rcases hcase with ⟨fields', hfields', hmap⟩ | ⟨hnone, -⟩
  · obtain rfl := Option.some.inj (hfields.symm.trans hfields')
    exact hmap
  · rw [hfields] at hnone
    cases hnone

/-- The value at a key that is kept stays, also where a field at this key does not change it. -/
theorem get?_remainder_stays (hb : inside.Balanced) {fields : List (Field Node)}
    {entries : Entries Value} {p : Parts (String × Value)} (hnd : (fields.map Field.name).Nodup)
    (hv : (Value.map entries).Tidy) (hp : gradeFields inside entries fields = some p)
    (hvalid : p.outcome ≠ .incompatible) {key : String} {v : Value}
    (hget : Entries.get? entries key = some v) (hdefined : v ≠ .undefined)
    (hstays : ∀ f g, Field.find? fields key = some f → inside.grade f.node v = some g →
      g.outcome ≠ .incompatible → g.value = v) :
    Entries.get? (remainder fields (some key) entries p) key = some v := by
  cases hdeclared : Field.find? fields key with
  | none => exact get?_remainder_kept hb hnd hv hp hdeclared hget
  | some f =>
    have hf := List.mem_of_find?_eq_some hdeclared
    obtain rfl : f.name = key := by simpa using List.find?_some hdeclared
    obtain ⟨before, part, after, hpart, rfl, hsame⟩ := gradeFields_part hb hnd hp f hf
    have hvalid' : part.outcome ≠ .incompatible :=
      (Outcome.join_ne_incompatible.1 (Outcome.join_ne_incompatible.1 hvalid).1).2
    rw [get?_remainder_field hb hnd hv hp _ hf, hsame]
    rcases gradeField_of_get? hget hpart with ⟨-, g, hg, rfl⟩ | ⟨hundefined, -⟩
    · have hvalue := hstays f g hdeclared hg hvalid'
      exact (Entries.get?_cons _ _ _).trans ((if_pos rfl).trans (congrArg some hvalue))
    · exact absurd hundefined hdefined

/-- A sound selector that does not refuse a map leaves the value at its discriminant as it is, so that the
same alternative is chosen again. It is `hkey` that keeps it where the chosen map declares the
discriminant. -/
theorem gradeSelector_keeps (hb : inside.Balanced)
    (hkey : ∀ n v key g, inside.grade n v = some g → g.outcome ≠ .incompatible →
      n.acceptsKey key = true → key.equal v = true → g.value = v)
    {definitions : Definitions} {discriminant : String} {alternatives : List (Alternative Node)}
    {v : Value} {g : Grading} (hsound : (Node.selector discriminant alternatives).Sound definitions)
    (hnames : ∀ a ∈ alternatives, ∀ fields, definitions.resolveMap? a.node = some fields →
      (fields.map Field.name).Nodup)
    (hv : v.Tidy) (hg : gradeSelector definitions inside discriminant alternatives v = some g)
    (hvalid : g.outcome ≠ .incompatible) :
    ∃ entries others a fields key, v = .map entries ∧ g.value = .map others ∧
      Entries.get? entries discriminant = some key ∧ Entries.get? others discriminant = some key ∧
      Alternative.chosen? alternatives discriminant entries = some a ∧
      Alternative.chosen? alternatives discriminant others = some a ∧
      definitions.resolveMap? a.node = some fields ∧
      gradeMap inside fields (some discriminant) v = some g := by
  rcases gradeSelector_sound hsound hg with ⟨hi, -⟩ | ⟨entries, a, fields, rfl, ha, hfields, hmap⟩
  · exact absurd hi hvalid
  obtain ⟨key, hget, hdiscriminant, hfind⟩ := Alternative.chosen?_eq_some.1 ha
  have hmem := Alternative.mem_of_chosen? ha
  have hnd := hnames a hmem fields hfields
  rcases gradeMap_cases hmap with ⟨rfl, -⟩ | ⟨_, p, heq, hp, rfl⟩
  · exact absurd rfl hvalid
  cases heq
  have hkept : Entries.get? (remainder fields (some discriminant) entries p) discriminant =
      some key := by
    refine get?_remainder_stays hb hnd hv hp ?_ hget ?_ ?_
    · exact fun hi => hvalid (Outcome.join_eq_incompatible.2 (.inl hi))
    · rintro rfl
      cases hdiscriminant
    · intro f g' hdeclared hg' hvalid'
      obtain ⟨fields', hfields', haccepts⟩ := hsound a hmem
      obtain rfl := Option.some.inj (hfields.symm.trans hfields')
      have hequal : a.key.equal key = true := by simpa using List.find?_some hfind
      exact hkey f.node key a.key g' hg' hvalid' (haccepts f hdeclared) hequal
  exact ⟨entries, remainder fields (some discriminant) entries p, a, fields, key, rfl, if_neg hvalid,
    hget, hkept, ha, Alternative.chosen?_eq_some.2 ⟨key, hkept, hdiscriminant, hfind⟩, hfields, hmap⟩

/-- The same alternative is chosen again. -/
theorem gradeSelector_stable (hin : inside.Stable Q)
    (hkey : ∀ n v key g, inside.grade n v = some g → g.outcome ≠ .incompatible →
      n.acceptsKey key = true → key.equal v = true → g.value = v)
    {definitions : Definitions} {discriminant : String} {alternatives : List (Alternative Node)}
    {v : Value} {g h : Grading}
    (hsound : (Node.selector discriminant alternatives).Sound definitions)
    (hq : ∀ a ∈ alternatives, ∀ fields, definitions.resolveMap? a.node = some fields →
      (fields.map Field.name).Nodup ∧ ∀ f ∈ fields, Q f.node)
    (hv : v.Tidy) (hg : gradeSelector definitions inside discriminant alternatives v = some g)
    (hs : g.Settled)
    (hh : gradeSelector definitions inside discriminant alternatives g.value = some h) :
    h.outcome = .matched := by
  obtain ⟨entries, others, a, fields, key, rfl, hvalue, -, -, ha, hchosen, hfields, hmap⟩ :=
    gradeSelector_keeps hin.balanced hkey hsound (fun a ha fields hf => (hq a ha fields hf).1) hv hg hs.1
  obtain ⟨hnd, hnodes⟩ := hq a (Alternative.mem_of_chosen? ha) fields hfields
  rcases gradeSelector_sound hsound hh with ⟨-, hnone⟩ | ⟨_, a', fields', heq, ha', hfields', hmap'⟩
  · rw [hnone others hvalue] at hchosen
    cases hchosen
  rw [hvalue] at heq
  cases heq
  obtain rfl := Option.some.inj (hchosen.symm.trans ha')
  obtain rfl := Option.some.inj (hfields.symm.trans hfields')
  exact gradeMap_stable hin hnodes hnd hv hmap hs hmap'

end Composites

theorem Value.kind_eq_of_equal {v w : Value} (h : v.equal w = true) : v.kind = w.kind := by
  cases v <;> cases w <;> first | rfl | simp [equal] at h

/-- A node that takes a key as it is does not change a value that equals the key. -/
theorem value_of_acceptsKey {definitions : Definitions} {levels : Nat} {entered : List String}
    {n : Node} {v key : Value} {g : Grading} (h : grade definitions levels entered n v = some g)
    (hvalid : g.outcome ≠ .incompatible) (haccepts : n.acceptsKey key = true)
    (hequal : key.equal v = true) : g.value = v := by
  cases levels with
  | zero =>
    cases h
    rfl
  | succ levels =>
    cases n <;> try cases haccepts
    case primitive kind =>
      cases h
      have hkind : v.kind = kind := by
        rw [← Value.kind_eq_of_equal hequal]
        exact (beq_iff_eq.1 haccepts).symm
      rw [gradePrimitive, coerce_eq_matched.2 hkind]
      rfl
    case literal expected =>
      cases h
      unfold gradeLiteral
      split <;> rfl

/-! ## Every grading -/

theorem Outcome.eq_matched_of_le {o : Outcome} (h : .matched ≤ o) : o = .matched := by
  revert h
  cases o <;> decide

/-- **Values that are converted and settled match**, at every level and below all names. -/
theorem grade_stable {definitions : Definitions} {levels : Nat} {entered : List String} :
    ∀ node v g h, definitions.Everywhere (Node.Sound definitions) node → v.Tidy →
      grade definitions levels entered node v = some g → g.Settled →
      grade definitions levels entered node g.value = some h → h.outcome = .matched := by
  induction levels generalizing entered with
  | zero =>
    intro node v g h _ _ hg hs _
    cases hg
    exact absurd rfl hs.1
  | succ levels ih =>
    intro node v g h hq hv hg hs hh
    have hin : (Inside.below definitions levels entered).Stable
        (definitions.Everywhere (Node.Sound definitions)) :=
      ⟨fun _ _ _ => grade_balanced, fun _ _ _ hq hv hg =>
        compositional_undefined.of_grade (hq.mono fun _ => Node.Sound.distinctNames) hv hg, ih⟩
    cases node
    case any =>
      cases hh
      rfl
    case primitive kind =>
      cases hg
      cases hh
      exact gradePrimitive_stable hs.1
    case literal expected =>
      cases hg
      cases hh
      exact gradeLiteral_stable hs.1
    case array elements size =>
      exact gradeArray_stable hin (fun n hn => hq.part (.element hn)) hv hg hs hh
    case map fields =>
      exact gradeMap_stable hin (fun f hf => hq.part (.field hf)) hq.self hv hg hs hh
    case dictionary entry => exact gradeDictionary_stable hin (hq.part .entry) hv hg hs hh
    case selector discriminant alternatives =>
      refine gradeSelector_stable hin (fun n w key r => value_of_acceptsKey) hq.self ?_ hv hg hs hh
      intro a ha fields hfields
      have hmap := (hq.part (.alternative ha)).resolved hfields
      exact ⟨hmap.self, fun f hf => hmap.part (.field hf)⟩
    case reference name =>
      rcases gradeReference_cases hg with ⟨-, rfl⟩ | ⟨n, hn, hg⟩
      · exact absurd rfl hs.1
      rcases gradeReference_best hh with hmatched | hall
      · exact hmatched
      -- The node that converted the value takes part again, so the best of them matches.
      obtain ⟨g', hg', hle⟩ := hall n hn
      rw [ih n v g g' (hq.definition hn) hv hg hs hg'] at hle
      exact Outcome.eq_matched_of_le hle

/-- **Conversion is idempotent.** Where a text is accepted and a value is converted by one of its nodes
without filling in what was missing, the converted value matches: a second comparison that gives a result
has no findings and gives back the identical value. -/
theorem compare_idempotent {definitions : Definitions} {node : Node} {maxDepth : Nat} {v : Value}
    {g h : Grading} (ha : Accepted definitions node) (hv : v.Tidy)
    (hg : compare definitions maxDepth node v = some g) (hvalid : g.outcome ≠ .incompatible)
    (hfilled : ∀ f ∈ g.findings, f.reason ≠ .missingOptional ∧ f.reason ≠ .missingElement)
    (hh : compare definitions maxDepth node g.value = some h) : h = .matched g.value := by
  have hsound := ha.sound
  have hnames : definitions.Everywhere Node.DistinctNames node :=
    hsound.mono fun _ => Node.Sound.distinctNames
  have hs : g.Settled := ⟨hvalid, fun f hf => not_or.2 (hfilled f hf)⟩
  have htidy := Grading.Settled.compositional_tidy.of_grade hnames hv hg hv hs
  exact grade_matched hnames htidy hh (grade_stable node v g h hsound hv hg hs hh)

/-- The first item is a map that a selector chooses, the second is converted and the third dropped. -/
theorem compare_idempotent_selector :
    let text := "&s = select k \x7b \"x\": \x7b k: string \x7d \x7d\n%% r >> [&s, int]"
    let v : Value := .array [.map [("k", .string "x")], .string "7", .boolean true]
    ∃ s node g h, Suite.ofText text = .ok s ∧ s.body "r" .request = .ok node ∧
      compare s.definitions 4 node v = some g ∧ g.outcome = .mixed ∧
      compare s.definitions 4 node g.value = some h ∧ h = .matched g.value := by
  intro text v
  have hv : v.Tidy :=
    ⟨⟨List.pairwise_singleton _ _, trivial, trivial⟩, trivial, trivial, trivial⟩
  have hrun : (match Suite.ofText text with
    | .ok s => match s.body "r" .request with
      | .ok node => match compare s.definitions 4 node v with
        | some g => decide (g.findings.map Finding.outcome = [.converted, .additional]) &&
          (compare s.definitions 4 node g.value).isSome
        | none => false
      | .error _ => false
    | .error _ => false) = true := by decide +kernel
  split at hrun
  · rename_i s hs
    split at hrun
    · rename_i node hnode
      split at hrun
      · rename_i g hg
        rw [Bool.and_eq_true, decide_eq_true_eq, Option.isSome_iff_exists] at hrun
        obtain ⟨houtcomes, h, hh⟩ := hrun
        have ho : g.outcome = .mixed := (grade_balanced hg).trans (by rw [houtcomes]; rfl)
        have hf : ∀ f ∈ g.findings, f.reason ≠ .missingOptional ∧ f.reason ≠ .missingElement := by
          intro f hf
          have hmem : f.outcome ∈ g.findings.map Finding.outcome := List.mem_map_of_mem hf
          rw [houtcomes] at hmem
          constructor <;> intro hr <;> simp [Finding.outcome, hr, Reason.outcome] at hmem
        exact ⟨s, node, g, h, hs, hnode, hg, ho, hh,
          compare_idempotent (.of_suite hs hnode) hv hg (by rw [ho]; decide) hf hh⟩
      · cases hrun
    · cases hrun
  · cases hrun

end Conformance
