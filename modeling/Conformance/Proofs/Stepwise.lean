import Conformance.Proofs.Occurrence
import Conformance.Proofs.Pointer
import Conformance.Proofs.Verdict

/-!
# Composite values change step by step

The grading of an array or a map changes each part by itself and reports each change at its step. This
file says so once for arrays, maps, dictionaries and selectors, and derives an induction over gradings
from it.

* `findingsAt` — the findings below a step, as seen from the part.
* `PartChange` — what became of the part at one step: kept, graded, filled in, replaced, dropped or missed.
* `Stepwise`, `Composed` — a composite whose parts change in that way, each with the findings at its
  step, and its grading.
* `Compositional`, `Compositional.of_grade` — a property of values and their gradings that holds of every
  grading since it passes from the parts to the whole. It takes maps that declare no name twice.
-/

set_option autoImplicit false

namespace Conformance

/-! ## Findings below a step -/

/-- The finding as seen from the part at a step, if it is about that part. -/
def Finding.within? (step : Step) (f : Finding) : Option Finding :=
  match f.path with
  | [] => none
  | s :: path => if s = step then some { f with path := path } else none

/-- The findings below a step, as seen from the part at the step. -/
def findingsAt (step : Step) (findings : List Finding) : List Finding :=
  findings.filterMap (Finding.within? step)

theorem Finding.within?_eq_some {step : Step} {f g : Finding} :
    f.within? step = some g ↔ f = g.under step := by
  obtain ⟨path, reason⟩ := f
  obtain ⟨rest, other⟩ := g
  cases path with
  | nil => simp [within?, under]
  | cons s path =>
    by_cases hs : s = step
    · simp [within?, under, hs]
    · simp [within?, under, hs]

theorem mem_findingsAt {step : Step} {f : Finding} {findings : List Finding} :
    f ∈ findingsAt step findings ↔ f.under step ∈ findings := by
  simp [findingsAt, List.mem_filterMap, Finding.within?_eq_some]

theorem findingsAt_append (step : Step) (fs gs : List Finding) :
    findingsAt step (fs ++ gs) = findingsAt step fs ++ findingsAt step gs :=
  List.filterMap_append

theorem findingsAt_under (step : Step) (fs : List Finding) :
    findingsAt step (fs.map (Finding.under step)) = fs := by
  rw [findingsAt, List.filterMap_map]
  have hid : Finding.within? step ∘ Finding.under step = some :=
    funext fun f => Finding.within?_eq_some.2 rfl
  rw [hid, List.filterMap_some]

/-- Every finding is about a part at a step of the given sort. -/
def Headed (scope : Step → Prop) (findings : List Finding) : Prop :=
  ∀ f ∈ findings, ∃ step, scope step ∧ ∃ f', f = Finding.under step f'

namespace Headed

variable {scope other : Step → Prop} {fs gs : List Finding}

theorem nil : Headed scope [] := fun _ h => by cases h

theorem append (hf : Headed scope fs) (hg : Headed scope gs) : Headed scope (fs ++ gs) := by
  intro f h
  rcases List.mem_append.1 h with h | h
  · exact hf f h
  · exact hg f h

theorem mono (hf : Headed scope fs) (h : ∀ step, scope step → other step) : Headed other fs := by
  intro f hm
  obtain ⟨step, hs, hu⟩ := hf f hm
  exact ⟨step, h step hs, hu⟩

theorem map_under {step : Step} (h : scope step) : Headed scope (fs.map (Finding.under step)) := by
  intro f hm
  obtain ⟨f', -, rfl⟩ := List.mem_map.1 hm
  exact ⟨step, h, f', rfl⟩

theorem findingsAt_eq_nil {step : Step} (hf : Headed scope fs) (h : ¬ scope step) :
    findingsAt step fs = [] := by
  refine List.eq_nil_iff_forall_not_mem.2 fun f hm => ?_
  obtain ⟨s, hs, f', hu⟩ := hf _ (mem_findingsAt.1 hm)
  have : step = s := by simpa [Finding.under] using congrArg (List.head? ∘ Finding.path) hu
  exact h (this ▸ hs)

end Headed

/-! ## Changes of parts -/

/-- What became of the part at one step, with the findings about it as seen from there. Parts that were
graded by themselves are related to their gradings by `P`. -/
inductive PartChange (P : Value → Grading → Prop) :
    Option Value → Option Value → List Finding → Prop where
  | absent : PartChange P none none []
  | kept (v : Value) : PartChange P (some v) (some v) []
  | graded {v : Value} {g : Grading} : g.Balanced → P v g →
    PartChange P (some v) (some g.value) g.findings
  | filled {reason : Reason} (v : Value) : reason = .missingOptional ∨ reason = .missingElement →
    PartChange P none (some v) [⟨[], reason⟩]
  | replaced {v : Value} : v.isUndefined = false →
    PartChange P (some .undefined) (some v) [⟨[], .missingOptional⟩]
  | dropped {reason : Reason} (v : Value) : reason.outcome = .additional →
    PartChange P (some v) none [⟨[], reason⟩]
  | required : PartChange P none none [⟨[], .missingRequired⟩]

/-- A composite whose parts change step by step into those of another, with the findings at each step. -/
structure Stepwise (P : Value → Grading → Prop) (v w : Value) (findings : List Finding) : Prop where
  shape : v.SameShape w
  headed : Headed (fun _ => True) findings
  change : ∀ step, PartChange P (v.part? step) (w.part? step) (findingsAt step findings)

section Composites

variable {P : Value → Grading → Prop} {inside : Inside}

/-! ## Arrays -/

/-- The parts of an array from an index on change step by step; `before` and `after` count from there. -/
structure ItemsChange (P : Value → Grading → Prop) (index : Nat) (before after : Nat → Option Value)
    (findings : List Finding) : Prop where
  headed : Headed (fun step => ∃ i, index ≤ i ∧ step = .index i) findings
  change : ∀ i, PartChange P (before i) (after i) (findingsAt (.index (index + i)) findings)

theorem ItemsChange.nil (index : Nat) :
    ItemsChange P index (fun _ => none) (fun _ => none) [] :=
  ⟨Headed.nil, fun _ => .absent⟩

theorem ItemsChange.cons {index : Nat} {before after : Nat → Option Value}
    (first : List Finding) {rest : List Finding} (hfirst : PartChange P (before 0) (after 0) first)
    (hrest : ItemsChange P (index + 1) (fun i => before (i + 1)) (fun i => after (i + 1)) rest) :
    ItemsChange P index before after (first.map (Finding.under (.index index)) ++ rest) := by
  refine ⟨?_, ?_⟩
  · refine Headed.append (Headed.map_under ⟨index, Nat.le_refl _, rfl⟩) ?_
    exact hrest.headed.mono fun step ⟨i, hi, hs⟩ => ⟨i, by omega, hs⟩
  · intro i
    rw [findingsAt_append]
    cases i with
    | zero =>
      have hnone : findingsAt (.index (index + 0)) rest = [] :=
        hrest.headed.findingsAt_eq_nil fun ⟨i, hi, hs⟩ => by
          have : index = i := by simpa using hs
          omega
      rw [hnone, Nat.add_zero, findingsAt_under, List.append_nil]
      exact hfirst
    | succ i =>
      have hne : ¬ Step.index (index + (i + 1)) = .index index := by simp
      have hfirst : Headed (· = .index index) (first.map (Finding.under (.index index))) :=
        Headed.map_under rfl
      rw [hfirst.findingsAt_eq_nil hne, List.nil_append,
        show index + (i + 1) = index + 1 + i by omega]
      exact hrest.change i

theorem extraItems_change (index : Nat) (items : List Value) :
    (extraItems index items).pieces = [] ∧
      ItemsChange P index (fun i => items[i]?) (fun _ => none) (extraItems index items).findings := by
  induction items generalizing index with
  | nil => exact ⟨rfl, ItemsChange.nil index⟩
  | cons v items ih =>
    obtain ⟨hpieces, hrest⟩ := ih (index + 1)
    refine ⟨?_, ?_⟩
    · simp only [extraItems, Parts.append, Parts.decided, hpieces, List.append_nil]
    · exact ItemsChange.cons [⟨[], .extraElement⟩] (.dropped v rfl) hrest

/-- What a property of gradings asks of the parts: it holds of the gradings of the given values by nodes
with a property. -/
def Inside.Grades (inside : Inside) (Q : Node → Prop) (V : Value → Prop)
    (P : Value → Grading → Prop) : Prop :=
  ∀ node v g, Q node → V v → inside.grade node v = some g → g.Balanced ∧ P v g

variable {Q : Node → Prop} {V : Value → Prop}

/-- Where nothing but balance is asked for, every value is graded so by every node. -/
theorem Inside.Balanced.grades (hb : inside.Balanced) : inside.Grades Q V fun _ _ => True :=
  fun _ _ _ _ _ hg => ⟨hb _ _ _ hg, trivial⟩

theorem gradeItems_change (hin : inside.Grades Q V P) :
    ∀ (index : Nat) {nodes : List Node} {items : List Value} {p : Parts Value},
      (∀ n ∈ nodes, Q n) → (∀ v ∈ items, V v) → gradeItems inside index nodes items = some p →
      ItemsChange P index (fun i => items[i]?) (fun i => p.pieces[i]?) p.findings
  | index, [], items, p, _, _, h => by
    cases h
    obtain ⟨hpieces, hchange⟩ := extraItems_change (P := P) index items
    rw [hpieces]
    exact hchange
  | index, node :: nodes, v :: items, p, hn, hv, h => by
    obtain ⟨g, rest, hg, hrest, rfl⟩ := gradeItems_cons_cons.1 h
    obtain ⟨hb, hp⟩ := hin node v g (hn _ List.mem_cons_self) (hv _ List.mem_cons_self) hg
    exact ItemsChange.cons g.findings (.graded hb hp) (gradeItems_change hin (index + 1)
      (fun n hm => hn n (List.mem_cons_of_mem _ hm)) (fun w hm => hv w (List.mem_cons_of_mem _ hm))
      hrest)
  | index, node :: nodes, [], p, hn, hv, h => by
    obtain ⟨w, rest, -, hrest, rfl⟩ := gradeItems_cons_nil.1 h
    exact ItemsChange.cons [⟨[], .missingElement⟩] (.filled w (.inr rfl))
      (gradeItems_change hin (index + 1) (fun n hm => hn n (List.mem_cons_of_mem _ hm)) hv hrest)

theorem Stepwise.array {items pieces : List Value} {findings : List Finding}
    (h : ItemsChange P 0 (fun i => items[i]?) (fun i => pieces[i]?) findings) :
    Stepwise P (.array items) (.array pieces) findings := by
  refine ⟨.arrays items pieces, h.headed.mono fun _ _ => trivial, fun step => ?_⟩
  cases step with
  | index i =>
    have := h.change i
    rwa [Nat.zero_add] at this
  | key name =>
    rw [h.headed.findingsAt_eq_nil fun ⟨i, _, hs⟩ => by cases hs]
    exact .absent

/-! ## Maps -/

/-- The parts of a map at the keys of a scope change step by step, into pieces at other keys each. -/
structure EntriesChange (P : Value → Grading → Prop) (scope : String → Prop)
    (before : String → Option Value) (p : Parts (String × Value)) : Prop where
  headed : Headed (fun step => ∃ key, scope key ∧ step = .key key) p.findings
  keys : ∀ e ∈ p.pieces, scope e.1
  nodup : (p.pieces.map Prod.fst).Nodup
  change : ∀ key, scope key →
    PartChange P (before key) (Entries.get? p.pieces key) (findingsAt (.key key) p.findings)

namespace EntriesChange

variable {scope other : String → Prop} {before : String → Option Value}
  {p q : Parts (String × Value)}

theorem nil (h : ∀ key, ¬ scope key) : EntriesChange P scope before .empty :=
  ⟨Headed.nil, fun _ he => absurd he List.not_mem_nil, List.nodup_nil, fun key hk => absurd hk (h key)⟩

theorem congr (hp : EntriesChange P scope before p) (h : ∀ key, scope key ↔ other key) :
    EntriesChange P other before p := by
  obtain rfl : scope = other := funext fun key => propext (h key)
  exact hp

/-- The part at one key. -/
theorem single {outcome : Outcome} {key : String} (after : Option Value) (findings : List Finding)
    (h : PartChange P (before key) after findings) :
    EntriesChange P (fun k => k = key) before
      ⟨outcome, after.toList.map (key, ·), findings.map (Finding.under (.key key))⟩ := by
  refine ⟨Headed.map_under ⟨key, rfl, rfl⟩, ?_, ?_, ?_⟩
  · intro e he
    obtain ⟨v, -, rfl⟩ := List.mem_map.1 he
    rfl
  · cases after <;> simp
  · rintro k rfl
    rw [findingsAt_under]
    cases after with
    | none => exact h
    | some v =>
      have hget : Entries.get? ((some v).toList.map (k, ·)) k = some v :=
        (Entries.get?_cons (k, v) [] k).trans (if_pos rfl)
      rw [hget]
      exact h

theorem get?_eq_none (hp : EntriesChange P scope before p) {key : String} (h : ¬ scope key) :
    Entries.get? p.pieces key = none :=
  Entries.get?_eq_none.2 fun e he heq => h (heq ▸ hp.keys e he)

theorem findingsAt_eq_nil (hp : EntriesChange P scope before p) {key : String} (h : ¬ scope key) :
    findingsAt (.key key) p.findings = [] :=
  hp.headed.findingsAt_eq_nil fun ⟨k, hk, hs⟩ => by
    cases hs
    exact h hk

theorem append (hp : EntriesChange P scope before p) (hq : EntriesChange P other before q)
    (hd : ∀ key, scope key → ¬ other key) :
    EntriesChange P (fun key => scope key ∨ other key) before (p.append q) := by
  refine ⟨?_, ?_, ?_, ?_⟩
  · refine Headed.append (hp.headed.mono ?_) (hq.headed.mono ?_)
    · exact fun step ⟨k, hk, hs⟩ => ⟨k, .inl hk, hs⟩
    · exact fun step ⟨k, hk, hs⟩ => ⟨k, .inr hk, hs⟩
  · intro e he
    rcases List.mem_append.1 he with he | he
    · exact .inl (hp.keys e he)
    · exact .inr (hq.keys e he)
  · simp only [Parts.append, List.map_append]
    refine List.nodup_append.2 ⟨hp.nodup, hq.nodup, ?_⟩
    intro a ha b hb hab
    obtain ⟨e, he, rfl⟩ := List.mem_map.1 ha
    obtain ⟨e', he', rfl⟩ := List.mem_map.1 hb
    exact hd _ (hp.keys e he) (hab ▸ hq.keys e' he')
  · intro key hk
    simp only [Parts.append, findingsAt_append, Entries.get?_append]
    rcases hk with hk | hk
    · rw [hq.get?_eq_none (hd key hk), hq.findingsAt_eq_nil (hd key hk), Option.or_none,
        List.append_nil]
      exact hp.change key hk
    · have hnot : ¬ scope key := fun h => hd key h hk
      rw [hp.get?_eq_none hnot, hp.findingsAt_eq_nil hnot, Option.none_or, List.nil_append]
      exact hq.change key hk

end EntriesChange

theorem gradeField_change (hin : inside.Grades Q V P) {entries : Entries Value} {f : Field Node}
    {p : Parts (String × Value)} (hf : Q f.node)
    (hv : ∀ v, Entries.get? entries f.name = some v → V v)
    (h : gradeField inside entries f = some p) :
    EntriesChange P (fun k => k = f.name) (Entries.get? entries) p := by
  cases gradeField_cases h with
  | @graded v g hget _ hg =>
    obtain ⟨hb, hp⟩ := hin _ _ _ hf (hv v hget) hg
    exact EntriesChange.single (some g.value) g.findings (by rw [hget]; exact .graded hb hp)
  | kept hget =>
    exact EntriesChange.single (some .undefined) [] (by rw [hget]; exact .kept .undefined)
  | @replaced d hget _ _ hd =>
    exact EntriesChange.single (some d) [⟨[], .missingOptional⟩] (by rw [hget]; exact .replaced hd)
  | @filled d hget =>
    exact EntriesChange.single (some d) [⟨[], .missingOptional⟩]
      (by rw [hget]; exact .filled d (.inl rfl))
  | required hget =>
    exact EntriesChange.single none [⟨[], .missingRequired⟩] (by rw [hget]; exact .required)

theorem gradeFields_change (hin : inside.Grades Q V P) {entries : Entries Value}
    (hv : ∀ key v, Entries.get? entries key = some v → V v) :
    ∀ {fields : List (Field Node)} {p : Parts (String × Value)},
      (∀ f ∈ fields, Q f.node) → (fields.map Field.name).Nodup →
      gradeFields inside entries fields = some p →
      EntriesChange P (fun key => ∃ f ∈ fields, f.name = key) (Entries.get? entries) p
  | [], p, _, _, h => by
    cases h
    exact EntriesChange.nil fun key ⟨f, hf, _⟩ => by cases hf
  | f :: fields, p, hf, hnd, h => by
    obtain ⟨part, rest, hpart, hrest, rfl⟩ := gradeFields_cons.1 h
    rw [List.map_cons, List.nodup_cons] at hnd
    have hfirst := gradeField_change hin (hf f List.mem_cons_self) (hv f.name) hpart
    have hothers := gradeFields_change hin hv (fun e he => hf e (List.mem_cons_of_mem _ he)) hnd.2
      hrest
    refine (hfirst.append hothers ?_).congr fun key => ?_
    · rintro key rfl ⟨e, he, hname⟩
      exact hnd.1 (hname ▸ List.mem_map_of_mem he)
    · simp [eq_comm]

theorem undeclaredEntries_change {before : String → Option Value} (fields : List (Field Node))
    (kept : Option String) :
    ∀ {entries : Entries Value}, (entries.map Prod.fst).Nodup →
      (∀ e ∈ entries, before e.1 = some e.2) →
      EntriesChange P (fun key => Field.find? fields key = none ∧ ∃ e ∈ entries, e.1 = key) before
        (undeclaredEntries fields kept entries)
  | [], _, _ => EntriesChange.nil fun key ⟨_, e, he, _⟩ => by cases he
  | (key, v) :: entries, hnd, hbefore => by
    rw [List.map_cons, List.nodup_cons] at hnd
    have hothers := undeclaredEntries_change fields kept hnd.2
      fun e he => hbefore e (List.mem_cons_of_mem _ he)
    have hkey : before key = some v := hbefore _ List.mem_cons_self
    simp only [undeclaredEntries]
    by_cases hfind : (Field.find? fields key).isSome = true
    · rw [if_pos hfind]
      refine hothers.congr fun k => ?_
      constructor
      · rintro ⟨hk, e, he, rfl⟩
        exact ⟨hk, e, List.mem_cons_of_mem _ he, rfl⟩
      · rintro ⟨hk, e, he, rfl⟩
        rcases List.mem_cons.1 he with rfl | he
        · rw [hk] at hfind
          cases hfind
        · exact ⟨hk, e, he, rfl⟩
    · have hnone : Field.find? fields key = none := by simpa using hfind
      rw [if_neg hfind]
      have hdisjoint : ∀ k, k = key →
          ¬ (Field.find? fields k = none ∧ ∃ e ∈ entries, e.1 = k) := by
        rintro k rfl ⟨-, e, he, rfl⟩
        exact hnd.1 (List.mem_map.2 ⟨e, he, rfl⟩)
      have hscope : ∀ k, (k = key ∨ (Field.find? fields k = none ∧ ∃ e ∈ entries, e.1 = k)) ↔
          (Field.find? fields k = none ∧ ∃ e ∈ (key, v) :: entries, e.1 = k) := by
        intro k
        constructor
        · rintro (rfl | ⟨hk, e, he, rfl⟩)
          · exact ⟨hnone, _, List.mem_cons_self, rfl⟩
          · exact ⟨hk, e, List.mem_cons_of_mem _ he, rfl⟩
        · rintro ⟨hk, e, he, rfl⟩
          rcases List.mem_cons.1 he with rfl | he
          · exact .inl rfl
          · exact .inr ⟨hk, e, he, rfl⟩
      split
      · exact ((EntriesChange.single (some v) []
          (by rw [hkey]; exact .kept v)).append hothers hdisjoint).congr hscope
      · exact ((EntriesChange.single none [⟨[], .undeclaredKey⟩]
          (by rw [hkey]; exact .dropped v rfl)).append hothers hdisjoint).congr hscope

theorem gradeEntries_change (before : String → Option Value) {entry : Node}
    (hin : inside.Grades Q V P) (hq : Q entry) :
    ∀ {entries : Entries Value} {p : Parts (String × Value)}, (entries.map Prod.fst).Nodup →
      (∀ e ∈ entries, before e.1 = some e.2 ∧ V e.2) → gradeEntries inside entry entries = some p →
      EntriesChange P (fun key => ∃ e ∈ entries, e.1 = key) before p
  | [], p, _, _, h => by
    cases h
    exact EntriesChange.nil fun key ⟨e, he, _⟩ => by cases he
  | (key, v) :: entries, p, hnd, hbefore, h => by
    obtain ⟨g, rest, hg, hrest, rfl⟩ := gradeEntries_cons.1 h
    rw [List.map_cons, List.nodup_cons] at hnd
    obtain ⟨hkey, hv⟩ := hbefore _ List.mem_cons_self
    obtain ⟨hb, hp⟩ := hin _ _ _ hq hv hg
    have hfirst : EntriesChange P (fun k => k = key) before (Parts.graded (.key key) (key, ·) g) :=
      EntriesChange.single (some g.value) g.findings (by rw [hkey]; exact .graded hb hp)
    have hothers := gradeEntries_change before hin hq hnd.2
      (fun e he => hbefore e (List.mem_cons_of_mem _ he)) hrest
    refine (hfirst.append hothers ?_).congr fun k => ?_
    · rintro k rfl ⟨e, he, rfl⟩
      exact hnd.1 (List.mem_map.2 ⟨e, he, rfl⟩)
    · simp [eq_comm]

theorem Stepwise.map {scope : String → Prop} {entries : Entries Value}
    {p : Parts (String × Value)} (hs : entries.Sorted)
    (h : EntriesChange P scope (Entries.get? entries) p)
    (houtside : ∀ key, ¬ scope key → Entries.get? entries key = none) :
    Stepwise P (.map entries) (.map (Entries.ofList p.pieces)) p.findings := by
  refine ⟨.maps hs (Entries.sorted_ofList _), h.headed.mono fun _ _ => trivial, fun step => ?_⟩
  cases step with
  | index i =>
    rw [h.headed.findingsAt_eq_nil fun ⟨key, _, hs⟩ => by cases hs]
    exact .absent
  | key name =>
    rw [Value.part?, Value.part?, Entries.get?_ofList h.nodup]
    by_cases hname : scope name
    · exact h.change name hname
    · rw [houtside name hname, h.get?_eq_none hname, h.findingsAt_eq_nil hname]
      exact .absent

/-! ## Composite gradings -/

/-- The value is composite and its grading is made up of changes of its parts. -/
def Composed (P : Value → Grading → Prop) (v : Value) (g : Grading) : Prop :=
  ∃ w, Stepwise P v w g.findings ∧ g.value = if g.outcome = .incompatible then v else w

theorem gradeArray_composed (hin : inside.Grades Q Value.Tidy P) {elements : List Node}
    {size : ArraySize} {v : Value} {g : Grading} (hq : ∀ n ∈ elements, Q n) (hv : v.Tidy)
    (h : gradeArray inside elements size v = some g) :
    g = .matched v ∨ g = .wrongKind .array v ∨ Composed P v g := by
  refine (gradeArray_cases h).imp_right fun h => h.imp And.left ?_
  rintro ⟨items, p, rfl, -, hp, rfl⟩
  have hchange := gradeItems_change hin 0 (fun n hn => hq n (ArraySize.mem_unroll hn))
    (Value.tidyItems_iff.1 hv) hp
  exact ⟨_, Stepwise.array hchange, rfl⟩

/-- The declared fields of a map and what it has elsewhere are graded apart. -/
theorem gradeMap_change (hin : inside.Grades Q Value.Tidy P) {fields : List (Field Node)}
    (kept : Option String) {entries : Entries Value} {p : Parts (String × Value)}
    (hq : ∀ f ∈ fields, Q f.node) (hnd : (fields.map Field.name).Nodup)
    (hv : (Value.map entries).Tidy) (h : gradeFields inside entries fields = some p) :
    EntriesChange P (fun key => (∃ f ∈ fields, f.name = key) ∨
        Field.find? fields key = none ∧ ∃ e ∈ entries, e.1 = key) (Entries.get? entries)
      (p.append (undeclaredEntries fields kept entries)) := by
  obtain ⟨hsorted, htidy⟩ := hv
  have hmem : ∀ e ∈ entries, Entries.get? entries e.1 = some e.2 :=
    fun e he => Entries.get?_of_mem hsorted.nodup_keys he
  have hdeclared := gradeFields_change hin
    (fun key w hw => Value.tidyEntries_iff.1 htidy _ (Entries.mem_of_get? hw)) hq hnd h
  have hothers := undeclaredEntries_change (P := P) fields kept hsorted.nodup_keys hmem
  refine hdeclared.append hothers ?_
  rintro key ⟨f, hf, hname⟩ ⟨hnone, -⟩
  have := List.find?_eq_none.1 hnone f hf
  simp [hname] at this

theorem gradeMap_composed (hin : inside.Grades Q Value.Tidy P) {fields : List (Field Node)}
    {kept : Option String} {v : Value} {g : Grading} (hq : ∀ f ∈ fields, Q f.node)
    (hnd : (fields.map Field.name).Nodup) (hv : v.Tidy)
    (h : gradeMap inside fields kept v = some g) :
    g = .wrongKind .map v ∨ Composed P v g := by
  refine (gradeMap_cases h).imp And.left ?_
  rintro ⟨entries, p, rfl, hp, rfl⟩
  refine ⟨_, Stepwise.map hv.1 (gradeMap_change hin kept hq hnd hv hp) ?_, rfl⟩
  intro key hkey
  refine Entries.get?_eq_none.2 fun e he hname => hkey ?_
  cases hfind : Field.find? fields key with
  | none => exact .inr ⟨rfl, e, he, hname⟩
  | some f =>
    exact .inl ⟨f, List.mem_of_find?_eq_some hfind, by simpa using List.find?_some hfind⟩

theorem gradeDictionary_composed (hin : inside.Grades Q Value.Tidy P) {entry : Node} {v : Value}
    {g : Grading} (hq : Q entry) (hv : v.Tidy) (h : gradeDictionary inside entry v = some g) :
    g = .wrongKind .map v ∨ Composed P v g := by
  refine (gradeDictionary_cases h).imp And.left ?_
  rintro ⟨entries, p, rfl, hp, rfl⟩
  obtain ⟨hsorted, htidy⟩ := hv
  have hentries := gradeEntries_change (Entries.get? entries) hin hq hsorted.nodup_keys
    (fun e he => ⟨Entries.get?_of_mem hsorted.nodup_keys he, Value.tidyEntries_iff.1 htidy e he⟩) hp
  refine ⟨_, Stepwise.map hsorted hentries ?_, rfl⟩
  exact fun key hkey => Entries.get?_eq_none.2 fun e he hname => hkey ⟨e, he, hname⟩

end Composites

/-! ## Every grading -/

/-- A property of values and their gradings that passes from the parts of a value to the value. -/
structure Compositional (P : Value → Grading → Prop) : Prop where
  matched : ∀ v, P v (.matched v)
  refused : ∀ v (reason : Reason), reason.outcome = .incompatible → P v (.decided reason v)
  coerced : ∀ kind v, P v (gradePrimitive kind v)
  composed : ∀ v g, v.Tidy → g.Balanced → Composed P v g → P v g

/-- **A compositional property holds of every grading** by nodes that declare no name twice. -/
theorem Compositional.of_grade {P : Value → Grading → Prop} (hP : Compositional P)
    {definitions : Definitions} {levels : Nat} {entered : List String} {node : Node} {v : Value}
    {g : Grading} (hd : definitions.Everywhere Node.DistinctNames node) (hv : v.Tidy)
    (h : grade definitions levels entered node v = some g) : P v g := by
  induction levels generalizing entered node v g with
  | zero =>
    cases h
    exact hP.refused v _ rfl
  | succ levels ih =>
    have hb := grade_balanced h
    have hin : (Inside.below definitions levels entered).Grades
        (definitions.Everywhere Node.DistinctNames) Value.Tidy P :=
      fun n w g hn hw hg => ⟨grade_balanced hg, ih hn hw hg⟩
    cases node
    case any =>
      cases h
      exact hP.matched v
    case primitive kind =>
      cases h
      exact hP.coerced kind v
    case literal expected =>
      cases h
      unfold gradeLiteral
      split
      · exact hP.matched v
      · exact hP.refused v _ rfl
    case array elements size =>
      rcases gradeArray_composed hin (fun n hn => hd.part (.element hn)) hv h with rfl | rfl | hc
      · exact hP.matched v
      · exact hP.refused v _ rfl
      · exact hP.composed v g hv hb hc
    case map fields =>
      rcases gradeMap_composed hin (fun f hf => hd.part (.field hf)) hd.self hv h with rfl | hc
      · exact hP.refused v _ rfl
      · exact hP.composed v g hv hb hc
    case dictionary entry =>
      rcases gradeDictionary_composed hin (hd.part .entry) hv h with rfl | hc
      · exact hP.refused v _ rfl
      · exact hP.composed v g hv hb hc
    case selector discriminant alternatives =>
      rcases gradeSelector_cases h with ⟨⟨reason, hr, rfl⟩, -⟩ | ⟨entries, a, rfl, ha, hg⟩
      · exact hP.refused v reason hr
      have hpart := hd.part (.alternative (Alternative.mem_of_chosen? ha))
      rcases hg with ⟨fields, hf, hg⟩ | ⟨-, hg⟩
      · have hfields := hpart.resolved hf
        rcases gradeMap_composed hin (fun f hm => hfields.part (.field hm)) hfields.self hv hg
          with rfl | hc
        · exact hP.refused _ _ rfl
        · exact hP.composed _ g hv hb hc
      · exact ih hpart hv hg
    case reference name =>
      rcases gradeReference_cases h with ⟨-, rfl⟩ | ⟨n, hn, hg⟩
      · exact hP.refused v _ rfl
      · exact ih (hd.definition hn) hv hg

end Conformance
