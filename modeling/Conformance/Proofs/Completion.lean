import Conformance.Proofs.FirstBest
import Conformance.Proofs.Gaps

/-!
# Completed values conform

A value that is not refused is converted, and what it lacks is filled in. The completed value is matched by a
second comparison, unless a gap is left in one of the defaults that were put in.

* `LeavesGap` — a gap is left in a default that the grading of a value puts in.
* `grade_tidy` — converted values are tidy, defaults included.
* `gradeItems_pieces`, `get?_remainder` — what stands in a converted array or map, and where it is from.
* `grade_completed` — completed values match, at every level and below all names.
* `Suite.compare_completed` — a second comparison changes nothing.
-/

set_option autoImplicit false

namespace Conformance

open Relation (ReflTransGen)

variable {definitions : Definitions}

/-! ## Gaps in what is put in -/

/-- The fields by which a node grades the entries of a map. -/
inductive Applies (definitions : Definitions) (entries : Entries Value) :
    Node → List (Field Node) → Prop where
  | map (fields : List (Field Node)) : Applies definitions entries (.map fields) fields
  | alternative {discriminant : String} {alternatives : List (Alternative Node)} {a : Alternative Node}
    {fields : List (Field Node)} : Alternative.chosen? alternatives discriminant entries = some a →
    definitions.resolveMap? a.node = some fields →
    Applies definitions entries (.selector discriminant alternatives) fields

/-- The grading of the value puts in a default in which a gap is left. Of the nodes that a name stands for, it is the
first of the best that counts. -/
inductive LeavesGap (definitions : Definitions) : Nat → List String → Node → Value → Prop where
  | missing {levels i : Nat} {names : List String} {elements : List Node} {size : ArraySize}
    {items : List Value} {n : Node} :
    (size.unroll elements items.length)[i]? = some n → items[i]? = none →
    HasGap definitions (grade definitions levels []) names n →
    LeavesGap definitions (levels + 1) names (.array elements size) (.array items)
  | item {levels i : Nat} {names : List String} {elements : List Node} {size : ArraySize}
    {items : List Value} {n : Node} {v : Value} :
    (size.unroll elements items.length)[i]? = some n → items[i]? = some v →
    LeavesGap definitions levels names n v →
    LeavesGap definitions (levels + 1) names (.array elements size) (.array items)
  | absent {levels : Nat} {names : List String} {node : Node} {fields : List (Field Node)}
    {f : Field Node} {entries : Entries Value} : Applies definitions entries node fields →
    f ∈ fields → f.mayBeAbsent = true →
    (∀ v, Entries.get? entries f.name = some v → v.isUndefined = true) →
    f.FallsBack (grade definitions levels []) →
    defaultOf definitions (grade definitions levels []) names f.node ≠ some .undefined →
    HasGap definitions (grade definitions levels []) names f.node →
    LeavesGap definitions (levels + 1) names node (.map entries)
  | present {levels : Nat} {names : List String} {node : Node} {fields : List (Field Node)}
    {f : Field Node} {entries : Entries Value} {v : Value} : Applies definitions entries node fields →
    f ∈ fields → Entries.get? entries f.name = some v → (v.isUndefined && f.mayBeAbsent) = false →
    LeavesGap definitions levels names f.node v →
    LeavesGap definitions (levels + 1) names node (.map entries)
  | entry {levels : Nat} {names : List String} {n : Node} {entries : Entries Value}
    {e : String × Value} : e ∈ entries → LeavesGap definitions levels names n e.2 →
    LeavesGap definitions (levels + 1) names (.dictionary n) (.map entries)
  | variant {levels : Nat} {names : List String} {name : String} {before after : List Node} {n : Node}
    {v : Value} {g : Grading} : definitions.nodes name = before ++ n :: after →
    FirstBest (fun m => grade definitions levels (name :: names) m v) before n after g →
    LeavesGap definitions levels (name :: names) n v →
    LeavesGap definitions (levels + 1) names (.reference name) v

/-! ## What converted arrays and maps are made of -/

section Pieces

variable {inside : Inside}

/-- Each element node has its piece: the item, converted by the node, or the default of the node. -/
theorem gradeItems_pieces :
    ∀ {index : Nat} {nodes : List Node} {items : List Value} {p : Parts Value},
      gradeItems inside index nodes items = some p → p.outcome ≠ .incompatible →
      p.pieces.length = nodes.length ∧ ∀ (i : Nat) n w, nodes[i]? = some n → p.pieces[i]? = some w →
        (∃ v g, items[i]? = some v ∧ inside.grade n v = some g ∧ g.outcome ≠ .incompatible ∧
          w = g.value) ∨ (items[i]? = none ∧ inside.fill n = some w)
  | index, [], items, p, h, _ => by
    cases h
    obtain ⟨hpieces, -⟩ := extraItems_change (P := fun _ _ => True) index items
    rw [hpieces]
    exact ⟨rfl, fun i n w hn => by simp at hn⟩
  | index, node :: nodes, v :: items, p, h, hvalid => by
    obtain ⟨g, rest, hg, hrest, rfl⟩ := gradeItems_cons_cons.1 h
    obtain ⟨hfirst, hothers⟩ := Outcome.join_ne_incompatible.1 hvalid
    obtain ⟨hlen, hpieces⟩ := gradeItems_pieces hrest hothers
    refine ⟨congrArg Nat.succ hlen, fun i n w hn hw => ?_⟩
    cases i with
    | zero =>
      cases hn
      cases hw
      exact .inl ⟨v, g, rfl, hg, hfirst, rfl⟩
    | succ i => exact hpieces i n w hn hw
  | index, node :: nodes, [], p, h, hvalid => by
    obtain ⟨d, rest, hd, hrest, rfl⟩ := gradeItems_cons_nil.1 h
    obtain ⟨-, hothers⟩ := Outcome.join_ne_incompatible.1 hvalid
    obtain ⟨hlen, hpieces⟩ := gradeItems_pieces hrest hothers
    refine ⟨congrArg Nat.succ hlen, fun i n w hn hw => ?_⟩
    cases i with
    | zero =>
      cases hn
      cases hw
      exact .inr ⟨rfl, hd⟩
    | succ i =>
      rcases hpieces i n w hn hw with ⟨v, g, hv, -⟩ | ⟨-, hfill⟩
      · simp at hv
      · exact .inr ⟨rfl, hfill⟩

/-- As many items as a pattern is repeated for are what it is repeated for again. -/
theorem ArraySize.unroll_length (size : ArraySize) {elements : List Node} (h : elements ≠ [])
    (items : Nat) :
    size.unroll elements (size.unroll elements items).length = size.unroll elements items := by
  cases size with
  | exact => rfl
  | repeating =>
    have hpos : 0 < elements.length := List.length_pos_iff.2 h
    have hlen : ∀ k, (List.replicate k elements).flatten.length = elements.length * k := fun k => by
      simp [Nat.mul_comm]
    unfold unroll
    simp only [hlen]
    have hround : ∀ k, (elements.length * k + elements.length - 1) / elements.length = k := fun k => by
      rw [Nat.add_sub_assoc hpos, Nat.mul_add_div hpos, Nat.div_eq_of_lt (by omega), Nat.add_zero]
    rw [hround]

variable {fields : List (Field Node)} {entries : Entries Value} {p : Parts (String × Value)}

/-- Each entry has its piece at the same key, converted by the node. -/
theorem gradeEntries_pieces {entry : Node} (h : gradeEntries inside entry entries = some p)
    (hvalid : p.outcome ≠ .incompatible) :
    List.Forall₂ (fun e piece => piece.1 = e.1 ∧ ∃ g, inside.grade entry e.2 = some g ∧
      g.outcome ≠ .incompatible ∧ piece.2 = g.value) entries p.pieces := by
  induction entries generalizing p with
  | nil =>
    cases h
    exact .nil
  | cons e entries ih =>
    obtain ⟨g, rest, hg, hrest, rfl⟩ := gradeEntries_cons.1 h
    obtain ⟨hfirst, hothers⟩ := Outcome.join_ne_incompatible.1 hvalid
    exact .cons ⟨rfl, g, hg, hfirst, rfl⟩ (ih hrest hothers)

/-- A map that is not refused is converted to what is left of it. -/
theorem gradeMap_remainder {kept : Option String} {v : Value} {g : Grading}
    (h : gradeMap inside fields kept v = some g) (hvalid : g.outcome ≠ .incompatible) :
    ∃ entries p, v = .map entries ∧ gradeFields inside entries fields = some p ∧
      p.outcome ≠ .incompatible ∧ g.value = .map (remainder fields kept entries p) := by
  rcases gradeMap_cases h with ⟨rfl, -⟩ | ⟨entries, p, rfl, hp, rfl⟩
  · exact absurd rfl hvalid
  · obtain ⟨hfields, -⟩ := Outcome.join_ne_incompatible.1 hvalid
    exact ⟨entries, p, rfl, hp, hfields, if_neg hvalid⟩

/-- Each declared field stands in what is left of a map: with the value there, converted by the node of the
field, or with the default of the field, where it may be absent and is not defined. -/
theorem get?_remainder (hb : inside.Balanced) (hnd : (fields.map Field.name).Nodup)
    (hv : (Value.map entries).Tidy) (hp : gradeFields inside entries fields = some p)
    (hvalid : p.outcome ≠ .incompatible) (kept : Option String) {f : Field Node} (hf : f ∈ fields) :
    ∃ w, Entries.get? (remainder fields kept entries p) f.name = some w ∧
      ((∃ v g, Entries.get? entries f.name = some v ∧ (v.isUndefined && f.mayBeAbsent) = false ∧
          inside.grade f.node v = some g ∧ g.outcome ≠ .incompatible ∧ w = g.value) ∨
        f.mayBeAbsent = true ∧
          (∀ v, Entries.get? entries f.name = some v → v.isUndefined = true) ∧
          inside.fillField f = some w) := by
  obtain ⟨before, part, after, hpart, rfl, hsame⟩ := gradeFields_part hb hnd hp f hf
  have hvalid' : part.outcome ≠ .incompatible :=
    (Outcome.join_ne_incompatible.1 (Outcome.join_ne_incompatible.1 hvalid).1).2
  rw [get?_remainder_field hb hnd hv hp kept hf, hsame]
  have hpiece : ∀ w : Value, Entries.get? [(f.name, w)] f.name = some w := fun w =>
    (Entries.get?_cons _ _ _).trans (if_pos rfl)
  cases gradeField_cases hpart with
  | @graded v g hget hpresent hg => exact ⟨_, hpiece _, .inl ⟨v, g, hget, hpresent, hg, hvalid', rfl⟩⟩
  | kept hget habsent hfill =>
    refine ⟨_, hpiece _, .inr ⟨habsent, fun v hv => ?_, hfill⟩⟩
    cases hget.symm.trans hv
    rfl
  | replaced hget habsent hfill =>
    refine ⟨_, hpiece _, .inr ⟨habsent, fun v hv => ?_, hfill⟩⟩
    cases hget.symm.trans hv
    rfl
  | filled hget habsent hfill =>
    refine ⟨_, hpiece _, .inr ⟨habsent, fun v hv => ?_, hfill⟩⟩
    cases hget.symm.trans hv
  | required => exact absurd rfl hvalid'

end Pieces

/-! ## Converted values are tidy -/

theorem FilledIn.tidy {fill : Field Node → Option Value} {fields : List (Field Node)}
    {entries : Entries Value} (h : FilledIn fill fields entries)
    (hfill : ∀ f ∈ fields, ∀ d, fill f = some d → d.Tidy) : (Value.map entries).Tidy := by
  refine ⟨h.sorted, Value.tidyEntries_iff.2 fun e he => ?_⟩
  obtain ⟨f, hfind⟩ := Option.isSome_iff_exists.1 (h.keys e he)
  have hf := List.mem_of_find?_eq_some hfind
  have hname : f.name = e.1 := by simpa using List.find?_some hfind
  obtain ⟨d, hd, hget⟩ := h.declared f hf
  have he' := Entries.get?_of_mem h.sorted.nodup_keys he
  rw [hname, he'] at hget
  exact Option.some.inj hget ▸ hfill f hf d hd

theorem withDiscriminant_tidy {discriminant : String} {key v : Value} (hkey : key.Tidy)
    (hv : v.Tidy) : (withDiscriminant discriminant key v).Tidy := by
  cases v
  case map entries =>
    refine ⟨Entries.sorted_insert hv.1, Value.tidyEntries_iff.2 fun e he => ?_⟩
    rcases Entries.mem_insert he with rfl | he
    · exact hkey
    · exact Value.tidyEntries_iff.1 hv.2 e he
  all_goals exact hv

section Tidy

variable {depth : Nat}

theorem fieldDefault_tidy {convert : Node → Value → Option Grading} {fill : Node → Option Value}
    {f : Field Node} {d : Value} (hliteral : ∀ v, f.default? = some v → v.IsLiteral)
    (hconvert : ∀ v g, v.Tidy → convert f.node v = some g → g.value.Tidy)
    (hfill : ∀ w, fill f.node = some w → w.Tidy) (h : fieldDefault convert fill f = some d) :
    d.Tidy := by
  rcases fieldDefault_cases h with ⟨literal, g, hl, hg, -, rfl⟩ | ⟨-, hd⟩
  · exact hconvert literal g (hliteral literal hl).tidy hg
  · exact hfill d hd

theorem defaultWithin_tidy {convert : Node → Value → Option Grading}
    (hconvert : ∀ m v g, definitions.Everywhere (Node.WellFormed definitions depth) m → v.Tidy →
      convert m v = some g → g.value.Tidy) {n : Nat} {names : List String} {node : Node} {w : Value}
    (hq : definitions.Everywhere (Node.WellFormed definitions depth) node)
    (h : defaultWithin definitions convert n names node = some w) : w.Tidy := by
  induction n generalizing names node w with
  | zero => cases h
  | succ n ih =>
    cases node
    case any =>
      cases h
      trivial
    case primitive kind =>
      cases h
      cases kind <;> first | trivial | exact ⟨List.Pairwise.nil, trivial⟩
    case literal v =>
      cases h
      exact Value.IsLiteral.tidy hq.self
    case array elements size =>
      cases size with
      | repeating =>
        cases h
        trivial
      | exact =>
        obtain ⟨items, hitems, rfl⟩ := Option.map_eq_some_iff.1 h
        refine Value.tidyItems_iff.2 fun v hv => ?_
        obtain ⟨i, hi⟩ := List.getElem?_of_mem hv
        obtain ⟨m, hm, hfill⟩ := forall₂_getElem? (mapM_eq_some_iff.1 hitems) hi
        exact ih (hq.part (.element (List.mem_of_getElem? hm))) hfill
    case map fields =>
      obtain ⟨entries, rfl, hfilled⟩ := filledIn_of_default hq.self.2.1 h
      refine hfilled.tidy fun f hf d hd => ?_
      have hnode := hq.part (.field hf)
      exact fieldDefault_tidy (fun v hv => (hq.self.2.2 f hf v hv).1)
        (fun v g => hconvert f.node v g hnode) (fun w hw => ih hnode hw) hd
    case dictionary entry =>
      cases h
      exact ⟨List.Pairwise.nil, trivial⟩
    case selector discriminant alternatives =>
      cases alternatives with
      | nil => exact absurd rfl hq.self.1
      | cons first rest =>
        obtain ⟨fields, hfields, -⟩ := hq.self.sound first List.mem_cons_self
        obtain ⟨d, hd, rfl⟩ := Option.map_eq_some_iff.1 h
        rw [hfields] at hd
        have hkey : first.key.Tidy := by
          have hdiscriminant := hq.self.isDiscriminant (a := first) List.mem_cons_self
          revert hdiscriminant
          cases first.key <;> first | exact fun _ => trivial | exact nofun
        have hmap := (hq.part (.alternative List.mem_cons_self)).resolved hfields
        exact withDiscriminant_tidy hkey (ih hmap hd)
    case reference name =>
      simp only [defaultWithin] at h
      by_cases hname : names.contains name = true
      · rw [if_pos hname] at h
        cases h
        trivial
      · rw [if_neg hname] at h
        cases hnodes : definitions.nodes name with
        | nil => exact absurd hnodes hq.self
        | cons first rest =>
          rw [hnodes] at h
          exact ih (hq.definition (hnodes ▸ List.mem_cons_self)) h

/-- What is left of a map is tidy if all that it was made of is. -/
theorem remainder_tidy {inside : Inside} (hb : inside.Balanced) {fields : List (Field Node)}
    {entries : Entries Value} {p : Parts (String × Value)} (hnd : (fields.map Field.name).Nodup)
    (hv : (Value.map entries).Tidy) (hp : gradeFields inside entries fields = some p)
    (hvalid : p.outcome ≠ .incompatible) (kept : Option String)
    (hgrade : ∀ f ∈ fields, ∀ v g, v.Tidy → inside.grade f.node v = some g → g.value.Tidy)
    (hfill : ∀ f ∈ fields, ∀ d, inside.fillField f = some d → d.Tidy) :
    (Value.map (remainder fields kept entries p)).Tidy := by
  have hentries := Value.tidyEntries_iff.1 hv.2
  have hsorted : (remainder fields kept entries p).Sorted := Entries.sorted_ofList _
  refine ⟨hsorted, Value.tidyEntries_iff.2 fun e he => ?_⟩
  have hget := Entries.get?_of_mem hsorted.nodup_keys he
  cases hfind : Field.find? fields e.1 with
  | some f =>
    have hf := List.mem_of_find?_eq_some hfind
    have hname : f.name = e.1 := by simpa using List.find?_some hfind
    obtain ⟨w, hw, hfrom⟩ := get?_remainder hb hnd hv hp hvalid kept hf
    rw [hname, hget] at hw
    cases hw
    rcases hfrom with ⟨v, g, hbefore, -, hg, -, hvalue⟩ | ⟨-, -, hd⟩
    · rw [hvalue]
      exact hgrade f hf v g (hentries _ (Entries.mem_of_get? hbefore)) hg
    · exact hfill f hf e.2 hd
  | none =>
    rw [remainder, Entries.get?_ofList (nodup_remainder hb hnd hv hp kept)] at hget
    rcases List.mem_append.1 (Entries.mem_of_get? hget) with hmem | hmem
    · have hchange := gradeFields_change (Q := fun _ => True) (V := fun _ => True) hb.grades
        (fun _ _ _ => trivial) (fun _ _ => trivial) hnd hp
      obtain ⟨f, hf, hname⟩ := hchange.keys _ hmem
      have hnot := List.find?_eq_none.1 hfind f hf
      exact absurd (beq_iff_eq.2 hname) hnot
    · exact hentries e (mem_undeclaredEntries.1 hmem).1

/-- What a map is converted to by the fields of a map, or of an alternative that was chosen. -/
theorem gradeMap_tidy {levels : Nat} {names : List String} {fields : List (Field Node)}
    {kept : Option String} {v : Value} {g : Grading}
    (hgrade : ∀ {names m v g}, definitions.Everywhere (Node.WellFormed definitions depth) m → v.Tidy →
      grade definitions levels names m v = some g → g.value.Tidy)
    (hq : definitions.Everywhere (Node.WellFormed definitions depth) (.map fields)) (hv : v.Tidy)
    (hg : gradeMap (.below definitions levels names) fields kept v = some g)
    (hvalid : g.outcome ≠ .incompatible) : g.value.Tidy := by
  obtain ⟨entries, p, rfl, hp, hp', hvalue⟩ := gradeMap_remainder hg hvalid
  rw [hvalue]
  refine remainder_tidy (fun _ _ _ => grade_balanced) hq.self.2.1 hv hp hp' kept ?_ ?_
  · intro f hf v g hv hg
    exact hgrade (hq.part (.field hf)) hv hg
  · intro f hf d hd
    have hnode := hq.part (.field hf)
    have hfill : ∀ w, (Inside.below definitions levels names).fill f.node = some w → w.Tidy :=
      fun w hw => defaultWithin_tidy (fun _ _ _ hm hv hg => hgrade hm hv hg) hnode hw
    exact fieldDefault_tidy (fun v hv => (hq.self.2.2 f hf v hv).1)
      (fun v g hv hg => hgrade hnode hv hg) hfill hd

theorem gradePrimitive_tidy {kind : Kind} {v : Value} (hv : v.Tidy) :
    (gradePrimitive kind v).value.Tidy := by
  unfold gradePrimitive
  split
  · exact hv
  · rename_i w hw
    exact tidy_of_coerce (.inl hw)
  · rename_i w hw
    exact tidy_of_coerce (.inr hw)
  · exact hv

/-- The keys of a converted dictionary are in the order that they had. -/
theorem gradeDictionary_converted {inside : Inside} {entry : Node} {v : Value} {g : Grading}
    (hv : v.Tidy) (h : gradeDictionary inside entry v = some g) (hvalid : g.outcome ≠ .incompatible) :
    ∃ entries pieces, v = .map entries ∧ g.value = .map pieces ∧ Entries.Sorted pieces ∧
      List.Forall₂ (fun e piece => piece.1 = e.1 ∧ ∃ g, inside.grade entry e.2 = some g ∧
        g.outcome ≠ .incompatible ∧ piece.2 = g.value) entries pieces := by
  rcases gradeDictionary_cases h with ⟨rfl, -⟩ | ⟨entries, p, rfl, hp, rfl⟩
  · exact absurd rfl hvalid
  have hpieces := gradeEntries_pieces hp hvalid
  have hkeys : p.pieces.map Prod.fst = entries.map Prod.fst := by
    have hsame : List.Forall₂ Eq (entries.map Prod.fst) (p.pieces.map Prod.fst) := by
      rw [List.forall₂_map_left_iff, List.forall₂_map_right_iff]
      exact hpieces.imp fun _ _ h => h.1.symm
    rw [List.forall₂_eq_eq_eq] at hsame
    exact hsame.symm
  have hsorted := Entries.Sorted.of_keys hv.1 hkeys
  refine ⟨entries, p.pieces, rfl, ?_, hsorted, hpieces⟩
  rw [← hsorted.ofList_eq]
  exact if_neg hvalid

/-- **Converted values are tidy**, with all the defaults that were put in. -/
theorem grade_tidy {levels : Nat} {names : List String} {node : Node} {v : Value} {g : Grading}
    (hq : definitions.Everywhere (Node.WellFormed definitions depth) node) (hv : v.Tidy)
    (hg : grade definitions levels names node v = some g) : g.value.Tidy := by
  induction levels generalizing names node v g with
  | zero =>
    cases hg
    exact hv
  | succ levels ih =>
    have hnames := hq.mono fun _ => Node.WellFormed.distinctNames
    by_cases hvalid : g.outcome = .incompatible
    · rw [(Account.compositional.of_grade hnames hv hg).refused hvalid]
      exact hv
    cases node
    case any =>
      cases hg
      exact hv
    case primitive kind =>
      cases hg
      exact gradePrimitive_tidy hv
    case literal expected =>
      cases hg
      unfold gradeLiteral
      split <;> exact hv
    case array elements size =>
      rcases gradeArray_cases hg with rfl | ⟨rfl, -⟩ | ⟨items, p, rfl, -, hp, rfl⟩
      · exact hv
      · exact hv
      have hvalue : (p.close .array (.array items)).value = .array p.pieces := if_neg hvalid
      rw [hvalue]
      refine Value.tidyItems_iff.2 fun w hw => ?_
      obtain ⟨hlen, hpieces⟩ := gradeItems_pieces hp hvalid
      obtain ⟨i, hi, rfl⟩ := List.getElem_of_mem hw
      have hn := List.getElem?_eq_getElem (hlen ▸ hi)
      have hnode := hq.part (.element (ArraySize.mem_unroll (List.mem_of_getElem? hn)))
      rcases hpieces i _ _ hn (List.getElem?_eq_getElem hi) with ⟨v, r, hv', hr, -, hw⟩ | ⟨-, hfill⟩
      · rw [hw]
        exact ih hnode (Value.tidyItems_iff.1 hv v (List.mem_of_getElem? hv')) hr
      · exact defaultWithin_tidy (fun _ _ _ hm hv hg => ih hm hv hg) hnode hfill
    case map fields => exact gradeMap_tidy ih hq hv hg hvalid
    case dictionary entry =>
      obtain ⟨entries, pieces, rfl, hvalue, hsorted, hpieces⟩ := gradeDictionary_converted hv hg hvalid
      rw [hvalue]
      refine ⟨hsorted, Value.tidyEntries_iff.2 fun e he => ?_⟩
      obtain ⟨i, hi⟩ := List.getElem?_of_mem he
      obtain ⟨e', he', -, r, hr, -, hw⟩ := forall₂_getElem? hpieces hi
      rw [hw]
      exact ih (hq.part .entry) (Value.tidyEntries_iff.1 hv.2 e' (List.mem_of_getElem? he')) hr
    case selector discriminant alternatives =>
      rcases gradeSelector_sound hq.self.sound hg with ⟨hi, -⟩ | ⟨entries, a, fields, rfl, ha, hfields, hr⟩
      · exact absurd hi hvalid
      · have halternative := hq.part (.alternative (Alternative.mem_of_chosen? ha))
        exact gradeMap_tidy ih (halternative.resolved hfields) hv hr hvalid
    case reference name =>
      rcases gradeReference_cases hg with ⟨-, rfl⟩ | ⟨n, hn, hg⟩
      · exact hv
      · exact ih (hq.definition hn) hv hg

end Tidy

/-! ## Completed values match -/

section Completed

variable {depth levels : Nat} {names : List String}

/-- What is left of a map conforms if no gap is left in what was put in, and what was converted conforms. -/
theorem remainder_matches {node : Node} {fields : List (Field Node)} {kept : Option String}
    {entries : Entries Value} {p : Parts (String × Value)}
    (hmatches : ∀ {n v g}, definitions.Everywhere (Node.WellFormed definitions depth) n → v.Tidy →
      grade definitions levels names n v = some g → g.outcome ≠ .incompatible →
      ¬ LeavesGap definitions levels names n v → (Request.grade levels names n g.value).Ample definitions →
      Matches definitions levels names n g.value)
    (hq : definitions.Everywhere (Node.WellFormed definitions depth) (.map fields))
    (hv : (Value.map entries).Tidy) (happlies : Applies definitions entries node fields)
    (hgap : ¬ LeavesGap definitions (levels + 1) names node (.map entries))
    (hp : gradeFields (.below definitions levels names) entries fields = some p)
    (hvalid : p.outcome ≠ .incompatible)
    (hasks : ∀ r, MapAsks definitions levels names (remainder fields kept entries p) fields r →
      r.Ample definitions) :
    MapMatches (.below definitions levels names) fields kept (remainder fields kept entries p) := by
  have hb : (Inside.below definitions levels names).Balanced := fun _ _ _ => grade_balanced
  have hnd := hq.self.2.1
  refine ⟨fun f hf => ?_, keys_remainder hb hnd hv hp kept⟩
  have hnode := hq.part (.field hf)
  have hnames := hnode.mono fun _ => Node.WellFormed.distinctNames
  have hliteral : ∀ v, f.default? = some v → v.IsLiteral := fun v hv => (hq.self.2.2 f hf v hv).1
  obtain ⟨w, hw, ⟨v, g, hget, hpresent, hg, hvalid', rfl⟩ | ⟨habsent, hundefined, hd⟩⟩ :=
    get?_remainder hb hnd hv hp hvalid kept hf
  · have htidy := Value.tidyEntries_iff.1 hv.2 _ (Entries.mem_of_get? hget)
    have hpresent' : (g.value.isUndefined && f.mayBeAbsent) = false := by
      -- Only `undefined` is converted to `undefined`.
      by_contra hnot
      have hboth : g.value.isUndefined = true ∧ f.mayBeAbsent = true := by simpa using hnot
      have hvalue := Value.eq_undefined hboth.1
      obtain rfl := compositional_undefined.of_grade hnames htidy hg hvalue
      rw [hboth.2] at hpresent
      cases hpresent
    have hno : ¬ LeavesGap definitions levels names f.node v :=
      fun h => hgap (.present happlies hf hget hpresent h)
    refine .inl ⟨g.value, hw, hpresent', ?_⟩
    exact hmatches hnode htidy hg hvalid' hno (hasks _ (.present hf hw hpresent'))
  · refine fieldDefault_matches (Nat.le_refl levels) hnames hliteral hf hd hw hasks ?_
    intro hback hdefined hfill ha
    have hno : ¬ HasGap definitions (grade definitions levels []) names f.node :=
      fun h => hgap (.absent happlies hf habsent hundefined hback (hdefined habsent) h)
    exact default_matches (Nat.le_refl levels) hnode hfill hno ha

/-- **Completed values match**, at every level and below all names, unless a gap is left in a default that was
put in. -/
theorem grade_completed {node : Node} {v : Value} {g : Grading}
    (hq : definitions.Everywhere (Node.WellFormed definitions depth) node) (hv : v.Tidy)
    (hg : grade definitions levels names node v = some g) (hvalid : g.outcome ≠ .incompatible)
    (hgap : ¬ LeavesGap definitions levels names node v)
    (ha : (Request.grade levels names node g.value).Ample definitions) :
    Matches definitions levels names node g.value := by
  induction levels generalizing names node v g with
  | zero =>
    cases hg
    exact absurd rfl hvalid
  | succ levels ih =>
    cases node
    case any => exact ⟨_, rfl, rfl⟩
    case primitive kind =>
      cases hg
      exact ⟨_, rfl, gradePrimitive_stable hvalid⟩
    case literal expected =>
      cases hg
      exact ⟨_, rfl, gradeLiteral_stable hvalid⟩
    case array elements size =>
      rcases gradeArray_cases hg with rfl | ⟨rfl, -⟩ | ⟨items, p, rfl, hne, hp, rfl⟩
      · exact ⟨_, hg, rfl⟩
      · exact absurd rfl hvalid
      have hvalue : (p.close .array (.array items)).value = .array p.pieces := if_neg hvalid
      rw [hvalue] at ha ⊢
      obtain ⟨hlen, hpieces⟩ := gradeItems_pieces hp hvalid
      have hunroll : size.unroll elements p.pieces.length = size.unroll elements items.length := by
        rw [hlen]
        exact size.unroll_length hne items.length
      refine grade_array_matched_iff.2 ⟨p.pieces, rfl, .inr ?_⟩
      rw [hunroll]
      refine forall₂_of_getElem? hlen.symm fun i n w hn hw => ?_
      have hnode := hq.part (.element (ArraySize.mem_unroll (List.mem_of_getElem? hn)))
      have ha' := ha.asks (.item (hunroll ▸ hn) hw)
      rcases hpieces i n w hn hw with ⟨u, r, hu, hr, hr', rfl⟩ | ⟨hnone, hfill⟩
      · have hu' := Value.tidyItems_iff.1 hv u (List.mem_of_getElem? hu)
        exact ih hnode hu' hr hr' (fun h => hgap (.item hn hu h)) ha'
      · exact default_matches (Nat.le_refl levels) hnode hfill (fun h => hgap (.missing hn hnone h)) ha'
    case map fields =>
      obtain ⟨entries, p, rfl, hp, hp', hvalue⟩ := gradeMap_remainder hg hvalid
      rw [hvalue] at ha ⊢
      refine grade_map_matched_iff.2 ⟨_, rfl, ?_⟩
      exact remainder_matches ih hq hv (.map fields) hgap hp hp' fun r hr => ha.asks (.map hr)
    case dictionary entry =>
      obtain ⟨entries, pieces, rfl, hvalue, -, hpieces⟩ := gradeDictionary_converted hv hg hvalid
      rw [hvalue] at ha ⊢
      refine grade_dictionary_matched_iff.2 ⟨pieces, rfl, fun e he => ?_⟩
      obtain ⟨i, hi⟩ := List.getElem?_of_mem he
      obtain ⟨e', hi', -, r, hr, hr', hw⟩ := forall₂_getElem? hpieces hi
      have he' := List.mem_of_getElem? hi'
      have ha' := ha.asks (.entry he)
      rw [hw] at ha' ⊢
      exact ih (hq.part .entry) (Value.tidyEntries_iff.1 hv.2 e' he') hr hr'
        (fun h => hgap (.entry he' h)) ha'
    case selector discriminant alternatives =>
      obtain ⟨entries, others, a, fields, key, rfl, hvalue, -, -, hchosen, hagain, hfields, hmap⟩ :=
        gradeSelector_keeps (fun _ _ _ => grade_balanced) (fun _ _ _ _ => value_of_acceptsKey)
          hq.self.sound (fun a ha fields hf =>
            ((hq.part (.alternative ha)).resolved hf).self.2.1) hv hg hvalid
      obtain ⟨_, p, heq, hp, hp', hvalue'⟩ := gradeMap_remainder hmap hvalid
      cases heq
      obtain rfl : others = remainder fields (some discriminant) entries p :=
        Value.map.inj (hvalue.symm.trans hvalue')
      rw [hvalue] at ha ⊢
      have hmap := (hq.part (.alternative (Alternative.mem_of_chosen? hchosen))).resolved hfields
      refine matches_selector hagain hfields ?_
      exact remainder_matches ih hmap hv (.alternative hchosen hfields) hgap hp hp' fun r hr =>
        ha.asks (.alternative hagain hfields hr)
    case reference name =>
      obtain ⟨before, n, after, hnodes, hfirst⟩ := (gradeReference_iff hq.self).1 hg
      have hn : n ∈ definitions.nodes name := hnodes ▸ List.mem_append_cons_self
      refine matches_reference hn ha fun ha => ?_
      exact ih (hq.definition hn) hv hfirst.graded hvalid (fun h => hgap (.variant hnodes hfirst h)) ha

end Completed

/-- **A second comparison changes nothing.** Take any comparison with a body of an accepted suite that does
not refuse its value, and puts in no default that a gap is left in. The completed value is matched without
a finding and given back as it is, where the second comparison gives a result and comes to no grading without
levels. -/
theorem Suite.compare_completed {text : String} {depth : Nat} {s : Suite}
    (hs : Suite.ofText text depth = .ok s) {name : String} {direction : Direction} {node : Node}
    (hbody : s.body name direction = .ok node) {maxDepth : Nat} {v : Value} {g h : Grading}
    (hv : v.Tidy) (hg : Conformance.compare s.definitions maxDepth node v = some g)
    (hvalid : g.outcome ≠ .incompatible) (hgap : ¬ LeavesGap s.definitions maxDepth [] node v)
    (hh : Conformance.compare s.definitions maxDepth node g.value = some h)
    (hlevels : ∀ names n w, ¬ ReflTransGen (Asks s.definitions) (.grade maxDepth [] node g.value)
      (.grade 0 names n w)) : h = .matched g.value := by
  have hwell := (Suite.wellFormed_of_text hs).everywhere hbody
  have hanswered : ¬ (Request.grade maxDepth [] node g.value).Unanswered s.definitions := by
    intro hnone
    have hsome := hh.symm.trans hnone
    cases hsome
  obtain ⟨h', hh', hmatched⟩ := grade_completed hwell hv hg hvalid hgap ⟨hanswered, hlevels⟩
  obtain rfl := Option.some.inj (hh.symm.trans hh')
  exact grade_matched (hwell.mono fun _ => Node.WellFormed.distinctNames) (grade_tidy hwell hv hg) hh
    hmatched

/-- The map names itself in a field that may be absent, so `undefined` is filled in there, which is no gap. -/
theorem Suite.compare_completed_recursive :
    let fields : List (Field Node) :=
      [⟨"v", .primitive .integer, true, none⟩, ⟨"next", .reference "n", true, none⟩]
    let s : Suite := { resources := [("r", ⟨"r", .put, .reference "n", .any⟩)],
                       definitions := [("n", [.map fields])] }
    Suite.ofText "%% r >> &n\n&n = \x7b v?: int, next?: &n \x7d" = .ok s ∧
    s.body "r" .request = .ok (.reference "n") ∧
    ¬ LeavesGap s.definitions 3 [] (.reference "n") (.map []) ∧
    ∃ g h, Conformance.compare s.definitions 3 (.reference "n") (.map []) = some g ∧
      g.outcome = .defaulted ∧
      (∀ names n w, ¬ ReflTransGen (Asks s.definitions) (.grade 3 [] (.reference "n") g.value)
        (.grade 0 names n w)) ∧
      Conformance.compare s.definitions 3 (.reference "n") g.value = some h ∧
      h = .matched g.value := by
  intro fields s
  have hs : Suite.ofText "%% r >> &n\n&n = \x7b v?: int, next?: &n \x7d" = .ok s := rfl
  have hbody : s.body "r" .request = .ok (.reference "n") := rfl
  have hgap : ¬ LeavesGap s.definitions 3 [] (.reference "n") (.map []) := by
    intro hleaves
    cases hleaves with
    | absent happlies => cases happlies
    | present happlies => cases happlies
    | @variant _ _ _ before after n _ _ hnodes _ h =>
      have hn : n ∈ s.definitions.nodes "n" := hnodes ▸ List.mem_append_cons_self
      obtain rfl := List.mem_singleton.1 hn
      cases h with
      | absent happlies hf _ _ _ hdefined hgap =>
        cases happlies
        rcases List.mem_pair.1 hf with rfl | rfl
        · cases hgap
        · exact hdefined rfl
      | present _ _ hget => cases hget
  let filled : Entries Value := [("next", .undefined), ("v", .integer 0)]
  obtain ⟨g, hg, ho, hw⟩ : ∃ g, Conformance.compare s.definitions 3 (.reference "n") (.map []) = some g ∧
      g.outcome = .defaulted ∧ g.value = .map filled := ⟨_, rfl, by decide +kernel, rfl⟩
  obtain ⟨h, hh⟩ : ∃ h, Conformance.compare s.definitions 3 (.reference "n") g.value = some h := by
    rw [hw]
    exact ⟨_, rfl⟩
  have hlevels : ∀ names n u, ¬ ReflTransGen (Asks s.definitions)
      (.grade 3 [] (.reference "n") g.value) (.grade 0 names n u) := by
    rw [hw]
    -- The requests that it leads to, each with a level left.
    have hreached : ∀ r, ReflTransGen (Asks s.definitions)
          (.grade 3 [] (.reference "n") (.map filled)) r →
        r = .grade 3 [] (.reference "n") (.map filled) ∨ r = .grade 2 ["n"] (.map fields) (.map filled) ∨
        r = .grade 1 ["n"] (.primitive .integer) (.integer 0) ∨ r = .fill 1 ["n"] (.reference "n") := by
      intro r hr
      induction hr with
      | refl => exact .inl rfl
      | tail _ hask ih =>
        rcases ih with rfl | rfl | rfl | rfl
        · cases hask with
          | @variant _ _ _ before after n _ hnodes _ =>
            have hn : n ∈ s.definitions.nodes "n" := hnodes ▸ List.mem_append_cons_self
            obtain rfl := List.mem_singleton.1 hn
            exact .inr (.inl rfl)
        · cases hask with
          | map hr =>
            cases hr with
            | present hf hget hpresent =>
              rcases List.mem_pair.1 hf with rfl | rfl
              · cases hget
                exact .inr (.inr (.inl rfl))
              · cases hget
                cases hpresent
            | absent hf _ hundefined hr =>
              rcases List.mem_pair.1 hf with rfl | rfl
              · cases hundefined _ rfl
              · cases hr with
                | literal hl => cases hl
                | fallback => exact .inr (.inr (.inr rfl))
        · cases hask
        · cases hask with
          | expands h =>
            cases h with
            | embeds h => cases h
            | enters hname => exact absurd List.mem_cons_self hname
    intro names n u hr
    rcases hreached _ hr with h | h | h | h <;> cases h
  have hv : (Value.map []).Tidy := ⟨List.Pairwise.nil, trivial⟩
  have hresult : h = .matched g.value :=
    compare_completed hs hbody hv hg (by rw [ho]; decide) hgap hh hlevels
  exact ⟨hs, hbody, hgap, g, h, hg, ho, hlevels, hh, hresult⟩

/-- The map names itself in a field that is required: `undefined` is filled in there, which the map does not
take. -/
theorem Suite.compare_completed_required :
    let s : Suite := { resources := [("r", ⟨"r", .put, .map [⟨"t", .reference "t", true, none⟩], .any⟩)],
                       definitions := [("t", [.map [⟨"next", .reference "t", false, none⟩]])] }
    Suite.ofText "%% r >> \x7b t?: &t \x7d\n&t = \x7b next: &t \x7d" = .ok s ∧
    ∃ g h, s.compare "r" .request (.map []) = .ok (some g) ∧
      g.outcome = .defaulted ∧ (∀ f ∈ g.findings, f.reason = .missingOptional) ∧
      g.value = .map [("t", .map [("next", .undefined)])] ∧
      s.compare "r" .request g.value = .ok (some h) ∧ h.outcome = .incompatible := by
  intro s
  refine ⟨rfl, _, _, rfl, by decide +kernel, ?_, rfl, rfl, by decide +kernel⟩
  intro f hf
  obtain rfl := List.mem_singleton.1 hf
  rfl

end Conformance
