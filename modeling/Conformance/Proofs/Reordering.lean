import Conformance.Proofs.Transparency

/-!
# The order of fields carries no meaning

The fields of maps can be declared in another order, in the tree and in the definitions. A comparison gives the
same grade and the same converted value then, with the same findings in another order.

* `Node.Reordered`, `Definitions.Reordered` — the second is the first one with the fields of maps in another
  order.
* `gradeMap_perm`, `defaultWithin_map_perm` — one map with its fields in another order.
* `Node.ReorderedDistinct.resolveMap?` — chains of names lead to reordered maps.
* `Node.ReorderedDistinct.defaultWithin_eq`, `Node.ReorderedDistinct.grade_agrees` — defaults and gradings, by
  induction on the expansions and on the levels.
* `compare_reordered` — comparisons.
-/

set_option autoImplicit false

namespace Conformance

/-! ## Trees with reordered fields -/

/-- The second list of fields is the first one with other nodes, as related by `R`. -/
inductive FieldsCarried (R : Node → Node → Prop) : List (Field Node) → List (Field Node) → Prop where
  | nil : FieldsCarried R [] []
  | cons {name : String} {m n : Node} {isOptional : Bool} {default? : Option Value}
    {fs gs : List (Field Node)} : R m n → FieldsCarried R fs gs →
    FieldsCarried R (⟨name, m, isOptional, default?⟩ :: fs) (⟨name, n, isOptional, default?⟩ :: gs)

/-- The second node is the first one with the fields of any number of maps in another order. -/
inductive Node.Reordered : Node → Node → Prop where
  | any : Reordered .any .any
  | primitive (kind : Kind) : Reordered (.primitive kind) (.primitive kind)
  | literal (v : Value) : Reordered (.literal v) (.literal v)
  | array {ms ns : List Node} {size : ArraySize} : List.Forall₂ Reordered ms ns →
    Reordered (.array ms size) (.array ns size)
  | map {fs gs hs : List (Field Node)} : FieldsCarried Reordered fs gs → gs.Perm hs →
    Reordered (.map fs) (.map hs)
  | dictionary {m n : Node} : Reordered m n → Reordered (.dictionary m) (.dictionary n)
  | selector {discriminant : String} {xs ys : List (Alternative Node)} :
    AlternativesEvolve Reordered xs ys →
    Reordered (.selector discriminant xs) (.selector discriminant ys)
  | reference (name : String) : Reordered (.reference name) (.reference name)

/-- The same names stand for as many nodes each, and the nodes of the second are those of the first with
reordered fields. -/
def Definitions.Reordered (definitions others : Definitions) : Prop :=
  List.Forall₂ (fun d e => d.1 = e.1 ∧ List.Forall₂ Node.Reordered d.2 e.2) definitions others

/-- The second node is the first one with reordered fields, and neither in the first nor in the definitions
does a map declare a name twice. -/
structure Node.ReorderedDistinct (definitions : Definitions) (m n : Node) : Prop where
  distinct : definitions.Everywhere Node.DistinctNames m
  reordered : m.Reordered n

theorem FieldsCarried.forall₂ {R : Node → Node → Prop} {fs gs : List (Field Node)}
    (h : FieldsCarried R fs gs) : List.Forall₂ (Field.Carried R) fs gs := by
  induction h with
  | nil => exact .nil
  | cons hnode _ ih => exact .cons ⟨rfl, rfl, rfl, hnode⟩ ih

theorem FieldsCarried.names_eq {R : Node → Node → Prop} {fs gs : List (Field Node)}
    (h : FieldsCarried R fs gs) : fs.map Field.name = gs.map Field.name := by
  induction h with
  | nil => rfl
  | cons _ _ ih => exact congrArg (_ :: ·) ih

namespace Node.ReorderedDistinct

variable {definitions : Definitions}

theorem elements {ms ns : List Node} {size : ArraySize}
    (hd : definitions.Everywhere Node.DistinctNames (.array ms size))
    (h : List.Forall₂ Node.Reordered ms ns) : List.Forall₂ (ReorderedDistinct definitions) ms ns := by
  have hall := (List.forall₂_and_left _ _).2 ⟨fun m hm => hd.part (.element hm), h⟩
  exact hall.imp fun m n hmn => ⟨hmn.1, hmn.2⟩

/-- A map has its fields carried over to others, the names of which are distinct, too, and then permuted. -/
theorem fields {fs hs : List (Field Node)} (h : ReorderedDistinct definitions (.map fs) (.map hs)) :
    ∃ gs, List.Forall₂ (Field.Carried (ReorderedDistinct definitions)) fs gs ∧ gs.Perm hs ∧
      (gs.map Field.name).Nodup := by
  obtain ⟨hd, hr⟩ := h
  cases hr with
  | @map _ gs _ hcarried hperm =>
    have hall := (List.forall₂_and_left _ _).2 ⟨fun f hf => hd.part (.field hf), hcarried.forall₂⟩
    refine ⟨gs, hall.imp fun f g ⟨hf, hfg⟩ => ?_, hperm, hcarried.names_eq ▸ hd.self⟩
    exact ⟨hfg.name, hfg.mayBeAbsent, hfg.default?, hf, hfg.node⟩

theorem alternatives {xs ys : List (Alternative Node)}
    (hd : ∀ a ∈ xs, definitions.Everywhere Node.DistinctNames a.node)
    (h : AlternativesEvolve Node.Reordered xs ys) :
    AlternativesEvolve (ReorderedDistinct definitions) xs ys := by
  induction h with
  | nil => exact .nil
  | cons hnode _ ih =>
    obtain ⟨hfirst, hrest⟩ := List.forall_mem_cons.1 hd
    exact .cons ⟨hfirst, hnode⟩ (ih hrest)

end Node.ReorderedDistinct

/-- The nodes of each name are reordered. -/
theorem Definitions.Reordered.nodes {definitions others : Definitions} (h : definitions.Reordered others)
    {node : Node} (hd : definitions.Everywhere Node.DistinctNames node) (name : String) :
    List.Forall₂ (Node.ReorderedDistinct definitions) (definitions.nodes name) (others.nodes name) := by
  have hnodes : List.Forall₂ Node.Reordered (definitions.nodes name) (others.nodes name) := by
    clear hd
    unfold Definitions.nodes
    induction h with
    | nil => exact .nil
    | cons hfirst _ ih =>
      rw [Entries.get?_cons, Entries.get?_cons, hfirst.1]
      split
      · exact hfirst.2
      · exact ih
  have hall := (List.forall₂_and_left _ _).2 ⟨fun m hm => hd.definition hm, hnodes⟩
  exact hall.imp fun m n hmn => ⟨hmn.1, hmn.2⟩

/-! ## One map with its fields in another order -/

section Permutations

variable {fs gs : List (Field Node)}

theorem rel_trans {α : Type} {R : α → α → Prop} (hR : ∀ a b c, R a b → R b c → R a c)
    {a? b? c? : Option α} (h : Option.Rel R a? b?) (h' : Option.Rel R b? c?) : Option.Rel R a? c? := by
  cases h with
  | none => exact h'
  | some hab =>
    cases h' with
    | some hbc => exact .some (hR _ _ _ hab hbc)

theorem rel_and_left {α β : Type} {R : α → β → Prop} {P : α → Prop} {a? : Option α} {b? : Option β}
    (h : Option.Rel R a? b?) (hP : ∀ a, a? = some a → P a) :
    Option.Rel (fun a b => P a ∧ R a b) a? b? := by
  cases h with
  | none => exact .none
  | some hab => exact .some ⟨hP _ rfl, hab⟩

/-- The results for a list in another order are the results in another order. -/
theorem mapM_perm {α β : Type} (f : α → Option β) {as bs : List α} (h : as.Perm bs) :
    Option.Rel List.Perm (as.mapM f) (bs.mapM f) := by
  induction h with
  | nil => exact .some .nil
  | cons a _ ih =>
    rw [List.mapM_cons, List.mapM_cons]
    refine rel_bind (rel_eq_iff.2 rfl) ?_
    rintro b _ rfl
    exact rel_bind ih fun bs cs hbc => .some (hbc.cons b)
  | swap a b as =>
    simp only [List.mapM_cons]
    cases f a <;> cases f b <;> cases as.mapM f
    case some.some.some => exact .some (.swap _ _ _)
    all_goals exact .none
  | trans _ _ ih ih' => exact rel_trans (fun _ _ _ => .trans) ih ih'

/-- Entries that are found under one key each are the same entries in any order. -/
theorem Entries.get?_perm {α : Type} {ps qs : List (String × α)} (h : ps.Perm qs)
    (hnames : (ps.map Prod.fst).Nodup) (key : String) : get? ps key = get? qs key := by
  have hnames' : (qs.map Prod.fst).Nodup := (h.map Prod.fst).nodup_iff.1 hnames
  cases hp : get? ps key with
  | some v => exact (get?_of_mem hnames' (h.mem_iff.1 (mem_of_get? hp))).symm
  | none =>
    refine (get?_eq_none.2 fun e he => ?_).symm
    exact get?_eq_none.1 hp e (h.mem_iff.2 he)

theorem Entries.ofList_perm {α : Type} {ps qs : List (String × α)} (h : ps.Perm qs)
    (hnames : (ps.map Prod.fst).Nodup) : ofList ps = ofList qs := by
  have hnames' : (qs.map Prod.fst).Nodup := (h.map Prod.fst).nodup_iff.1 hnames
  refine (sorted_ofList ps).ext (sorted_ofList qs) fun key => ?_
  rw [get?_ofList hnames, get?_ofList hnames', get?_perm h hnames]

/-- The default of a map does not depend on the order of its fields. -/
theorem defaultWithin_map_perm {definitions : Definitions} {convert : Node → Value → Option Grading}
    {steps : Nat} {names : List String} (h : fs.Perm gs) (hnames : (fs.map Field.name).Nodup) :
    defaultWithin definitions convert steps names (.map fs) =
      defaultWithin definitions convert steps names (.map gs) := by
  cases steps with
  | zero => rfl
  | succ steps =>
    have hkeys : ∀ ps, fs.mapM (fun f => (fieldDefault convert
        (defaultWithin definitions convert steps names) f).map fun v => (f.name, v)) = some ps →
        (ps.map Prod.fst).Nodup := fun ps hps => (mapM_named hps).1 ▸ hnames
    refine rel_eq_iff.1 (rel_map (rel_and_left (mapM_perm _ h) hkeys) fun ps qs ⟨hnd, hperm⟩ => ?_)
    rw [Entries.ofList_perm hperm hnd]

/-- The grades are the same, and so are the pieces and the findings in some order. -/
structure Parts.Shuffled {α : Type} (p q : Parts α) : Prop where
  outcome : p.outcome = q.outcome
  pieces : p.pieces.Perm q.pieces
  findings : p.findings.Perm q.findings

namespace Parts.Shuffled

variable {α : Type} {p q r : Parts α}

theorem trans (h : p.Shuffled q) (h' : q.Shuffled r) : p.Shuffled r :=
  ⟨h.outcome.trans h'.outcome, h.pieces.trans h'.pieces, h.findings.trans h'.findings⟩

theorem append_left (r : Parts α) (h : p.Shuffled q) : (r.append p).Shuffled (r.append q) :=
  ⟨congrArg r.outcome.join h.outcome, h.pieces.append_left _, h.findings.append_left _⟩

theorem swap (p q r : Parts α) : (p.append (q.append r)).Shuffled (q.append (p.append r)) where
  outcome := by
    simp only [Parts.append]
    rw [← Outcome.join_assoc, Outcome.join_comm p.outcome, Outcome.join_assoc]
  pieces := List.perm_append_comm_assoc _ _ _
  findings := List.perm_append_comm_assoc _ _ _

end Parts.Shuffled

variable {inside : Inside} {entries : Entries Value}

theorem gradeFields_perm (h : fs.Perm gs) :
    Option.Rel Parts.Shuffled (gradeFields inside entries fs) (gradeFields inside entries gs) := by
  induction h with
  | nil => exact .some ⟨rfl, .nil, .nil⟩
  | cons f _ ih =>
    refine rel_bind (rel_eq_iff.2 rfl) ?_
    rintro part _ rfl
    exact rel_bind ih fun p q hpq => .some (hpq.append_left part)
  | swap f g fs =>
    simp only [gradeFields]
    cases gradeField inside entries f <;> cases gradeField inside entries g <;>
      cases gradeFields inside entries fs
    case some.some.some => exact .some (.swap _ _ _)
    all_goals exact .none
  | trans _ _ ih ih' => exact rel_trans (fun _ _ _ => .trans) ih ih'

/-- A declared field leaves at most one piece, at its own name. -/
theorem gradeField_keys {f : Field Node} {p : Parts (String × Value)}
    (h : gradeField inside entries f = some p) : (p.pieces.map Prod.fst).Sublist [f.name] := by
  cases gradeField_cases h with
  | required => exact List.nil_sublist _
  | _ => exact List.Sublist.refl _

theorem gradeFields_keys {p : Parts (String × Value)} (h : gradeFields inside entries fs = some p) :
    (p.pieces.map Prod.fst).Sublist (fs.map Field.name) := by
  induction fs generalizing p with
  | nil =>
    cases h
    exact List.Sublist.refl _
  | cons f fs ih =>
    obtain ⟨part, rest, hpart, hrest, rfl⟩ := gradeFields_cons.1 h
    simp only [Parts.append, List.map_append]
    exact (gradeField_keys hpart).append (ih hrest)

/-- **One map with its fields in another order** grades each value alike, with the findings in another order. -/
theorem gradeMap_perm (h : fs.Perm gs) (hnames : (fs.map Field.name).Nodup) (kept : Option String)
    (v : Value) : Option.Rel (Grading.Agrees List.Perm) (gradeMap inside fs kept v)
      (gradeMap inside gs kept v) := by
  cases v
  case map entries =>
    have hdeclared : ∀ key, (Field.find? fs key).isSome = (Field.find? gs key).isSome := by
      intro key
      rw [Bool.eq_iff_iff, Field.isSome_find?, Field.isSome_find?]
      simp only [h.mem_iff]
    have hkeys : ∀ p, gradeFields inside entries fs = some p → (p.pieces.map Prod.fst).Nodup :=
      fun p hp => (gradeFields_keys hp).nodup hnames
    refine rel_map (rel_and_left (gradeFields_perm h) hkeys) fun p q ⟨hnd, hpq⟩ => ?_
    rw [undeclaredEntries_congr hdeclared]
    refine Parts.close_agrees (congrArg (Outcome.join · _) hpq.outcome) ?_
      (hpq.findings.append_right _) _
    -- A key that is kept is put in last, so the fields are in their places by then.
    have hsame := Entries.ofList_perm hpq.pieces hnd
    unfold Entries.ofList at hsame ⊢
    simp only [Parts.append, List.foldl_append, hsame]
  all_goals exact .some (.refl Finding.congruence_perm _)

end Permutations

/-! ## Names, defaults and gradings -/

theorem Grading.Agrees.trans {g h k : Grading} (hgh : g.Agrees List.Perm h) (hhk : h.Agrees List.Perm k) :
    g.Agrees List.Perm k :=
  ⟨hgh.outcome.trans hhk.outcome, hgh.value.trans hhk.value, hgh.findings.trans hhk.findings⟩

namespace Node.ReorderedDistinct

variable {definitions others : Definitions} (hdefs : definitions.Reordered others)

include hdefs

theorem resolveWithin? {steps : Nat} {m n : Node} (h : ReorderedDistinct definitions m n) :
    (∃ fs gs, definitions.resolveWithin? steps m = some fs ∧ others.resolveWithin? steps n = some gs ∧
      ReorderedDistinct definitions (.map fs) (.map gs)) ∨
    definitions.resolveWithin? steps m = none ∧ others.resolveWithin? steps n = none := by
  induction steps generalizing m n with
  | zero =>
    obtain ⟨hd, hr⟩ := h
    cases hr with
    | map hcarried hperm => exact .inl ⟨_, _, rfl, rfl, hd, .map hcarried hperm⟩
    | _ => exact .inr ⟨rfl, rfl⟩
  | succ steps ih =>
    obtain ⟨hd, hr⟩ := h
    cases hr with
    | map hcarried hperm => exact .inl ⟨_, _, rfl, rfl, hd, .map hcarried hperm⟩
    | reference name =>
      have hnodes := hdefs.nodes hd name
      simp only [Definitions.resolveWithin?]
      generalize definitions.nodes name = ms at hnodes
      generalize others.nodes name = ns at hnodes
      cases hnodes with
      | nil => exact .inr ⟨rfl, rfl⟩
      | cons hfirst hrest =>
        cases hrest with
        | nil => exact ih hfirst
        | cons => exact .inr ⟨rfl, rfl⟩
    | _ => exact .inr ⟨rfl, rfl⟩

/-- Chains of names lead to reordered maps, or both lead to no map. -/
theorem resolveMap? {m n : Node} (h : ReorderedDistinct definitions m n) :
    (∃ fs gs, definitions.resolveMap? m = some fs ∧ others.resolveMap? n = some gs ∧
      ReorderedDistinct definitions (.map fs) (.map gs)) ∨
    definitions.resolveMap? m = none ∧ others.resolveMap? n = none := by
  unfold Definitions.resolveMap?
  rw [← hdefs.length_eq]
  exact h.resolveWithin? hdefs

/-- Reordered fields have the same defaults. -/
theorem defaultWithin_eq {convert convert' : Node → Value → Option Grading}
    (hconvert : ∀ m n v, ReorderedDistinct definitions m n →
      Option.Rel (Grading.Agrees List.Perm) (convert m v) (convert' n v))
    {steps : Nat} {names : List String} {m n : Node} (h : ReorderedDistinct definitions m n) :
    defaultWithin definitions convert steps names m = defaultWithin others convert' steps names n := by
  induction steps generalizing names m n with
  | zero => rfl
  | succ steps ih =>
    obtain ⟨hd, hr⟩ := h
    cases hr with
    | any => rfl
    | primitive => rfl
    | literal => rfl
    | dictionary => rfl
    | @array ms ns size hall =>
      cases size with
      | repeating => rfl
      | exact =>
        refine congrArg (Option.map Value.array) (mapM_eq_of_forall₂ ?_)
        exact (elements hd hall).imp fun m n => ih
    | map hcarried hperm =>
      obtain ⟨gs, hfields, hperm, hnames⟩ := fields ⟨hd, .map hcarried hperm⟩
      rw [← defaultWithin_map_perm hperm hnames]
      refine congrArg (Option.map fun entries => Value.map (Entries.ofList entries))
        (mapM_eq_of_forall₂ (hfields.imp fun f g hfg => ?_))
      rw [hfg.fieldDefault_eq (fun v => hconvert _ _ v hfg.node) (ih hfg.node), hfg.name]
    | @selector discriminant xs ys hall =>
      have hall := alternatives (fun a ha => hd.part (.alternative ha)) hall
      cases hall with
      | nil => rfl
      | @cons key p q xs ys hnode _ =>
        refine congrArg (Option.map (withDiscriminant discriminant key)) ?_
        rcases hnode.resolveMap? hdefs with ⟨fs, gs, hfs, hgs, hmap⟩ | ⟨hfs, hgs⟩
        · simp only [hfs, hgs]
          exact ih hmap
        · simp only [hfs, hgs]
          exact ih hnode
    | reference name =>
      have hnodes := hdefs.nodes hd name
      simp only [defaultWithin]
      generalize definitions.nodes name = ms at hnodes
      generalize others.nodes name = ns at hnodes
      cases hnodes with
      | nil => rfl
      | cons hfirst _ =>
        simp only
        split
        · rfl
        · exact ih hfirst

/-- The bounds on the number of expansions play no part, for neither cuts an expansion short. -/
theorem defaultOf_eq {convert convert' : Node → Value → Option Grading}
    (hconvert : ∀ m n v, ReorderedDistinct definitions m n →
      Option.Rel (Grading.Agrees List.Perm) (convert m v) (convert' n v))
    {names : List String} {m n : Node} (h : ReorderedDistinct definitions m n) :
    defaultOf definitions convert names m = defaultOf others convert' names n := by
  rw [← defaultOf_eventually (Nat.le_add_right _ (expansionBound others n)),
    ← defaultOf_eventually (Nat.le_add_left _ (expansionBound definitions m))]
  exact defaultWithin_eq hdefs hconvert h

/-- **Every grading agrees with the one by reordered fields**, or neither is there. -/
theorem grade_agrees {levels : Nat} {names : List String} {m n : Node} (h : ReorderedDistinct definitions m n)
    (v : Value) : Option.Rel (Grading.Agrees List.Perm) (grade definitions levels names m v)
      (grade others levels names n v) := by
  have hS := Finding.congruence_perm
  induction levels generalizing names m n v with
  | zero => exact .some (.refl hS _)
  | succ levels ih =>
    have hconvert : ∀ m n v, ReorderedDistinct definitions m n → Option.Rel (Grading.Agrees List.Perm)
        (grade definitions levels [] m v) (grade others levels [] n v) := fun m n v h => ih h v
    have hin : (Inside.below definitions levels names).Agrees List.Perm (ReorderedDistinct definitions)
        (.below others levels names) := by
      refine ⟨fun m n v h => ih h v, fun m n h => defaultOf_eq hdefs hconvert h, fun f g h => ?_⟩
      exact h.fieldDefault_eq (fun v => hconvert _ _ v h.node) (defaultOf_eq hdefs hconvert h.node)
    have hmap : ∀ {fs hs}, ReorderedDistinct definitions (.map fs) (.map hs) → ∀ kept w,
        Option.Rel (Grading.Agrees List.Perm) (gradeMap (.below definitions levels names) fs kept w)
          (gradeMap (.below others levels names) hs kept w) := by
      intro fs hs h kept w
      obtain ⟨gs, hfields, hperm, hnames⟩ := h.fields
      exact rel_trans (fun _ _ _ => .trans) (gradeMap_agrees hS hin hfields kept w)
        (gradeMap_perm hperm hnames kept w)
    obtain ⟨hd, hr⟩ := h
    cases hr with
    | any => exact .some (.refl hS _)
    | primitive => exact .some (.refl hS _)
    | literal => exact .some (.refl hS _)
    | array hall => exact gradeArray_agrees hS hin (elements hd hall) _ v
    | map hcarried hperm => exact hmap ⟨hd, .map hcarried hperm⟩ none v
    | dictionary hentry => exact gradeDictionary_agrees hS hin ⟨hd.part .entry, hentry⟩ v
    | selector hall =>
      have halternatives := alternatives (fun a ha => hd.part (.alternative ha)) hall
      refine gradeSelector_agrees hS hin halternatives (fun p q hpq => ?_) _ v
      rcases hpq.resolveMap? hdefs with ⟨fs, gs, hfs, hgs, hreorders⟩ | hnone
      · exact .inl ⟨fs, gs, hfs, hgs, hmap hreorders⟩
      · exact .inr hnone
    | reference name =>
      have hnodes := hdefs.nodes hd name
      exact gradeReference_agrees hS (R := ReorderedDistinct definitions) (fun m n h => ih h v) hnodes v

end Node.ReorderedDistinct

/-- **The order of fields carries no meaning.** Take any node and any definitions in which no map declares a name
twice, and declare the fields of any number of maps in another order, at any depth and in the definitions. Then
both comparisons of a value give a result or neither does, and the results have the same grade, the same
converted value, and the same findings in some order. -/
theorem compare_reordered {definitions others : Definitions} {node other : Node}
    (hdistinct : definitions.Everywhere Node.DistinctNames node)
    (hdefinitions : definitions.Reordered others) (hnode : node.Reordered other) (maxDepth : Nat)
    (v : Value) : Option.Rel (Grading.Agrees List.Perm) (compare definitions maxDepth node v)
      (compare others maxDepth other v) :=
  Node.ReorderedDistinct.grade_agrees hdefinitions ⟨hdistinct, hnode⟩ v

/-- The fields are swapped in a map and in the map of the first node of `v`, to which a field of it leads. -/
theorem compare_reordered_variant :
    let a : Field Node := ⟨"a", .primitive .string, false, none⟩
    let b : Field Node := ⟨"b", .primitive .string, true, some (.string "c")⟩
    let x : Field Node := ⟨"x", .reference "v", false, none⟩
    let y : Field Node := ⟨"y", .primitive .boolean, true, none⟩
    let definitions : Definitions := [("v", [.map [a, b], .primitive .boolean])]
    let others : Definitions := [("v", [.map [b, a], .primitive .boolean])]
    let v : Value := .map [("x", .map [("a", .integer 7)])]
    definitions.Everywhere Node.DistinctNames (.map [x, y]) ∧ definitions.Reordered others ∧
      (Node.map [x, y]).Reordered (.map [y, x]) ∧
    ∃ g h, compare definitions 4 (.map [x, y]) v = some g ∧ compare others 4 (.map [y, x]) v = some h ∧
      g.findings.map Finding.path = [[.key "x", .key "a"], [.key "x", .key "b"], [.key "y"]] ∧
      h.findings.map Finding.path = [[.key "y"], [.key "x", .key "b"], [.key "x", .key "a"]] ∧
      g.outcome = .mixed ∧ g.Agrees List.Perm h := by
  intro a b x y definitions others v
  have hdistinct : definitions.Everywhere Node.DistinctNames (.map [x, y]) := by
    constructor
    · simp [x, y, Node.subnodes, Node.subnodesFields, Node.DistinctNames]
    · intro name n hn
      have hn' : n = .map [a, b] ∨ n = .primitive .boolean := by
        simp only [Definitions.nodes, definitions, Entries.get?_cons] at hn
        split at hn
        · simpa using hn
        · cases hn
      rcases hn' with rfl | rfl
      · simp [a, b, Node.subnodes, Node.subnodesFields, Node.DistinctNames]
      · simp [Node.subnodes, Node.DistinctNames]
  have hfirst : (Node.map [a, b]).Reordered (.map [b, a]) :=
    .map (.cons (.primitive _) (.cons (.primitive _) .nil)) (.swap _ _ _)
  have hdefinitions : definitions.Reordered others :=
    .cons ⟨rfl, .cons hfirst (.cons (.primitive _) .nil)⟩ .nil
  have hnode : (Node.map [x, y]).Reordered (.map [y, x]) :=
    .map (.cons (.reference _) (.cons (.primitive _) .nil)) (.swap _ _ _)
  obtain ⟨g, hg, hpaths, ho⟩ : ∃ g, compare definitions 4 (.map [x, y]) v = some g ∧
      g.findings.map Finding.path = [[.key "x", .key "a"], [.key "x", .key "b"], [.key "y"]] ∧
      g.outcome = .mixed := ⟨_, rfl, by decide +kernel, by decide +kernel⟩
  obtain ⟨h, hh, hpaths'⟩ : ∃ h, compare others 4 (.map [y, x]) v = some h ∧
      h.findings.map Finding.path = [[.key "y"], [.key "x", .key "b"], [.key "x", .key "a"]] :=
    ⟨_, rfl, by decide +kernel⟩
  have hagrees := compare_reordered hdistinct hdefinitions hnode 4 v
  rw [hg, hh] at hagrees
  cases hagrees with
  | some hgh => exact ⟨hdistinct, hdefinitions, hnode, g, h, hg, hh, hpaths, hpaths', ho, hgh⟩

end Conformance
