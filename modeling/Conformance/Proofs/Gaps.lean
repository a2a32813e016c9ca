import Conformance.Proofs.DeeperLimits
import Conformance.Proofs.Selection
import Conformance.Proofs.Transparency

/-!
# Defaults that conform

The default of a node is graded as conforming by the node itself, at the place where it was put in, unless it
has a gap: an `undefined` for a name that is being expanded already, where the name stands for more than the
whole value of a field that may be absent and takes no `undefined` as it is.

* `HasGap` — a gap is left in the default of a node.
* `Request.Ample` — the request and all that it leads to is answered, with levels left for every grading.
* `matches_reference` — a name matches what one of its nodes matches.
* `grade_literal_again` — declared defaults, with fewer levels and below names.
* `default_matches` — a default without a gap matches.
-/

set_option autoImplicit false

namespace Conformance

open Relation (ReflTransGen)

variable {definitions : Definitions}

/-! ## Gaps -/

/-- The node leads by names alone to the node for any value, so it takes `undefined` as it is. -/
inductive TakesUndefined (definitions : Definitions) : Node → Prop where
  | any : TakesUndefined definitions .any
  | reference {name : String} {n : Node} : n ∈ definitions.nodes name →
    TakesUndefined definitions n → TakesUndefined definitions (.reference name)

/-- A gap is left in the default of the node: `undefined` stands for a name that is being expanded already,
and the name does not take it. It is no gap where it is all that a field holds which may be absent. -/
inductive HasGap (definitions : Definitions) (convert : Node → Value → Option Grading) :
    List String → Node → Prop where
  | name {names : List String} {name : String} : name ∈ names →
    ¬ TakesUndefined definitions (.reference name) → HasGap definitions convert names (.reference name)
  | enters {names : List String} {name : String} {n : Node} {ns : List Node} : name ∉ names →
    definitions.nodes name = n :: ns → HasGap definitions convert (name :: names) n →
    HasGap definitions convert names (.reference name)
  | element {names : List String} {n : Node} {ns : List Node} : n ∈ ns →
    HasGap definitions convert names n → HasGap definitions convert names (.array ns .exact)
  | field {names : List String} {f : Field Node} {fs : List (Field Node)} : f ∈ fs →
    f.FallsBack convert →
    (f.mayBeAbsent = true → defaultOf definitions convert names f.node ≠ some .undefined) →
    HasGap definitions convert names f.node → HasGap definitions convert names (.map fs)
  | alternative {names : List String} {d : String} {a : Alternative Node}
    {xs : List (Alternative Node)} : HasGap definitions convert names (a.target definitions) →
    HasGap definitions convert names (.selector d (a :: xs))

/-! ## Requests with levels to spare -/

/-- The request is answered, and no grading that it leads to is left without levels. -/
structure Request.Ample (definitions : Definitions) (r : Request) : Prop where
  answered : ¬ r.Unanswered definitions
  levels : ∀ names n w, ¬ ReflTransGen (Asks definitions) r (.grade 0 names n w)

namespace Request.Ample

variable {r q : Request} {levels : Nat} {names : List String} {node : Node} {v : Value}

theorem asks (h : r.Ample definitions) (hq : Asks definitions r q) : q.Ample definitions :=
  ⟨fun hu => h.answered (hq.unanswered hu), fun names n w hreach => h.levels names n w (.head hq hreach)⟩

theorem exists_grading (h : (Request.grade levels names node v).Ample definitions) :
    ∃ g, Conformance.grade definitions levels names node v = some g :=
  Option.ne_none_iff_exists'.1 h.answered

theorem exists_succ (h : (Request.grade levels names node v).Ample definitions) :
    ∃ below, levels = below + 1 := by
  cases levels with
  | zero => exact absurd .refl (h.levels names node v)
  | succ below => exact ⟨below, rfl⟩

end Request.Ample

/-! ## Names -/

section Names

variable {levels : Nat} {names : List String}

/-- A name matches a value that one of its nodes matches, whether or not this node is looked at. -/
theorem matches_reference {name : String} {n : Node} {v : Value} (hn : n ∈ definitions.nodes name)
    (ha : (Request.grade (levels + 1) names (.reference name) v).Ample definitions)
    (h : (Request.grade levels (name :: names) n v).Ample definitions →
      Matches definitions levels (name :: names) n v) :
    Matches definitions (levels + 1) names (.reference name) v := by
  obtain ⟨g, hg⟩ := ha.exists_grading
  refine ⟨g, hg, ?_⟩
  rcases gradeReference_best hg with hmatched | hall
  · exact hmatched
  by_contra hne
  obtain ⟨before, after, hnodes⟩ := List.append_of_mem hn
  have hbefore : ∀ m ∈ before, ∃ g', grade definitions levels (name :: names) m v = some g' ∧
      g'.outcome ≠ .matched := by
    intro m hm
    obtain ⟨g', hg', hle⟩ := hall m (hnodes ▸ List.mem_append_left _ hm)
    refine ⟨g', hg', fun hmatched => hne ?_⟩
    rw [hmatched] at hle
    exact Outcome.eq_matched_of_le hle
  obtain ⟨g', hg', hmatched⟩ := h (ha.asks (.variant hnodes hbefore))
  obtain ⟨g'', hg'', hle⟩ := hall n hn
  obtain rfl := Option.some.inj (hg'.symm.trans hg'')
  rw [hmatched] at hle
  exact hne (Outcome.eq_matched_of_le hle)

/-- A node that takes `undefined` matches it. -/
theorem TakesUndefined.matches {node : Node} (h : TakesUndefined definitions node)
    (ha : (Request.grade levels names node .undefined).Ample definitions) :
    Matches definitions levels names node .undefined := by
  induction h generalizing levels names with
  | any =>
    obtain ⟨below, rfl⟩ := ha.exists_succ
    exact ⟨_, rfl, rfl⟩
  | reference hn _ ih =>
    obtain ⟨below, rfl⟩ := ha.exists_succ
    exact matches_reference hn ha ih

end Names

/-! ## Declared defaults -/

section Literals

variable {levels more : Nat} {entered names : List String} {node : Node} {v : Value} {g h : Grading}

/-- A literal is no composite value, so no node for such values grades it as valid. -/
theorem Value.IsLiteral.not_composite (hv : v.IsLiteral) (hnode : node.compositeKind?.isSome)
    (hg : grade definitions (more + 1) entered node v = some g) : g.outcome = .incompatible := by
  cases node <;> try cases hnode
  all_goals
    cases v <;> first | exact hv.elim | (cases hg; rfl)

/-- A literal that is converted by a node matches it then, also with fewer levels and below other names. -/
theorem grade_literal_again (hv : v.IsLiteral) (hg : grade definitions more entered node v = some g)
    (hvalid : g.outcome ≠ .incompatible) (hle : levels ≤ more)
    (ha : (Request.grade levels names node g.value).Ample definitions) :
    Matches definitions levels names node g.value := by
  induction more generalizing levels entered names node with
  | zero =>
    cases hg
    exact absurd rfl hvalid
  | succ more ih =>
    obtain ⟨below, rfl⟩ := ha.exists_succ
    cases node
    case any => exact ⟨_, rfl, rfl⟩
    case primitive kind =>
      cases hg
      exact ⟨_, rfl, gradePrimitive_stable hvalid⟩
    case literal expected =>
      cases hg
      exact ⟨_, rfl, gradeLiteral_stable hvalid⟩
    case reference name =>
      rcases gradeReference_cases hg with ⟨-, rfl⟩ | ⟨n, hn, hg⟩
      · exact absurd rfl hvalid
      · exact matches_reference hn ha fun ha => ih hg (Nat.le_of_succ_le_succ hle) ha
    all_goals exact absurd (hv.not_composite rfl hg) hvalid

end Literals

/-! ## Defaults that are undefined -/

section Undefined

variable {convert convert' : Node → Value → Option Grading} {n : Nat} {names : List String} {node : Node}

/-- Declared defaults have no part in a default that is undefined. -/
theorem defaultWithin_undefined (h : defaultWithin definitions convert n names node = some .undefined) :
    defaultWithin definitions convert' n names node = some .undefined := by
  induction n generalizing names node with
  | zero => cases h
  | succ n ih =>
    cases node
    case any => rfl
    case primitive => exact h
    case literal => exact h
    case array elements size =>
      cases size with
      | exact =>
        obtain ⟨items, -, hw⟩ := Option.map_eq_some_iff.1 h
        cases hw
      | repeating => cases h
    case map fields =>
      obtain ⟨entries, -, hw⟩ := Option.map_eq_some_iff.1 h
      cases hw
    case dictionary => cases h
    case selector discriminant alternatives =>
      cases alternatives with
      | nil => cases h
      | cons first rest =>
        obtain ⟨d, hd, hw⟩ := Option.map_eq_some_iff.1 h
        cases d <;> try cases hw
        exact Option.map_eq_some_iff.2 ⟨.undefined, ih hd, rfl⟩
    case reference name =>
      simp only [defaultWithin] at h ⊢
      by_cases hname : names.contains name = true
      · rw [if_pos hname]
      · rw [if_neg hname] at h ⊢
        cases hnodes : definitions.nodes name with
        | nil => rfl
        | cons first rest =>
          rw [hnodes] at h
          exact ih h

theorem defaultOf_of_within {d : Value} (h : defaultWithin definitions convert n names node = some d) :
    defaultOf definitions convert names node = some d := by
  rw [← defaultOf_eventually (Nat.le_max_left _ n)]
  exact defaultWithin_mono (Nat.le_max_right _ _) h

end Undefined

/-! ## Defaults of maps -/

/-- The default of a map has each of the fields with its default, and nothing else. -/
structure FilledIn (fill : Field Node → Option Value) (fields : List (Field Node))
    (entries : Entries Value) : Prop where
  sorted : entries.Sorted
  declared : ∀ f ∈ fields, ∃ d, fill f = some d ∧ Entries.get? entries f.name = some d
  keys : ∀ e ∈ entries, (Field.find? fields e.1).isSome = true

theorem filledIn_of_default {convert : Node → Value → Option Grading} {n : Nat} {names : List String}
    {fields : List (Field Node)} {w : Value} (hnames : (fields.map Field.name).Nodup)
    (h : defaultWithin definitions convert (n + 1) names (.map fields) = some w) :
    ∃ entries, w = .map entries ∧
      FilledIn (fieldDefault convert (defaultWithin definitions convert n names)) fields entries := by
  obtain ⟨pairs, hpairs, rfl⟩ := Option.map_eq_some_iff.1 h
  obtain ⟨hkeys, hall⟩ := mapM_named hpairs
  have hnodup : (pairs.map Prod.fst).Nodup := hkeys ▸ hnames
  refine ⟨Entries.ofList pairs, rfl, Entries.sorted_ofList pairs, fun f hf => ?_, fun e he => ?_⟩
  · obtain ⟨d, hd, hmem⟩ := hall f hf
    refine ⟨d, hd, ?_⟩
    rw [Entries.get?_ofList hnodup]
    exact Entries.get?_of_mem hnodup hmem
  · have hget := Entries.get?_of_mem (Entries.sorted_ofList pairs).nodup_keys he
    rw [Entries.get?_ofList hnodup] at hget
    have hmem : e.1 ∈ fields.map Field.name :=
      hkeys ▸ List.mem_map_of_mem (Entries.mem_of_get? hget)
    obtain ⟨f, hf, hname⟩ := List.mem_map.1 hmem
    exact List.find?_isSome.2 ⟨f, hf, beq_iff_eq.2 hname⟩

/-! ## Defaults match -/

theorem Node.WellFormed.sound {depth : Nat} {node : Node} (h : node.WellFormed definitions depth) :
    node.Sound definitions := by
  cases node <;> try trivial
  case map fields => exact h.2.1
  case selector discriminant alternatives =>
    intro a ha
    obtain ⟨hkind, fields, hmapOf, haccepts⟩ := h.2.2 a ha
    have hkey : a.key.isDiscriminant = true := Value.isDiscriminant_iff.2 hkind
    refine ⟨fields, ((hmapOf fields).2 rfl).resolveMap?, fun f hfind => ?_⟩
    have hf := List.mem_of_find?_eq_some hfind
    have hname : f.name = discriminant := by simpa using List.find?_some hfind
    rcases haccepts f hf hname with hnode | hnode <;> rw [hnode]
    · exact beq_self_eq_true _
    · exact (Value.equal_iff_of_isDiscriminant hkey).2 rfl

theorem Node.WellFormed.distinctNames {depth : Nat} {node : Node}
    (h : node.WellFormed definitions depth) : node.DistinctNames := h.sound.distinctNames

theorem Node.WellFormed.isDiscriminant {depth : Nat} {discriminant : String}
    {alternatives : List (Alternative Node)} {a : Alternative Node}
    (h : (Node.selector discriminant alternatives).WellFormed definitions depth)
    (ha : a ∈ alternatives) : a.key.isDiscriminant = true :=
  Value.isDiscriminant_iff.2 (h.2.2 a ha).1

section Defaults

variable {depth more : Nat}

theorem fieldDefault_cases {convert : Node → Value → Option Grading} {fill : Node → Option Value}
    {f : Field Node} {d : Value} (h : fieldDefault convert fill f = some d) :
    (∃ literal g, f.default? = some literal ∧ convert f.node literal = some g ∧
      g.outcome ≠ .incompatible ∧ g.value = d) ∨ f.FallsBack convert ∧ fill f.node = some d := by
  unfold fieldDefault at h
  unfold Field.FallsBack
  cases hliteral : f.default? with
  | none =>
    rw [hliteral] at h
    exact .inr ⟨nofun, h⟩
  | some literal =>
    rw [hliteral] at h
    obtain ⟨g, hg, h⟩ := Option.bind_eq_some_iff.1 h
    cases hvalid : g.outcome.isValid with
    | true =>
      rw [if_pos hvalid] at h
      exact .inl ⟨literal, g, rfl, hg, by simpa [Outcome.isValid] using hvalid, Option.some.inj h⟩
    | false =>
      rw [if_neg (by simp [hvalid])] at h
      refine .inr ⟨fun l hl => ?_, h⟩
      cases hl
      exact ⟨g, hg, hvalid⟩

theorem fieldDefault_of_fallsBack {convert : Node → Value → Option Grading}
    {fill : Node → Option Value} {f : Field Node} (h : f.FallsBack convert) :
    fieldDefault convert fill f = fill f.node := by
  unfold fieldDefault
  cases hliteral : f.default? with
  | none => rfl
  | some literal =>
    obtain ⟨g, hg, hvalid⟩ := h literal hliteral
    simp [hg, hvalid]

/-- A field at which a map has the default of the field conforms, as seen with fewer levels, if the default
of the node conforms where it is taken. -/
theorem fieldDefault_matches {n levels : Nat} {names : List String} {fields : List (Field Node)}
    {f : Field Node} {entries : Entries Value} {d : Value} (hle : levels ≤ more)
    (hnode : definitions.Everywhere Node.DistinctNames f.node)
    (hliteral : ∀ v, f.default? = some v → v.IsLiteral) (hf : f ∈ fields)
    (hd : fieldDefault (grade definitions more [])
      (defaultWithin definitions (grade definitions more []) n names) f = some d)
    (hget : Entries.get? entries f.name = some d)
    (hasks : ∀ r, MapAsks definitions levels names entries fields r → r.Ample definitions)
    (hmatches : f.FallsBack (grade definitions more []) →
      (f.mayBeAbsent = true →
        defaultOf definitions (grade definitions more []) names f.node ≠ some .undefined) →
      defaultWithin definitions (grade definitions more []) n names f.node = some d →
      (Request.grade levels names f.node d).Ample definitions →
      Matches definitions levels names f.node d) :
    FieldMatches (.below definitions levels names) entries f := by
  cases hundefined : d.isUndefined && f.mayBeAbsent with
  | true =>
    -- It is put in once more, so it has to be undefined again with the levels that are left here.
    obtain ⟨hd', habsent⟩ := Bool.and_eq_true_iff.1 hundefined
    obtain rfl := Value.eq_undefined hd'
    refine .inr ⟨hget, habsent, ?_⟩
    rcases fieldDefault_cases hd with ⟨literal, g, hl, hg, -, hvalue⟩ | ⟨hback, hfill⟩
    · have hsame := compositional_undefined.of_grade hnode (hliteral _ hl).tidy hg hvalue
      rw [hsame] at hl
      exact (hliteral _ hl).elim
    · have hback' : f.FallsBack (grade definitions levels []) := by
        intro literal hl
        have hask : MapAsks definitions levels names entries fields (.grade levels [] f.node literal) :=
          .absent hf habsent (fun v hv => Option.some.inj (hget.symm.trans hv) ▸ rfl) (.literal hl)
        obtain ⟨g', hg'⟩ := (hasks _ hask).exists_grading
        obtain ⟨g, hg, hinvalid⟩ := hback literal hl
        refine ⟨g', hg', ?_⟩
        by_contra hvalid
        have hne : g'.outcome ≠ .incompatible := by simpa [Outcome.isValid] using hvalid
        have hne' : g.outcome ≠ .incompatible := grade_staysValid hle hg' hg hne
        simp [Outcome.isValid, hne'] at hinvalid
      change fieldDefault _ (defaultOf definitions (grade definitions levels []) names) f = _
      rw [fieldDefault_of_fallsBack hback']
      exact defaultOf_of_within (defaultWithin_undefined hfill)
  | false =>
    have ha := hasks _ (.present hf hget hundefined)
    refine .inl ⟨d, hget, hundefined, ?_⟩
    rcases fieldDefault_cases hd with ⟨literal, g, hl, hg, hvalid, rfl⟩ | ⟨hback, hfill⟩
    · exact grade_literal_again (hliteral _ hl) hg hvalid hle ha
    · refine hmatches hback (fun habsent hsome => ?_) hfill ha
      obtain rfl := Option.some.inj ((defaultOf_of_within hfill).symm.trans hsome)
      rw [habsent] at hundefined
      cases hundefined

/-- The default of a map, in which the value at some key may have been replaced. -/
theorem fieldMatches_of_filled {n levels : Nat} {names : List String} {fields : List (Field Node)}
    {f : Field Node} {filled entries : Entries Value} (hle : levels ≤ more)
    (hmap : definitions.Everywhere (Node.WellFormed definitions depth) (.map fields)) (hf : f ∈ fields)
    (hfilled : FilledIn (fieldDefault (grade definitions more [])
      (defaultWithin definitions (grade definitions more []) n names)) fields filled)
    (hget : Entries.get? entries f.name = Entries.get? filled f.name)
    (hgap : ¬ HasGap definitions (grade definitions more []) names (.map fields))
    (hasks : ∀ r, MapAsks definitions levels names entries fields r → r.Ample definitions)
    (ih : ∀ d, defaultWithin definitions (grade definitions more []) n names f.node = some d →
      ¬ HasGap definitions (grade definitions more []) names f.node →
      (Request.grade levels names f.node d).Ample definitions →
      Matches definitions levels names f.node d) :
    FieldMatches (.below definitions levels names) entries f := by
  obtain ⟨d, hd, hfound⟩ := hfilled.declared f hf
  have hnode := (hmap.part (.field hf)).mono fun _ => Node.WellFormed.distinctNames
  have hliteral : ∀ v, f.default? = some v → v.IsLiteral := fun v hv => (hmap.self.2.2 f hf v hv).1
  refine fieldDefault_matches hle hnode hliteral hf hd (hget.trans hfound) hasks ?_
  exact fun hback hdefined hfill ha => ih d hfill (fun h => hgap (.field hf hback hdefined h)) ha

theorem forall₂_of_getElem? {α β : Type} {R : α → β → Prop} {as : List α} {bs : List β}
    (hlen : as.length = bs.length) (h : ∀ (i : Nat) a b, as[i]? = some a → bs[i]? = some b → R a b) :
    List.Forall₂ R as bs := by
  refine List.forall₂_iff_get.2 ⟨hlen, fun i ha hb => ?_⟩
  exact h i _ _ (List.getElem?_eq_getElem ha) (List.getElem?_eq_getElem hb)

theorem Value.isUndefined_of_isDiscriminant {v : Value} (h : v.isDiscriminant = true) :
    v.isUndefined = false := by
  cases v <;> first | rfl | cases h

/-- A selector whose default has the key of its first alternative chooses this alternative. -/
theorem chosen?_first {discriminant : String} {a : Alternative Node} {xs : List (Alternative Node)}
    {entries : Entries Value} (hkey : a.key.isDiscriminant = true)
    (hget : Entries.get? entries discriminant = some a.key) :
    Alternative.chosen? (a :: xs) discriminant entries = some a := by
  refine Alternative.chosen?_eq_some.2 ⟨a.key, hget, hkey, ?_⟩
  unfold Alternative.find?
  rw [List.find?_cons, (Value.equal_iff_of_isDiscriminant hkey).2 rfl]

theorem matches_selector {levels : Nat} {names : List String} {discriminant : String}
    {alternatives : List (Alternative Node)} {a : Alternative Node} {fields : List (Field Node)}
    {entries : Entries Value}
    (ha : Alternative.chosen? alternatives discriminant entries = some a)
    (hfields : definitions.resolveMap? a.node = some fields)
    (h : MapMatches (.below definitions levels names) fields (some discriminant) entries) :
    Matches definitions (levels + 1) names (.selector discriminant alternatives) (.map entries) := by
  obtain ⟨g, hg, hm⟩ := gradeMap_matched_iff.2 ⟨entries, rfl, h⟩
  refine ⟨g, ?_, hm⟩
  rw [grade_selector, gradeSelector_of_chosen ha, hfields]
  exact hg

/-- The key by which an alternative was chosen conforms to the field that declares the discriminant. -/
theorem fieldMatches_of_key {levels : Nat} {names : List String} {fields : List (Field Node)}
    {f : Field Node} {key : Value} {entries : Entries Value} (hf : f ∈ fields)
    (hkey : key.isDiscriminant = true) (haccepts : f.node.acceptsKey key = true)
    (hget : Entries.get? entries f.name = some key)
    (hasks : ∀ r, MapAsks definitions levels names entries fields r → r.Ample definitions) :
    FieldMatches (.below definitions levels names) entries f := by
  have hpresent : (key.isUndefined && f.mayBeAbsent) = false := by
    rw [Value.isUndefined_of_isDiscriminant hkey, Bool.false_and]
  obtain ⟨below, rfl⟩ := (hasks _ (.present hf hget hpresent)).exists_succ
  refine .inl ⟨key, hget, hpresent, ?_⟩
  exact matches_of_acceptsKey hkey haccepts ((Value.equal_iff_of_isDiscriminant hkey).2 rfl)

/-- The default of a selector is that of the map of its first alternative, with the key put in. -/
theorem selectorDefault_matches {n levels : Nat} {names : List String} {discriminant : String}
    {first : Alternative Node} {xs : List (Alternative Node)} {w : Value} (hle : levels ≤ more)
    (hq : definitions.Everywhere (Node.WellFormed definitions depth)
      (.selector discriminant (first :: xs)))
    (hw : defaultWithin definitions (grade definitions more []) (n + 1) names
      (.selector discriminant (first :: xs)) = some w)
    (hgap : ¬ HasGap definitions (grade definitions more []) names (.selector discriminant (first :: xs)))
    (ha : (Request.grade (levels + 1) names (.selector discriminant (first :: xs)) w).Ample definitions)
    (ih : ∀ m d, definitions.Everywhere (Node.WellFormed definitions depth) m →
      defaultWithin definitions (grade definitions more []) n names m = some d →
      ¬ HasGap definitions (grade definitions more []) names m →
      (Request.grade levels names m d).Ample definitions → Matches definitions levels names m d) :
    Matches definitions (levels + 1) names (.selector discriminant (first :: xs)) w := by
  obtain ⟨fields, hfields, haccepts⟩ := hq.self.sound first List.mem_cons_self
  have hkey : first.key.isDiscriminant = true := hq.self.isDiscriminant List.mem_cons_self
  have hmap := (hq.part (.alternative List.mem_cons_self)).resolved hfields
  have htarget : first.target definitions = .map fields := by
    unfold Alternative.target
    rw [hfields]
  obtain ⟨d, hd, rfl⟩ := Option.map_eq_some_iff.1 hw
  rw [hfields] at hd
  obtain ⟨m, rfl⟩ : ∃ m, n = m + 1 := by
    cases n with
    | zero => cases hd
    | succ m => exact ⟨m, rfl⟩
  obtain ⟨filled, rfl, hfilled⟩ := filledIn_of_default hmap.self.2.1 hd
  have hget : Entries.get? (Entries.insert discriminant first.key filled) discriminant =
      some first.key := by rw [Entries.get?_insert, if_pos rfl]
  have hchosen : Alternative.chosen? (first :: xs) discriminant
      (Entries.insert discriminant first.key filled) = some first := chosen?_first hkey hget
  have hasks : ∀ r, MapAsks definitions levels names
      (Entries.insert discriminant first.key filled) fields r → r.Ample definitions :=
    fun r hr => ha.asks (.alternative hchosen hfields hr)
  refine matches_selector hchosen hfields ⟨fun f hf => ?_, fun e he => ?_⟩
  · by_cases hname : f.name = discriminant
    · -- The key has taken the place of what the field would be filled in with.
      have hfind : Field.find? fields discriminant = some f :=
        hname ▸ Field.find?_of_mem hmap.self.2.1 hf
      exact fieldMatches_of_key hf hkey (haccepts f hfind) (hname ▸ hget) hasks
    · have hsame : Entries.get? (Entries.insert discriminant first.key filled) f.name =
          Entries.get? filled f.name := by rw [Entries.get?_insert, if_neg hname]
      refine fieldMatches_of_filled hle hmap hf hfilled hsame
        (fun h => hgap (.alternative (htarget ▸ h))) hasks fun d hd hgap ha => ?_
      exact ih _ _ (hmap.part (.field hf)) (defaultWithin_mono (Nat.le_succ m) hd) hgap ha
  · rcases Entries.mem_insert he with rfl | he
    · exact .inr rfl
    · exact .inl (hfilled.keys e he)

/-- **A default without a gap matches**, at the place where it was put in and with the levels that are left
there. The induction is on the number of expansions. -/
theorem default_matches {n levels : Nat} {names : List String} {node : Node} {w : Value}
    (hle : levels ≤ more) (hq : definitions.Everywhere (Node.WellFormed definitions depth) node)
    (hw : defaultWithin definitions (grade definitions more []) n names node = some w)
    (hgap : ¬ HasGap definitions (grade definitions more []) names node)
    (ha : (Request.grade levels names node w).Ample definitions) :
    Matches definitions levels names node w := by
  induction n generalizing levels names node w with
  | zero => cases hw
  | succ n ih =>
    obtain ⟨levels, rfl⟩ := ha.exists_succ
    have hle' : levels ≤ more := Nat.le_of_succ_le hle
    cases node
    case any => exact ⟨_, rfl, rfl⟩
    case primitive kind =>
      cases hw
      refine grade_primitive_matched_iff.2 ?_
      cases kind <;> rfl
    case literal v =>
      cases hw
      exact grade_literal_matched_iff.2 (Value.IsLiteral.equal_self hq.self)
    case array elements size =>
      refine grade_array_matched_iff.2 ?_
      cases size with
      | repeating =>
        cases hw
        refine ⟨[], rfl, .inr ?_⟩
        have hpos : 0 < elements.length := List.length_pos_iff.2 hq.self
        have hnone : (0 + elements.length - 1) / elements.length = 0 :=
          Nat.div_eq_of_lt (by omega)
        unfold ArraySize.unroll
        rw [List.length_nil, hnone]
        exact .nil
      | exact =>
        obtain ⟨items, hitems, rfl⟩ := Option.map_eq_some_iff.1 hw
        have hall := mapM_eq_some_iff.1 hitems
        refine ⟨items, rfl, .inr (forall₂_of_getElem? hall.length_eq fun i m v hm hv => ?_)⟩
        obtain ⟨k, hk, hfill⟩ := forall₂_getElem? hall hv
        obtain rfl := Option.some.inj (hm.symm.trans hk)
        have hmem := List.mem_of_getElem? hm
        exact ih hle' (hq.part (.element hmem)) hfill (fun h => hgap (.element hmem h))
          (ha.asks (.item hm hv))
    case map fields =>
      obtain ⟨entries, rfl, hfilled⟩ := filledIn_of_default hq.self.2.1 hw
      refine grade_map_matched_iff.2 ⟨entries, rfl, fun f hf => ?_, fun e he => ?_⟩
      · exact fieldMatches_of_filled hle' hq hf hfilled rfl hgap (fun r hr => ha.asks (.map hr))
          fun d hd hgap ha => ih hle' (hq.part (.field hf)) hd hgap ha
      · exact .inl (hfilled.keys e he)
    case dictionary entry =>
      cases hw
      exact grade_dictionary_matched_iff.2 ⟨[], rfl, by simp⟩
    case selector discriminant alternatives =>
      cases alternatives with
      | nil => exact absurd rfl hq.self.1
      | cons first xs =>
        exact selectorDefault_matches hle' hq hw hgap ha fun m d hm hd hgap ha => ih hle' hm hd hgap ha
    case reference name =>
      simp only [defaultWithin] at hw
      by_cases hname : names.contains name = true
      · rw [if_pos hname] at hw
        cases hw
        by_cases htakes : TakesUndefined definitions (.reference name)
        · exact htakes.matches ha
        · exact absurd (.name (by simpa using hname) htakes) hgap
      · rw [if_neg hname] at hw
        cases hnodes : definitions.nodes name with
        | nil => exact absurd hnodes hq.self
        | cons first rest =>
          rw [hnodes] at hw
          have hmem : first ∈ definitions.nodes name := hnodes ▸ List.mem_cons_self
          refine matches_reference hmem ha fun ha => ?_
          refine ih hle' (hq.definition hmem) hw (fun h => hgap ?_) ha
          exact .enters (by simpa using hname) hnodes h

end Defaults

end Conformance
