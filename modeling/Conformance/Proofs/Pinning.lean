import Conformance.Proofs.Selection

/-!
# A selector pins its discriminant

A selector grades a value by one map with the discriminant kept, whatever stands there. That is the plain map with
one more field at its end, whose value must be the key: the discriminant is declared, for once.

* `pinned` — the fields of a chosen map, with the discriminant among them.
* `gradeFields_concat`, `undeclaredEntries_pinned` — one more field, and one key less that is not declared.
* `gradeMap_pinned` — keeping an entry is declaring it with the value that it has.
* `Suite.Contains` — a node stands in a suite somewhere; `Suite.Contains.wellFormed` is what is known of it.
* `Suite.selector_pinned` — selectors of accepted suites, by the key that a value has and without one.
-/

set_option autoImplicit false

namespace Conformance

/-! ## One more field -/

/-- The fields of a map with the discriminant among them. Where it is not declared, it is a required field at the end,
described by the key itself. -/
def pinned (discriminant : String) (key : Value) (fields : List (Field Node)) : List (Field Node) :=
  if (Field.find? fields discriminant).isSome then fields
  else fields ++ [⟨discriminant, .literal key, false, none⟩]

section Maps

variable {inside : Inside} {entries : Entries Value} {fields : List (Field Node)} {discriminant : String}
  {key : Value}

theorem gradeFields_concat (f : Field Node) : gradeFields inside entries (fields ++ [f]) =
    (gradeFields inside entries fields).bind fun p => (gradeField inside entries f).map p.append := by
  induction fields with
  | nil =>
    rw [List.nil_append, gradeFields, gradeFields, Option.bind_some]
    cases gradeField inside entries f with
    | none => rfl
    | some last =>
      rw [Option.map_some, Parts.empty_append]
      exact congrArg some (Parts.append_empty last)
  | cons g fields ih =>
    rw [List.cons_append, gradeFields, gradeFields, ih]
    cases gradeField inside entries g with
    | none => rfl
    | some part =>
      cases gradeFields inside entries fields with
      | none => rfl
      | some rest =>
        cases gradeField inside entries f with
        | none => rfl
        | some last => exact congrArg some (Parts.append_assoc part rest last).symm

/-- The entry at the discriminant is graded by the key as it is. -/
theorem gradeField_pinned (hget : Entries.get? entries discriminant = some key)
    (hmatched : inside.grade (.literal key) key = some (.matched key)) :
    gradeField inside entries ⟨discriminant, .literal key, false, none⟩ = some (.kept (discriminant, key)) := by
  unfold gradeField Field.mayBeAbsent
  simp only [hget, hmatched, Option.isSome_none, Bool.or_self, Bool.and_false, Bool.false_eq_true, if_false]
  rfl

theorem find?_concat (f : Field Node) (name : String) :
    (Field.find? (fields ++ [f]) name).isSome = ((Field.find? fields name).isSome || f.name == name) := by
  unfold Field.find?
  rw [List.find?_append, Option.isSome_or, List.find?_singleton]
  cases f.name == name <;> rfl

/-- Where the discriminant is declared, there is nothing to be kept. -/
theorem undeclaredEntries_declared (hdeclared : (Field.find? fields discriminant).isSome = true)
    (entries : Entries Value) :
    undeclaredEntries fields (some discriminant) entries = undeclaredEntries fields none entries := by
  induction entries with
  | nil => rfl
  | cons e entries ih =>
    simp only [undeclaredEntries, ih]
    by_cases hfind : (Field.find? fields e.1).isSome = true
    · rw [if_pos hfind, if_pos hfind]
    · have hne : some discriminant ≠ some e.1 := fun heq => hfind (Option.some.inj heq ▸ hdeclared)
      rw [if_neg hfind, if_neg hfind, if_neg hne, if_neg (Option.some_ne_none _).symm]

/-- One more declared field is one key less that is not declared, and what is kept there is left to the field. -/
theorem undeclaredEntries_concat (hundeclared : Field.find? fields discriminant = none) (f : Field Node)
    (hname : f.name = discriminant) (entries : Entries Value) :
    undeclaredEntries (fields ++ [f]) none entries =
      { undeclaredEntries fields (some discriminant) entries with pieces := [] } := by
  induction entries with
  | nil => rfl
  | cons e entries ih =>
    simp only [undeclaredEntries, ih, find?_concat, hname]
    by_cases heq : discriminant = e.1
    · have hnone : Field.find? fields e.1 = none := heq ▸ hundeclared
      simp only [hnone, heq, beq_self_eq_true, Option.isSome_none, Bool.false_or, Bool.false_eq_true, if_true,
        if_false, Parts.append, Parts.kept, Outcome.matched_join, List.nil_append]
    · have hname' : (discriminant == e.1) = false := beq_eq_false_iff_ne.2 heq
      have hne : some discriminant ≠ some e.1 := mt Option.some.inj heq
      rw [hname', Bool.or_false, if_neg hne, if_neg (Option.some_ne_none _).symm]
      by_cases hfind : (Field.find? fields e.1).isSome = true
      · rw [if_pos hfind, if_pos hfind]
      · rw [if_neg hfind, if_neg hfind]
        rfl

/-- What is kept of the entries is the one at the discriminant. -/
theorem undeclaredEntries_kept (hnd : (entries.map Prod.fst).Nodup)
    (hundeclared : Field.find? fields discriminant = none) (hget : Entries.get? entries discriminant = some key) :
    (undeclaredEntries fields (some discriminant) entries).pieces = [(discriminant, key)] := by
  rw [undeclaredEntries_pieces]
  induction entries with
  | nil => cases hget
  | cons e entries ih =>
    obtain ⟨hother, hnd⟩ := List.nodup_cons.1 hnd
    rw [Entries.get?_cons] at hget
    by_cases heq : discriminant = e.1
    · rw [if_pos heq] at hget
      have hrest : entries.filter (fun d =>
          (Field.find? fields d.1).isNone && decide (some discriminant = some d.1)) = [] := by
        refine List.filter_eq_nil_iff.2 fun d hd hkept => hother ?_
        rw [Bool.and_eq_true, decide_eq_true_iff, Option.some.injEq] at hkept
        exact heq ▸ hkept.2 ▸ List.mem_map_of_mem hd
      rw [List.filter_cons_of_pos (by simp [← heq, hundeclared]), hrest, heq, ← Option.some.inj hget]
    · rw [if_neg heq] at hget
      rw [List.filter_cons_of_neg (by simp [heq])]
      exact ih hnd hget

/-- **Keeping an entry is declaring it.** A map that keeps what stands at its discriminant grades entries like the map
that declares the discriminant with the value there. -/
theorem gradeMap_pinned (hnd : (entries.map Prod.fst).Nodup) (hget : Entries.get? entries discriminant = some key)
    (hmatched : Field.find? fields discriminant = none →
      inside.grade (.literal key) key = some (.matched key)) :
    gradeMap inside fields (some discriminant) (.map entries) =
      gradeMap inside (pinned discriminant key fields) none (.map entries) := by
  unfold gradeMap pinned
  cases hfind : Field.find? fields discriminant with
  | some f =>
    have hdeclared : (Field.find? fields discriminant).isSome = true := by rw [hfind]; rfl
    simp only [Option.isSome_some, if_true, undeclaredEntries_declared hdeclared]
  | none =>
    simp only [Option.isSome_none, Bool.false_eq_true, if_false]
    rw [gradeFields_concat, gradeField_pinned hget (hmatched hfind), undeclaredEntries_concat hfind _ rfl]
    cases gradeFields inside entries fields with
    | none => rfl
    | some p =>
      have hkept := undeclaredEntries_kept hnd hfind hget
      simp only [Option.map_some, Option.bind_some, Parts.close, Parts.append, Parts.kept, hkept, Outcome.join_matched,
        List.append_nil]

end Maps

/-! ## Chosen alternatives -/

/-- The value is a map whose value at the discriminant is a text or an integer, and the key of the alternative. -/
def Alternative.ChosenBy (a : Alternative Node) (discriminant : String) (v : Value) : Prop :=
  ∃ entries key, v = .map entries ∧ Entries.get? entries discriminant = some key ∧ key.isDiscriminant = true ∧
    a.key.equal key = true

section Selectors

variable {definitions : Definitions} {inside : Inside} {discriminant : String}
  {alternatives : List (Alternative Node)} {entries : Entries Value} {a : Alternative Node}

/-- Where no key comes twice, the alternative with a key is the one that is found by it. -/
theorem Alternative.find?_of_mem (hnd : (alternatives.map Alternative.key).Nodup) (ha : a ∈ alternatives)
    (hkey : a.key.isDiscriminant = true) : Alternative.find? alternatives a.key = some a := by
  unfold Alternative.find?
  induction alternatives with
  | nil => cases ha
  | cons b rest ih =>
    obtain ⟨hother, hnd⟩ := List.nodup_cons.1 hnd
    rw [List.find?_cons]
    rcases List.mem_cons.1 ha with rfl | ha
    · rw [(Value.equal_iff_of_isDiscriminant hkey).2 rfl]
    · have hne : b.key.equal a.key = false := by
        rw [Bool.eq_false_iff, ne_eq, Value.equal_iff_of_isDiscriminant hkey]
        exact fun heq => hother (heq ▸ List.mem_map_of_mem ha)
      rw [hne]
      exact ih hnd ha

theorem gradeSelector_chosen {fields : List (Field Node)} (hget : Entries.get? entries discriminant = some a.key)
    (hkey : a.key.isDiscriminant = true) (hfound : Alternative.find? alternatives a.key = some a)
    (hfields : definitions.resolveMap? a.node = some fields) :
    gradeSelector definitions inside discriminant alternatives (.map entries) =
      gradeMap inside fields (some discriminant) (.map entries) := by
  unfold gradeSelector
  simp only [hget, Option.filter_some, hkey, if_true, hfound, hfields]

/-- A value that chooses no alternative is refused, by one finding and as it is. -/
theorem gradeSelector_refused {v : Value} (hnone : ∀ a ∈ alternatives, ¬ a.ChosenBy discriminant v) :
    ∃ reason : Reason, gradeSelector definitions inside discriminant alternatives v = some (.decided reason v) ∧
      reason.outcome = .incompatible := by
  unfold gradeSelector
  split
  · rename_i entries
    split
    · rename_i key hfiltered
      obtain ⟨hget, hkey⟩ := Option.filter_eq_some_iff.1 hfiltered
      split
      · rename_i a hfound
        have hequal : a.key.equal key = true := by simpa using List.find?_some hfound
        exact absurd ⟨entries, key, rfl, hget, hkey, hequal⟩ (hnone a (List.mem_of_find?_eq_some hfound))
      · exact ⟨_, rfl, rfl⟩
    · exact ⟨_, rfl, rfl⟩
  · exact ⟨_, rfl, rfl⟩

end Selectors

/-! ## Selectors of accepted suites -/

/-- The node stands in a body of the suite or in a definition. -/
def Suite.Contains (s : Suite) (node : Node) : Prop :=
  (∃ name direction body, s.body name direction = .ok body ∧ node ∈ body.subnodes) ∨
    ∃ name, ∃ n ∈ s.definitions.nodes name, node ∈ n.subnodes

theorem Suite.Contains.wellFormed {text : String} {depth : Nat} {s : Suite}
    (hs : Suite.ofText text depth = .ok s) {node : Node} (h : s.Contains node) :
    node.WellFormed s.definitions depth := by
  have hwell := Suite.wellFormed_of_text hs
  rcases h with ⟨name, direction, body, hbody, hnode⟩ | ⟨name, n, hn, hnode⟩
  · exact (hwell.bodies name direction body hbody).wellFormed node hnode
  · exact (hwell.definitions name n hn).wellFormed node hnode

/-- The literal key takes no more than one level of its own. -/
theorem grade_key (definitions : Definitions) (levels : Nat) (entered : List String) {key : Value}
    (hkey : key.isDiscriminant = true) :
    grade definitions (levels + 1) entered (.literal key) key = some (.matched key) :=
  congrArg some (if_pos ((Value.equal_iff_of_isDiscriminant hkey).2 rfl))

/-- **A selector is the chosen map with the discriminant pinned.** Take any selector of an accepted suite. A value
that chooses one of its alternatives is graded like by the map that the alternative leads to, where the discriminant
is a required field described by the literal key unless the map declares it, with any number of levels but one, and
with one, too, where it is declared. The other alternatives do not matter. All other values are refused and stay as
they are. -/
theorem Suite.selector_pinned {text : String} {depth : Nat} {s : Suite} (hs : Suite.ofText text depth = .ok s)
    {discriminant : String} {alternatives : List (Alternative Node)}
    (hselector : s.Contains (.selector discriminant alternatives)) :
    (∀ chosen ∈ alternatives, ∀ v : Value, v.Tidy → chosen.ChosenBy discriminant v →
      ∃ fields, s.definitions.resolveMap? chosen.node = some fields ∧
        (∀ levels entered, levels ≠ 1 ∨ (Field.find? fields discriminant).isSome = true →
          grade s.definitions levels entered (.selector discriminant alternatives) v =
            grade s.definitions levels entered (.map (pinned discriminant chosen.key fields)) v) ∧
        ∀ others, Alternative.find? others chosen.key = some chosen → ∀ levels entered,
          grade s.definitions levels entered (.selector discriminant others) v =
            grade s.definitions levels entered (.selector discriminant alternatives) v) ∧
    ∀ v, (∀ a ∈ alternatives, ¬ a.ChosenBy discriminant v) → ∀ levels entered, ∃ reason : Reason,
      grade s.definitions levels entered (.selector discriminant alternatives) v = some (.decided reason v) ∧
        reason.outcome = .incompatible := by
  obtain ⟨-, hnd, hall⟩ := hselector.wellFormed hs
  refine ⟨fun chosen hchosen v hv hchooses => ?_, fun v hnone levels entered => ?_⟩
  · obtain ⟨hkind, fields, hfields, -⟩ := hall chosen hchosen
    have hkey := Value.isDiscriminant_iff.2 hkind
    have hmap := ((hfields fields).2 rfl).resolveMap?
    have hfound := Alternative.find?_of_mem hnd hchosen hkey
    obtain ⟨entries, key, rfl, hget, hdiscriminant, hequal⟩ := hchooses
    obtain rfl := (Value.equal_iff_of_isDiscriminant hdiscriminant).1 hequal
    refine ⟨fields, hmap, fun levels entered hlevels => ?_, fun others hothers levels entered => ?_⟩
    · cases levels with
      | zero => rfl
      | succ levels =>
        rw [grade_selector, grade_map, gradeSelector_chosen hget hkey hfound hmap]
        refine gradeMap_pinned hv.1.nodup_keys hget fun hundeclared => ?_
        -- The field at the end is graded with the levels below, of which there must be one.
        obtain ⟨levels, rfl⟩ : ∃ n, levels = n + 1 := by
          apply Nat.exists_eq_succ_of_ne_zero
          rintro rfl
          simp [hundeclared] at hlevels
        exact grade_key s.definitions levels [] hkey
    · cases levels with
      | zero => rfl
      | succ levels =>
        rw [grade_selector, grade_selector, gradeSelector_chosen hget hkey hothers hmap,
          gradeSelector_chosen hget hkey hfound hmap]
  · cases levels with
    | zero => exact ⟨.depthExceeded, rfl, rfl⟩
    | succ levels => exact gradeSelector_refused hnone

/-- An alternative that is a name, the map of which does not declare the discriminant; and a key of no alternative. -/
theorem Suite.selector_pinned_undeclared :
    let a : Field Node := ⟨"a", .primitive .integer, false, none⟩
    let alternatives : List (Alternative Node) :=
      [⟨.integer 7, .reference "m"⟩, ⟨.integer 8, .map [⟨"k", .primitive .integer, false, none⟩]⟩]
    let s : Suite := { resources := [("r", ⟨"r", .put, .selector "k" alternatives, .any⟩)],
                       definitions := [("m", [.map [a]])] }
    let v : Value := .map [("a", .boolean true), ("k", .integer 7)]
    let w : Value := .map [("a", .boolean true), ("k", .integer 9)]
    Suite.ofText "%% r >> select k \x7b 7: &m, 8: \x7b k: int \x7d \x7d\n&m = \x7b a: int \x7d" = .ok s ∧
    (∃ g, grade s.definitions 3 [] (.selector "k" alternatives) v = some g ∧
      grade s.definitions 3 [] (.map [a, ⟨"k", .literal (.integer 7), false, none⟩]) v = some g ∧
      g.value = .map [("a", .integer 1), ("k", .integer 7)]) ∧
    ∃ reason : Reason, grade s.definitions 3 [] (.selector "k" alternatives) w = some (.decided reason w) := by
  intro a alternatives s v w
  have hs : Suite.ofText "%% r >> select k \x7b 7: &m, 8: \x7b k: int \x7d \x7d\n&m = \x7b a: int \x7d" = .ok s := rfl
  have hselector : s.Contains (.selector "k" alternatives) :=
    .inl ⟨"r", .request, .selector "k" alternatives, rfl, Node.mem_subnodes_self _⟩
  have hv : v.Tidy := by
    refine ⟨?_, trivial, trivial, trivial⟩
    exact List.pairwise_pair.2 (by decide)
  have hnone : ∀ b ∈ alternatives, ¬ b.ChosenBy "k" w := by
    rintro b hb ⟨entries, key, heq, hget, -, hequal⟩
    obtain rfl := Value.map.inj heq
    obtain rfl : .integer 9 = key := Option.some.inj hget
    rcases List.mem_pair.1 hb with rfl | rfl
    · exact absurd hequal (by decide)
    · exact absurd hequal (by decide)
  obtain ⟨hchosen, hrefused⟩ := selector_pinned hs hselector
  obtain ⟨fields, hfields, hgrade, -⟩ :=
    hchosen ⟨.integer 7, .reference "m"⟩ (.head _) v hv ⟨_, .integer 7, rfl, rfl, rfl, by decide⟩
  obtain rfl : [a] = fields := Option.some.inj hfields
  obtain ⟨reason, hreason, -⟩ := hrefused w hnone 3 []
  have hsame : grade s.definitions 3 [] (.selector "k" alternatives) v =
      grade s.definitions 3 [] (.map [a, ⟨"k", .literal (.integer 7), false, none⟩]) v :=
    hgrade 3 [] (.inl (by decide))
  obtain ⟨g, hg, hvalue⟩ : ∃ g, grade s.definitions 3 [] (.selector "k" alternatives) v = some g ∧
      g.value = .map [("a", .integer 1), ("k", .integer 7)] :=
    ⟨_, rfl, congrArg Value.map (Entries.Sorted.ofList_eq (List.pairwise_pair.2 (by decide)))⟩
  exact ⟨hs, ⟨g, hg, hsame ▸ hg, hvalue⟩, reason, hreason⟩

end Conformance
