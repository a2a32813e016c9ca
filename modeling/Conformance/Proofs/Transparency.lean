import Conformance.Proofs.Congruence
import Conformance.Proofs.Unfolding

/-!
# Names are transparent

A value is graded by a tree with names just as by the tree with the names written out, where enough levels are
looked at for both. Names are followed in four ways: by the grading of a name, by the choice of a selector, by
the default of a node, and by the grading of a declared default, which starts over without names entered.

* `defaultWithin_mono`, `defaultOf_eventually` — more expansions do not change a default.
* `Unfolds.defaultWithin_eq`, `Unfolds.grade_eq` — a tree and what it is written out to have the same defaults
  and the same gradings.
* `Suite.compare_expanded` — the comparisons by a body of an accepted suite, with and without names.
-/

set_option autoImplicit false

namespace Conformance

open Relation (TransGen)

/-! ## Defaults -/

section Defaults

variable {definitions : Definitions} {convert : Node → Value → Option Grading}

theorem mapM_mono {α β : Type} {f g : α → Option β} (hfg : ∀ a b, f a = some b → g a = some b)
    {as : List α} {bs : List β} (h : as.mapM f = some bs) : as.mapM g = some bs :=
  mapM_eq_some_iff.2 ((mapM_eq_some_iff.1 h).imp hfg)

/-- What fields are filled in with stands under their names. -/
theorem mapM_named {fill : Field Node → Option Value} {fields : List (Field Node)}
    {pairs : List (String × Value)}
    (h : fields.mapM (fun f => (fill f).map fun d => (f.name, d)) = some pairs) :
    pairs.map Prod.fst = fields.map Field.name ∧
      ∀ f ∈ fields, ∃ d, fill f = some d ∧ (f.name, d) ∈ pairs := by
  have hpairs := mapM_eq_some_iff.1 h
  clear h
  induction hpairs with
  | nil => exact ⟨rfl, by simp⟩
  | @cons f e fields rest he _ ih =>
    obtain ⟨d, hd, rfl⟩ := Option.map_eq_some_iff.1 he
    obtain ⟨hkeys, hall⟩ := ih
    refine ⟨congrArg (f.name :: ·) hkeys, List.forall_mem_cons.2 ⟨?_, fun f' hf' => ?_⟩⟩
    · exact ⟨d, hd, List.mem_cons_self⟩
    · obtain ⟨d', hd', hmem⟩ := hall f' hf'
      exact ⟨d', hd', List.mem_cons_of_mem _ hmem⟩

theorem fieldDefault_mono {fill more : Node → Option Value}
    (hfill : ∀ n d, fill n = some d → more n = some d) {f : Field Node} {d : Value}
    (h : fieldDefault convert fill f = some d) : fieldDefault convert more f = some d := by
  unfold fieldDefault at h ⊢
  split at h
  · exact hfill _ _ h
  · obtain ⟨g, hg, h⟩ := Option.bind_eq_some_iff.1 h
    rw [hg]
    change (if g.outcome.isValid then some g.value else fill f.node) = some d at h
    change (if g.outcome.isValid then some g.value else more f.node) = some d
    split at h
    · rename_i hvalid
      rw [if_pos hvalid]
      exact h
    · rename_i hvalid
      rw [if_neg hvalid]
      exact hfill _ _ h

/-- A default that is found is found with more expansions, too. -/
theorem defaultWithin_mono {n more : Nat} (hle : n ≤ more) {names : List String} {node : Node}
    {d : Value} (h : defaultWithin definitions convert n names node = some d) :
    defaultWithin definitions convert more names node = some d := by
  induction n generalizing more names node d with
  | zero => cases h
  | succ n ih =>
    obtain ⟨k, rfl⟩ : ∃ k, more = k + 1 := ⟨more - 1, by omega⟩
    have hfill : ∀ names m d, defaultWithin definitions convert n names m = some d →
        defaultWithin definitions convert k names m = some d := fun names m d h =>
      ih (Nat.le_of_succ_le_succ hle) h
    cases node
    case any => exact h
    case primitive => exact h
    case literal => exact h
    case dictionary => exact h
    case array elements size =>
      cases size with
      | repeating => exact h
      | exact =>
        obtain ⟨items, hitems, rfl⟩ := Option.map_eq_some_iff.1 h
        exact Option.map_eq_some_iff.2 ⟨items, mapM_mono (hfill names) hitems, rfl⟩
    case map fields =>
      obtain ⟨entries, hentries, rfl⟩ := Option.map_eq_some_iff.1 h
      refine Option.map_eq_some_iff.2 ⟨entries, mapM_mono (fun f e he => ?_) hentries, rfl⟩
      obtain ⟨d, hd, rfl⟩ := Option.map_eq_some_iff.1 he
      exact Option.map_eq_some_iff.2 ⟨d, fieldDefault_mono (hfill names) hd, rfl⟩
    case selector discriminant alternatives =>
      cases alternatives with
      | nil => exact h
      | cons first rest =>
        obtain ⟨d, hd, rfl⟩ := Option.map_eq_some_iff.1 h
        exact Option.map_eq_some_iff.2 ⟨d, hfill names _ d hd, rfl⟩
    case reference name =>
      simp only [defaultWithin] at h ⊢
      by_cases hname : names.contains name = true
      · rw [if_pos hname] at h ⊢
        exact h
      · rw [if_neg hname] at h ⊢
        cases hnodes : definitions.nodes name with
        | nil =>
          rw [hnodes] at h
          exact h
        | cons first rest =>
          rw [hnodes] at h
          exact hfill _ _ _ h

/-- Expansions beyond the bound do not change the default of a node. -/
theorem defaultOf_eventually {n : Nat} {names : List String} {node : Node}
    (hn : expansionBound definitions node ≤ n) :
    defaultWithin definitions convert n names node = defaultOf definitions convert names node := by
  cases h : defaultOf definitions convert names node with
  | some d => exact defaultWithin_mono hn h
  | none =>
    obtain ⟨names', m, hreach, hm⟩ := defaultOf_eq_none_iff.1 h
    exact defaultWithin_eq_none_of_reaches hreach hm n

theorem mapM_eq_of_forall₂ {α β γ : Type} {f : α → Option γ} {g : β → Option γ} {as : List α}
    {bs : List β} (h : List.Forall₂ (fun a b => f a = g b) as bs) : as.mapM f = bs.mapM g := by
  induction h with
  | nil => rfl
  | cons hfirst _ ih => rw [List.mapM_cons, List.mapM_cons, hfirst, ih]

/-- A tree and what it is written out to have the same default, with as many expansions as the tree has levels
and names one inside the other. -/
theorem Unfolds.defaultWithin_eq {convert' : Node → Value → Option Grading} {height bound : Nat}
    (hconvert : ∀ m n v, Unfolds definitions bound [] m n → convert m v = convert' n v)
    (hbound : height ≤ bound) {entered : List String} {m n : Node}
    (h : Unfolds definitions height entered m n) {steps steps' : Nat} (hsteps : height ≤ steps)
    (hsteps' : height ≤ steps') :
    defaultWithin definitions convert steps entered m = defaultWithin [] convert' steps' [] n := by
  induction height generalizing entered m n steps steps' with
  | zero => exact h.elim
  | succ height ih =>
    obtain ⟨k, rfl⟩ : ∃ k, steps = k + 1 := ⟨steps - 1, by omega⟩
    obtain ⟨k', rfl⟩ : ∃ k', steps' = k' + 1 := ⟨steps' - 1, by omega⟩
    have hk : height ≤ k := Nat.le_of_succ_le_succ hsteps
    have hk' : height ≤ k' := Nat.le_of_succ_le_succ hsteps'
    have hpart : ∀ {names p q}, Unfolds definitions height names p q →
        defaultWithin definitions convert k names p = defaultWithin [] convert' k' [] q :=
      fun hpq => ih (Nat.le_of_succ_le hbound) hpq hk hk'
    cases h with
    | any => rfl
    | primitive => rfl
    | literal => rfl
    | dictionary => rfl
    | @array ms ns size h =>
      cases size with
      | repeating => rfl
      | exact => exact congrArg (Option.map Value.array) (mapM_eq_of_forall₂ (h.imp fun p q => hpart))
    | map h =>
      refine congrArg (Option.map fun entries => Value.map (Entries.ofList entries))
        (mapM_eq_of_forall₂ (h.imp fun f g hfg => ?_))
      have hnode : ∀ v, convert f.node v = convert' g.node v := fun v =>
        hconvert _ _ v (hfg.node.mono (Nat.le_of_succ_le hbound) (List.nil_subset _))
      rw [hfg.fieldDefault_eq (fun v => rel_grading_eq_iff.2 (hnode v)) (hpart hfg.node), hfg.name]
    | @selector discriminant xs ys h =>
      cases h with
      | nil => rfl
      | @cons key p q xs ys hnode _ =>
        have hchosen : Unfolds definitions height entered
            ((⟨key, p⟩ : Alternative Node).target definitions)
            ((⟨key, q⟩ : Alternative Node).target []) := by
          unfold Alternative.target
          rcases hnode.resolveMap? with ⟨fs, gs, hfs, hgs, hmap⟩ | ⟨hfs, hgs⟩
          · simp only [hfs, hgs]
            exact hmap
          · simp only [hfs, hgs]
            exact hnode
        exact congrArg (Option.map (withDiscriminant discriminant key)) (hpart hchosen)
    | @reference name p _ hname hnodes h =>
      have hnew : entered.contains name = false := by simpa using hname
      simp only [defaultWithin, hnew, hnodes]
      exact ih (Nat.le_of_succ_le hbound) h hk (Nat.le_succ_of_le hk')

end Defaults

/-! ## Every grading -/

section Gradings

variable {definitions : Definitions}

theorem Unfolds.defaultOf_eq {convert convert' : Node → Value → Option Grading} {height : Nat}
    (hconvert : ∀ m n v, Unfolds definitions height [] m n → convert m v = convert' n v)
    {entered : List String} {m n : Node} (h : Unfolds definitions height entered m n) :
    defaultOf definitions convert entered m = defaultOf [] convert' [] n := by
  have hsteps : ∀ a b : Nat, a ≤ a + b + height ∧ b ≤ a + b + height ∧ height ≤ a + b + height :=
    fun a b => ⟨by omega, by omega, by omega⟩
  obtain ⟨hm, hn, hheight⟩ := hsteps (expansionBound definitions m) (expansionBound [] n)
  rw [← defaultOf_eventually hm, ← defaultOf_eventually hn]
  exact defaultWithin_eq hconvert (Nat.le_refl _) h hheight hheight

/-- A name that stands for one node grades as this node. -/
theorem gradeReference_single {name : String} {node : Node} (h : definitions.nodes name = [node])
    {grade : Node → Option Grading} {v : Value} :
    gradeReference definitions grade name v = grade node := by
  unfold gradeReference
  rw [h]
  change (grade node).bind (fun g => some g) = grade node
  exact Option.bind_fun_some _

/-- **A value is graded by a tree just as by the tree that it is written out to**, where at least as many
levels are looked at for both as the tree has levels and names one inside the other. -/
theorem Unfolds.grade_eq {height levels others : Nat} {entered : List String} {m n : Node}
    (h : Unfolds definitions height entered m n) (hlevels : height ≤ levels)
    (hothers : height ≤ others) (v : Value) :
    grade definitions levels entered m v = grade [] others [] n v := by
  induction height generalizing levels others entered m n v with
  | zero => exact h.elim
  | succ height ih =>
    obtain ⟨l, rfl⟩ : ∃ l, levels = l + 1 := ⟨levels - 1, by omega⟩
    obtain ⟨k, rfl⟩ : ∃ k, others = k + 1 := ⟨others - 1, by omega⟩
    have hl : height ≤ l := Nat.le_of_succ_le_succ hlevels
    have hk : height ≤ k := Nat.le_of_succ_le_succ hothers
    have hfill : ∀ m n, Unfolds definitions height entered m n →
        (Inside.below definitions l entered).fill m = (Inside.below [] k []).fill n := fun m n h =>
      Unfolds.defaultOf_eq (fun p q v hpq => ih hpq hl hk v) h
    have hin : (Inside.below definitions l entered).Agrees Eq (Unfolds definitions height entered)
        (.below [] k []) := by
      refine ⟨fun m n v h => rel_grading_eq_iff.2 (ih h hl hk v), hfill, fun f g h => ?_⟩
      refine h.fieldDefault_eq (fun v => rel_grading_eq_iff.2 ?_) (hfill _ _ h.node)
      exact ih (h.node.mono (Nat.le_refl _) (List.nil_subset _)) hl hk v
    have hS := Finding.congruence_eq
    cases h with
    | any => rfl
    | primitive => rfl
    | literal => rfl
    | array h => exact rel_grading_eq_iff.1 (gradeArray_agrees hS hin h _ v)
    | map h => exact rel_grading_eq_iff.1 (gradeMap_agrees hS hin h none v)
    | dictionary h => exact rel_grading_eq_iff.1 (gradeDictionary_agrees hS hin h v)
    | selector h =>
      refine rel_grading_eq_iff.1 (gradeSelector_agrees hS hin h (fun p q hpq => ?_) _ v)
      rcases hpq.resolveMap? with ⟨fs, gs, hfs, hgs, hmap⟩ | hnone
      · exact .inl ⟨fs, gs, hfs, hgs, gradeMap_agrees hS hin hmap.fields⟩
      · exact .inr hnone
    | @reference name p _ hname hnodes h =>
      have hsame : grade definitions l (name :: entered) p v = grade [] (k + 1) [] n v :=
        ih h hl (Nat.le_succ_of_le hk) v
      rw [grade_reference, gradeReference_single hnodes]
      exact hsame

end Gradings

/-! ## Accepted suites -/

/-- Every name of an accepted suite stands for just one node where none stands for more. -/
theorem Suite.layered {text : String} {depth : Nat} {s : Suite} (h : Suite.ofText text depth = .ok s)
    (hsingle : ∀ name, (s.definitions.nodes name).length ≤ 1)
    (hacyclic : ∀ name, ¬ TransGen s.definitions.Mentions name name) {name : String}
    {direction : Direction} {node : Node} (hbody : s.body name direction = .ok node) :
    s.definitions.Layered node := by
  refine ⟨((wellFormed_of_text h).everywhere hbody).mono ?_, hacyclic⟩
  rintro m hm other rfl
  have hne : s.definitions.nodes other ≠ [] := hm
  have hlength := hsingle other
  cases hnodes : s.definitions.nodes other with
  | nil => exact absurd hnodes hne
  | cons n rest =>
    rw [hnodes, List.length_cons] at hlength
    have hrest : rest = [] := List.length_eq_zero_iff.1 (by omega)
    exact ⟨n, by rw [hrest]⟩

theorem Node.startsInline_of_no_reference {node : Node} (h : ∀ name, .reference name ∉ node.subnodes) :
    Definitions.Everywhere [] Node.StartsInline node := by
  refine ⟨fun m hm => ?_, fun _ n hn => (List.not_mem_nil hn).elim⟩
  cases m <;> try trivial
  case selector discriminant alternatives =>
    cases alternatives with
    | nil => trivial
    | cons a rest =>
      intro name hname
      refine h name (Node.part_mem_subnodes hm ?_)
      rw [← hname]
      exact .alternative List.mem_cons_self

/-- **Names are transparent.** Let a suite be accepted in which every name stands for one node and no name leads
back to itself. A body in which every name is replaced by what it stands for, written out in the same way, has
no names left, and where enough levels are looked at, every value is graded by the body with the definitions
just as by the body written out without any. -/
theorem Suite.compare_expanded {text : String} {depth : Nat} {s : Suite}
    (h : Suite.ofText text depth = .ok s) (hsingle : ∀ name, (s.definitions.nodes name).length ≤ 1)
    (hacyclic : ∀ name, ¬ TransGen s.definitions.Mentions name name) {name : String}
    {direction : Direction} {node : Node} (hbody : s.body name direction = .ok node) :
    (∀ other, .reference other ∉ (s.definitions.expand node).subnodes) ∧
    ∃ bound, ∀ v maxDepth, bound ≤ maxDepth →
      ∃ g, Conformance.compare s.definitions maxDepth node v = some g ∧
        Conformance.compare [] maxDepth (s.definitions.expand node) v = some g := by
  have hlayered := layered h hsingle hacyclic hbody
  obtain ⟨height, hunfolds⟩ := Definitions.exists_unfolds hlayered
    (fun e he => (List.not_mem_nil he).elim) (s.definitions.unexpanded_le [])
  refine ⟨hunfolds.no_reference, height, fun v maxDepth hdepth => ?_⟩
  have hstarts := Node.startsInline_of_no_reference hunfolds.no_reference
  have hsome : Conformance.compare [] maxDepth (s.definitions.expand node) v ≠ none :=
    compare_ne_none hstarts
  obtain ⟨g, hg⟩ := Option.ne_none_iff_exists'.1 hsome
  exact ⟨g, (hunfolds.grade_eq hdepth hdepth v).trans hg, hg⟩

/-- A selector chooses a map by a name, in which a default that a second name takes is filled in. -/
theorem Suite.compare_expanded_selector :
    let fields : Node → List (Field Node) := fun n =>
      [⟨"k", .literal (.integer 7), false, none⟩, ⟨"x", n, false, some (.integer 2)⟩]
    let node : Node := .selector "k" [⟨.integer 7, .reference "m"⟩]
    let written : Node := .selector "k" [⟨.integer 7, .map (fields (.primitive .real))⟩]
    let s : Suite := { resources := [("r", ⟨"r", .put, node, .any⟩)],
                       definitions := [("m", [.map (fields (.reference "n"))]), ("n", [.primitive .real])] }
    Suite.ofText "&m = { k: 7, x: &n = 2 }\n&n = real\n%% r >> select k { 7: &m }" = .ok s ∧
      s.body "r" .request = .ok node ∧ (∀ name, (s.definitions.nodes name).length ≤ 1) ∧
      (∀ name, ¬ TransGen s.definitions.Mentions name name) ∧ s.definitions.expand node = written ∧
      ∃ bound, ∀ v maxDepth, bound ≤ maxDepth →
        ∃ g, Conformance.compare s.definitions maxDepth node v = some g ∧
          Conformance.compare [] maxDepth written v = some g := by
  intro fields node written s
  have hs : Suite.ofText
      "&m = { k: 7, x: &n = 2 }\n&n = real\n%% r >> select k { 7: &m }" = .ok s := rfl
  have hbody : s.body "r" .request = .ok node := rfl
  have hnodes : ∀ name, s.definitions.nodes name =
      if name = "m" then [.map (fields (.reference "n"))]
      else if name = "n" then [.primitive .real] else [] := by
    intro name
    simp only [s, Definitions.nodes, Entries.get?_cons, Entries.get?_nil]
    split
    · rfl
    · split <;> rfl
  have hsingle : ∀ name, (s.definitions.nodes name).length ≤ 1 := by
    intro name
    rw [hnodes]
    split
    · exact Nat.le_refl 1
    · split <;> decide
  have hmentions : ∀ name other, s.definitions.Mentions name other → name = "m" ∧ other = "n" := by
    rintro name other ⟨n, hn, hother⟩
    rw [hnodes] at hn
    split at hn
    · rename_i hname
      rw [List.mem_singleton.1 hn] at hother
      simpa [fields, hname, Node.subnodes, Node.subnodesFields] using hother
    · split at hn
      · rw [List.mem_singleton.1 hn] at hother
        simp [Node.subnodes] at hother
      · exact (List.not_mem_nil hn).elim
  have hacyclic : ∀ name, ¬ TransGen s.definitions.Mentions name name := by
    intro name h
    have hends : ∀ a b, TransGen s.definitions.Mentions a b → a = "m" ∧ b = "n" := by
      intro a b hab
      induction hab with
      | single h => exact hmentions _ _ h
      | tail _ h ih => exact ⟨ih.1, (hmentions _ _ h).2⟩
    obtain ⟨rfl, hname⟩ := hends name name h
    exact absurd hname (by decide)
  have hwritten : s.definitions.expand node = written := rfl
  refine ⟨hs, hbody, hsingle, hacyclic, hwritten, ?_⟩
  rw [← hwritten]
  exact (compare_expanded hs hsingle hacyclic hbody).2

end Conformance
