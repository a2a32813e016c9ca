import Conformance.Proofs.DefaultSize
import Mathlib.Algebra.Order.Group.Multiset
import Mathlib.Data.List.Flatten
import Mathlib.Data.Multiset.Count

/-!
# Definitions that are shared

To go through a definition takes a reference to its name, and brings in the references in it. So where no name is
referred to twice, no definition is gone through twice, and a default is no larger than the schema. Where several
references lead to one definition, the default can be larger by any factor.

* `Definitions.opens` — the names referred to where a name is entered.
* `Spends` — definitions that are gone through at the expense of references; `passedWithin_spends` is that of defaults.
* `Spends.nodup` — no more is gone through than references come in.
* `defaultOf_size_le` — the bounds for defaults.
* `exists_defaultOf_larger`, `defaultOf_shared` — defaults of definitions that are shared.
-/

set_option autoImplicit false

namespace Conformance

/-- The names that are referred to where a name is entered. -/
def Definitions.opens (definitions : Definitions) (name : String) : Multiset String :=
  Node.references (definitions.opened name)

/-- Definitions are gone through one after the other, each at the expense of a reference to it, which gives way to the
references in it. The names that are referred to before come first, and some of those that are left afterwards
last. -/
inductive Spends (opens : String → Multiset String) : Multiset String → List String → Multiset String → Prop where
  | leave {before after : Multiset String} : after ≤ before → Spends opens before [] after
  | enter {before after : Multiset String} {name : String} {names : List String} :
    Spends opens (before + opens name) names after → Spends opens (name ::ₘ before) (name :: names) after

namespace Spends

variable {opens : String → Multiset String} {before between after less more : Multiset String}
  {names others : List String}

theorem frame (h : Spends opens before names after) (extra : Multiset String) :
    Spends opens (before + extra) names (after + extra) := by
  induction h with
  | leave hle => exact .leave (add_le_add_left hle extra)
  | @enter before after name names _ ih =>
    rw [add_right_comm] at ih
    rw [Multiset.cons_add]
    exact .enter ih

theorem leaving (h : Spends opens before names after) (hle : less ≤ after) : Spends opens before names less := by
  induction h with
  | leave hafter => exact .leave (hle.trans hafter)
  | enter _ ih => exact .enter (ih hle)

theorem having (h : Spends opens before names after) (hle : before ≤ more) : Spends opens more names after := by
  obtain ⟨extra, rfl⟩ := Multiset.le_iff_exists_add.1 hle
  exact (h.frame extra).leaving (Multiset.le_add_right _ _)

theorem append (h : Spends opens before names between) (h' : Spends opens between others after) :
    Spends opens before (names ++ others) after := by
  induction h with
  | leave hle => exact h'.having hle
  | enter _ ih => exact .enter (ih h')

theorem flatMap {α : Type} {nodes : α → List Node} {passed : α → List String} {l : List α}
    (h : ∀ a ∈ l, Spends opens (Node.references (nodes a)) (passed a) 0) :
    Spends opens (Node.references (l.flatMap nodes)) (l.flatMap passed) 0 := by
  induction l with
  | nil => exact .leave (Multiset.zero_le _)
  | cons a l ih =>
    obtain ⟨hfirst, hrest⟩ := List.forall_mem_cons.1 h
    have hframed := hfirst.frame (Node.references (l.flatMap nodes))
    rw [zero_add] at hframed
    rw [List.flatMap_cons, List.flatMap_cons, Node.references_append, ← Multiset.coe_add]
    exact hframed.append (ih hrest)

/-- Where the references at the start and in definitions that differ come to no more than one for each name, no
definition is gone through twice. What every step keeps up is that a name has come up, and can still come up, no more
often than it was referred to; `seen` are the names that have come up. -/
theorem nodup {start : Multiset String}
    (honce : ∀ seen : List String, seen.Nodup → ∀ name,
      start.count name + (seen.map fun n => (opens n).count name).sum ≤ 1)
    (h : Spends opens before names after) {seen : List String} (hseen : seen.Nodup)
    (hpaid : ∀ name, seen.count name + before.count name ≤
      start.count name + (seen.map fun n => (opens n).count name).sum) : (seen ++ names).Nodup := by
  induction h generalizing seen with
  | leave => rwa [List.append_nil]
  | @enter before after name names _ ih =>
    have hfresh : name ∉ seen := by
      have hone := (hpaid name).trans (honce seen hseen name)
      rw [Multiset.count_cons_self] at hone
      exact List.count_eq_zero.1 (by omega)
    have hnext : (seen ++ [name]).Nodup := by
      refine List.nodup_append.2 ⟨hseen, List.nodup_singleton _, fun a ha b hb heq => hfresh ?_⟩
      rwa [← List.mem_singleton.1 hb, ← heq]
    -- Entering the name gives up one reference to it, and brings in the same names on both sides.
    have hrest := ih hnext fun other => by
      have hother := hpaid other
      rw [Multiset.count_cons] at hother
      rw [List.count_append, List.count_singleton, Multiset.count_add, List.map_append, List.sum_append,
        List.map_singleton, List.sum_singleton]
      by_cases heq : other = name
      · rw [if_pos heq] at hother
        rw [if_pos (beq_iff_eq.2 heq.symm)]
        omega
      · rw [if_neg heq] at hother
        rw [if_neg (mt beq_iff_eq.1 (Ne.symm heq))]
        omega
    rwa [List.append_assoc] at hrest

end Spends

/-! ## Expansions -/

section Expansion

variable {definitions : Definitions} {convert : Node → Value → Option Grading}

theorem Spends.reference {name : String} {first : Node} {rest : List Node} {names : List String}
    {after : Multiset String} (hn : definitions.nodes name = first :: rest)
    (h : Spends definitions.opens (Node.references first.subnodes) names after) :
    Spends definitions.opens (Node.references (Node.reference name).subnodes) (name :: names) after := by
  have hname : (Node.references (Node.reference name).subnodes : Multiset String) = name ::ₘ 0 := rfl
  rw [← Definitions.opened_eq hn] at h
  rw [hname]
  exact .enter (h.having (Multiset.le_add_left _ _))

theorem Definitions.followed_spends {steps : Nat} {node : Node} {fields : List (Field Node)}
    (h : definitions.resolveWithin? steps node = some fields) :
    Spends definitions.opens (Node.references node.subnodes) (definitions.followed steps node)
      (Node.references (Node.map fields).subnodes) := by
  induction h using resolveWithin?_induction with
  | map steps =>
    rw [followed_map]
    exact .leave le_rfl
  | reference steps name n hn h ih =>
    rw [followed_single hn]
    exact ih.reference hn

theorem Alternative.followed_spends (a : Alternative Node) :
    Spends definitions.opens (Node.references a.node.subnodes) (a.followed definitions)
      (Node.references (a.target definitions).subnodes) := by
  unfold target followed
  cases hmap : definitions.resolveMap? a.node with
  | some fields => exact Definitions.followed_spends hmap
  | none => exact .leave le_rfl

/-- **Definitions are gone through at the expense of references**, those in the node to begin with. The induction is
on the expansions that are left. -/
theorem passedWithin_spends (n : Nat) (names : List String) (node : Node) :
    Spends definitions.opens (Node.references node.subnodes) (passedWithin definitions convert n names node) 0 := by
  induction n generalizing names node with
  | zero => exact .leave (Multiset.zero_le _)
  | succ n ih =>
    cases node with
    | array elements size =>
      cases size with
      | repeating => exact .leave (Multiset.zero_le _)
      | exact =>
        rw [Node.references_array, passedWithin]
        exact .flatMap fun m _ => ih names m
    | map fields =>
      have hsome := Spends.flatMap (l := fields.filter fun f => f.FallsBack convert) fun f _ => ih names f.node
      rw [Node.references_map, passedWithin]
      refine hsome.having (Multiset.coe_le.2 (List.Sublist.subperm ?_))
      exact (List.filter_sublist.flatMap _).filterMap _
    | selector discriminant alternatives =>
      cases alternatives with
      | nil => exact .leave (Multiset.zero_le _)
      | cons first rest =>
        have htarget := first.followed_spends.append (ih names (first.target definitions))
        have hsub : first.node.subnodes.Sublist (Node.selector discriminant (first :: rest)).subnodes :=
          (List.sublist_append_left _ _).cons _
        exact htarget.having (Multiset.coe_le.2 (hsub.filterMap _).subperm)
    | reference name =>
      by_cases hname : names.contains name = true
      · rw [passedWithin, if_pos hname]
        exact .leave (Multiset.zero_le _)
      · cases hn : definitions.nodes name with
        | nil =>
          rw [passedWithin, if_neg hname, hn]
          exact .leave (Multiset.zero_le _)
        | cons first rest =>
          rw [passedWithin_entered hname hn]
          exact (ih (name :: names) first).reference hn
    | _ => exact .leave (Multiset.zero_le _)

end Expansion

/-! ## Definitions that are gone through once -/

theorem Definitions.opened_cons (e : String × List Node) (rest : Definitions) (name : String) :
    Definitions.opened (e :: rest) name =
      if name = e.1 then Node.subnodesAll (e.2.take 1) else Definitions.opened rest name := by
  unfold opened nodes
  rw [Entries.get?_cons]
  by_cases h : name = e.1
  · rw [if_pos h, if_pos h, Option.getD_some]
  · rw [if_neg h, if_neg h]

/-- What is counted in the definitions that different names stand for is not more than what is counted in all
definitions. -/
theorem Definitions.sum_opened_le (count : List Node → Nat) (hnil : count [] = 0)
    (happend : ∀ ms ns, count (ms ++ ns) = count ms + count ns) (definitions : Definitions) {names : List String}
    (hnd : names.Nodup) : (names.map fun name => count (definitions.opened name)).sum ≤
      count (definitions.flatMap fun e => Node.subnodesAll e.2) := by
  induction definitions generalizing names with
  | nil =>
    have hzero : (names.map fun name => count (Definitions.opened [] name)) = names.map fun _ => 0 :=
      List.map_congr_left fun _ _ => hnil
    rw [hzero, List.sum_map_zero]
    exact Nat.zero_le _
  | cons e rest ih =>
    -- The name of the first entry comes up once at most; all others are looked up in the rest.
    have hothers := ih (hnd.filter (¬ · = e.1))
    have hfirst : count (Node.subnodesAll (e.2.take 1)) ≤ count (Node.subnodesAll e.2) := by
      conv => rhs; rw [← List.take_append_drop 1 e.2]
      rw [Node.subnodesAll_eq, Node.subnodesAll_eq, List.flatMap_append, happend]
      exact Nat.le_add_right _ _
    have hlength : (names.filter (· = e.1)).length ≤ 1 := by
      rw [← List.countP_eq_length_filter]
      exact List.nodup_iff_count_le_one.1 hnd e.1
    have hone := Nat.mul_le_mul hlength hfirst
    rw [Nat.one_mul] at hone
    simp only [opened_cons, apply_ite count]
    rw [List.sum_map_ite, List.map_const', List.sum_replicate_nat, List.flatMap_cons, happend]
    exact Nat.add_le_add hone hothers

section Bounds

variable {definitions : Definitions} {convert : Node → Value → Option Grading} {n : Nat} {names : List String}
  {node : Node} {v : Value}

/-- Where no name is referred to twice, no definition is gone through twice. -/
theorem passedWithin_nodup (honce : (Node.references (definitions.atHand node)).Nodup) :
    (passedWithin definitions convert n names node).Nodup := by
  have hspends : Spends definitions.opens _ (passedWithin definitions convert n names node) 0 :=
    passedWithin_spends n names node
  rw [← List.nil_append (passedWithin definitions convert n names node)]
  refine hspends.nodup (fun seen hseen name => ?_) List.nodup_nil fun name => Nat.le_of_eq (Nat.add_comm _ _)
  have hcount : ∀ ms ns, (Node.references (ms ++ ns)).count name =
      (Node.references ms).count name + (Node.references ns).count name := fun ms ns => by
    rw [Node.references_append, List.count_append]
  have hdefinitions :=
    Definitions.sum_opened_le (fun ns => (Node.references ns).count name) rfl hcount definitions hseen
  have hall := List.nodup_iff_count_le_one.1 honce name
  rw [Definitions.atHand, hcount] at hall
  simp only [Definitions.opens, Multiset.coe_count]
  exact Nat.le_trans (Nat.add_le_add_left hdefinitions _) hall

/-- Definitions that are gone through once are no more than all definitions. -/
theorem weigh_passed_le (hnd : names.Nodup) :
    weigh node.subnodes + definitions.weighNames names ≤ weigh (definitions.atHand node) := by
  rw [Definitions.atHand, weigh_append]
  exact Nat.add_le_add_left (Definitions.sum_opened_le weigh rfl weigh_append definitions hnd) _

end Bounds

theorem weigh_atHand (definitions : Definitions) (node : Node) : weigh (definitions.atHand node) =
    node.size + definitions.size + (definitions.atHand node).countP Node.isSelector := by
  rw [weigh, Definitions.length_atHand]

/-- **Defaults are bounded by what is gone through for them**: there are no more values in a default than nodes in the
tree and in the definitions gone through, each counted as often as it is gone through, and selectors twice. So the size
of the schema, tree and all definitions, is a bound where no definition is gone through twice, and always where no name
is referred to twice. -/
theorem defaultOf_size_le {definitions : Definitions} {levels : Nat} {names : List String} {node : Node} {v : Value}
    (hflat : definitions.Everywhere Node.Flat node)
    (h : defaultOf definitions (grade definitions levels []) names node = some v) :
    let passed := passedWithin definitions (grade definitions levels []) (expansionBound definitions node) names node
    let bound := node.size + definitions.size + (definitions.atHand node).countP Node.isSelector
    v.size ≤ weigh node.subnodes + definitions.weighNames passed ∧ (passed.Nodup → v.size ≤ bound) ∧
      ((Node.references (definitions.atHand node)).Nodup → v.size ≤ bound) := by
  intro passed bound
  have hsize : v.size ≤ weigh node.subnodes + definitions.weighNames passed :=
    size_le_passed (fun _ _ _ hv hg => grade_size hv hg) hflat h
  have hnodup : passed.Nodup → v.size ≤ bound := fun hnd => by
    have hall : _ ≤ bound := weigh_atHand definitions node ▸ weigh_passed_le hnd
    exact Nat.le_trans hsize hall
  exact ⟨hsize, hnodup, fun honce => hnodup (passedWithin_nodup honce)⟩

/-- The values in the nodes of an accepted suite have no parts. -/
theorem Suite.everywhere_flat {text : String} {depth : Nat} {s : Suite} (hs : Suite.ofText text depth = .ok s)
    {name : String} {direction : Direction} {body : Node} (hbody : s.body name direction = .ok body) :
    s.definitions.Everywhere Node.Flat body :=
  ((Suite.wellFormed_of_text hs).everywhere hbody).mono fun _ h => h.flat

/-- A definition that refers to itself is gone through once, as its name is not entered again. -/
theorem defaultOf_size_le_recursive :
    let t : Node := .map [⟨"v", .selector "k" [⟨.integer 7, .reference "u"⟩], false, none⟩,
      ⟨"x", .reference "t", true, none⟩]
    let u : Node := .map [⟨"a", .primitive .integer, false, some (.integer 5)⟩]
    let s : Suite := { resources := [("r", ⟨"r", .put, .reference "t", .any⟩)],
                       definitions := [("t", [t]), ("u", [u])] }
    Suite.ofText "%% r >> &t\n&t = \x7b v: select k \x7b 7: &u \x7d, x?: &t \x7d\n&u = \x7b a: int = 5 \x7d" = .ok s ∧
    passedWithin s.definitions (grade s.definitions 3 []) (expansionBound s.definitions (.reference "t")) []
      (.reference "t") = ["t", "u"] ∧
    ∃ v, defaultOf s.definitions (grade s.definitions 3 []) [] (.reference "t") = some v ∧ v.size = 5 ∧ v.size ≤ 8 := by
  intro t u s
  have hs : Suite.ofText
      "%% r >> &t\n&t = \x7b v: select k \x7b 7: &u \x7d, x?: &t \x7d\n&u = \x7b a: int = 5 \x7d" = .ok s := rfl
  have hbody : s.body "r" .request = .ok (.reference "t") := rfl
  have hpassed : passedWithin s.definitions (grade s.definitions 3 [])
      (expansionBound s.definitions (.reference "t")) [] (.reference "t") = ["t", "u"] := rfl
  obtain ⟨v, hv, hsize⟩ : ∃ v, defaultOf s.definitions (grade s.definitions 3 []) [] (.reference "t") = some v ∧
      v.size = 5 := ⟨_, rfl, rfl⟩
  obtain ⟨-, hnodup, -⟩ := defaultOf_size_le (Suite.everywhere_flat hs hbody) hv
  rw [hpassed] at hnodup
  exact ⟨hs, hpassed, v, hv, hsize, hnodup (by decide)⟩

/-! ## Definitions that are gone through more often -/

theorem mapM_replicate {α β : Type} {f : α → Option β} {a : α} {b : β} (h : f a = some b) (k : Nat) :
    (List.replicate k a).mapM f = some (List.replicate k b) := by
  induction k with
  | zero => rfl
  | succ k ih =>
    rw [List.replicate_succ, List.mapM_cons, h, ih]
    rfl

/-- **No multiple of the size of the schema is a bound for all defaults.** The default of an array of references to an
array has as many values as the product of the lengths, and more. -/
theorem exists_defaultOf_larger (m : Nat) : ∃ (definitions : Definitions) (node : Node) (v : Value),
    (∀ convert, defaultOf definitions convert [] node = some v) ∧
      m * (node.size + definitions.size + (definitions.atHand node).countP Node.isSelector) < v.size := by
  let inner : Node := .array (List.replicate (2 * m) (.primitive .integer)) .exact
  let outer : Node := .array (List.replicate (2 * m) (.reference "b")) .exact
  let definitions : Definitions := [("b", [inner])]
  let filled : Value := .array (List.replicate (2 * m) (.integer 0))
  refine ⟨definitions, outer, .array (List.replicate (2 * m) filled), fun convert => ?_, ?_⟩
  · have hinteger : defaultWithin definitions convert 1 ["b"] (.primitive .integer) = some (.integer 0) := rfl
    have hreference : defaultWithin definitions convert 3 [] (.reference "b") = some filled :=
      congrArg (Option.map Value.array) (mapM_replicate hinteger _)
    have houter : defaultWithin definitions convert 4 [] outer = some (.array (List.replicate (2 * m) filled)) :=
      congrArg (Option.map Value.array) (mapM_replicate hreference _)
    exact defaultOf_of_within houter
  · have hinner : weigh inner.subnodes = 2 * m + 1 := by
      rw [weigh_array, List.map_replicate, List.sum_replicate_nat]
      exact congrArg (· + 1) (Nat.mul_one _)
    have houter : weigh outer.subnodes = 2 * m + 1 := by
      rw [weigh_array, List.map_replicate, List.sum_replicate_nat]
      exact congrArg (· + 1) (Nat.mul_one _)
    have hdefinitions : (definitions.flatMap fun e => Node.subnodesAll e.2) = inner.subnodes := by
      rw [List.flatMap_singleton, Node.subnodesAll, Node.subnodesAll, List.append_nil]
    have hfilled : filled.size = 2 * m + 1 := by
      rw [Value.size, Value.sizeItems_eq, List.map_replicate, List.sum_replicate_nat]
      exact congrArg (· + 1) (Nat.mul_one _)
    rw [← weigh_atHand, Definitions.atHand, hdefinitions, weigh_append, hinner, houter, Value.size,
      Value.sizeItems_eq, List.map_replicate, List.sum_replicate_nat, hfilled, ← Nat.two_mul, ← Nat.mul_assoc,
      Nat.mul_comm m 2]
    exact Nat.lt_succ_self _

/-- Three references to an array of three integers: eight nodes, and thirteen values in the default. -/
theorem defaultOf_shared :
    let shared : Node := .array [.primitive .integer, .primitive .integer, .primitive .integer] .exact
    let node : Node := .array [.reference "b", .reference "b", .reference "b"] .exact
    let s : Suite := { resources := [("r", ⟨"r", .put, .map [⟨"k", node, true, none⟩], .any⟩)],
                       definitions := [("b", [shared])] }
    let bound := node.size + s.definitions.size + (s.definitions.atHand node).countP Node.isSelector
    Suite.ofText "%% r >> \x7b k?: [&b, &b, &b] \x7d\n&b = [int, int, int]" = .ok s ∧ bound = 8 ∧
      ∃ v, defaultOf s.definitions (grade s.definitions defaultMaxDepth []) [] node = some v ∧ v.size = 13 ∧
        ¬ v.size ≤ bound :=
  ⟨rfl, rfl, _, rfl, rfl, by decide⟩

end Conformance
