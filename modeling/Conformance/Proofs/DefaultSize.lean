import Conformance.Proofs.Gaps
import Conformance.Proofs.Substitution
import Mathlib.Algebra.BigOperators.Group.List.Basic
import Mathlib.Algebra.GroupWithZero.Nat

/-!
# The size of defaults

How many values there are in a default. Each node that is gone through gives one value of its own, and a selector
one more, its discriminant. A definition that several references lead to is gone through for each of them.

* `Value.size` — the number of values in a value.
* `grade_size` — what a declared default is converted to is one value.
* `Node.Flat` — the values in a node have no parts, as in every schema that is read from a text.
* `weigh` — nodes are counted, selectors twice.
* `passedWithin` — the definitions that are gone through while a default is built.
* `size_le_passed` — a default is no larger than the tree and these definitions.
-/

set_option autoImplicit false

namespace Conformance

/-! ## Values -/

namespace Value

mutual

/-- The number of values in a value, itself included. -/
def size : Value → Nat
  | .array items => sizeItems items + 1
  | .map entries => sizeEntries entries + 1
  | _ => 1

def sizeItems : List Value → Nat
  | [] => 0
  | v :: vs => v.size + sizeItems vs

def sizeEntries : List (String × Value) → Nat
  | [] => 0
  | (_, v) :: rest => v.size + sizeEntries rest

end

theorem size_of_isScalar {v : Value} (h : v.kind.isScalar = true) : v.size = 1 := by
  cases v <;> first | rfl | cases h

theorem sizeEntries_insert_le (key : String) (v : Value) (entries : Entries Value) :
    sizeEntries (Entries.insert key v entries) ≤ v.size + sizeEntries entries := by
  induction entries with
  | nil => exact Nat.le_refl _
  | cons e rest ih =>
    simp only [Entries.insert]
    split
    · exact Nat.le_refl _
    split
    · simp only [sizeEntries]
      omega
    · simp only [sizeEntries]
      omega

theorem sizeEntries_ofList_le (pairs : List (String × Value)) :
    sizeEntries (Entries.ofList pairs) ≤ sizeEntries pairs := by
  suffices hfold : ∀ (l : List (String × Value)) (sorted : Entries Value),
      sizeEntries (l.foldl (fun sorted e => Entries.insert e.1 e.2 sorted) sorted) ≤
        sizeEntries l + sizeEntries sorted from hfold pairs []
  intro l
  induction l with
  | nil => exact fun sorted => Nat.le_add_left _ _
  | cons e l ih =>
    intro sorted
    have hrest := ih (Entries.insert e.1 e.2 sorted)
    have hfirst := sizeEntries_insert_le e.1 e.2 sorted
    simp only [List.foldl_cons, sizeEntries]
    omega

theorem size_withDiscriminant_le (discriminant : String) (key v : Value) :
    (withDiscriminant discriminant key v).size ≤ key.size + v.size := by
  unfold withDiscriminant
  split
  · have := sizeEntries_insert_le discriminant key (by assumption)
    simp only [size]
    omega
  · exact Nat.le_add_left _ _

theorem sizeItems_eq (items : List Value) : sizeItems items = (items.map size).sum := by
  induction items with
  | nil => rfl
  | cons v items ih => rw [List.map_cons, List.sum_cons, ← ih, sizeItems]

theorem sizeEntries_eq (entries : List (String × Value)) :
    sizeEntries entries = (entries.map fun e => e.2.size).sum := by
  induction entries with
  | nil => rfl
  | cons e entries ih => rw [List.map_cons, List.sum_cons, ← ih, sizeEntries]

/-- A coercion gives one value, possibly an empty array or map. -/
theorem size_of_coerce {target : Kind} {v w : Value}
    (h : coerce target v = .converted w ∨ coerce target v = .defaulted w) : w.size = 1 := by
  rcases isScalar_or_zero_of_coerce h with hscalar | rfl
  · exact size_of_isScalar hscalar
  · cases target <;> rfl

end Value

/-- What is added up along a list is added up over its pieces. -/
theorem sum_flatMap_of_append {α β : Type} {size : List β → Nat} (hnil : size [] = 0)
    (happend : ∀ xs ys, size (xs ++ ys) = size xs + size ys) (f : α → List β) (l : List α) :
    size (l.flatMap f) = (l.map fun a => size (f a)).sum := by
  induction l with
  | nil => exact hnil
  | cons a l ih => rw [List.flatMap_cons, happend, ih, List.map_cons, List.sum_cons]

/-- A list of results is no larger than the bounds of the results are together. -/
theorem sum_map_le_of_mapM {α β : Type} {f : α → Option β} {size : β → Nat} {bound : α → Nat} {as : List α}
    {bs : List β} (h : as.mapM f = some bs) (hbound : ∀ a ∈ as, ∀ b, f a = some b → size b ≤ bound a) :
    (bs.map size).sum ≤ (as.map bound).sum := by
  have hall := mapM_eq_some_iff.1 h
  clear h
  induction hall with
  | nil => exact Nat.le_refl _
  | cons hb _ ih =>
    obtain ⟨hfirst, hbound⟩ := List.forall_mem_cons.1 hbound
    rw [List.map_cons, List.sum_cons, List.map_cons, List.sum_cons]
    exact Nat.add_le_add (hfirst _ hb) (ih hbound)

/-- **A value without parts is converted to one value**, by whatever node. -/
theorem grade_size {definitions : Definitions} {levels : Nat} {entered : List String} {node : Node} {v : Value}
    {g : Grading} (hv : v.kind.isScalar = true) (h : grade definitions levels entered node v = some g) :
    g.value.size = 1 := by
  have hsize := Value.size_of_isScalar hv
  induction levels generalizing entered node with
  | zero =>
    cases h
    exact hsize
  | succ levels ih =>
    cases node with
    | any =>
      cases h
      exact hsize
    | primitive kind =>
      cases h
      unfold gradePrimitive
      split
      · exact hsize
      · rename_i w hw
        exact Value.size_of_coerce (.inl hw)
      · rename_i w hw
        exact Value.size_of_coerce (.inr hw)
      · exact hsize
    | literal expected =>
      cases h
      unfold gradeLiteral
      split <;> exact hsize
    | array =>
      rw [grade_array, gradeArray_scalar hv] at h
      cases h
      exact hsize
    | map =>
      rw [grade_map, gradeMap_scalar hv] at h
      cases h
      exact hsize
    | dictionary =>
      rw [grade_dictionary, gradeDictionary_scalar hv] at h
      cases h
      exact hsize
    | selector =>
      rw [grade_selector, gradeSelector_scalar hv] at h
      cases h
      exact hsize
    | reference name =>
      rw [grade_reference] at h
      rcases gradeReference_cases h with ⟨-, rfl⟩ | ⟨n, -, hn⟩
      · exact hsize
      · exact ih hn

/-! ## Nodes -/

namespace Node

def isSelector : Node → Bool
  | .selector _ _ => true
  | _ => false

/-- The values in the node have no parts. -/
def Flat : Node → Prop
  | .literal v => v.kind.isScalar = true
  | .map fields => ∀ f ∈ fields, ∀ v, f.default? = some v → v.kind.isScalar = true
  | .selector _ alternatives => ∀ a ∈ alternatives, a.key.kind.isScalar = true
  | _ => True

theorem WellFormed.flat {definitions : Definitions} {depth : Nat} {node : Node}
    (h : node.WellFormed definitions depth) : node.Flat := by
  cases node with
  | literal v => exact Value.IsLiteral.isScalar h
  | map fields => exact fun f hf v hv => (h.2.2 f hf v hv).1.isScalar
  | selector discriminant alternatives =>
    intro a ha
    rcases (h.2.2 a ha).1 with ⟨text, hkey⟩ | ⟨i, hkey⟩
    · rw [hkey]
      rfl
    · rw [hkey]
      rfl
  | _ => trivial

end Node

/-- How much nodes count: a selector for two, all other nodes for one. -/
def weigh (nodes : List Node) : Nat := nodes.length + nodes.countP Node.isSelector

theorem weigh_append (ms ns : List Node) : weigh (ms ++ ns) = weigh ms + weigh ns := by
  unfold weigh
  rw [List.length_append, List.countP_append]
  omega

theorem weigh_flatMap {α : Type} (f : α → List Node) (l : List α) :
    weigh (l.flatMap f) = (l.map fun a => weigh (f a)).sum :=
  sum_flatMap_of_append rfl weigh_append f l

theorem weigh_subnodes_pos (node : Node) : 0 < weigh node.subnodes :=
  Nat.add_pos_left (List.length_pos_of_mem node.mem_subnodes_self) _

/-! ## What an expansion goes through -/

/-- The nodes that come in where a name is entered: those of the first node that it stands for. -/
def Definitions.opened (definitions : Definitions) (name : String) : List Node :=
  Node.subnodesAll ((definitions.nodes name).take 1)

theorem Definitions.opened_eq {definitions : Definitions} {name : String} {first : Node} {rest : List Node}
    (h : definitions.nodes name = first :: rest) : definitions.opened name = first.subnodes := by
  rw [opened, h, List.take_succ_cons, List.take_zero, Node.subnodesAll, Node.subnodesAll, List.append_nil]

/-- The names that are followed from a node to a map. -/
def Definitions.followed (definitions : Definitions) : Nat → Node → List String
  | steps + 1, .reference name =>
    match definitions.nodes name with
    | [node] => name :: followed definitions steps node
    | _ => []
  | _, _ => []

theorem Definitions.followed_map (definitions : Definitions) (steps : Nat) (fields : List (Field Node)) :
    definitions.followed steps (.map fields) = [] := by
  cases steps <;> rfl

theorem Definitions.followed_single {definitions : Definitions} {name : String} {node : Node} {steps : Nat}
    (h : definitions.nodes name = [node]) :
    definitions.followed (steps + 1) (.reference name) = name :: definitions.followed steps node := by
  rw [followed, h]

/-- The names that are followed from an alternative to its map, if it leads to one. -/
def Alternative.followed (definitions : Definitions) (a : Alternative Node) : List String :=
  match definitions.resolveMap? a.node with
  | some _ => definitions.followed definitions.length a.node
  | none => []

instance (convert : Node → Value → Option Grading) : DecidablePred (Field.FallsBack convert) := fun f =>
  inferInstanceAs (Decidable (∀ literal ∈ f.default?, ∃ g ∈ convert f.node literal, g.outcome.isValid = false))

section Expansion

variable {definitions : Definitions} {convert : Node → Value → Option Grading}

/-- The names of the definitions that are gone through while a default is built, each as often as it is. -/
def passedWithin (definitions : Definitions) (convert : Node → Value → Option Grading) :
    Nat → List String → Node → List String
  | 0, _, _ => []
  | n + 1, expanding, node =>
    let inside := passedWithin definitions convert n
    match node with
    | .array elements .exact => elements.flatMap (inside expanding)
    | .map fields => (fields.filter fun f => f.FallsBack convert).flatMap fun f => inside expanding f.node
    | .selector _ (first :: _) => first.followed definitions ++ inside expanding (first.target definitions)
    | .reference name =>
      if expanding.contains name then []
      else
        match definitions.nodes name with
        | [] => []
        | first :: _ => name :: inside (name :: expanding) first
    | _ => []

theorem passedWithin_entered {n : Nat} {names : List String} {name : String} {first : Node} {rest : List Node}
    (hname : ¬ names.contains name = true) (hn : definitions.nodes name = first :: rest) :
    passedWithin definitions convert (n + 1) names (.reference name) =
      name :: passedWithin definitions convert n (name :: names) first := by
  rw [passedWithin, if_neg hname, hn]

/-! ## Sizes -/

/-- How much the definitions count that names stand for, each as often as its name comes up. -/
def Definitions.weighNames (definitions : Definitions) (names : List String) : Nat :=
  (names.map fun name => weigh (definitions.opened name)).sum

theorem Definitions.weighNames_append (names others : List String) :
    definitions.weighNames (names ++ others) = definitions.weighNames names + definitions.weighNames others := by
  unfold weighNames
  rw [List.map_append, List.sum_append]

theorem Definitions.weighNames_flatMap {α : Type} (f : α → List String) (l : List α) :
    definitions.weighNames (l.flatMap f) = (l.map fun a => definitions.weighNames (f a)).sum :=
  sum_flatMap_of_append rfl definitions.weighNames_append f l

theorem Definitions.weighNames_cons (name : String) (names : List String) :
    definitions.weighNames (name :: names) = weigh (definitions.opened name) + definitions.weighNames names :=
  List.sum_cons

/-- The map at the end of a chain of names is in the last of the definitions that the chain goes through. -/
theorem Definitions.weigh_resolved {steps : Nat} {node : Node} {fields : List (Field Node)}
    (h : definitions.resolveWithin? steps node = some fields) : weigh (Node.map fields).subnodes ≤
      weigh node.subnodes + definitions.weighNames (definitions.followed steps node) := by
  induction h using resolveWithin?_induction with
  | map => exact Nat.le_add_right _ _
  | reference steps name n hn h ih =>
    rw [followed_single hn, weighNames_cons, opened_eq hn]
    exact Nat.le_trans ih (Nat.le_add_left _ _)

theorem Alternative.weigh_target (a : Alternative Node) : weigh (a.target definitions).subnodes ≤
    weigh a.node.subnodes + definitions.weighNames (a.followed definitions) := by
  unfold target followed
  cases hmap : definitions.resolveMap? a.node with
  | some fields => exact Definitions.weigh_resolved hmap
  | none => exact Nat.le_add_right _ _

theorem weigh_array (elements : List Node) (size : ArraySize) :
    weigh (Node.array elements size).subnodes = (elements.map fun n => weigh n.subnodes).sum + 1 := by
  have hself : weigh [Node.array elements size] = 1 := rfl
  rw [Node.subnodes, ← List.singleton_append, weigh_append, hself, Node.subnodesAll_eq, weigh_flatMap, Nat.add_comm]

theorem weigh_map (fields : List (Field Node)) :
    weigh (Node.map fields).subnodes = (fields.map fun f => weigh f.node.subnodes).sum + 1 := by
  have hself : weigh [Node.map fields] = 1 := rfl
  rw [Node.subnodes, ← List.singleton_append, weigh_append, hself, Node.subnodesFields_eq, weigh_flatMap,
    Nat.add_comm]

/-- A selector counts for one more than its first alternative and itself. -/
theorem weigh_selector (discriminant : String) (first : Alternative Node) (rest : List (Alternative Node)) :
    weigh first.node.subnodes + 2 ≤ weigh (Node.selector discriminant (first :: rest)).subnodes := by
  have hself : weigh [Node.selector discriminant (first :: rest)] = 2 := rfl
  have hsplit : (Node.selector discriminant (first :: rest)).subnodes =
      [.selector discriminant (first :: rest)] ++ (first.node.subnodes ++ Node.subnodesAlternatives rest) := rfl
  rw [hsplit, weigh_append, weigh_append, hself]
  omega

theorem fieldDefault_size_le {fill : Node → Option Value} {f : Field Node} {w : Value} {more : Nat}
    (hliteral : ∀ v, f.default? = some v → v.kind.isScalar = true)
    (hconvert : ∀ m v g, v.kind.isScalar = true → convert m v = some g → g.value.size = 1)
    (hfill : ∀ w, fill f.node = some w → w.size ≤ weigh f.node.subnodes + more)
    (h : fieldDefault convert fill f = some w) :
    w.size ≤ weigh f.node.subnodes + if f.FallsBack convert then more else 0 := by
  have hpos := weigh_subnodes_pos f.node
  rcases fieldDefault_cases h with ⟨literal, g, hl, hg, -, rfl⟩ | ⟨hback, hw⟩
  · have hone := hconvert f.node literal g (hliteral literal hl) hg
    omega
  · rw [if_pos hback]
    exact hfill w hw

/-- **A default is no larger than what is gone through for it**: the node, and each definition as often as it is gone
through. The induction is on the expansions that are left. -/
theorem size_le_passed (hconvert : ∀ m v g, v.kind.isScalar = true → convert m v = some g → g.value.size = 1)
    {n : Nat} {names : List String} {node : Node} {v : Value} (hflat : definitions.Everywhere Node.Flat node)
    (h : defaultWithin definitions convert n names node = some v) :
    v.size ≤ weigh node.subnodes + definitions.weighNames (passedWithin definitions convert n names node) := by
  induction n generalizing names node v with
  | zero => cases h
  | succ n ih =>
    have hpos := weigh_subnodes_pos node
    cases node with
    | any =>
      cases h
      exact Nat.le_add_right_of_le hpos
    | primitive kind =>
      cases h
      have hzero : kind.zero.size = 1 := by cases kind <;> rfl
      omega
    | literal w =>
      cases h
      have hw := Value.size_of_isScalar hflat.self
      omega
    | dictionary entry =>
      cases h
      exact Nat.le_add_right_of_le hpos
    | array elements size =>
      cases size with
      | repeating =>
        cases h
        exact Nat.le_add_right_of_le hpos
      | exact =>
        obtain ⟨items, hitems, rfl⟩ := Option.map_eq_some_iff.1 h
        have hsum := sum_map_le_of_mapM hitems fun m hm w hw => ih (hflat.part (.element hm)) hw
        rw [List.sum_map_add, ← Value.sizeItems_eq] at hsum
        rw [weigh_array, Value.size, passedWithin, Definitions.weighNames_flatMap]
        omega
    | map fields =>
      obtain ⟨pairs, hpairs, rfl⟩ := Option.map_eq_some_iff.1 h
      -- Only the fields that fall back go through definitions; a declared default is one value.
      have hsum : (pairs.map fun e => e.2.size).sum ≤ (fields.map fun f => weigh f.node.subnodes +
          if f.FallsBack convert then
            definitions.weighNames (passedWithin definitions convert n names f.node)
          else 0).sum := by
        refine sum_map_le_of_mapM hpairs fun f hf e he => ?_
        obtain ⟨w, hw, rfl⟩ := Option.map_eq_some_iff.1 he
        exact fieldDefault_size_le (hflat.self f hf) hconvert (fun w => ih (hflat.part (.field hf))) hw
      have hentries := Value.sizeEntries_ofList_le pairs
      rw [List.sum_map_add, List.sum_map_ite, List.sum_map_zero, ← Value.sizeEntries_eq] at hsum
      rw [weigh_map, Value.size, passedWithin, Definitions.weighNames_flatMap]
      omega
    | selector discriminant alternatives =>
      cases alternatives with
      | nil =>
        cases h
        exact Nat.le_add_right_of_le hpos
      | cons first rest =>
        obtain ⟨w, hw, rfl⟩ := Option.map_eq_some_iff.1 h
        have htarget := ih (hflat.part (.alternative List.mem_cons_self)).target hw
        have hkey := Value.size_of_isScalar (hflat.self first List.mem_cons_self)
        have hadds := Value.size_withDiscriminant_le discriminant first.key w
        have hmap : weigh (first.target definitions).subnodes ≤ _ := first.weigh_target
        have hselector := weigh_selector discriminant first rest
        rw [passedWithin, Definitions.weighNames_append]
        omega
    | reference name =>
      simp only [defaultWithin] at h
      split at h
      · cases h
        exact Nat.le_add_right_of_le hpos
      · rename_i hname
        split at h
        · cases h
          exact Nat.le_add_right_of_le hpos
        · rename_i first rest hfirst
          have hdefinition := ih (hflat.definition (hfirst ▸ List.mem_cons_self)) h
          rw [passedWithin_entered hname hfirst, Definitions.weighNames_cons, Definitions.opened_eq hfirst]
          omega

end Expansion

end Conformance
