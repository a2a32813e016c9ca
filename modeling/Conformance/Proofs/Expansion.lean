import Conformance.Grading.Compare
import Conformance.Proofs.Occurrence
import Mathlib.Data.List.Forall2
import Mathlib.Data.List.Nodup
import Mathlib.Data.List.Perm.Subperm
import Mathlib.Logic.Relation

/-!
# Expansion of defaults

When the default of a node has a value. An expansion passes from a node to the nodes whose defaults are
built into its own; it gets stuck where a declared default has no grading, and it runs on for ever where
a node is built into itself.

* `Embeds` — the default of the second node is built into that of the first without entering a name.
* `Expands` — the same with the names that are being expanded, one more of which may be entered.
* `StallsOn` — a declared default of the node has no grading.
* `defaultOf_eq_none_iff` — an expansion without a value reaches a node that stalls or one that is built
  into itself. So the number of expansions that `defaultOf` makes at most cuts off none that ends.
* `Embeds.loop_cases` — a node is built into itself only through a selector whose first alternative is
  nothing but a name.
-/

set_option autoImplicit false

namespace Conformance

open Relation (ReflTransGen TransGen)

/-- The node whose default a selector is filled in with: the map that the alternative leads to, past the
names on the way, or else the alternative's own node. -/
def Alternative.target (definitions : Definitions) (a : Alternative Node) : Node :=
  match definitions.resolveMap? a.node with
  | some fields => .map fields
  | none => a.node

theorem Alternative.target_eq {definitions : Definitions} {a : Alternative Node}
    (h : ∀ name, a.node ≠ .reference name) : a.target definitions = a.node := by
  obtain ⟨key, node⟩ := a
  cases node
  case reference name => exact absurd rfl (h name)
  all_goals simp [target, Definitions.resolveMap?, Definitions.resolveWithin?]

/-- No declared default takes precedence: there is none, or it cannot be converted. -/
def Field.FallsBack (convert : Node → Value → Option Grading) (f : Field Node) : Prop :=
  ∀ literal, f.default? = some literal →
    ∃ g, convert f.node literal = some g ∧ g.outcome.isValid = false

/-- A declared default of the node has no grading. -/
def StallsOn (convert : Node → Value → Option Grading) (node : Node) : Prop :=
  ∃ fields, node = .map fields ∧ ∃ f ∈ fields, ∃ literal, f.default? = some literal ∧
    convert f.node literal = none

section Expansion

variable {definitions : Definitions} {convert : Node → Value → Option Grading}

/-- The default of the second node is built into that of the first, with no name entered. -/
inductive Embeds (definitions : Definitions) (convert : Node → Value → Option Grading) :
    Node → Node → Prop where
  | element {n : Node} {ns : List Node} : n ∈ ns → Embeds definitions convert (.array ns .exact) n
  | field {f : Field Node} {fs : List (Field Node)} : f ∈ fs → f.FallsBack convert →
    Embeds definitions convert (.map fs) f.node
  | alternative {d : String} {a : Alternative Node} {xs : List (Alternative Node)} :
    Embeds definitions convert (.selector d (a :: xs)) (a.target definitions)

/-- One step of an expansion, with the names that are being expanded. -/
inductive Expands (definitions : Definitions) (convert : Node → Value → Option Grading) :
    List String × Node → List String × Node → Prop where
  | embeds {names : List String} {n m : Node} : Embeds definitions convert n m →
    Expands definitions convert (names, n) (names, m)
  | enters {names : List String} {name : String} {n : Node} {ns : List Node} : name ∉ names →
    definitions.nodes name = n :: ns →
    Expands definitions convert (names, .reference name) (name :: names, n)

/-! ## One expansion -/

theorem mapM_eq_some_iff {α β : Type} {f : α → Option β} {as : List α} {bs : List β} :
    as.mapM f = some bs ↔ List.Forall₂ (fun a b => f a = some b) as bs := by
  constructor
  · intro h
    induction as generalizing bs with
    | nil =>
      cases h
      exact .nil
    | cons a as ih =>
      rw [List.mapM_cons] at h
      obtain ⟨b, hb, h⟩ := Option.bind_eq_some_iff.1 h
      obtain ⟨rest, hrest, h⟩ := Option.bind_eq_some_iff.1 h
      cases h
      exact .cons hb (ih hrest)
  · intro h
    induction h with
    | nil => rfl
    | cons hfirst _ ih =>
      rw [List.mapM_cons, hfirst, ih]
      rfl

theorem mapM_eq_none_iff {α β : Type} {f : α → Option β} {l : List α} :
    l.mapM f = none ↔ ∃ a ∈ l, f a = none := by
  induction l with
  | nil => simp
  | cons a l ih =>
    rw [List.mapM_cons]
    cases ha : f a with
    | none => simp [ha]
    | some b =>
      cases hl : l.mapM f with
      | none => simpa [ha, hl] using ih.1 hl
      | some bs =>
        have := mt ih.2
        simp [hl] at this
        simpa [ha, hl] using this

theorem fieldDefault_eq_none_iff {fill : Node → Option Value} {f : Field Node} :
    fieldDefault convert fill f = none ↔
      (∃ literal, f.default? = some literal ∧ convert f.node literal = none) ∨
        f.FallsBack convert ∧ fill f.node = none := by
  unfold fieldDefault Field.FallsBack
  cases hd : f.default? with
  | none => simp
  | some literal =>
    cases hg : convert f.node literal with
    | none => simp [hg]
    | some g => cases hv : g.outcome.isValid <;> simp [hg, hv]

theorem defaultWithin_succ_eq_none_iff {n : Nat} {names : List String} {node : Node} :
    defaultWithin definitions convert (n + 1) names node = none ↔
      StallsOn convert node ∨ ∃ names' m, Expands definitions convert (names, node) (names', m) ∧
        defaultWithin definitions convert n names' m = none := by
  constructor
  · intro h
    unfold defaultWithin at h
    split at h
    case h_1 => cases h
    case h_2 => cases h
    case h_3 => cases h
    case h_4 ns =>
      obtain ⟨m, hm, hnone⟩ := mapM_eq_none_iff.1 (Option.map_eq_none_iff.1 h)
      exact .inr ⟨names, m, .embeds (.element hm), hnone⟩
    case h_5 => cases h
    case h_6 fs =>
      obtain ⟨f, hf, hnone⟩ := mapM_eq_none_iff.1 (Option.map_eq_none_iff.1 h)
      rcases fieldDefault_eq_none_iff.1 (Option.map_eq_none_iff.1 hnone) with hs | ⟨hb, hfill⟩
      · exact .inl ⟨fs, rfl, f, hf, hs⟩
      · exact .inr ⟨names, f.node, .embeds (.field hf hb), hfill⟩
    case h_7 => cases h
    case h_8 => cases h
    case h_9 d a xs =>
      exact .inr ⟨names, a.target definitions, .embeds .alternative, Option.map_eq_none_iff.1 h⟩
    case h_10 name =>
      split at h
      · cases h
      · rename_i hname
        split at h
        · cases h
        · rename_i m ms hm
          exact .inr ⟨_, m, .enters (by simpa using hname) hm, h⟩
  · rintro (⟨fs, rfl, f, hf, hs⟩ | ⟨names', m, he, hnone⟩)
    · refine Option.map_eq_none_iff.2 (mapM_eq_none_iff.2 ⟨f, hf, Option.map_eq_none_iff.2 ?_⟩)
      exact fieldDefault_eq_none_iff.2 (.inl hs)
    · cases he with
      | embeds he =>
        cases he with
        | element hm => exact Option.map_eq_none_iff.2 (mapM_eq_none_iff.2 ⟨m, hm, hnone⟩)
        | field hf hb =>
          refine Option.map_eq_none_iff.2 (mapM_eq_none_iff.2 ⟨_, hf, Option.map_eq_none_iff.2 ?_⟩)
          exact fieldDefault_eq_none_iff.2 (.inr ⟨hb, hnone⟩)
        | alternative => exact Option.map_eq_none_iff.2 hnone
      | enters hname hm =>
        simp only [defaultWithin]
        rw [if_neg (by simpa using hname), hm]
        exact hnone

/-! ## Expansions that run on -/

/-- A node that is built into itself has no default, however many expansions are made. -/
theorem defaultWithin_loop {m : Node} (h : TransGen (Embeds definitions convert) m m) (n : Nat)
    (names : List String) : defaultWithin definitions convert n names m = none := by
  induction n generalizing m with
  | zero => rfl
  | succ n ih =>
    obtain ⟨k, hk, hkm⟩ := TransGen.head'_iff.1 h
    exact defaultWithin_succ_eq_none_iff.2 (.inr ⟨names, k, .embeds hk, ih (TransGen.tail' hkm hk)⟩)

/-- An expansion that reaches a node which stalls or is built into itself never has a value. -/
theorem defaultWithin_eq_none_of_reaches {s : List String × Node} {names : List String} {m : Node}
    (h : ReflTransGen (Expands definitions convert) s (names, m))
    (hm : StallsOn convert m ∨ TransGen (Embeds definitions convert) m m) (n : Nat) :
    defaultWithin definitions convert n s.1 s.2 = none := by
  induction h using ReflTransGen.head_induction_on generalizing n with
  | refl =>
    cases n with
    | zero => rfl
    | succ n =>
      rcases hm with hs | hl
      · exact defaultWithin_succ_eq_none_iff.2 (.inl hs)
      · exact defaultWithin_loop hl _ _
  | head hstep _ ih =>
    cases n with
    | zero => rfl
    | succ n => exact defaultWithin_succ_eq_none_iff.2 (.inr ⟨_, _, hstep, ih n⟩)

/-! ## The number of expansions -/

/-- The nodes that can come up in the expansion of a node. -/
def Definitions.atHand (definitions : Definitions) (node : Node) : List Node :=
  node.subnodes ++ definitions.flatMap fun e => Node.subnodesAll e.2

theorem Definitions.length_atHand (definitions : Definitions) (node : Node) :
    (definitions.atHand node).length = node.size + definitions.size := by
  have hsize : ∀ ds : Definitions,
      (ds.flatMap fun e => Node.subnodesAll e.2).length = ds.size := by
    intro ds
    induction ds with
    | nil => rfl
    | cons e ds ih =>
      rw [List.flatMap_cons, List.length_append, ih, Node.length_subnodesAll, Definitions.size]
  rw [atHand, List.length_append, hsize, Node.length_subnodes]

theorem Definitions.everywhere_atHand (definitions : Definitions) (node : Node) :
    definitions.Everywhere (· ∈ definitions.atHand node) node := by
  refine ⟨fun m hm => List.mem_append_left _ hm, fun name n hn m hm => List.mem_append_right _ ?_⟩
  unfold Definitions.nodes at hn
  cases hget : Entries.get? definitions name with
  | none => simp [hget] at hn
  | some ns =>
    rw [hget] at hn
    exact List.mem_flatMap.2
      ⟨_, Entries.mem_of_get? hget, Node.mem_subnodesAll.2 ⟨n, hn, hm⟩⟩

theorem Definitions.Everywhere.target {P : Node → Prop} {a : Alternative Node}
    (h : definitions.Everywhere P a.node) : definitions.Everywhere P (a.target definitions) := by
  unfold Alternative.target
  split
  · rename_i fields hfields
    exact h.resolved hfields
  · exact h

theorem Embeds.everywhere {P : Node → Prop} {n m : Node} (h : Embeds definitions convert n m)
    (hn : definitions.Everywhere P n) : definitions.Everywhere P m := by
  cases h with
  | element hm => exact hn.part (.element hm)
  | field hf _ => exact hn.part (.field hf)
  | alternative => exact (hn.part (.alternative List.mem_cons_self)).target

/-- How many names are defined and not being expanded. -/
def Definitions.unexpanded (definitions : Definitions) (names : List String) : Nat :=
  (definitions.filter fun e => !names.contains e.1).length

theorem Definitions.unexpanded_le (definitions : Definitions) (names : List String) :
    definitions.unexpanded names ≤ definitions.length := List.length_filter_le _ _

theorem Definitions.unexpanded_cons_lt {name : String} {names : List String} {n : Node}
    {ns : List Node} (hname : name ∉ names) (hn : definitions.nodes name = n :: ns) :
    definitions.unexpanded (name :: names) < definitions.unexpanded names := by
  have hget : ∃ ms, Entries.get? definitions name = some ms := by
    unfold Definitions.nodes at hn
    cases hget : Entries.get? definitions name with
    | none => simp [hget] at hn
    | some ms => exact ⟨ms, rfl⟩
  obtain ⟨ms, hget⟩ := hget
  have hfilter : (definitions.filter fun e => !(name :: names).contains e.1) =
      (definitions.filter fun e => !names.contains e.1).filter fun e => !(e.1 == name) := by
    rw [List.filter_filter]
    refine List.filter_congr fun e _ => ?_
    rw [List.contains_cons, Bool.not_or]
  rw [unexpanded, hfilter]
  refine List.length_filter_lt_length_iff_exists.2 ⟨(name, ms), ?_, by simp⟩
  exact List.mem_filter.2 ⟨Entries.mem_of_get? hget, by simpa using hname⟩

/-- The induction is on the expansions that are left. `seen` are the nodes since the last name that was
entered: there are no more of them than nodes at hand, unless one comes up again. -/
theorem exists_stuck {nodes : List Node} :
    ∀ (n : Nat) {names : List String} {node : Node} {seen : List Node},
      definitions.Everywhere (· ∈ nodes) node → (node :: seen).Nodup → (∀ m ∈ seen, m ∈ nodes) →
      (∀ m ∈ seen, TransGen (Embeds definitions convert) m node) →
      definitions.unexpanded names * nodes.length + nodes.length ≤ n + seen.length →
      defaultWithin definitions convert n names node = none →
      ∃ names' m, ReflTransGen (Expands definitions convert) (names, node) (names', m) ∧
        (StallsOn convert m ∨ TransGen (Embeds definitions convert) m m) := by
  intro n
  induction n with
  | zero =>
    intro names node seen hnode hnd hseen _ hbound _
    have hsub : node :: seen ⊆ nodes := List.cons_subset.2 ⟨hnode.self, hseen⟩
    have := (List.subperm_of_subset hnd hsub).length_le
    simp only [List.length_cons] at this
    omega
  | succ n ih =>
    intro names node seen hnode hnd hseen hpath hbound hnone
    rcases defaultWithin_succ_eq_none_iff.1 hnone with hs | ⟨names', m, hstep, hnone⟩
    · exact ⟨names, node, .refl, .inl hs⟩
    have hrest : ∃ names'' k, ReflTransGen (Expands definitions convert) (names', m) (names'', k) ∧
        (StallsOn convert k ∨ TransGen (Embeds definitions convert) k k) := by
      cases hstep with
      | embeds he =>
        have hpath' : ∀ k ∈ node :: seen, TransGen (Embeds definitions convert) k m := by
          intro k hk
          rcases List.mem_cons.1 hk with rfl | hk
          · exact .single he
          · exact (hpath k hk).tail he
        by_cases hm : m ∈ node :: seen
        · exact ⟨names, m, .refl, .inr (hpath' m hm)⟩
        · refine ih (he.everywhere hnode) (List.nodup_cons.2 ⟨hm, hnd⟩) ?_ hpath' ?_ hnone
          · exact List.forall_mem_cons.2 ⟨hnode.self, hseen⟩
          · rw [List.length_cons]
            omega
      | @enters _ name k ks hname hns =>
        have hm := hnode.definition (hns ▸ List.mem_cons_self)
        refine @ih _ _ [] hm (List.nodup_singleton _) (by simp) (by simp) ?_ hnone
        have hlt := Definitions.unexpanded_cons_lt hname hns
        have hsub : .reference name :: seen ⊆ nodes := List.cons_subset.2 ⟨hnode.self, hseen⟩
        have hlen := (List.subperm_of_subset hnd hsub).length_le
        have hmul := Nat.mul_le_mul_right nodes.length hlt
        rw [Nat.succ_mul] at hmul
        simp only [List.length_cons, List.length_nil] at hlen ⊢
        omega
    obtain ⟨names'', k, hreach, hk⟩ := hrest
    exact ⟨names'', k, .head hstep hreach, hk⟩

/-- **An expansion without a value reaches a node that stalls or is built into itself.** -/
theorem defaultOf_eq_none_iff {names : List String} {node : Node} :
    defaultOf definitions convert names node = none ↔
      ∃ names' m, ReflTransGen (Expands definitions convert) (names, node) (names', m) ∧
        (StallsOn convert m ∨ TransGen (Embeds definitions convert) m m) := by
  constructor
  · intro h
    refine exists_stuck _ (definitions.everywhere_atHand node) (List.nodup_singleton _) (by simp)
      (by simp) ?_ h
    rw [definitions.length_atHand, expansionBound, Nat.add_mul, Nat.one_mul, List.length_nil]
    have := Nat.mul_le_mul_right (node.size + definitions.size) (definitions.unexpanded_le names)
    omega
  · rintro ⟨names', m, hreach, hm⟩
    exact defaultWithin_eq_none_of_reaches hreach hm _

/-! ## Nodes that are built into themselves -/

/-- A step leads to a smaller node, unless it is from a selector whose first alternative is nothing but
a name. -/
theorem Embeds.size_lt_or {n m : Node} (h : Embeds definitions convert n m) :
    m.size < n.size ∨ ∃ d key name xs, n = .selector d (⟨key, .reference name⟩ :: xs) := by
  cases h with
  | element hm => exact .inl (Node.Part.element hm).size_lt
  | field hf _ => exact .inl (Node.Part.field hf).size_lt
  | @alternative d a xs =>
    by_cases hname : ∃ name, a.node = .reference name
    · obtain ⟨key, node⟩ := a
      obtain ⟨name, rfl⟩ := hname
      exact .inr ⟨d, key, name, xs, rfl⟩
    · rw [Alternative.target_eq fun name h => hname ⟨name, h⟩]
      exact .inl (Node.Part.alternative List.mem_cons_self).size_lt

theorem Embeds.path_cases {n m : Node} (h : TransGen (Embeds definitions convert) n m) :
    m.size < n.size ∨ ∃ d key name xs,
      ReflTransGen (Embeds definitions convert) n (.selector d (⟨key, .reference name⟩ :: xs)) ∧
      TransGen (Embeds definitions convert) (.selector d (⟨key, .reference name⟩ :: xs)) m := by
  induction h using TransGen.head_induction_on with
  | single h =>
    rcases h.size_lt_or with hlt | ⟨d, key, name, xs, rfl⟩
    · exact .inl hlt
    · exact .inr ⟨d, key, name, xs, .refl, .single h⟩
  | head h hrest ih =>
    rcases ih with hlt | ⟨d, key, name, xs, hto, hfrom⟩
    · rcases h.size_lt_or with hlt' | ⟨d, key, name, xs, rfl⟩
      · exact .inl (Nat.lt_trans hlt hlt')
      · exact .inr ⟨d, key, name, xs, .refl, .head h hrest⟩
    · exact .inr ⟨d, key, name, xs, .head h hto, hfrom⟩

/-- **A node is built into itself only through a selector whose first alternative is a name**, which is
built into itself, too. -/
theorem Embeds.loop_cases {m : Node} (h : TransGen (Embeds definitions convert) m m) :
    ∃ d key name xs,
      ReflTransGen (Embeds definitions convert) m (.selector d (⟨key, .reference name⟩ :: xs)) ∧
      TransGen (Embeds definitions convert) (.selector d (⟨key, .reference name⟩ :: xs))
        (.selector d (⟨key, .reference name⟩ :: xs)) := by
  rcases path_cases h with hlt | ⟨d, key, name, xs, hto, hfrom⟩
  · exact absurd hlt (Nat.lt_irrefl _)
  · exact ⟨d, key, name, xs, hto, hfrom.trans_left hto⟩

end Expansion

end Conformance
