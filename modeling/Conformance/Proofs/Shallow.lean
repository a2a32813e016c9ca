import Conformance.Proofs.Selection

/-!
# Shallow values are not refused for their depth

A grading takes one level for each value on the way to a part and one for each name that it passes there. At one
value no name is passed twice where no chain of bare names leads back to its start, so a value needs no more
levels than it nests values, times one more than there are names.

* `Value.nesting` — how many values stand one inside the other.
* `HasRoom` — the levels that are left are enough for the value, with the names that have been passed at it.
* `HasRoom.step` — they are enough then for every grading whose findings are handed on.
* `HasRoom.not_exhausted` — so no grading that leads there runs out of levels.
* `Suite.compare_not_exhausted` — comparisons with the bodies of accepted suites.
-/

set_option autoImplicit false

namespace Conformance

open Relation (TransGen)

/-! ## Nesting -/

namespace Value

mutual

/-- How many values stand one inside the other at most, from the value itself on. -/
def nesting : Value → Nat
  | .array items => nestingItems items + 1
  | .map entries => nestingEntries entries + 1
  | _ => 1

/-- The nesting of the deepest item. -/
def nestingItems : List Value → Nat
  | [] => 0
  | v :: vs => max v.nesting (nestingItems vs)

/-- The nesting of the deepest value at a key. -/
def nestingEntries : List (String × Value) → Nat
  | [] => 0
  | (_, v) :: rest => max v.nesting (nestingEntries rest)

end

theorem nesting_pos (v : Value) : 0 < v.nesting := by
  cases v <;> simp [nesting]

theorem nesting_lt_of_item {items : List Value} {v : Value} (h : v ∈ items) :
    v.nesting < (array items).nesting := by
  rw [nesting, Nat.lt_succ_iff]
  induction items with
  | nil => cases h
  | cons w items ih =>
    rw [nestingItems]
    rcases List.mem_cons.1 h with rfl | h
    · exact Nat.le_max_left _ _
    · exact Nat.le_trans (ih h) (Nat.le_max_right _ _)

theorem nesting_lt_of_entry {entries : List (String × Value)} {e : String × Value} (h : e ∈ entries) :
    e.2.nesting < (map entries).nesting := by
  rw [nesting, Nat.lt_succ_iff]
  induction entries with
  | nil => cases h
  | cons d entries ih =>
    rw [nestingEntries]
    rcases List.mem_cons.1 h with rfl | h
    · exact Nat.le_max_left _ _
    · exact Nat.le_trans (ih h) (Nat.le_max_right _ _)

end Value

/-! ## Enough levels -/

/-- The names that have been passed at the value lead on to the node if that is a name, too, and the levels that
are left are enough for the names that have not been passed and for the values inside. -/
structure HasRoom (definitions : Definitions) (levels : Nat) (passed : List String) (node : Node)
    (v : Value) : Prop where
  leads : ∀ name ∈ passed, ∀ next, node = .reference next → TransGen definitions.Bare name next
  levels : v.nesting * (definitions.length + 1) + definitions.unexpanded passed ≤
    levels + definitions.length

namespace HasRoom

variable {definitions : Definitions} {levels maxDepth : Nat} {passed : List String} {node : Node}
  {v : Value}

/-- Before any name has been passed. -/
theorem of_nesting (h : v.nesting * (definitions.length + 1) ≤ levels) :
    HasRoom definitions levels [] node v where
  leads := by simp
  levels := Nat.add_le_add h (definitions.unexpanded_le [])

theorem levels_pos (h : HasRoom definitions levels passed node v) : 0 < levels := by
  have hone := Nat.mul_le_mul_right (definitions.length + 1) v.nesting_pos
  have henough := h.levels
  omega

/-- A value inside takes a level and starts anew with the names. -/
theorem inside {w : Value} {n : Node} (h : HasRoom definitions (levels + 1) passed node v)
    (hw : w.nesting < v.nesting) : HasRoom definitions levels [] n w := by
  have hnesting := Nat.mul_le_mul_right (definitions.length + 1) hw
  rw [Nat.succ_mul] at hnesting
  have henough := h.levels
  exact .of_nesting (by omega)

/-- A name takes a level and is one that had not been passed. -/
theorem name {name : String} {n : Node} (hacyclic : definitions.Acyclic)
    (h : HasRoom definitions (levels + 1) passed (.reference name) v)
    (hn : n ∈ definitions.nodes name) : HasRoom definitions levels (name :: passed) n v := by
  have hleads : definitions.Leads passed (.reference name) := h.leads
  refine ⟨hleads.cons hn, ?_⟩
  have hlt := hleads.unexpanded_lt hacyclic hn
  have henough := h.levels
  omega

/-- **Where there is room for a grading, there is room for those whose findings it hands on.** -/
theorem step (hacyclic : definitions.Acyclic)
    (hnode : node.WellFormed definitions maxDepth) {names names' : List String} {step? : Option Step}
    {n : Node} {w : Value} (h : HasRoom definitions (levels + 1) passed node v)
    (hd : Descends definitions levels names node v step? names' n w) :
    ∃ passed', HasRoom definitions levels passed' n w := by
  have hfield : ∀ {fields entries step}, MapDescends fields entries step n w →
      w.nesting < (Value.map entries).nesting := by
    intro fields entries step hd
    obtain ⟨-, hget, -⟩ := hd
    exact Value.nesting_lt_of_entry (Entries.mem_of_get? hget)
  cases hd with
  | item _ hw => exact ⟨[], h.inside (Value.nesting_lt_of_item (List.mem_of_getElem? hw))⟩
  | map hd => exact ⟨[], h.inside (hfield hd)⟩
  | entry he => exact ⟨[], h.inside (Value.nesting_lt_of_entry he)⟩
  | alternative _ _ hd => exact ⟨[], h.inside (hfield hd)⟩
  | other ha hnone =>
    -- Each alternative of a selector that is well formed leads to a map.
    obtain ⟨-, -, hall⟩ := hnode
    obtain ⟨-, fields, hfields, -⟩ := hall _ (Alternative.mem_of_chosen? ha)
    rw [((hfields fields).2 rfl).resolveMap?] at hnone
    cases hnone
  | variant hnodes _ =>
    exact ⟨_, h.name hacyclic (hnodes ▸ List.mem_append_cons_self)⟩

end HasRoom

/-! ## No grading runs out -/

/-- No node reports by itself that the levels are used up. -/
theorem Node.Reports.ne_depthExceeded {definitions : Definitions} {levels : Nat} {names : List String}
    {node : Node} {v : Value} {f : Finding} (h : node.Reports definitions levels names v f) :
    f.reason ≠ .depthExceeded := by
  have hmap : ∀ {inside fields kept entries}, MapReports inside fields kept entries f →
      f.reason ≠ .depthExceeded := by
    intro inside fields kept entries h
    cases h <;> exact Reason.noConfusion
  cases h with
  | map h => exact hmap h
  | alternative _ _ h => exact hmap h
  | _ => exact Reason.noConfusion

/-- **A grading that has room does not run out of levels.** -/
theorem HasRoom.not_exhausted {definitions : Definitions} {maxDepth : Nat}
    (hacyclic : definitions.Acyclic) {levels : Nat} {passed names : List String} {node : Node} {v : Value}
    (hnode : definitions.Everywhere (fun n => n.WellFormed definitions maxDepth) node)
    (h : HasRoom definitions levels passed node v) {g : Grading}
    (hg : grade definitions levels names node v = some g) : ∀ f ∈ g.findings, f.reason ≠ .depthExceeded := by
  induction levels generalizing passed names node v g with
  | zero => exact absurd h.levels_pos (Nat.lt_irrefl 0)
  | succ levels ih =>
    intro f hf
    rcases grade_findings hg hf with hreports | ⟨step?, names', n, w, g', f', hd, hg', hf', rfl⟩
    · exact hreports.ne_depthExceeded
    · obtain ⟨passed', hroom⟩ := h.step hacyclic hnode.self hd
      rw [Finding.reason_outward]
      exact ih (hd.asks.everywhere hnode) hroom hg' f' hf'

/-- **Shallow values are not refused for their depth.** Take an accepted suite and a value that nests so few
values that this number, times one more than there are defined names, does not exceed the limit. Then no
finding of a comparison with a body of the suite is that the limit has been exceeded. -/
theorem Suite.compare_not_exhausted {text : String} {depth : Nat} {s : Suite}
    (hs : Suite.ofText text depth = .ok s) {name : String} {direction : Direction} {node : Node}
    (hbody : s.body name direction = .ok node) {maxDepth : Nat} {v : Value}
    (hnesting : v.nesting * (s.definitions.length + 1) ≤ maxDepth) {g : Grading}
    (h : Conformance.compare s.definitions maxDepth node v = some g) :
    ∀ f ∈ g.findings, f.reason ≠ .depthExceeded := by
  have hwell := Suite.wellFormed_of_text hs
  exact (HasRoom.of_nesting hnesting).not_exhausted hwell.acyclic (hwell.everywhere hbody) h

/-- One array in another takes six levels where two names stand before each. -/
theorem Suite.compare_not_exhausted_nested :
    let s : Suite := { resources := [("r", ⟨"r", .put, .reference "a", .any⟩)],
                       definitions := [("a", [.reference "b"]), ("b", [.array [.reference "a"] .repeating])] }
    let v : Value := .array [.array []]
    Suite.ofText "%% r >> &a\n&a = &b\n&b = [&a, ...]" = .ok s ∧
    s.body "r" .request = .ok (.reference "a") ∧ v.nesting * (s.definitions.length + 1) ≤ 6 ∧
    ∃ g, Conformance.compare s.definitions 6 (.reference "a") v = some g ∧
      ∀ f ∈ g.findings, f.reason ≠ .depthExceeded := by
  intro s v
  have hs : Suite.ofText "%% r >> &a\n&a = &b\n&b = [&a, ...]" = .ok s := rfl
  have hbody : s.body "r" .request = .ok (.reference "a") := rfl
  have hnesting : v.nesting * (s.definitions.length + 1) ≤ 6 := by decide
  obtain ⟨g, hg⟩ : ∃ g, Conformance.compare s.definitions 6 (.reference "a") v = some g := ⟨_, rfl⟩
  exact ⟨hs, hbody, hnesting, g, hg, compare_not_exhausted hs hbody hnesting hg⟩

/-- No fewer levels are enough for it. -/
example :
    let definitions : Definitions := [("a", [.reference "b"]), ("b", [.array [.reference "a"] .repeating])]
    (compare definitions 5 (.reference "a") (.array [.array []])).map Grading.findings =
      some [⟨[.index 0], .depthExceeded⟩] := rfl

end Conformance
