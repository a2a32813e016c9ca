import Conformance.Proofs.Completion
import Conformance.Proofs.SharedState
import Mathlib.Algebra.Order.Floor.Div

/-!
# Patterns that repeat

A pattern of element nodes is gone through again and again until all items of an array have a node and the pattern
is complete. That comes to the array of the nodes of all its repetitions.

* `cycle` — so many members of a list that begins again where it ends.
* `ArraySize.paddedLength` — how many element nodes there are for so many items.
* `ArraySize.cycle_eq_unroll` — going through the pattern again and again gives its repetitions.
* `Matcher.gradeCycling` — the loop over an array with one matcher.
* `length_repetitions_isLeast` — the repetitions are as many as the items need.
* `repeating_unrolled` — a pattern grades an array like the array of its repetitions, and drops no item.
-/

set_option autoImplicit false

namespace Conformance

/-! ## Going through a pattern -/

/-- So many members of a list that begins again where it ends. The second list is what is left of it in the current
round. -/
def cycle {α : Type} (all : List α) : Nat → List α → List α
  | 0, _ => []
  | n + 1, a :: rest => a :: cycle all n rest
  | n + 1, [] =>
    match all with
    | [] => []
    | a :: rest => a :: cycle all n rest

/-- How many element nodes there are for an array of so many items: a pattern is gone through to its end. -/
def ArraySize.paddedLength (size : ArraySize) (nodes items : Nat) : Nat :=
  match size with
  | .exact => nodes
  | .repeating => (items + nodes - 1) / nodes * nodes

/-- A list so many times over. -/
def repetitions {α : Type} (k : Nat) (l : List α) : List α := (List.replicate k l).flatten

section Cycles

variable {α : Type}

/-- A round that has begun is gone through to its end, and then the next one. -/
theorem cycle_append (all rest : List α) (n : Nat) :
    cycle all (rest.length + n) rest = rest ++ cycle all n [] := by
  induction rest with
  | nil => rw [List.length_nil, Nat.zero_add, List.nil_append]
  | cons a rest ih =>
    rw [List.length_cons, Nat.add_right_comm, cycle, ih, List.cons_append]

theorem cycle_nil {all : List α} (hne : all ≠ []) (n : Nat) : cycle all n [] = cycle all n all := by
  cases n with
  | zero => rw [cycle, cycle]
  | succ n =>
    obtain ⟨a, rest, rfl⟩ := List.exists_cons_of_ne_nil hne
    rfl

/-- Whole rounds are repetitions. -/
theorem cycle_rounds {all : List α} (hne : all ≠ []) (k : Nat) :
    cycle all (k * all.length) all = repetitions k all := by
  induction k with
  | zero => rw [Nat.zero_mul, cycle]; rfl
  | succ k ih =>
    rw [Nat.succ_mul, Nat.add_comm, cycle_append, cycle_nil hne, ih]
    rfl

/-- One round of an array of its own length. -/
theorem cycle_self (all : List α) : cycle all all.length all = all := by
  have hround := cycle_append all all 0
  rwa [Nat.add_zero, cycle, List.append_nil] at hround

theorem length_repetitions (k : Nat) (l : List α) : (repetitions k l).length = k * l.length := by
  simp [repetitions]

/-- Each member comes up at its place in every round. -/
theorem getElem?_repetitions {k i : Nat} {l : List α} (hi : i < k * l.length) :
    (repetitions k l)[i]? = l[i % l.length]? := by
  induction k generalizing i with
  | zero => omega
  | succ k ih =>
    have hsplit : repetitions (k + 1) l = l ++ repetitions k l := rfl
    rw [hsplit]
    rcases Nat.lt_or_ge i l.length with hlt | hge
    · rw [List.getElem?_append_left hlt, Nat.mod_eq_of_lt hlt]
    · rw [Nat.succ_mul] at hi
      rw [List.getElem?_append_right hge, ih (by omega), Nat.mod_eq_sub_mod hge]

/-- The repetitions of a pattern are the shortest whole number of them that is long enough. -/
theorem length_repetitions_isLeast {l : List α} (hne : l ≠ []) (m : Nat) :
    IsLeast {k | l.length ∣ k ∧ m ≤ k} (repetitions (m ⌈/⌉ l.length) l).length := by
  have hpos : 0 < l.length := List.length_pos_iff.2 hne
  rw [length_repetitions, Nat.mul_comm]
  refine ⟨⟨Nat.dvd_mul_right _ _, le_smul_ceilDiv hpos⟩, ?_⟩
  rintro k ⟨⟨q, rfl⟩, hm⟩
  exact Nat.mul_le_mul_left _ ((ceilDiv_le_iff_le_mul hpos).2 hm)

end Cycles

/-- Without items there are no repetitions, and only then. -/
theorem eq_nil_of_repetitions {α β : Type} {l : List α} {items : List β} (hne : l ≠ [])
    (h : repetitions (items.length ⌈/⌉ l.length) l = []) : items = [] := by
  have hle := (length_repetitions_isLeast hne items.length).1.2
  rw [h] at hle
  exact List.length_eq_zero_iff.1 (Nat.le_zero.1 hle)

namespace ArraySize

/-- **Going through the element nodes again and again** comes to what they are unrolled to. -/
theorem cycle_eq_unroll (size : ArraySize) {elements : List Node} (hne : elements ≠ []) (items : Nat) :
    cycle elements (size.paddedLength elements.length items) elements = size.unroll elements items := by
  cases size with
  | exact => exact cycle_self elements
  | repeating => exact cycle_rounds hne _

theorem paddedLength_eq (size : ArraySize) {elements : List Node} (items : Nat) :
    size.paddedLength elements.length items = (size.unroll elements items).length := by
  cases size with
  | exact => rfl
  | repeating => exact (length_repetitions _ _).symm

theorem unroll_repeating (elements : List Node) (items : Nat) :
    repeating.unroll elements items = repetitions (items ⌈/⌉ elements.length) elements := rfl

end ArraySize

/-! ## Grading by a pattern -/

namespace Matcher

variable {definitions : Definitions} {attempt : Node → Value → Matching (Outcome × Value)}

/-- An attempt at an array as one loop over its element nodes, which are gone through again and again for as many
items as there are, and one over the items that are left. -/
def gradeCycling (definitions : Definitions) (attempt : Node → Value → Matching (Outcome × Value))
    (elements : List Node) (size : ArraySize) (v : Value) : Matching (Outcome × Value) :=
  match v with
  | .array items =>
    if elements.isEmpty then return (.matched, v)
    else do
      let padded := size.paddedLength elements.length items.length
      let nodes := cycle elements padded elements
      let parts ← each (gradeItem definitions attempt items) (nodes.zipIdx.map Prod.swap) (.matched, [])
      let parts ← each dropItem (List.range' padded (items.length - padded)) parts
      return close .array v parts
  | _ => decided (.wrongKind .array v.kind) v

/-- The loop attempts what unrolling the pattern attempts, whatever the attempts at items do. -/
theorem gradeCycling_eq (elements : List Node) (size : ArraySize) (v : Value) :
    gradeCycling definitions attempt elements size v = gradeArray definitions attempt elements size v := by
  unfold gradeCycling gradeArray
  cases v
  case array items =>
    dsimp only
    by_cases hne : elements = []
    · rw [hne]
      rfl
    · rw [ArraySize.cycle_eq_unroll size hne, ArraySize.paddedLength_eq]
  all_goals rfl

theorem gradeArray_repeating {elements : List Node} (hne : elements ≠ []) (items : List Value) :
    gradeArray definitions attempt elements .repeating (.array items) = gradeArray definitions attempt
      (repetitions (items.length ⌈/⌉ elements.length) elements) .exact (.array items) := by
  unfold gradeArray
  dsimp only
  rw [if_neg (mt List.isEmpty_iff.1 hne), ArraySize.unroll_repeating]
  by_cases hnone : repetitions (items.length ⌈/⌉ elements.length) elements = []
  · -- Without items there is nothing to go through, which is what an array without elements takes as it is.
    obtain rfl : items = [] := eq_nil_of_repetitions hne hnone
    rw [hnone]
    rfl
  · rw [if_neg (mt List.isEmpty_iff.1 hnone)]
    rfl

end Matcher

section Patterns

variable {inside : Inside} {elements : List Node} {items : List Value}

theorem gradeArray_of_ne_nil (hne : elements ≠ []) (size : ArraySize) :
    gradeArray inside elements size (.array items) =
      (gradeItems inside 0 (size.unroll elements items.length) items).map fun p => p.close .array (.array items) :=
  if_neg (mt List.isEmpty_iff.1 hne)

/-- A pattern grades an array as the array of its repetitions does. -/
theorem gradeArray_repeating (hne : elements ≠ []) : gradeArray inside elements .repeating (.array items) =
    gradeArray inside (repetitions (items.length ⌈/⌉ elements.length) elements) .exact (.array items) := by
  rw [gradeArray_of_ne_nil hne, ArraySize.unroll_repeating]
  by_cases hnone : repetitions (items.length ⌈/⌉ elements.length) elements = []
  · obtain rfl : items = [] := eq_nil_of_repetitions hne hnone
    rw [hnone]
    rfl
  · rw [gradeArray_of_ne_nil hnone]
    rfl

theorem grade_repeating {definitions : Definitions} (hne : elements ≠ []) (levels : Nat) (entered : List String) :
    grade definitions levels entered (.array elements .repeating) (.array items) =
      grade definitions levels entered
        (.array (repetitions (items.length ⌈/⌉ elements.length) elements) .exact) (.array items) := by
  cases levels with
  | zero => rfl
  | succ levels => rw [grade_array, grade_array, gradeArray_repeating hne]

/-- No grading reports of a value as a whole that an item was dropped. -/
theorem reason_ne_extraElement {definitions : Definitions} {levels : Nat} {names : List String} {node : Node}
    {v : Value} {g : Grading} (h : grade definitions levels names node v = some g) :
    ⟨[], .extraElement⟩ ∉ g.findings := by
  induction levels generalizing names node v g with
  | zero =>
    cases h
    simp [Grading.decided]
  | succ levels ih =>
    intro hf
    rcases grade_findings h hf with hown | ⟨step?, names', n, w, g', f', -, hg', hf', heq⟩
    · cases hown with
      | map hown => cases hown
      | alternative _ _ hown => cases hown
    · cases step? with
      | some step => cases heq
      | none => exact ih hg' (heq ▸ hf')

/-- What an array is converted to by enough element nodes: each item has its place, and none is dropped. -/
theorem gradeItems_keeps {definitions : Definitions} {levels : Nat} {names : List String} {nodes : List Node}
    {p : Parts Value} (h : gradeItems (.below definitions levels names) 0 nodes items = some p) (hvalid : p.outcome ≠ .incompatible)
    (henough : items.length ≤ nodes.length) :
    (∀ i, ⟨[.index i], .extraElement⟩ ∉ p.findings) ∧
    ∀ (i : Nat) item, items[i]? = some item → ∃ node g, nodes[i]? = some node ∧
      grade definitions levels names node item = some g ∧ g.outcome ≠ .incompatible ∧ p.pieces[i]? = some g.value := by
  constructor
  · intro i hf
    rcases gradeItems_findings h hf with ⟨j, n, v, g, f', -, -, hg, hf', heq⟩ | ⟨j, hge, hlt, -⟩ | ⟨j, -, -, heq⟩
    · obtain ⟨path, reason⟩ := f'
      cases heq
      exact reason_ne_extraElement hg hf'
    · omega
    · cases heq
  · intro i item hitem
    obtain ⟨hlength, hpieces⟩ := gradeItems_pieces h hvalid
    have hi : i < nodes.length := Nat.lt_of_lt_of_le (List.getElem?_eq_some_iff.1 hitem).1 henough
    have hnode : nodes[i]? = some nodes[i] := List.getElem?_eq_getElem hi
    have hpiece : p.pieces[i]? = some p.pieces[i] := List.getElem?_eq_getElem (hlength ▸ hi)
    rcases hpieces i _ _ hnode hpiece with ⟨v, g, hv, hg, hgvalid, hvalue⟩ | ⟨hnone, -⟩
    · obtain rfl := Option.some.inj (hitem.symm.trans hv)
      exact ⟨_, g, hnode, hg, hgvalid, hvalue ▸ hpiece⟩
    · rw [hitem] at hnone
      cases hnone

end Patterns

/-- **A pattern is the array of its repetitions**, as many of them as the items need: for the loop that goes through
the pattern again and again, for one matcher in any state, and for gradings. Unless it is refused, the array is
padded to the end of the last repetition, and every item is converted at its own place by the node that stands there
in the pattern. -/
theorem repeating_unrolled (definitions : Definitions) {elements : List Node} (hne : elements ≠ [])
    (items : List Value) :
    let unrolled := repetitions (items.length ⌈/⌉ elements.length) elements
    (∀ attempt, Matcher.gradeCycling definitions attempt elements .repeating (.array items) =
      Matcher.gradeCycling definitions attempt unrolled .exact (.array items)) ∧
    (∀ maxDepth (s : Matcher),
      (Matcher.grade definitions maxDepth (.array elements .repeating) (.array items)).run s =
        (Matcher.grade definitions maxDepth (.array unrolled .exact) (.array items)).run s) ∧
    ∀ levels entered,
      grade definitions levels entered (.array elements .repeating) (.array items) =
        grade definitions levels entered (.array unrolled .exact) (.array items) ∧
      ∀ g, grade definitions levels entered (.array elements .repeating) (.array items) = some g →
        g.outcome ≠ .incompatible → ∃ converted, g.value = .array converted ∧
          IsLeast {k | elements.length ∣ k ∧ items.length ≤ k} converted.length ∧
          (∀ i, ⟨[.index i], .extraElement⟩ ∉ g.findings) ∧
          ∀ (i : Nat) item, items[i]? = some item → ∃ node h, elements[i % elements.length]? = some node ∧
            grade definitions (levels - 1) entered node item = some h ∧ h.outcome ≠ .incompatible ∧
            converted[i]? = some h.value := by
  intro unrolled
  have hleast := length_repetitions_isLeast hne items.length
  refine ⟨fun attempt => ?_, fun maxDepth s => ?_, fun levels entered => ⟨grade_repeating hne levels entered, ?_⟩⟩
  · rw [Matcher.gradeCycling_eq, Matcher.gradeCycling_eq, Matcher.gradeArray_repeating hne]
  · rw [Matcher.run_grade, Matcher.run_grade, grade_repeating hne]
  · intro g hg hvalid
    cases levels with
    | zero =>
      cases hg
      exact absurd rfl hvalid
    | succ levels =>
      rw [grade_array] at hg
      rw [gradeArray_of_ne_nil hne, ArraySize.unroll_repeating] at hg
      obtain ⟨p, hp, rfl⟩ := Option.map_eq_some_iff.1 hg
      obtain ⟨hlength, -⟩ := gradeItems_pieces hp hvalid
      obtain ⟨hextra, hkept⟩ := gradeItems_keeps hp hvalid hleast.1.2
      refine ⟨p.pieces, if_neg hvalid, hlength ▸ hleast, hextra, fun i item hitem => ?_⟩
      obtain ⟨node, h, hnode, hrest⟩ := hkept i item hitem
      have hi := (List.getElem?_eq_some_iff.1 hnode).1
      rw [length_repetitions] at hi
      rw [getElem?_repetitions hi] at hnode
      exact ⟨node, h, hnode, hrest⟩

/-- Three items by a pattern of two nodes: the second round is filled up. -/
theorem repeating_unrolled_partial :
    let elements : List Node := [.primitive .integer, .primitive .string]
    let items : List Value := [.integer 1, .string "a", .boolean true]
    elements ≠ [] ∧ repetitions (items.length ⌈/⌉ elements.length) elements = elements ++ elements ∧
    ∃ g, grade [] 2 [] (.array elements .repeating) (.array items) = some g ∧
      grade [] 2 [] (.array (elements ++ elements) .exact) (.array items) = some g ∧
      g.value = .array [.integer 1, .string "a", .integer 1, .string ""] ∧
      IsLeast {k | 2 ∣ k ∧ 3 ≤ k} 4 ∧ ∀ i, ⟨[.index i], .extraElement⟩ ∉ g.findings := by
  intro elements items
  have hne : elements ≠ [] := List.cons_ne_nil _ _
  have hrounds : repetitions (items.length ⌈/⌉ elements.length) elements = elements ++ elements := by
    change repetitions (3 ⌈/⌉ 2) elements = _
    rw [Nat.ceilDiv_eq_add_pred_div]
    rfl
  obtain ⟨g, hg, hvalue, hvalid⟩ : ∃ g,
      grade [] 2 [] (.array (elements ++ elements) .exact) (.array items) = some g ∧
      g.value = .array [.integer 1, .string "a", .integer 1, .string ""] ∧ g.outcome ≠ .incompatible :=
    ⟨_, rfl, rfl, by decide +kernel⟩
  obtain ⟨-, -, hgrade⟩ := repeating_unrolled [] hne items
  obtain ⟨hsame, hvalid'⟩ := hgrade 2 []
  rw [hrounds, hg] at hsame
  obtain ⟨converted, hconverted, hleast, hextra, -⟩ := hvalid' g hsame hvalid
  obtain rfl := Value.array.inj (hvalue.symm.trans hconverted)
  exact ⟨hne, hrounds, g, hsame, hg, hvalue, hleast, hextra⟩

end Conformance
