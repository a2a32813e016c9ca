import Conformance.Proofs.Matching
import Conformance.Proofs.Resolution

/-!
# The walk along names is exact

An alternative of a selector may be a name that stands for a name, and so on. The map at the end is looked for by a
walk with a bound: it takes one turn more than there are names. The names are followed here without a bound, and the
walk is shown to find the map where they end in one, and to come back empty-handed otherwise.

* `Definitions.walk` — the walk turn by turn; `Definitions.walk_succ` says that it is `Definitions.resolveWithin?`.
* `Definitions.Follows` — a name that stands for one node leads to that node.
* `Definitions.DeadEnd` — a node that is neither a map nor leads on.
* `Definitions.follows_ends` — from every node the names lead to a map, to a dead end or round a circle.
* `Definitions.rising` — names in a row, for which every turn is needed.
* `Definitions.walk_exact` — what the walk finds, wherever it is used.
-/

set_option autoImplicit false

namespace Conformance

open Relation (ReflTransGen TransGen)

namespace Definitions

/-! ## The walk -/

/-- The walk along names: each turn looks at one node, and goes on where it is a name with just one definition. -/
def walk (definitions : Definitions) : Nat → Node → Option (List (Field Node))
  | 0, _ => none
  | turns + 1, node =>
    match node with
    | .map fields => some fields
    | .reference name =>
      match Entries.get? definitions name with
      | some [next] => walk definitions turns next
      | _ => none
    | _ => none

variable {definitions : Definitions}

/-- So many names are passed in one turn more. -/
theorem walk_succ (steps : Nat) (node : Node) :
    definitions.walk (steps + 1) node = definitions.resolveWithin? steps node := by
  induction steps generalizing node with
  | zero =>
    cases node with
    | reference name =>
      simp only [walk, resolveWithin?]
      split <;> rfl
    | _ => rfl
  | succ steps ih =>
    cases node with
    | reference name =>
      rw [walk, resolveWithin?, nodes]
      cases hget : Entries.get? definitions name with
      | none => rfl
      | some ns =>
        cases ns with
        | nil => rfl
        | cons n ns =>
          cases ns with
          | nil => exact ih n
          | cons m ns => rfl
    | _ => rfl

/-! ## Following names without a bound -/

/-- The first node is a name that stands for the second node and for no other. -/
def Follows (definitions : Definitions) (node next : Node) : Prop :=
  ∃ name, node = .reference name ∧ definitions.nodes name = [next]

/-- The node is no map, and there is no one node that it leads to. -/
inductive DeadEnd (definitions : Definitions) : Node → Prop where
  /-- The node is neither a map nor a name. -/
  | other {node : Node} : (∀ fields, node ≠ .map fields) → (∀ name, node ≠ .reference name) → DeadEnd definitions node
  | undefined {name : String} : definitions.nodes name = [] → DeadEnd definitions (.reference name)
  | several {name : String} {first second : Node} {rest : List Node} :
    definitions.nodes name = first :: second :: rest → DeadEnd definitions (.reference name)

theorem Follows.unique {node next other : Node} (h : definitions.Follows node next)
    (h' : definitions.Follows node other) : next = other := by
  obtain ⟨name, rfl, hnext⟩ := h
  obtain ⟨name', hname, hother⟩ := h'
  cases hname
  rw [hnext] at hother
  exact List.cons.inj hother |>.1

theorem not_follows_map {fields : List (Field Node)} {next : Node} : ¬ definitions.Follows (.map fields) next := by
  rintro ⟨name, hname, -⟩
  cases hname

theorem DeadEnd.not_follows {node next : Node} (h : definitions.DeadEnd node) : ¬ definitions.Follows node next := by
  rintro ⟨name, rfl, hnodes⟩
  cases h with
  | other _ hname => exact hname name rfl
  | undefined hnil => simp [hnil] at hnodes
  | several hcons => simp [hcons] at hnodes

/-- A node is a map, a dead end, or leads on. -/
theorem map_or_deadEnd_or_follows (definitions : Definitions) (node : Node) :
    (∃ fields, node = .map fields) ∨ definitions.DeadEnd node ∨ ∃ next, definitions.Follows node next := by
  cases node with
  | map fields => exact .inl ⟨fields, rfl⟩
  | reference name =>
    right
    match hnodes : definitions.nodes name with
    | [] => exact .inl (.undefined hnodes)
    | [next] => exact .inr ⟨next, name, rfl, hnodes⟩
    | first :: second :: rest => exact .inl (.several hnodes)
  | _ => exact .inr (.inl (.other (by intro fields; nofun) (by intro name; nofun)))

/-- Following names to a map is what the chains of names say that have a length. -/
theorem follows_map_iff {node : Node} {fields : List (Field Node)} :
    ReflTransGen definitions.Follows node (.map fields) ↔ definitions.MapOf node fields := by
  constructor
  · intro h
    induction h using ReflTransGen.head_induction_on with
    | refl => exact ⟨0, .map⟩
    | head hstep _ ih =>
      obtain ⟨name, rfl, hnodes⟩ := hstep
      obtain ⟨n, hn⟩ := ih
      exact ⟨n + 1, .reference hnodes hn⟩
  · rintro ⟨n, h⟩
    induction h with
    | map => exact .refl
    | reference hnodes _ ih => exact .head ⟨_, rfl, hnodes⟩ ih

/-! ## Where the names lead -/

/-- All that is met on the way round a circle, and on from there, leads back to where the circle was entered. -/
theorem leads_back {node other : Node} (hcircle : TransGen definitions.Follows node node)
    (h : ReflTransGen definitions.Follows node other) : TransGen definitions.Follows other node := by
  induction h with
  | refl => exact hcircle
  | tail _ hstep ih =>
    -- the circle goes on in the only way there is
    obtain ⟨next, hnext, hback⟩ := TransGen.head'_iff.1 ih
    obtain rfl := hnext.unique hstep
    exact TransGen.trans_right hback hcircle

/-- Where nothing follows, no circle has been met. -/
theorem not_circle_of_ends {node last : Node} (h : ReflTransGen definitions.Follows node last)
    (hlast : ∀ next, ¬ definitions.Follows last next) {m : Node}
    (hm : ReflTransGen definitions.Follows node m) : ¬ TransGen definitions.Follows m m := by
  intro hcircle
  have htotal := ReflTransGen.total_of_right_unique (fun _ _ _ h h' => h.unique h') h hm
  have hmlast : ReflTransGen definitions.Follows m last := by
    rcases htotal with hlm | hml
    · rcases ReflTransGen.cases_head hlm with rfl | ⟨next, hnext, -⟩
      · exact .refl
      · exact absurd hnext (hlast next)
    · exact hml
  obtain ⟨next, hnext, -⟩ := TransGen.head'_iff.1 (leads_back hcircle hmlast)
  exact hlast next hnext

/-- Names lead to one end only. -/
theorem ends_unique {node last other : Node} (h : ReflTransGen definitions.Follows node last)
    (hlast : ∀ next, ¬ definitions.Follows last next) (h' : ReflTransGen definitions.Follows node other)
    (hother : ∀ next, ¬ definitions.Follows other next) : last = other := by
  rcases ReflTransGen.total_of_right_unique (fun _ _ _ h h' => h.unique h') h h' with hlo | hol
  · rcases ReflTransGen.cases_head hlo with rfl | ⟨next, hnext, -⟩
    · rfl
    · exact absurd hnext (hlast next)
  · rcases ReflTransGen.cases_head hol with rfl | ⟨next, hnext, -⟩
    · rfl
    · exact absurd hnext (hother next)

/-- Below names that have been passed, each name that is passed is a new one, unless the walk has come back to one of
them. The induction is on the number of names that are left. -/
theorem follows_ends_below (names : List String) (node : Node)
    (hnames : ∀ name ∈ names, TransGen definitions.Follows (.reference name) node) :
    (∃ fields, ReflTransGen definitions.Follows node (.map fields)) ∨
      ∃ m, ReflTransGen definitions.Follows node m ∧ (definitions.DeadEnd m ∨ TransGen definitions.Follows m m) := by
  induction hleft : definitions.unexpanded names using Nat.strong_induction_on generalizing names node with
  | _ left ih =>
    subst hleft
    rcases definitions.map_or_deadEnd_or_follows node with ⟨fields, rfl⟩ | hdead | ⟨next, name, rfl, hnodes⟩
    · exact .inl ⟨fields, .refl⟩
    · exact .inr ⟨node, .refl, .inl hdead⟩
    · have hstep : definitions.Follows (.reference name) next := ⟨name, rfl, hnodes⟩
      by_cases hmem : name ∈ names
      · exact .inr ⟨_, .refl, .inr (hnames name hmem)⟩
      · have hpassed : ∀ other ∈ name :: names, TransGen definitions.Follows (.reference other) next := by
          intro other hother
          rcases List.mem_cons.1 hother with rfl | hother
          · exact .single hstep
          · exact .tail (hnames other hother) hstep
        rcases ih _ (unexpanded_cons_lt hmem hnodes) _ next hpassed rfl with ⟨fields, hmap⟩ | ⟨m, hm, hend⟩
        · exact .inl ⟨fields, .head hstep hmap⟩
        · exact .inr ⟨m, .head hstep hm, hend⟩

/-- **From every node the names lead to a map, to a dead end or round a circle.** -/
theorem follows_ends (definitions : Definitions) (node : Node) :
    (∃ fields, ReflTransGen definitions.Follows node (.map fields)) ∨
      ∃ m, ReflTransGen definitions.Follows node m ∧ (definitions.DeadEnd m ∨ TransGen definitions.Follows m m) :=
  follows_ends_below [] node (by simp)

/-! ## Names in a row -/

/-- The name of so many letters. -/
def risingName (n : Nat) : String := String.ofList (List.replicate n 'a')

/-- What the name of one letter more stands for: the name, or a map where it has no letters. -/
def risingNode : Nat → Node
  | 0 => .map []
  | n + 1 => .reference (risingName (n + 1))

/-- So many names, each of which stands for the one before it, and the first for a map. -/
def rising (count : Nat) : Definitions :=
  (List.range count).map fun n => (risingName (n + 1), [risingNode n])

theorem risingName_lt {m n : Nat} (h : m < n) : risingName m < risingName n := by
  obtain ⟨k, rfl⟩ := Nat.exists_eq_add_of_lt h
  have hlex : List.replicate m 'a' < List.replicate (m + k + 1) 'a' := by
    induction m with
    | zero => simp [List.replicate_succ]
    | succ m ih =>
      rw [Nat.add_right_comm m 1 k, List.replicate_succ, List.replicate_succ]
      exact List.Lex.cons (ih (by omega))
  show (risingName m).toList < (risingName (m + k + 1)).toList
  simpa [risingName] using hlex

theorem rising_sorted (count : Nat) : Entries.Sorted (rising count) := by
  refine List.pairwise_map.2 (List.pairwise_lt_range.imp ?_)
  intro m n hlt
  exact risingName_lt (Nat.succ_lt_succ hlt)

theorem get?_rising {count n : Nat} (h : n < count) :
    Entries.get? (rising count) (risingName (n + 1)) = some [risingNode n] :=
  Entries.get?_of_mem (e := (risingName (n + 1), [risingNode n])) (rising_sorted count).nodup_keys
    (List.mem_map.2 ⟨n, List.mem_range.2 h, rfl⟩)

/-- So many turns are too few for so many names in a row, and one more is enough. -/
theorem walk_rising {count n : Nat} (h : n ≤ count) :
    walk (rising count) n (risingNode n) = none ∧ walk (rising count) (n + 1) (risingNode n) = some [] := by
  induction n with
  | zero => exact ⟨rfl, rfl⟩
  | succ n ih =>
    obtain ⟨hfew, henough⟩ := ih (by omega)
    have hget : Entries.get? (rising count) (risingName (n + 1)) = some [risingNode n] := get?_rising (by omega)
    constructor
    · simp only [risingNode, walk, hget]
      exact hfew
    · rw [risingNode, walk]
      simp only [hget]
      exact henough

/-! ## What the walk finds -/

theorem walk_eq_some_iff {node : Node} {fields : List (Field Node)} :
    definitions.walk (definitions.length + 1) node = some fields ↔
      ReflTransGen definitions.Follows node (.map fields) := by
  rw [walk_succ, follows_map_iff]
  exact resolveMap?_iff

theorem walk_eq_none_iff {node : Node} : definitions.walk (definitions.length + 1) node = none ↔
    ∃ m, ReflTransGen definitions.Follows node m ∧ (definitions.DeadEnd m ∨ TransGen definitions.Follows m m) := by
  constructor
  · intro hnone
    rcases definitions.follows_ends node with ⟨fields, hmap⟩ | hend
    · rw [walk_eq_some_iff.2 hmap] at hnone
      cases hnone
    · exact hend
  · rintro ⟨m, hm, hend⟩
    rw [Option.eq_none_iff_forall_ne_some]
    intro fields hsome
    have hmap := walk_eq_some_iff.1 hsome
    rcases hend with hdead | hcircle
    · obtain rfl := ends_unique hmap (fun _ => not_follows_map) hm (fun _ => hdead.not_follows)
      cases hdead with
      | other hmap _ => exact hmap fields rfl
    · exact not_circle_of_ends hmap (fun _ => not_follows_map) hm hcircle

theorem checkAlternative_notMap_iff {discriminant : String} {position : Position} {a : Alternative Node} :
    checkAlternative definitions discriminant position a =
        .error (.structural .selectorAlternativeNotMap none position) ↔
      definitions.resolveMap? a.node = none := by
  unfold checkAlternative
  cases definitions.resolveMap? a.node with
  | none => simp
  | some fields =>
    simp only [reduceCtorEq, iff_false]
    split
    · exact nofun
    · split
      · simp
      · split <;> simp

/-- **The bounded walk along names is exact.** With one turn more than there are names, it finds a map just where the
names lead to that map, however many they are. It finds none just where they lead to a node of another sort, to a name
without a definition or with several, or round a circle; there is no other way for it to go. The reader, which refuses
an alternative of a selector that is no map, and a comparison, which looks up the map of the alternative that a value
chooses, find the same. No turn can be left out: for any number of names, there are definitions for which the walk
needs all of its turns. -/
theorem walk_exact :
    (∀ (definitions : Definitions) (node : Node),
      (∀ fields, definitions.walk (definitions.length + 1) node = some fields ↔
        ReflTransGen definitions.Follows node (.map fields)) ∧
      (definitions.walk (definitions.length + 1) node = none ↔
        ∃ m, ReflTransGen definitions.Follows node m ∧
          (definitions.DeadEnd m ∨ TransGen definitions.Follows m m)) ∧
      definitions.resolveMap? node = definitions.walk (definitions.length + 1) node) ∧
    (∀ (definitions : Definitions) (discriminant : String) (a : Alternative Node),
      (∀ position, checkAlternative definitions discriminant position a =
          .error (.structural .selectorAlternativeNotMap none position) ↔
        definitions.walk (definitions.length + 1) a.node = none) ∧
      ∀ inside alternatives entries, Alternative.chosen? alternatives discriminant entries = some a →
        gradeSelector definitions inside discriminant alternatives (.map entries) =
          match definitions.walk (definitions.length + 1) a.node with
          | some fields => gradeMap inside fields (some discriminant) (.map entries)
          | none => inside.grade a.node (.map entries)) ∧
    ∀ count, ∃ (definitions : Definitions) (node : Node) (fields : List (Field Node)),
      Entries.Sorted definitions ∧ definitions.length = count ∧
      definitions.walk count node = none ∧ definitions.walk (count + 1) node = some fields := by
  have hwalk : ∀ (definitions : Definitions) (node : Node),
      definitions.resolveMap? node = definitions.walk (definitions.length + 1) node := by
    intro definitions node
    exact (walk_succ _ node).symm
  refine ⟨?_, ?_, ?_⟩
  · intro definitions node
    exact ⟨fun fields => walk_eq_some_iff, walk_eq_none_iff, hwalk definitions node⟩
  · intro definitions discriminant a
    refine ⟨fun position => ?_, fun inside alternatives entries ha => ?_⟩
    · rw [← hwalk]
      exact checkAlternative_notMap_iff
    · rw [← hwalk]
      exact gradeSelector_of_chosen ha
  · intro count
    obtain ⟨hfew, henough⟩ := walk_rising (Nat.le_refl count)
    exact ⟨rising count, risingNode count, [], rising_sorted count, by simp [rising], hfew, henough⟩

/-- A circle that does not go through its entrance, and two names in a row beside it. A selector that chooses the
entrance is refused by the reader. -/
theorem walk_exact_circle :
    let definitions : Definitions := [("a", [.reference "b"]), ("b", [.reference "c"]), ("c", [.reference "b"]),
      ("d", [.reference "e"]), ("e", [.map []])]
    (∃ m, ReflTransGen definitions.Follows (.reference "a") m ∧
      (definitions.DeadEnd m ∨ TransGen definitions.Follows m m)) ∧
    ReflTransGen definitions.Follows (.reference "d") (.map []) ∧
    checkAlternative definitions "k" {} ⟨.integer 1, .reference "a"⟩ =
      .error (.structural .selectorAlternativeNotMap none {}) := by
  intro definitions
  obtain ⟨-, hnone, -⟩ := walk_exact.1 definitions (.reference "a")
  obtain ⟨hsome, -, -⟩ := walk_exact.1 definitions (.reference "d")
  obtain ⟨hcheck, -⟩ := walk_exact.2.1 definitions "k" ⟨.integer 1, .reference "a"⟩
  have hcircle : definitions.walk (definitions.length + 1) (.reference "a") = none := by rfl
  exact ⟨hnone.1 hcircle, (hsome []).1 (by rfl), (hcheck {}).2 hcircle⟩

end Definitions

end Conformance
