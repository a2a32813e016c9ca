import Conformance.Proofs.Evolution

/-!
# Trees with the names written out

Where each name stands for one node and none comes back to itself, a tree with names can be written out as one
without them.

* `Node.expand`, `Definitions.expand` — the tree with each name replaced by what it stands for.
* `Unfolds` — the second tree is the first one written out, with so many levels and names one inside the other
  and with the names on the way told apart.
* `Unfolds.resolveMap?` — a chain of names leads to a map just where a map is written out in its place.
* `Definitions.Mentions` — the definition of one name mentions another.
* `Definitions.exists_unfolds` — where no name leads back to itself, all names can be written out.
* `Definitions.expand_reference` — a name is replaced by what it stands for, written out in turn.
-/

set_option autoImplicit false

namespace Conformance

open Relation (TransGen)

/-! ## Replacing names -/

namespace Node

mutual

/-- The tree with a node in the place of each name. -/
def expand (meaning : String → Node) : Node → Node
  | .array ns s => .array (expandAll meaning ns) s
  | .map fs => .map (expandFields meaning fs)
  | .dictionary n => .dictionary (n.expand meaning)
  | .selector d xs => .selector d (expandAlternatives meaning xs)
  | .reference name => meaning name
  | n => n

def expandAll (meaning : String → Node) : List Node → List Node
  | [] => []
  | n :: ns => n.expand meaning :: expandAll meaning ns

def expandFields (meaning : String → Node) : List (Field Node) → List (Field Node)
  | [] => []
  | ⟨name, n, isOptional, default?⟩ :: fs =>
    ⟨name, n.expand meaning, isOptional, default?⟩ :: expandFields meaning fs

def expandAlternatives (meaning : String → Node) : List (Alternative Node) → List (Alternative Node)
  | [] => []
  | ⟨key, n⟩ :: xs => ⟨key, n.expand meaning⟩ :: expandAlternatives meaning xs

end

variable {meaning : String → Node} {R : Node → Node → Prop}

theorem expandAll_forall₂ {ns : List Node} (h : ∀ n ∈ ns, R n (n.expand meaning)) :
    List.Forall₂ R ns (expandAll meaning ns) := by
  induction ns with
  | nil => exact .nil
  | cons n ns ih =>
    obtain ⟨hn, h⟩ := List.forall_mem_cons.1 h
    exact .cons hn (ih h)

theorem expandFields_forall₂ {fs : List (Field Node)}
    (h : ∀ f ∈ fs, R f.node (f.node.expand meaning)) :
    List.Forall₂ (Field.Carried R) fs (expandFields meaning fs) := by
  induction fs with
  | nil => exact .nil
  | cons f fs ih =>
    obtain ⟨hf, h⟩ := List.forall_mem_cons.1 h
    exact .cons ⟨rfl, rfl, rfl, hf⟩ (ih h)

theorem expandAlternatives_evolve {xs : List (Alternative Node)}
    (h : ∀ a ∈ xs, R a.node (a.node.expand meaning)) :
    AlternativesEvolve R xs (expandAlternatives meaning xs) := by
  induction xs with
  | nil => exact .nil
  | cons a xs ih =>
    obtain ⟨ha, h⟩ := List.forall_mem_cons.1 h
    exact .cons ha (ih h)

/-- Only what the names of the tree mean counts. -/
theorem expand_congr {other : String → Node} (n : Node)
    (h : ∀ name, .reference name ∈ n.subnodes → meaning name = other name) :
    n.expand meaning = n.expand other := by
  have hpart : ∀ k, Part k n → k.expand meaning = k.expand other := fun k hk =>
    expand_congr k fun name hname => h name (hk.mem_subnodes hname)
  cases n
  case reference name => exact h name (mem_subnodes_self _)
  case dictionary n => exact congrArg Node.dictionary (hpart n .entry)
  case array ns size =>
    have hall : ∀ ks : List Node, (∀ k ∈ ks, k ∈ ns) → expandAll meaning ks = expandAll other ks := by
      intro ks hks
      induction ks with
      | nil => rfl
      | cons k ks ih =>
        obtain ⟨hk, hks⟩ := List.forall_mem_cons.1 hks
        simp only [expandAll, hpart k (.element hk), ih hks]
    simp only [expand, hall ns fun _ hk => hk]
  case map fs =>
    have hall : ∀ gs : List (Field Node), (∀ f ∈ gs, f ∈ fs) →
        expandFields meaning gs = expandFields other gs := by
      intro gs hgs
      induction gs with
      | nil => rfl
      | cons f gs ih =>
        obtain ⟨hf, hgs⟩ := List.forall_mem_cons.1 hgs
        simp only [expandFields, hpart f.node (.field hf), ih hgs]
    simp only [expand, hall fs fun _ hf => hf]
  case selector d xs =>
    have hall : ∀ ys : List (Alternative Node), (∀ a ∈ ys, a ∈ xs) →
        expandAlternatives meaning ys = expandAlternatives other ys := by
      intro ys hys
      induction ys with
      | nil => rfl
      | cons a ys ih =>
        obtain ⟨ha, hys⟩ := List.forall_mem_cons.1 hys
        simp only [expandAlternatives, hpart a.node (.alternative ha), ih hys]
    simp only [expand, hall xs fun _ ha => ha]
  all_goals rfl
termination_by n.size
decreasing_by exact hk.size_lt

end Node

namespace Definitions

/-- What a name stands for with the names in it written out, so many times one inside the other at most. -/
def expansion (definitions : Definitions) : Nat → String → Node
  | 0, name => .reference name
  | steps + 1, name =>
    match definitions.nodes name with
    | [node] => node.expand (definitions.expansion steps)
    | _ => .reference name

/-- The tree with each name replaced by what it stands for, written out in the same way. Where no name leads
back to itself, no more names can stand one inside the other than there are. -/
def expand (definitions : Definitions) (node : Node) : Node :=
  node.expand (definitions.expansion definitions.length)

theorem expansion_succ {definitions : Definitions} {steps : Nat} {name : String} {node : Node}
    (h : definitions.nodes name = [node]) :
    definitions.expansion (steps + 1) name = node.expand (definitions.expansion steps) := by
  simp only [expansion, h]

end Definitions

/-! ## Trees written out -/

/-- How the second tree is the first one written out, where `R` tells the same of their parts and of what a
name stands for, below the names that have been entered. -/
inductive UnfoldStep (definitions : Definitions) (R : List String → Node → Node → Prop)
    (entered : List String) : Node → Node → Prop where
  | any : UnfoldStep definitions R entered .any .any
  | primitive (kind : Kind) : UnfoldStep definitions R entered (.primitive kind) (.primitive kind)
  | literal (v : Value) : UnfoldStep definitions R entered (.literal v) (.literal v)
  | array {ms ns : List Node} {size : ArraySize} : List.Forall₂ (R entered) ms ns →
    UnfoldStep definitions R entered (.array ms size) (.array ns size)
  | map {fs gs : List (Field Node)} : List.Forall₂ (Field.Carried (R entered)) fs gs →
    UnfoldStep definitions R entered (.map fs) (.map gs)
  | dictionary {m n : Node} : R entered m n →
    UnfoldStep definitions R entered (.dictionary m) (.dictionary n)
  | selector {discriminant : String} {xs ys : List (Alternative Node)} :
    AlternativesEvolve (R entered) xs ys →
    UnfoldStep definitions R entered (.selector discriminant xs) (.selector discriminant ys)
  | reference {name : String} {m n : Node} : name ∉ entered → definitions.nodes name = [m] →
    R (name :: entered) m n → UnfoldStep definitions R entered (.reference name) n

/-- The second tree is the first one written out, with at most so many levels and names one inside the other,
none of which is entered again below itself. -/
def Unfolds (definitions : Definitions) : Nat → List String → Node → Node → Prop
  | 0, _, _, _ => False
  | height + 1, entered, m, n => UnfoldStep definitions (Unfolds definitions height) entered m n

theorem Field.Carried.imp {R S : Node → Node → Prop} {f g : Field Node} (h : f.Carried R g)
    (hRS : ∀ m n, R m n → S m n) : f.Carried S g :=
  ⟨h.name, h.mayBeAbsent, h.default?, hRS _ _ h.node⟩

theorem AlternativesEvolve.imp {R S : Node → Node → Prop} {xs ys : List (Alternative Node)}
    (h : AlternativesEvolve R xs ys) (hRS : ∀ m n, R m n → S m n) : AlternativesEvolve S xs ys := by
  induction h with
  | nil => exact .nil
  | cons hnode _ ih => exact .cons (hRS _ _ hnode) ih

theorem forall₂_of_mem {α β : Type} {S : α → β → Prop} {as : List α} {bs : List β}
    (h : List.Forall₂ S as bs) {b : β} (hb : b ∈ bs) : ∃ a ∈ as, S a b := by
  obtain ⟨i, hi⟩ := List.mem_iff_getElem?.1 hb
  obtain ⟨a, ha, hab⟩ := forall₂_getElem? h hi
  exact ⟨a, List.mem_of_getElem? ha, hab⟩

theorem AlternativesEvolve.of_mem {R : Node → Node → Prop} {xs ys : List (Alternative Node)}
    (h : AlternativesEvolve R xs ys) {b : Alternative Node} (hb : b ∈ ys) :
    ∃ a ∈ xs, R a.node b.node := by
  induction h with
  | nil => exact (List.not_mem_nil hb).elim
  | cons hnode _ ih =>
    rcases List.mem_cons.1 hb with rfl | hb
    · exact ⟨_, List.mem_cons_self, hnode⟩
    · obtain ⟨a, ha, hab⟩ := ih hb
      exact ⟨a, List.mem_cons_of_mem _ ha, hab⟩

/-- A part of a tree that is written out comes from a part of the first tree, unless that is a name. -/
theorem UnfoldStep.of_part {definitions : Definitions} {R : List String → Node → Node → Prop}
    {entered : List String} {m n k : Node} (h : UnfoldStep definitions R entered m n)
    (hk : k.Part n) : (∃ p, R entered p k) ∨ ∃ name p, R (name :: entered) p n := by
  cases h with
  | reference _ _ h => exact .inr ⟨_, _, h⟩
  | any => cases hk
  | primitive => cases hk
  | literal => cases hk
  | dictionary h =>
    cases hk with
    | entry => exact .inl ⟨_, h⟩
  | array h =>
    cases hk with
    | element hk =>
      obtain ⟨p, -, hp⟩ := forall₂_of_mem h hk
      exact .inl ⟨p, hp⟩
  | map h =>
    cases hk with
    | field hg =>
      obtain ⟨f, -, hf⟩ := forall₂_of_mem h hg
      exact .inl ⟨f.node, hf.node⟩
  | selector h =>
    cases hk with
    | alternative hb =>
      obtain ⟨a, -, ha⟩ := h.of_mem hb
      exact .inl ⟨a.node, ha⟩

namespace Unfolds

variable {definitions : Definitions}

/-- More levels do no harm, and neither do fewer names. -/
theorem mono {height more : Nat} {entered fewer : List String} {m n : Node}
    (h : Unfolds definitions height entered m n) (hheight : height ≤ more) (hnames : fewer ⊆ entered) :
    Unfolds definitions more fewer m n := by
  induction height generalizing more entered fewer m n with
  | zero => exact h.elim
  | succ height ih =>
    obtain ⟨k, rfl⟩ : ∃ k, more = k + 1 := ⟨more - 1, by omega⟩
    have hheight : height ≤ k := Nat.le_of_succ_le_succ hheight
    have hpart : ∀ p q, Unfolds definitions height entered p q → Unfolds definitions k fewer p q :=
      fun p q hpq => ih hpq hheight hnames
    cases h with
    | any => exact .any
    | primitive kind => exact .primitive kind
    | literal v => exact .literal v
    | array h => exact .array (h.imp hpart)
    | map h => exact .map (h.imp fun f g hfg => hfg.imp hpart)
    | dictionary h => exact .dictionary (hpart _ _ h)
    | selector h => exact .selector (h.imp hpart)
    | reference hname hnodes h =>
      refine .reference (fun hmem => hname (hnames hmem)) hnodes (ih h hheight ?_)
      exact List.cons_subset_cons _ hnames

/-- No name is left in a tree that is written out. -/
theorem no_reference {height : Nat} {entered : List String} {m n : Node}
    (h : Unfolds definitions height entered m n) (name : String) : .reference name ∉ n.subnodes := by
  induction height generalizing entered m n with
  | zero => exact h.elim
  | succ height ih =>
    intro hmem
    rcases Node.mem_subnodes.1 hmem with hself | ⟨k, hk, hmem'⟩
    · cases h with
      | reference _ _ h => exact ih h hmem
      | _ => cases hself
    · rcases UnfoldStep.of_part h hk with ⟨p, hp⟩ | ⟨next, p, hp⟩
      · exact ih hp hmem'
      · exact ih hp hmem

theorem resolveMap?_eq_none {node : Node} (h : ∀ fields, ¬ definitions.MapOf node fields) :
    definitions.resolveMap? node = none := by
  cases hresolved : definitions.resolveMap? node with
  | none => rfl
  | some fields => exact absurd (Definitions.resolveMap?_iff.1 hresolved) (h fields)

/-- **A chain of names leads to a map just where a map is written out in its place**, and then the second map
is the first one written out. -/
theorem resolveMap? {height : Nat} {entered : List String} {m n : Node}
    (h : Unfolds definitions height entered m n) :
    (∃ fs gs, definitions.resolveMap? m = some fs ∧ Definitions.resolveMap? [] n = some gs ∧
      Unfolds definitions height entered (.map fs) (.map gs)) ∨
    definitions.resolveMap? m = none ∧ Definitions.resolveMap? [] n = none := by
  induction height generalizing entered m n with
  | zero => exact h.elim
  | succ height ih =>
    cases h with
    | @map fs gs h =>
      refine .inl ⟨fs, gs, ?_, ?_, .map h⟩
      · exact Definitions.resolveMap?_iff.2 ⟨0, .map⟩
      · exact Definitions.resolveMap?_iff.2 ⟨0, .map⟩
    | @reference name p _ _ hnodes h =>
      rcases ih h with ⟨fs, gs, hfs, hgs, hall⟩ | ⟨hnone, hnone'⟩
      · obtain ⟨k, hk⟩ := Definitions.resolveMap?_iff.1 hfs
        refine .inl ⟨fs, gs, Definitions.resolveMap?_iff.2 ⟨k + 1, .reference hnodes hk⟩, hgs, ?_⟩
        exact hall.mono (Nat.le_succ height) (List.subset_cons_self _ _)
      · refine .inr ⟨resolveMap?_eq_none ?_, hnone'⟩
        rintro fields ⟨k, hk⟩
        cases hk with
        | reference hnodes' hk =>
          cases hnodes.symm.trans hnodes'
          rw [Definitions.resolveMap?_iff.2 ⟨_, hk⟩] at hnone
          cases hnone
    | _ =>
      refine .inr ⟨resolveMap?_eq_none ?_, resolveMap?_eq_none ?_⟩
      all_goals
        rintro fields ⟨k, hk⟩
        cases hk

theorem fields {height : Nat} {entered : List String} {fs gs : List (Field Node)}
    (h : Unfolds definitions height entered (.map fs) (.map gs)) :
    List.Forall₂ (Field.Carried (Unfolds definitions height entered)) fs gs := by
  cases height with
  | zero => exact h.elim
  | succ height =>
    cases h with
    | map h =>
      exact h.imp fun f g hfg => hfg.imp fun p q hpq =>
        hpq.mono (Nat.le_succ height) (List.Subset.refl _)

/-- A tree is written out where its names are. -/
theorem of_names {height : Nat} {entered : List String} {meaning : String → Node} (n : Node)
    (h : ∀ name, .reference name ∈ n.subnodes →
      Unfolds definitions height entered (.reference name) (meaning name)) :
    Unfolds definitions (height + n.size) entered n (n.expand meaning) := by
  have hpos : 0 < n.size := by cases n <;> simp [Node.size]
  obtain ⟨k, hk⟩ : ∃ k, height + n.size = k + 1 := ⟨height + n.size - 1, by omega⟩
  have hpart : ∀ p, Node.Part p n → Unfolds definitions k entered p (p.expand meaning) := by
    intro p hp
    have hlt := hp.size_lt
    refine (of_names p fun name hname => h name (hp.mem_subnodes hname)).mono ?_ (List.Subset.refl _)
    omega
  cases n
  case reference name =>
    exact (h name (Node.mem_subnodes_self _)).mono (Nat.le_add_right _ _) (List.Subset.refl _)
  all_goals rw [hk]
  case any => exact .any
  case primitive kind => exact .primitive kind
  case literal v => exact .literal v
  case array ns size => exact .array (Node.expandAll_forall₂ fun n hn => hpart n (.element hn))
  case map fs => exact .map (Node.expandFields_forall₂ fun f hf => hpart f.node (.field hf))
  case dictionary n => exact .dictionary (hpart n .entry)
  case selector d xs =>
    exact .selector (Node.expandAlternatives_evolve fun a ha => hpart a.node (.alternative ha))
termination_by n.size
decreasing_by exact hp.size_lt

end Unfolds

/-! ## Names that do not lead back to themselves -/

namespace Definitions

variable {definitions : Definitions}

/-- The second name occurs in a definition of the first. -/
def Mentions (definitions : Definitions) (name other : String) : Prop :=
  ∃ node ∈ definitions.nodes name, .reference other ∈ node.subnodes

/-- Every name that occurs stands for just one node, and none leads back to itself. -/
structure Layered (definitions : Definitions) (node : Node) : Prop where
  single : definitions.Everywhere
    (fun m => ∀ name, m = .reference name → ∃ n, definitions.nodes name = [n]) node
  acyclic : ∀ name, ¬ TransGen definitions.Mentions name name

namespace Layered

variable {node : Node}

theorem definition (h : definitions.Layered node) {name : String} {n : Node}
    (hn : n ∈ definitions.nodes name) : definitions.Layered n :=
  ⟨h.single.definition hn, h.acyclic⟩

/-- A name below names that lead to it is none of them, and leads to the names below it. -/
theorem enter (h : definitions.Layered node) {entered : List String}
    (hentered : ∀ e ∈ entered, ∀ r, .reference r ∈ node.subnodes → TransGen definitions.Mentions e r)
    {name : String} (hname : .reference name ∈ node.subnodes) : ∃ n,
      definitions.nodes name = [n] ∧ name ∉ entered ∧
      definitions.unexpanded (name :: entered) < definitions.unexpanded entered ∧
      ∀ e ∈ name :: entered, ∀ r, .reference r ∈ n.subnodes → TransGen definitions.Mentions e r := by
  obtain ⟨n, hn⟩ := h.single.inTree _ hname name rfl
  have hnew : name ∉ entered := fun hmem => h.acyclic name (hentered name hmem name hname)
  refine ⟨n, hn, hnew, unexpanded_cons_lt hnew hn, ?_⟩
  intro e he r hr
  have hmentions : definitions.Mentions name r := ⟨n, hn ▸ List.mem_singleton_self n, hr⟩
  rcases List.mem_cons.1 he with rfl | he
  · exact .single hmentions
  · exact (hentered e he name hname).tail hmentions

end Layered

/-- What holds from some number on for each of finitely many things holds from one number on for all. -/
theorem exists_common {α : Type} {P : Nat → α → Prop} (hP : ∀ a k l, k ≤ l → P k a → P l a)
    {l : List α} (h : ∀ a ∈ l, ∃ k, P k a) : ∃ k, ∀ a ∈ l, P k a := by
  induction l with
  | nil => exact ⟨0, fun _ ha => (List.not_mem_nil ha).elim⟩
  | cons a l ih =>
    obtain ⟨⟨i, hi⟩, h⟩ := List.forall_mem_cons.1 h
    obtain ⟨j, hj⟩ := ih h
    refine ⟨max i j, List.forall_mem_cons.2 ⟨hP a i _ (Nat.le_max_left i j) hi, fun b hb => ?_⟩⟩
    exact hP b j _ (Nat.le_max_right i j) (hj b hb)

/-- **All names can be written out** where none leads back to itself. Each name that is entered leaves one name
less to enter, so as many steps are enough as there are names that have not been entered. -/
theorem exists_unfolds {steps : Nat} {entered : List String} {node : Node}
    (h : definitions.Layered node)
    (hentered : ∀ e ∈ entered, ∀ r, .reference r ∈ node.subnodes → TransGen definitions.Mentions e r)
    (hsteps : definitions.unexpanded entered ≤ steps) :
    ∃ height, Unfolds definitions height entered node (node.expand (definitions.expansion steps)) := by
  induction steps generalizing entered node with
  | zero =>
    refine ⟨0 + node.size, Unfolds.of_names node fun name hname => ?_⟩
    obtain ⟨n, -, -, hlt, -⟩ := h.enter hentered hname
    omega
  | succ steps ih =>
    have heach : ∀ m ∈ node.subnodes, ∃ height, ∀ name, m = .reference name →
        Unfolds definitions height entered m (definitions.expansion (steps + 1) name) := by
      intro m hm
      by_cases hname : ∃ name, m = .reference name
      · obtain ⟨name, rfl⟩ := hname
        obtain ⟨n, hn, hnew, hlt, hentered⟩ := h.enter hentered hm
        obtain ⟨height, hheight⟩ :=
          ih (h.definition (hn ▸ List.mem_singleton_self n)) hentered (by omega)
        refine ⟨height + 1, ?_⟩
        rintro _ ⟨⟩
        rw [expansion_succ hn]
        exact .reference hnew hn hheight
      · exact ⟨0, fun name heq => absurd ⟨name, heq⟩ hname⟩
    obtain ⟨height, hall⟩ := exists_common (fun m k l hkl hk name heq =>
      (hk name heq).mono hkl (List.Subset.refl _)) heach
    exact ⟨height + node.size, Unfolds.of_names node fun name hname => hall _ hname name rfl⟩

/-- One more step writes out nothing more. -/
theorem expand_expansion_succ {steps : Nat} {entered : List String} {node : Node}
    (h : definitions.Layered node)
    (hentered : ∀ e ∈ entered, ∀ r, .reference r ∈ node.subnodes → TransGen definitions.Mentions e r)
    (hsteps : definitions.unexpanded entered ≤ steps) :
    node.expand (definitions.expansion (steps + 1)) = node.expand (definitions.expansion steps) := by
  induction steps generalizing entered node with
  | zero =>
    refine node.expand_congr fun name hname => ?_
    obtain ⟨n, -, -, hlt, -⟩ := h.enter hentered hname
    omega
  | succ steps ih =>
    refine node.expand_congr fun name hname => ?_
    obtain ⟨n, hn, -, hlt, hentered⟩ := h.enter hentered hname
    rw [expansion_succ hn, expansion_succ hn]
    exact ih (h.definition (hn ▸ List.mem_singleton_self n)) hentered (by omega)

/-- A name is replaced by what it stands for, with the names in it replaced. -/
theorem expand_reference {name : String} {node : Node} (h : definitions.Layered (.reference name))
    (hn : definitions.nodes name = [node]) :
    definitions.expand (.reference name) = definitions.expand node := by
  have hnode := h.definition (hn ▸ List.mem_singleton_self node)
  unfold expand
  rw [← expand_expansion_succ h (fun e he => (List.not_mem_nil he).elim)
    (unexpanded_le definitions [])]
  exact expansion_succ hn

end Definitions

end Conformance
