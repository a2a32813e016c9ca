import Conformance.Schema.Node

/-!
# Nodes within nodes

Which nodes occur in a tree and in the definitions it refers to, and what it means that a property holds
of all of them.

* `Node.subnodes` — the nodes of a tree; there are as many as its size says (`Node.length_subnodes`).
* `Node.Part` — one node stands directly below another; `Node.part_mem_subnodes` closes the nodes of a
  tree under it.
* `Definitions.Everywhere` — a property of each node in a tree and in all definitions. It passes on to
  parts, to the nodes of a name and to the map at the end of a chain of names.
* `Node.references` — the names referred to in nodes, in their order.
-/

set_option autoImplicit false

namespace Conformance

namespace Node

mutual

/-- The nodes that occur in a tree, the tree itself first. -/
def subnodes : Node → List Node
  | .array ns s => .array ns s :: subnodesAll ns
  | .map fs => .map fs :: subnodesFields fs
  | .dictionary n => .dictionary n :: n.subnodes
  | .selector d xs => .selector d xs :: subnodesAlternatives xs
  | n => [n]

def subnodesAll : List Node → List Node
  | [] => []
  | n :: ns => n.subnodes ++ subnodesAll ns

def subnodesFields : List (Field Node) → List Node
  | [] => []
  | ⟨_, n, _, _⟩ :: fs => n.subnodes ++ subnodesFields fs

def subnodesAlternatives : List (Alternative Node) → List Node
  | [] => []
  | ⟨_, n⟩ :: xs => n.subnodes ++ subnodesAlternatives xs

end

mutual

theorem length_subnodes : ∀ n : Node, n.subnodes.length = n.size
  | .any => rfl
  | .primitive _ => rfl
  | .literal _ => rfl
  | .reference _ => rfl
  | .array ns _ => by simp only [subnodes, size, List.length_cons, length_subnodesAll ns]
  | .map fs => by simp only [subnodes, size, List.length_cons, length_subnodesFields fs]
  | .dictionary n => by simp only [subnodes, size, List.length_cons, length_subnodes n]
  | .selector _ xs => by simp only [subnodes, size, List.length_cons, length_subnodesAlternatives xs]

theorem length_subnodesAll : ∀ ns : List Node, (subnodesAll ns).length = sizeAll ns
  | [] => rfl
  | n :: ns => by
    simp only [subnodesAll, sizeAll, List.length_append, length_subnodes n, length_subnodesAll ns]

theorem length_subnodesFields : ∀ fs : List (Field Node), (subnodesFields fs).length = sizeFields fs
  | [] => rfl
  | ⟨_, n, _, _⟩ :: fs => by
    simp only [subnodesFields, sizeFields, List.length_append, length_subnodes n,
      length_subnodesFields fs]

theorem length_subnodesAlternatives :
    ∀ xs : List (Alternative Node), (subnodesAlternatives xs).length = sizeAlternatives xs
  | [] => rfl
  | ⟨_, n⟩ :: xs => by
    simp only [subnodesAlternatives, sizeAlternatives, List.length_append, length_subnodes n,
      length_subnodesAlternatives xs]

end

theorem subnodesAll_eq (ns : List Node) : subnodesAll ns = ns.flatMap subnodes := by
  induction ns with
  | nil => rfl
  | cons n ns ih => rw [subnodesAll, ih, List.flatMap_cons]

theorem subnodesFields_eq (fs : List (Field Node)) :
    subnodesFields fs = fs.flatMap fun f => f.node.subnodes := by
  induction fs with
  | nil => rfl
  | cons f fs ih => rw [subnodesFields, ih, List.flatMap_cons]

theorem subnodesAlternatives_eq (xs : List (Alternative Node)) :
    subnodesAlternatives xs = xs.flatMap fun a => a.node.subnodes := by
  induction xs with
  | nil => rfl
  | cons a xs ih => rw [subnodesAlternatives, ih, List.flatMap_cons]

theorem mem_subnodesAll {m : Node} {ns : List Node} :
    m ∈ subnodesAll ns ↔ ∃ n ∈ ns, m ∈ n.subnodes := by
  rw [subnodesAll_eq, List.mem_flatMap]

theorem mem_subnodesFields {m : Node} {fs : List (Field Node)} :
    m ∈ subnodesFields fs ↔ ∃ f ∈ fs, m ∈ f.node.subnodes := by
  rw [subnodesFields_eq, List.mem_flatMap]

theorem mem_subnodesAlternatives {m : Node} {xs : List (Alternative Node)} :
    m ∈ subnodesAlternatives xs ↔ ∃ a ∈ xs, m ∈ a.node.subnodes := by
  rw [subnodesAlternatives_eq, List.mem_flatMap]

theorem mem_subnodes_self (n : Node) : n ∈ n.subnodes := by
  cases n <;> simp [subnodes]

/-- The first node stands directly below the second. -/
inductive Part : Node → Node → Prop where
  | element {n : Node} {ns : List Node} {s : ArraySize} : n ∈ ns → Part n (.array ns s)
  | field {f : Field Node} {fs : List (Field Node)} : f ∈ fs → Part f.node (.map fs)
  | entry {n : Node} : Part n (.dictionary n)
  | alternative {d : String} {a : Alternative Node} {xs : List (Alternative Node)} :
    a ∈ xs → Part a.node (.selector d xs)

/-- The nodes of a tree are the tree and the nodes of its parts. -/
theorem mem_subnodes {m n : Node} : m ∈ n.subnodes ↔ m = n ∨ ∃ k, Part k n ∧ m ∈ k.subnodes := by
  constructor
  · intro h
    cases n <;> simp only [subnodes, List.mem_cons, List.not_mem_nil, or_false] at h
    case any => exact .inl h
    case primitive => exact .inl h
    case literal => exact .inl h
    case reference => exact .inl h
    case array ns s =>
      refine h.imp_right fun h => ?_
      obtain ⟨k, hk, hm⟩ := mem_subnodesAll.1 h
      exact ⟨k, .element hk, hm⟩
    case map fs =>
      refine h.imp_right fun h => ?_
      obtain ⟨f, hf, hm⟩ := mem_subnodesFields.1 h
      exact ⟨f.node, .field hf, hm⟩
    case dictionary k => exact h.imp_right fun h => ⟨k, .entry, h⟩
    case selector d xs =>
      refine h.imp_right fun h => ?_
      obtain ⟨a, ha, hm⟩ := mem_subnodesAlternatives.1 h
      exact ⟨a.node, .alternative ha, hm⟩
  · rintro (rfl | ⟨k, hk, hm⟩)
    · exact mem_subnodes_self m
    · cases hk with
      | element hn => exact List.mem_cons_of_mem _ (mem_subnodesAll.2 ⟨_, hn, hm⟩)
      | field hf => exact List.mem_cons_of_mem _ (mem_subnodesFields.2 ⟨_, hf, hm⟩)
      | entry => exact List.mem_cons_of_mem _ hm
      | alternative ha => exact List.mem_cons_of_mem _ (mem_subnodesAlternatives.2 ⟨_, ha, hm⟩)

/-- A property holds of all nodes of a tree if it holds of the tree and of all nodes of its parts. -/
theorem forall_subnodes_iff {P : Node → Prop} {n : Node} :
    (∀ m ∈ n.subnodes, P m) ↔ P n ∧ ∀ k, Part k n → ∀ m ∈ k.subnodes, P m := by
  constructor
  · exact fun h => ⟨h n n.mem_subnodes_self, fun k hk m hm => h m (mem_subnodes.2 (.inr ⟨k, hk, hm⟩))⟩
  · rintro ⟨hself, hparts⟩ m hm
    rcases mem_subnodes.1 hm with rfl | ⟨k, hk, hm⟩
    · exact hself
    · exact hparts k hk m hm

theorem Part.mem_subnodes {m k n : Node} (hk : Part k n) (hm : m ∈ k.subnodes) : m ∈ n.subnodes :=
  Node.mem_subnodes.2 (.inr ⟨k, hk, hm⟩)

theorem size_le_sizeAll {n : Node} {ns : List Node} (h : n ∈ ns) : n.size ≤ sizeAll ns := by
  induction ns with
  | nil => cases h
  | cons k ns ih =>
    simp only [sizeAll]
    rcases List.mem_cons.1 h with rfl | h
    · omega
    · have := ih h
      omega

theorem size_le_sizeFields {f : Field Node} {fs : List (Field Node)} (h : f ∈ fs) :
    f.node.size ≤ sizeFields fs := by
  induction fs with
  | nil => cases h
  | cons e fs ih =>
    simp only [sizeFields]
    rcases List.mem_cons.1 h with rfl | h
    · omega
    · have := ih h
      omega

theorem size_le_sizeAlternatives {a : Alternative Node} {xs : List (Alternative Node)} (h : a ∈ xs) :
    a.node.size ≤ sizeAlternatives xs := by
  induction xs with
  | nil => cases h
  | cons e xs ih =>
    simp only [sizeAlternatives]
    rcases List.mem_cons.1 h with rfl | h
    · omega
    · have := ih h
      omega

/-- A part is smaller than the whole. -/
theorem Part.size_lt {k n : Node} (h : Part k n) : k.size < n.size := by
  cases h with
  | element hn => exact Nat.lt_succ_of_le (size_le_sizeAll hn)
  | field hf => exact Nat.lt_succ_of_le (size_le_sizeFields hf)
  | entry => exact Nat.lt_succ_self _
  | alternative ha => exact Nat.lt_succ_of_le (size_le_sizeAlternatives ha)

theorem mem_subnodes_trans {m k n : Node} (hm : m ∈ k.subnodes) (hk : k ∈ n.subnodes) :
    m ∈ n.subnodes := by
  rcases mem_subnodes.1 hk with rfl | ⟨j, hj, hkj⟩
  · exact hm
  · exact hj.mem_subnodes (mem_subnodes_trans hm hkj)
termination_by n.size
decreasing_by exact hj.size_lt

/-- The nodes of a tree are closed under parts. -/
theorem part_mem_subnodes {m k n : Node} (hk : k ∈ n.subnodes) (hm : Part m k) : m ∈ n.subnodes :=
  mem_subnodes_trans (hm.mem_subnodes m.mem_subnodes_self) hk

/-! ## Names in nodes -/

/-- The names that are referred to, each as often as it is. -/
def references (nodes : List Node) : List String :=
  nodes.filterMap fun
    | .reference name => some name
    | _ => none

theorem mem_references {name : String} {nodes : List Node} :
    name ∈ references nodes ↔ .reference name ∈ nodes := by
  unfold references
  rw [List.mem_filterMap]
  constructor
  · rintro ⟨node, hnode, hname⟩
    cases node with
    | reference =>
      cases hname
      exact hnode
    | _ => cases hname
  · exact fun h => ⟨_, h, rfl⟩

theorem references_append (ms ns : List Node) : references (ms ++ ns) = references ms ++ references ns :=
  List.filterMap_append

theorem references_array (elements : List Node) (size : ArraySize) :
    references (Node.array elements size).subnodes = references (elements.flatMap subnodes) := by
  rw [← subnodesAll_eq]
  rfl

theorem references_map (fields : List (Field Node)) :
    references (Node.map fields).subnodes = references (fields.flatMap fun f => f.node.subnodes) := by
  rw [← subnodesFields_eq]
  rfl

theorem references_selector (discriminant : String) (alternatives : List (Alternative Node)) :
    references (Node.selector discriminant alternatives).subnodes =
      references (alternatives.flatMap fun a => a.node.subnodes) := by
  rw [← subnodesAlternatives_eq]
  rfl

end Node

namespace Definitions

theorem resolveWithin?_map (definitions : Definitions) (steps : Nat) (fields : List (Field Node)) :
    definitions.resolveWithin? steps (.map fields) = some fields := by
  cases steps <;> rfl

theorem resolveWithin?_single {definitions : Definitions} {name : String} {n : Node}
    (hn : definitions.nodes name = [n]) (steps : Nat) :
    definitions.resolveWithin? (steps + 1) (.reference name) = definitions.resolveWithin? steps n := by
  rw [resolveWithin?, hn]

/-- Induction along a chain of names to a map, from the map back. -/
@[elab_as_elim]
theorem resolveWithin?_induction {definitions : Definitions} {fields : List (Field Node)}
    {motive : ∀ steps node, definitions.resolveWithin? steps node = some fields → Prop}
    (map : ∀ steps, motive steps (.map fields) (resolveWithin?_map definitions steps fields))
    (reference : ∀ steps name n (hn : definitions.nodes name = [n])
      (h : definitions.resolveWithin? steps n = some fields), motive steps n h →
      motive (steps + 1) (.reference name) ((resolveWithin?_single hn steps).trans h))
    {steps : Nat} {node : Node} (h : definitions.resolveWithin? steps node = some fields) :
    motive steps node h := by
  induction steps generalizing node with
  | zero =>
    cases node with
    | map others =>
      cases h
      exact map 0
    | _ => cases h
  | succ steps ih =>
    cases node with
    | map others =>
      cases h
      exact map (steps + 1)
    | reference name =>
      have hrest := h
      rw [resolveWithin?] at hrest
      split at hrest
      · rename_i n hn
        exact reference steps name n hn hrest (ih hrest)
      · cases hrest
    | _ => cases h

/-- The fields of a map that is reached through names stand in the node or in a definition. -/
theorem resolveWithin?_cases {definitions : Definitions} {steps : Nat} {node : Node}
    {fields : List (Field Node)} (h : definitions.resolveWithin? steps node = some fields) :
    node = .map fields ∨ ∃ name, .map fields ∈ definitions.nodes name := by
  induction h using resolveWithin?_induction with
  | map => exact .inl rfl
  | reference steps name n hn h ih =>
    rcases ih with rfl | hnext
    · exact .inr ⟨name, hn ▸ List.mem_singleton_self _⟩
    · exact .inr hnext

theorem resolveMap?_cases {definitions : Definitions} {node : Node} {fields : List (Field Node)}
    (h : definitions.resolveMap? node = some fields) :
    node = .map fields ∨ ∃ name, .map fields ∈ definitions.nodes name :=
  resolveWithin?_cases h

/-- A property holds of every node in a tree and in the definitions. -/
structure Everywhere (definitions : Definitions) (P : Node → Prop) (node : Node) : Prop where
  inTree : ∀ m ∈ node.subnodes, P m
  inDefinitions : ∀ name, ∀ n ∈ definitions.nodes name, ∀ m ∈ n.subnodes, P m

namespace Everywhere

variable {definitions : Definitions} {P : Node → Prop} {node : Node}

theorem self (h : definitions.Everywhere P node) : P node := h.inTree node node.mem_subnodes_self

theorem part {m : Node} (h : definitions.Everywhere P node) (hm : m.Part node) :
    definitions.Everywhere P m :=
  ⟨fun k hk => h.inTree k (hm.mem_subnodes hk), h.inDefinitions⟩

theorem definition {m : Node} {name : String} (h : definitions.Everywhere P node)
    (hm : m ∈ definitions.nodes name) : definitions.Everywhere P m :=
  ⟨h.inDefinitions name m hm, h.inDefinitions⟩

theorem resolved {fields : List (Field Node)} (h : definitions.Everywhere P node)
    (hm : definitions.resolveMap? node = some fields) : definitions.Everywhere P (.map fields) := by
  rcases resolveMap?_cases hm with rfl | ⟨name, hn⟩
  · exact h
  · exact h.definition hn

theorem mono {Q : Node → Prop} (h : definitions.Everywhere P node) (hPQ : ∀ m, P m → Q m) :
    definitions.Everywhere Q node :=
  ⟨fun m hm => hPQ m (h.inTree m hm), fun name n hn m hm => hPQ m (h.inDefinitions name n hn m hm)⟩

end Everywhere

end Definitions

/-- A map declares each field name once. -/
def Node.DistinctNames : Node → Prop
  | .map fields => (fields.map Field.name).Nodup
  | _ => True

end Conformance
