import Conformance.Proofs.Grammar
import Conformance.Proofs.Occurrence
import Conformance.Proofs.Tokens

/-!
# The form of trees

What the grammar alone ensures of a tree that is derived from the tokens of a text.

* `Node.depth` — how many nodes stand one inside the other.
* `Node.Formed` — nothing that should have members is empty; literals, keys and names are such.
* `Grammar.Value.ensures` — a value that is derived is formed throughout, and no deeper than was asked.
-/

set_option autoImplicit false

namespace Conformance

/-! ## Trees -/

namespace Node

mutual

/-- How many nodes stand one inside the other at most. -/
def depth : Node → Nat
  | .array ns _ => depthAll ns + 1
  | .map fs => depthFields fs + 1
  | .dictionary n => n.depth + 1
  | .selector _ xs => depthAlternatives xs + 1
  | _ => 1

def depthAll : List Node → Nat
  | [] => 0
  | n :: ns => max n.depth (depthAll ns)

def depthFields : List (Field Node) → Nat
  | [] => 0
  | ⟨_, n, _, _⟩ :: fs => max n.depth (depthFields fs)

def depthAlternatives : List (Alternative Node) → Nat
  | [] => 0
  | ⟨_, n⟩ :: xs => max n.depth (depthAlternatives xs)

end

theorem depthAll_le {ns : List Node} {bound : Nat} :
    depthAll ns ≤ bound ↔ ∀ n ∈ ns, n.depth ≤ bound := by
  induction ns with
  | nil => simp [depthAll]
  | cons n ns ih => rw [depthAll, Nat.max_le, ih, List.forall_mem_cons]

theorem depthFields_le {fs : List (Field Node)} {bound : Nat} :
    depthFields fs ≤ bound ↔ ∀ f ∈ fs, f.node.depth ≤ bound := by
  induction fs with
  | nil => simp [depthFields]
  | cons f fs ih => rw [depthFields, Nat.max_le, ih, List.forall_mem_cons]

theorem depthAlternatives_le {xs : List (Alternative Node)} {bound : Nat} :
    depthAlternatives xs ≤ bound ↔ ∀ a ∈ xs, a.node.depth ≤ bound := by
  induction xs with
  | nil => simp [depthAlternatives]
  | cons a xs ih => rw [depthAlternatives, Nat.max_le, ih, List.forall_mem_cons]

end Node

/-- A value that a literal can stand for. -/
def Value.IsLiteral : Value → Prop
  | .boolean _ | .integer _ | .string _ => True
  | .real r => r.isFinite = true
  | _ => False

theorem Value.IsLiteral.equal_self {v : Value} (h : v.IsLiteral) : v.equal v = true := by
  cases v with
  | real r =>
    cases r with
    | nan => cases h
    | infinite => cases h
    | finite negative m => simp [Value.equal, Binary64.equal]
  | boolean => simp [Value.equal]
  | integer => simp [Value.equal]
  | string => simp [Value.equal]
  | _ => exact h.elim

/-- What the grammar ensures of a node, its parts apart: nothing that should have members is empty, and
names, keys and literals are such. -/
def Node.Formed : Node → Prop
  | .any | .dictionary _ => True
  | .primitive kind => ∃ k : Keyword, k.kind? = some kind
  | .literal v => v.IsLiteral
  | .array elements _ => elements ≠ []
  | .map fields => fields ≠ [] ∧ ∀ f ∈ fields, ∀ v, f.default? = some v → v.IsLiteral
  | .selector _ alternatives => alternatives ≠ [] ∧ ∀ a ∈ alternatives, a.key.isDiscriminant = true
  | .reference name => Name.isName name.toList = true

/-- Every node of the tree is formed. -/
def Node.AllFormed (node : Node) : Prop := ∀ m ∈ node.subnodes, m.Formed

theorem Node.allFormed_of_parts {node : Node} (h : node.Formed)
    (hparts : ∀ k, Part k node → k.AllFormed) : node.AllFormed := forall_subnodes_iff.2 ⟨h, hparts⟩

namespace Grammar

section Formed

variable {α β : Type}

/-- What holds of all that is derived from lexical tokens. -/
def Ensures (rule : Rule α) (P : α → Prop) : Prop :=
  ∀ tokens a rest, rule tokens a rest → (∀ t ∈ tokens, t.Lexical) → P a ∧ ∀ t ∈ rest, t.Lexical

theorem OptionalComma.lexical {tokens rest : List Token} (h : OptionalComma tokens rest)
    (hlexical : ∀ t ∈ tokens, t.Lexical) : ∀ t ∈ rest, t.Lexical := by
  rcases h with rfl | rfl
  · exact hlexical
  · exact (List.forall_mem_cons.1 hlexical).2

theorem ArrayEnd.ensures : Ensures ArrayEnd fun _ => True := by
  intro tokens size rest h hlexical
  refine ⟨trivial, ?_⟩
  cases h with
  | exact h => exact (List.forall_mem_cons.1 (h.lexical hlexical)).2
  | repeating h => exact (List.forall_mem_cons.1 (List.forall_mem_cons.1 (h.lexical hlexical)).2).2

theorem BraceEnd.ensures : Ensures BraceEnd fun _ => True := by
  rintro tokens u rest ⟨h⟩ hlexical
  exact ⟨trivial, (List.forall_mem_cons.1 (h.lexical hlexical)).2⟩

theorem Literal.ensures : Ensures Literal Value.IsLiteral := by
  intro tokens v rest h hlexical
  cases h with
  | real => exact List.forall_mem_cons.1 hlexical
  | _ => exact ⟨trivial, (List.forall_mem_cons.1 hlexical).2⟩

theorem Name.ensures : Ensures Name fun name => Name.isName name.toList = true := by
  intro tokens name rest h hlexical
  obtain ⟨t, rfl, hname⟩ : ∃ t, tokens = t :: rest ∧ t.name? = some name := by
    cases h with
    | name => exact ⟨_, rfl, rfl⟩
    | keyword => exact ⟨_, rfl, rfl⟩
  obtain ⟨ht, hrest⟩ := List.forall_mem_cons.1 hlexical
  exact ⟨ht.isName hname, hrest⟩

theorem Key.ensures : Ensures Key fun _ => True := by
  intro tokens key rest h hlexical
  cases h with
  | name h => exact ⟨trivial, (Name.ensures _ _ _ h hlexical).2⟩
  | text => exact ⟨trivial, (List.forall_mem_cons.1 hlexical).2⟩

theorem AlternativeKey.ensures : Ensures AlternativeKey fun key => key.isDiscriminant = true := by
  intro tokens key rest h hlexical
  cases h <;> exact ⟨rfl, (List.forall_mem_cons.1 hlexical).2⟩

theorem OptionalMark.ensures : Ensures OptionalMark fun _ => True := by
  intro tokens b rest h hlexical
  cases h with
  | absent => exact ⟨trivial, hlexical⟩
  | present => exact ⟨trivial, (List.forall_mem_cons.1 hlexical).2⟩

theorem Default.ensures : Ensures Default fun v? => ∀ v, v? = some v → v.IsLiteral := by
  intro tokens v? rest h hlexical
  cases h with
  | absent => exact ⟨fun v hv => (by cases hv), hlexical⟩
  | present h =>
    obtain ⟨hv, hrest⟩ := Literal.ensures _ _ _ h (List.forall_mem_cons.1 hlexical).2
    exact ⟨fun w hw => Option.some.inj hw ▸ hv, hrest⟩

theorem Listed.ensures {item : Rule α} {close : Rule β} {P : α → Prop} (hitem : Ensures item P)
    (hclose : Ensures close fun _ => True) :
    Ensures (Listed item close) fun found => found.1 ≠ [] ∧ ∀ a ∈ found.1, P a := by
  intro tokens found rest h hlexical
  induction h with
  | last ha hb =>
    obtain ⟨hp, hmiddle⟩ := hitem _ _ _ ha hlexical
    refine ⟨⟨List.cons_ne_nil _ _, ?_⟩, (hclose _ _ _ hb hmiddle).2⟩
    simpa using hp
  | more ha _ ih =>
    obtain ⟨hp, hmiddle⟩ := hitem _ _ _ ha hlexical
    obtain ⟨⟨-, hall⟩, hrest⟩ := ih (List.forall_mem_cons.1 hmiddle).2
    exact ⟨⟨List.cons_ne_nil _ _, List.forall_mem_cons.2 ⟨hp, hall⟩⟩, hrest⟩

variable {value : Rule Node} {levels : Nat}

/-- A tree with so many levels at most, each node of which is formed. -/
def Fits (levels : Nat) (node : Node) : Prop := node.depth ≤ levels ∧ node.AllFormed

theorem Fits.leaf {node : Node} (hdepth : node.depth = 1) (h : node.Formed)
    (hparts : ∀ k, ¬ Node.Part k node) : Fits (levels + 1) node :=
  ⟨Nat.le_trans (Nat.le_of_eq hdepth) (Nat.le_add_left 1 levels),
    Node.allFormed_of_parts h fun k hk => (hparts k hk).elim⟩

variable (hvalue : Ensures value (Fits levels))

include hvalue

theorem FieldRule.ensures : Ensures (FieldRule value) fun f =>
    Fits levels f.node ∧ ∀ v, f.default? = some v → v.IsLiteral := by
  rintro tokens f rest ⟨hkey, hmark, hnode, hdefault⟩ hlexical
  have hlexical := (Key.ensures _ _ _ hkey hlexical).2
  have hlexical := (OptionalMark.ensures _ _ _ hmark hlexical).2
  obtain ⟨hfits, hlexical⟩ := hvalue _ _ _ hnode (List.forall_mem_cons.1 hlexical).2
  obtain ⟨hliteral, hlexical⟩ := Default.ensures _ _ _ hdefault hlexical
  exact ⟨⟨hfits, hliteral⟩, hlexical⟩

theorem AlternativeRule.ensures : Ensures (AlternativeRule value) fun a =>
    Fits levels a.node ∧ a.key.isDiscriminant = true := by
  rintro tokens a rest ⟨hkey, hnode⟩ hlexical
  obtain ⟨hdiscriminant, hlexical⟩ := AlternativeKey.ensures _ _ _ hkey hlexical
  obtain ⟨hfits, hlexical⟩ := hvalue _ _ _ hnode (List.forall_mem_cons.1 hlexical).2
  exact ⟨⟨hfits, hdiscriminant⟩, hlexical⟩

theorem ValueRule.ensures : Ensures (ValueRule value) (Fits (levels + 1)) := by
  intro tokens n rest h hlexical
  cases h with
  | any =>
    exact ⟨.leaf rfl trivial fun k hk => (by cases hk), (List.forall_mem_cons.1 hlexical).2⟩
  | primitive hkind =>
    exact ⟨.leaf rfl ⟨_, hkind⟩ fun k hk => (by cases hk), (List.forall_mem_cons.1 hlexical).2⟩
  | literal hliteral =>
    obtain ⟨hv, hrest⟩ := Literal.ensures _ _ _ hliteral hlexical
    exact ⟨.leaf rfl hv fun k hk => (by cases hk), hrest⟩
  | reference hname =>
    obtain ⟨hv, hrest⟩ := Name.ensures _ _ _ hname (List.forall_mem_cons.1 hlexical).2
    exact ⟨.leaf rfl hv fun k hk => (by cases hk), hrest⟩
  | array helements =>
    obtain ⟨⟨hne, hall⟩, hrest⟩ := Listed.ensures hvalue ArrayEnd.ensures _ _ _ helements
      (List.forall_mem_cons.1 hlexical).2
    refine ⟨⟨?_, Node.allFormed_of_parts hne fun k hk => ?_⟩, hrest⟩
    · exact Nat.succ_le_succ (Node.depthAll_le.2 fun n hn => (hall n hn).1)
    · cases hk with
      | element hk => exact (hall k hk).2
  | map hfields =>
    obtain ⟨⟨hne, hall⟩, hrest⟩ := Listed.ensures (FieldRule.ensures hvalue) BraceEnd.ensures _ _ _
      hfields (List.forall_mem_cons.1 hlexical).2
    refine ⟨⟨?_, Node.allFormed_of_parts ⟨hne, fun f hf => (hall f hf).2⟩ fun k hk => ?_⟩, hrest⟩
    · exact Nat.succ_le_succ (Node.depthFields_le.2 fun f hf => (hall f hf).1.1)
    · cases hk with
      | field hf => exact (hall _ hf).1.2
  | dictionary hentry =>
    obtain ⟨hfits, hlexical⟩ := hvalue _ _ _ hentry
      fun t ht => hlexical t (List.mem_cons_of_mem _ (List.mem_cons_of_mem _ (List.mem_cons_of_mem _ ht)))
    refine ⟨⟨Nat.succ_le_succ hfits.1, Node.allFormed_of_parts trivial fun k hk => ?_⟩,
      (List.forall_mem_cons.1 hlexical).2⟩
    cases hk with
    | entry => exact hfits.2
  | selector hkey halternatives =>
    have hlexical := (Key.ensures _ _ _ hkey (List.forall_mem_cons.1 hlexical).2).2
    obtain ⟨⟨hne, hall⟩, hrest⟩ := Listed.ensures (AlternativeRule.ensures hvalue) BraceEnd.ensures
      _ _ _ halternatives (List.forall_mem_cons.1 hlexical).2
    refine ⟨⟨?_, Node.allFormed_of_parts ⟨hne, fun a ha => (hall a ha).2⟩ fun k hk => ?_⟩, hrest⟩
    · exact Nat.succ_le_succ (Node.depthAlternatives_le.2 fun a ha => (hall a ha).1.1)
    · cases hk with
      | alternative ha => exact (hall _ ha).1.2

omit hvalue in
/-- **What is derived nests no deeper than was asked for, and is formed.** -/
theorem Value.ensures (depth : Nat) : Ensures (Value depth) (Fits depth) := by
  induction depth with
  | zero => exact fun _ _ _ h => h.elim
  | succ depth ih => exact ValueRule.ensures ih

end Formed

end Grammar

end Conformance
