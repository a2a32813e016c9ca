import Conformance.Proofs.Acceptance

/-!
# What the reader returns

Every schema and every suite that a call returns is well formed, whichever calls on the same text came
before it and whether they succeeded or not: checks that an earlier call has left behind are carried out
along with those of the call itself, and never instead of them.

* `Node.WellFormed` — all that is required of one node.
* `Schema.WellFormed`, `Suite.WellFormed` — every node is well formed and none nests too deep.
* `Parser.schema_wellFormed`, `Parser.suite_wellFormed` — what one call returns.
* `Parser.returns_wellFormed` — the same after any calls on a text.
-/

set_option autoImplicit false

namespace Conformance

/-- What is required of a node: arrays, maps and selectors have members, with distinct names and keys;
literals and defaults are such, and defaults can be converted; each alternative leads to just one map, and
the discriminant, where that declares it, is a string or an integer of the key's kind or the key itself;
names are defined. -/
def Node.WellFormed (definitions : Definitions) (maxDepth : Nat) : Node → Prop
  | .any | .primitive _ | .dictionary _ => True
  | .literal v => v.IsLiteral
  | .array elements _ => elements ≠ []
  | .map fields => fields ≠ [] ∧ (fields.map Field.name).Nodup ∧
    ∀ f ∈ fields, ∀ v, f.default? = some v → v.IsLiteral ∧
      ∃ g, compare definitions maxDepth f.node v = some g ∧ g.outcome ≠ .incompatible
  | .selector discriminant alternatives => alternatives ≠ [] ∧
    (alternatives.map Alternative.key).Nodup ∧ ∀ a ∈ alternatives,
      ((∃ text, a.key = .string text) ∨ ∃ i, a.key = .integer i) ∧
      ∃ fields, (∀ others, definitions.MapOf a.node others ↔ others = fields) ∧
        ∀ f ∈ fields, f.name = discriminant → f.node = .primitive a.key.kind ∨ f.node = .literal a.key
  | .reference name => definitions.nodes name ≠ []

/-- Every node of the tree is well formed, and so many stand one inside the other at most. -/
structure Node.Sane (definitions : Definitions) (maxDepth : Nat) (node : Node) : Prop where
  wellFormed : ∀ m ∈ node.subnodes, m.WellFormed definitions maxDepth
  depth_le : node.depth ≤ maxDepth

/-- The node is well formed without definitions, so no name occurs in it. -/
structure Schema.WellFormed (maxDepth : Nat) (s : Schema) : Prop where
  node : s.node.Sane [] maxDepth
  no_reference : ∀ name, .reference name ∉ s.node.subnodes

/-- All bodies and definitions are well formed, and no chain of bare names leads back to its start. -/
structure Suite.WellFormed (maxDepth : Nat) (s : Suite) : Prop where
  bodies : ∀ name direction node, s.body name direction = .ok node → node.Sane s.definitions maxDepth
  definitions : ∀ name, ∀ node ∈ s.definitions.nodes name, node.Sane s.definitions maxDepth
  acyclic : s.definitions.Acyclic

/-! ## From derivations and checks to well-formed nodes -/

theorem Value.isDiscriminant_iff {v : Value} :
    v.isDiscriminant = true ↔ (∃ text, v = .string text) ∨ ∃ i, v = .integer i := by
  cases v <;> simp [isDiscriminant]

theorem Field.find?_of_mem {fields : List (Field Node)} (hnd : (fields.map Field.name).Nodup)
    {f : Field Node} (hf : f ∈ fields) : Field.find? fields f.name = some f := by
  unfold Field.find?
  induction fields with
  | nil => cases hf
  | cons e fields ih =>
    obtain ⟨hother, hnd⟩ := List.nodup_cons.1 hnd
    rw [List.find?_cons]
    rcases List.mem_cons.1 hf with rfl | hf
    · simp
    · have hne : (e.name == f.name) = false := by
        rw [beq_eq_false_iff_ne]
        exact fun heq => hother (heq ▸ List.mem_map_of_mem hf)
      rw [hne]
      exact ih hnd hf

/-- The map that a node leads to stands in the node or in a definition. -/
theorem Definitions.MapOf.cases {definitions : Definitions} {node : Node} {fields : List (Field Node)}
    (h : definitions.MapOf node fields) :
    node = .map fields ∨ ∃ name, .map fields ∈ definitions.nodes name :=
  resolveMap?_cases (resolveMap?_iff.2 h)

theorem Node.wellFormed_of {definitions : Definitions} {maxDepth : Nat} {node : Node}
    (hformed : node.Formed) (hdistinct : node.AllDistinct)
    (hdefinitions : ∀ name, ∀ n ∈ definitions.nodes name, n.AllDistinct)
    (hresolved : node.Resolved definitions maxDepth) : node.WellFormed definitions maxDepth := by
  cases node with
  | any => trivial
  | primitive => trivial
  | dictionary => trivial
  | literal v => exact hformed
  | array elements size => exact hformed
  | reference name => exact hresolved
  | map fields =>
    refine ⟨hformed.1, hdistinct.self, fun f hf v hv => ⟨hformed.2 f hf v hv, hresolved f hf v hv⟩⟩
  | selector discriminant alternatives =>
    refine ⟨hformed.1, hdistinct.self, fun a ha => ⟨?_, ?_⟩⟩
    · exact Value.isDiscriminant_iff.1 (hformed.2 a ha)
    · obtain ⟨fields, hmap, hfits⟩ := hresolved a ha
      have hnames : (fields.map Field.name).Nodup := by
        rcases hmap.cases with hnode | ⟨name, hmem⟩
        · have hpart := hdistinct.part (.alternative ha)
          rw [hnode] at hpart
          exact hpart.self
        · exact (hdefinitions name _ hmem).self
      refine ⟨fields, fun others => ⟨?_, ?_⟩, fun f hf hname => ?_⟩
      · rintro ⟨m, hm⟩
        obtain ⟨n, hn⟩ := hmap
        exact (hm.unique hn).2
      · rintro rfl
        exact hmap
      · exact hfits f (hname ▸ Field.find?_of_mem hnames hf)

theorem Node.sane_of {definitions : Definitions} {maxDepth : Nat} {node : Node}
    (hfits : Grammar.Fits maxDepth node) (hdistinct : node.AllDistinct)
    (hdefinitions : ∀ name, ∀ n ∈ definitions.nodes name, n.AllDistinct)
    (hresolved : node.AllResolved definitions maxDepth) : node.Sane definitions maxDepth := by
  refine ⟨fun m hm => ?_, hfits.1⟩
  have hpart : m.AllDistinct := fun k hk => hdistinct k (mem_subnodes_trans hk hm)
  exact wellFormed_of (hfits.2 m hm) hpart hdefinitions (hresolved m hm)

namespace Grammar

theorem Value.fits {depth : Nat} {tokens rest : List Token} {node : Node}
    (h : Value depth tokens node rest) (hlexical : ∀ t ∈ tokens, t.Lexical) : Fits depth node :=
  (Value.ensures depth _ _ _ h hlexical).1

/-- A node for any value fits wherever some value is derived. -/
theorem Value.fits_any {depth : Nat} {tokens rest : List Token} {node : Node}
    (h : Value depth tokens node rest) : Fits depth .any := by
  cases depth with
  | zero => exact h.elim
  | succ depth => exact .leaf rfl trivial fun k hk => by cases hk

/-- The name that is declared. -/
def Declaration.name : Declaration → String
  | .resource r => r.name
  | .definition name _ => name

theorem Arrow.ensures (depth : Nat) : Ensures (Arrow (Value depth)) fun x =>
    Fits depth x.2.1 ∧ Fits depth x.2.2 := by
  intro tokens x rest h hlexical
  have hlexical : ∀ t ∈ tokens.tail, t.Lexical := fun t ht => hlexical t (List.mem_of_mem_tail ht)
  cases h with
  | post hrequest hresponse =>
    obtain ⟨hfits, hlexical⟩ := Value.ensures depth _ _ _ hrequest hlexical
    obtain ⟨hfits', hrest⟩ := Value.ensures depth _ _ _ hresponse (List.forall_mem_cons.1 hlexical).2
    exact ⟨⟨hfits, hfits'⟩, hrest⟩
  | get h =>
    obtain ⟨hfits, hrest⟩ := Value.ensures depth _ _ _ h hlexical
    exact ⟨⟨h.fits_any, hfits⟩, hrest⟩
  | put h =>
    obtain ⟨hfits, hrest⟩ := Value.ensures depth _ _ _ h hlexical
    exact ⟨⟨hfits, h.fits_any⟩, hrest⟩
  | getPut h =>
    obtain ⟨hfits, hrest⟩ := Value.ensures depth _ _ _ h hlexical
    exact ⟨⟨hfits, hfits⟩, hrest⟩
  | getPutDelete h =>
    obtain ⟨hfits, hrest⟩ := Value.ensures depth _ _ _ h hlexical
    exact ⟨⟨hfits, hfits⟩, hrest⟩

/-- A declaration of a name, the nodes of which fit. -/
def Declaration.Fits (depth : Nat) (d : Declaration) : Prop :=
  Name.isName d.name.toList = true ∧ ∀ n ∈ d.nodes, Grammar.Fits depth n

theorem DeclarationRule.ensures (depth : Nat) :
    Ensures (DeclarationRule (Value depth)) (Declaration.Fits depth) := by
  intro tokens d rest h hlexical
  cases h with
  | resource hname harrow =>
    obtain ⟨hname, hlexical⟩ := Name.ensures _ _ _ hname (List.forall_mem_cons.1 hlexical).2
    obtain ⟨⟨hrequest, hresponse⟩, hrest⟩ := Arrow.ensures depth _ _ _ harrow hlexical
    refine ⟨⟨hname, fun n hn => ?_⟩, hrest⟩
    rcases List.mem_cons.1 hn with rfl | hn
    · exact hrequest
    · rw [List.mem_singleton.1 hn]
      exact hresponse
  | definition hname hnode =>
    obtain ⟨hname, hlexical⟩ := Name.ensures _ _ _ hname (List.forall_mem_cons.1 hlexical).2
    obtain ⟨hfits, hrest⟩ := Value.ensures depth _ _ _ hnode (List.forall_mem_cons.1 hlexical).2
    refine ⟨⟨hname, fun n hn => ?_⟩, hrest⟩
    rw [List.mem_singleton.1 hn]
    exact hfits

theorem Suite.fits {depth : Nat} {tokens : List Token} {ds : List Declaration}
    (h : Suite depth tokens ds) (hlexical : ∀ t ∈ tokens, t.Lexical) : ∀ d ∈ ds, d.Fits depth := by
  induction h with
  | endOfInput => exact fun _ hd => (List.not_mem_nil hd).elim
  | declaration hd _ ih =>
    obtain ⟨hfits, hrest⟩ := DeclarationRule.ensures depth _ _ _ hd hlexical
    exact List.forall_mem_cons.2 ⟨hfits, ih hrest⟩

end Grammar

/-! ## Nodes of what is collected -/

namespace Collects

variable {ds : List Grammar.Declaration} {resources : Entries Resource} {definitions : Definitions}

theorem exists_definition (h : Collects ds resources definitions) {name : String} {node : Node}
    (hnode : node ∈ definitions.nodes name) : .definition name node ∈ ds := by
  rw [h.nodes_eq, List.mem_filterMap] at hnode
  obtain ⟨d, hd, hof⟩ := hnode
  cases d with
  | resource r => cases hof
  | definition other n =>
    unfold Grammar.Declaration.definitionOf? at hof
    simp only at hof
    split at hof
    · rename_i heq
      cases hof
      exact heq ▸ hd
    · cases hof

/-- What holds of all nodes that are declared holds of all definitions. -/
theorem forall_definitions {P : Node → Prop} (h : Collects ds resources definitions)
    (hP : ∀ d ∈ ds, ∀ n ∈ d.nodes, P n) : ∀ name, ∀ n ∈ definitions.nodes name, P n :=
  fun _ n hn => hP _ (h.exists_definition hn) n (List.mem_singleton_self n)

/-- What holds of all nodes that are declared holds of all bodies. -/
theorem forall_bodies {P : Node → Prop} (h : Collects ds resources definitions)
    (hP : ∀ d ∈ ds, ∀ n ∈ d.nodes, P n) {name : String} {r : Resource}
    (hr : Entries.get? resources name = some r) (direction : Direction) : P (r.body direction) := by
  have hmem := ((h.resource_iff name r).1 hr).1
  cases direction with
  | request => exact hP _ hmem _ List.mem_cons_self
  | response => exact hP _ hmem _ (List.mem_cons_of_mem _ List.mem_cons_self)

end Collects

/-! ## Calls of the reader -/

namespace Parser

variable {maxDepth : Nat} {s t : State}

/-- A schema that a call returns nests no deeper than was asked for, and every node of it is formed. -/
theorem schema_fits (hs : s.Proper) {schema : Schema} (h : Runs (Parser.schema maxDepth) s schema t) :
    Grammar.Fits maxDepth schema.node := by
  obtain ⟨-, hderived, -⟩ := schema_ok hs h
  exact hderived.fits hs.lexical_tokens

/-- **A schema that a call returns is well formed**, whatever has been noted down before. -/
theorem schema_wellFormed (hs : s.Proper) {schema : Schema}
    (h : Runs (Parser.schema maxDepth) s schema t) : schema.WellFormed maxDepth := by
  obtain ⟨-, hderived, noted, hnode, hall⟩ := schema_ok hs h
  have hsub : noted ⊆ s.checks ++ noted := List.subset_append_right _ _
  have hpasses := passes_of_resolve Definitions.inhabited_nil hnode.amounts.formed hsub hall
  have hresolved := (hnode.amounts.passes _ _).1 hpasses
  refine ⟨?_, fun name hmem => hresolved _ hmem rfl⟩
  exact Node.sane_of (hderived.fits hs.lexical_tokens) hnode.distinct
    (fun name n hn => (List.not_mem_nil hn).elim) hresolved

/-- **A suite that a call returns is well formed**, whatever has been noted down before. -/
theorem suite_wellFormed (hs : s.Proper) {suite : Suite}
    (h : Runs (Parser.suite maxDepth) s suite t) : suite.WellFormed maxDepth := by
  obtain ⟨ds, noted, d, rfl, hderived, hcollected, hds, hall⟩ := suite_ok hs h
  have hcollects := hcollected.collects
  have hsub : noted ⊆ s.checks ++ noted := List.subset_append_right _ _
  have hpasses := passes_of_resolve hcollects.inhabited hds.amounts.formed hsub hall
  have hresolved := (hds.amounts.passes _ _).1 hpasses
  have hfits := hderived.fits hs.lexical_tokens
  have hsane : ∀ e ∈ ds, ∀ n ∈ e.nodes, n.Sane d.definitions maxDepth := fun e he n hn =>
    Node.sane_of ((hfits e he).2 n hn) (hds.distinct e he n hn)
      (hcollects.forall_definitions hds.distinct) (hresolved e he n hn)
  refine ⟨fun name direction node hbody => ?_, hcollects.forall_definitions hsane, ?_⟩
  · unfold Suite.body Suite.resource at hbody
    cases hget : Entries.get? d.resources name with
    | none =>
      rw [hget] at hbody
      cases hbody
    | some r =>
      rw [hget] at hbody
      cases hbody
      exact hcollects.forall_bodies hsane hget direction
  · exact (Definitions.acyclic_iff hcollected.positions).2 (resolve_ok_iff_runs.1 hall).2

/-- **Everything that the reader returns is well formed.** Whatever calls on one text have been made, each
with its own number of levels and whether it succeeded or failed, the schema or the suite that the next
call returns is well formed for the number of levels it was asked for. -/
theorem returns_wellFormed {text : String} (h : Reachable text s) (maxDepth : Nat) :
    (∀ schema t, Parser.schema maxDepth s = .ok schema t → schema.WellFormed maxDepth) ∧
      ∀ suite t, Parser.suite maxDepth s = .ok suite t → suite.WellFormed maxDepth :=
  ⟨fun _ _ => schema_wellFormed h.proper, fun _ _ => suite_wellFormed h.proper⟩

/-- The first call fails at a character that begins no token and leaves the check of a default behind. The
second goes on from the bracket before it. -/
theorem returns_wellFormed_second_call : ∃ s t schema,
    Reachable "[ \x7b n: int = 1 \x7d, [ ~ int ]" s ∧ s.checks.length = 1 ∧
      Parser.schema 128 s = .ok schema t ∧ schema.node = .array [.primitive .integer] .exact ∧
      schema.WellFormed 128 := by
  have hcalls : ∃ s t, Reachable "[ \x7b n: int = 1 \x7d, [ ~ int ]" s ∧ s.checks.length = 1 ∧
      Parser.schema 128 s = .ok { node := .array [.primitive .integer] .exact } t :=
    ⟨_, _, .schema 128 (.start rfl), rfl, rfl⟩
  obtain ⟨s, t, hs, hchecks, hschema⟩ := hcalls
  exact ⟨s, t, _, hs, hchecks, hschema, rfl, (returns_wellFormed hs 128).1 _ _ hschema⟩

end Parser

/-! ## Whole texts -/

theorem Schema.wellFormed_of_text {text : String} {maxDepth : Nat} {s : Schema}
    (h : Schema.ofText text maxDepth = .ok s) : s.WellFormed maxDepth := by
  obtain ⟨start, rest, hstart, hrun⟩ := Parser.run_ok_iff.1 h
  exact Parser.schema_wellFormed (Parser.start_proper hstart) hrun

theorem Schema.allFormed_of_text {text : String} {maxDepth : Nat} {s : Schema}
    (h : Schema.ofText text maxDepth = .ok s) : s.node.AllFormed := by
  obtain ⟨start, rest, hstart, hrun⟩ := Parser.run_ok_iff.1 h
  exact (Parser.schema_fits (Parser.start_proper hstart) hrun).2

theorem Suite.wellFormed_of_text {text : String} {maxDepth : Nat} {s : Suite}
    (h : Suite.ofText text maxDepth = .ok s) : s.WellFormed maxDepth := by
  obtain ⟨start, rest, hstart, hrun⟩ := Parser.run_ok_iff.1 h
  exact Parser.suite_wellFormed (Parser.start_proper hstart) hrun

/-- The nodes that a body of a well-formed suite leads to are well formed. -/
theorem Suite.WellFormed.everywhere {maxDepth : Nat} {s : Suite} (h : s.WellFormed maxDepth)
    {name : String} {direction : Direction} {node : Node} (hbody : s.body name direction = .ok node) :
    s.definitions.Everywhere (Node.WellFormed s.definitions maxDepth) node :=
  ⟨(h.bodies name direction node hbody).wellFormed, fun name n hn => (h.definitions name n hn).wellFormed⟩

end Conformance
