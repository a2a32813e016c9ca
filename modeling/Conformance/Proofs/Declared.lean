import Conformance.Proofs.Reading

/-!
# What declarations make up

A suite is collected from its declarations one after the other. What has been collected is determined by
the declarations alone: the resource of each name, and the definitions of each name in their order.

* `Collects` — resources and definitions that make up just what is declared; `Collects.unique`.
* `Collects.resource`, `Collects.definition` — one more declaration.
* `Parser.Reads.declarations` — the declarations that are read are derived, and have been collected.
-/

set_option autoImplicit false

namespace Conformance

namespace Grammar.Declaration

/-- The resource that is declared. -/
def resource? : Declaration → Option Resource
  | .resource r => some r
  | .definition _ _ => none

/-- The node that is declared for the name. -/
def definitionOf? (name : String) : Declaration → Option Node
  | .resource _ => none
  | .definition other node => if other = name then some node else none

/-- The nodes of the declaration. -/
def nodes : Declaration → List Node
  | .resource r => [r.request, r.response]
  | .definition _ node => [node]

end Grammar.Declaration

open Grammar (Declaration)

/-- The names of the resources that are declared. -/
def Grammar.resourceNames (ds : List Declaration) : List String :=
  (ds.filterMap Declaration.resource?).map Resource.name

/-- The resources and definitions are those of the declarations, in the order of their names. -/
structure Collects (ds : List Declaration) (resources : Entries Resource)
    (definitions : Definitions) : Prop where
  resources_sorted : resources.Sorted
  definitions_sorted : definitions.Sorted
  resource_iff : ∀ name r, Entries.get? resources name = some r ↔ .resource r ∈ ds ∧ r.name = name
  nodes_eq : ∀ name, definitions.nodes name = ds.filterMap (Declaration.definitionOf? name)
  inhabited : definitions.Inhabited

theorem Definitions.nodes_declare (definitions : Definitions) (name : String) (node : Node)
    (other : String) : (definitions.declare name node).nodes other =
      if other = name then definitions.nodes name ++ [node] else definitions.nodes other := by
  unfold nodes declare
  rw [Entries.get?_insert]
  split <;> rfl

theorem Definitions.get?_eq_of_nodes {a b : Definitions} (ha : a.Inhabited) (hb : b.Inhabited)
    (h : ∀ name, a.nodes name = b.nodes name) (name : String) :
    Entries.get? a name = Entries.get? b name := by
  have heq := h name
  have hsome : (Entries.get? a name).isSome = (Entries.get? b name).isSome := by
    rw [Bool.eq_iff_iff, ← nodes_ne_nil_iff ha, ← nodes_ne_nil_iff hb, heq]
  unfold nodes at heq
  cases hgeta : Entries.get? a name with
  | none =>
    cases hgetb : Entries.get? b name with
    | none => rfl
    | some ns =>
      rw [hgeta, hgetb] at hsome
      cases hsome
  | some ms =>
    cases hgetb : Entries.get? b name with
    | none =>
      rw [hgeta, hgetb] at hsome
      cases hsome
    | some ns =>
      rw [hgeta, hgetb] at heq
      exact congrArg some heq

namespace Collects

variable {ds : List Declaration} {resources others : Entries Resource}
  {definitions more : Definitions}

theorem empty : Collects [] [] [] where
  resources_sorted := List.Pairwise.nil
  definitions_sorted := List.Pairwise.nil
  resource_iff := by simp
  nodes_eq := fun _ => rfl
  inhabited := fun _ h => by cases h

theorem resource (h : Collects ds resources definitions) {r : Resource}
    (hnew : Entries.get? resources r.name = none) :
    Collects (ds ++ [.resource r]) (Entries.insert r.name r resources) definitions where
  resources_sorted := Entries.sorted_insert h.resources_sorted
  definitions_sorted := h.definitions_sorted
  resource_iff := by
    intro name q
    rw [Entries.get?_insert, List.mem_append, List.mem_singleton, Declaration.resource.injEq]
    split
    · rename_i heq
      subst heq
      have hold : ¬ (.resource q ∈ ds ∧ q.name = r.name) := fun hmem => by
        rw [(h.resource_iff _ _).2 hmem] at hnew
        cases hnew
      constructor
      · rintro ⟨⟩
        exact ⟨.inr rfl, rfl⟩
      · rintro ⟨hq | rfl, hname⟩
        · exact (hold ⟨hq, hname⟩).elim
        · rfl
    · rename_i hne
      rw [h.resource_iff]
      constructor
      · exact fun hq => ⟨.inl hq.1, hq.2⟩
      · rintro ⟨hq | rfl, hname⟩
        · exact ⟨hq, hname⟩
        · exact absurd hname.symm hne
  nodes_eq := by
    intro name
    rw [h.nodes_eq, List.filterMap_append]
    exact (List.append_nil _).symm
  inhabited := h.inhabited

theorem definition (h : Collects ds resources definitions) (name : String) (node : Node) :
    Collects (ds ++ [.definition name node]) resources (definitions.declare name node) where
  resources_sorted := h.resources_sorted
  definitions_sorted := Entries.sorted_insert h.definitions_sorted
  resource_iff := by
    intro other r
    rw [h.resource_iff]
    simp
  nodes_eq := by
    intro other
    rw [Definitions.nodes_declare, List.filterMap_append, h.nodes_eq, h.nodes_eq]
    split
    · rename_i heq
      subst heq
      simp [Declaration.definitionOf?]
    · rename_i hne
      simp [Declaration.definitionOf?, Ne.symm hne]
  inhabited := by
    intro other hsome
    rw [Definitions.nodes_declare]
    unfold Definitions.declare at hsome
    rw [Entries.get?_insert] at hsome
    split
    · exact List.append_ne_nil_of_right_ne_nil _ (List.cons_ne_nil _ _)
    · rename_i hne
      rw [if_neg hne] at hsome
      exact h.inhabited other hsome

/-- **Declarations make up one suite only.** -/
theorem unique (h : Collects ds resources definitions) (h' : Collects ds others more) :
    resources = others ∧ definitions = more := by
  refine ⟨h.resources_sorted.ext h'.resources_sorted fun name => Option.ext fun r => ?_,
    h.definitions_sorted.ext h'.definitions_sorted ?_⟩
  · exact (h.resource_iff name r).trans (h'.resource_iff name r).symm
  · refine Definitions.get?_eq_of_nodes h.inhabited h'.inhabited fun name => ?_
    rw [h.nodes_eq, h'.nodes_eq]

end Collects

namespace Parser

/-- What has been read so far is collected, with distinct names of resources and a position for each name
that is defined. -/
structure Declarations.Collected (ds : List Declaration) (d : Declarations) : Prop where
  collects : Collects ds d.resources d.definitions
  names : (Grammar.resourceNames ds).Nodup
  positions : ∀ name, d.definitions.nodes name ≠ [] → ∃ e ∈ d.positions, e.1 = name

theorem Declarations.Collected.empty : Declarations.Collected [] {} :=
  ⟨.empty, List.nodup_nil, fun _ h => absurd rfl h⟩

theorem Declarations.Collected.mem_resourceNames {ds : List Declaration} {d : Declarations}
    (h : d.Collected ds) {name : String} :
    name ∈ Grammar.resourceNames ds ↔ (Entries.get? d.resources name).isSome = true := by
  unfold Grammar.resourceNames
  rw [List.mem_map, Option.isSome_iff_exists]
  refine exists_congr fun r => ?_
  rw [h.collects.resource_iff, List.mem_filterMap]
  refine and_congr_left fun _ => ?_
  constructor
  · rintro ⟨d, hd, hr⟩
    cases d with
    | resource q =>
      cases hr
      exact hd
    | definition => cases hr
  · exact fun hr => ⟨_, hr, rfl⟩

theorem Declarations.Collected.resource {ds : List Declaration} {d : Declarations}
    (h : d.Collected ds) {r : Resource} (hnew : Entries.get? d.resources r.name = none) :
    Declarations.Collected (ds ++ [.resource r])
      { d with resources := Entries.insert r.name r d.resources } := by
  refine ⟨h.collects.resource hnew, ?_, h.positions⟩
  have happend : Grammar.resourceNames (ds ++ [.resource r]) =
      Grammar.resourceNames ds ++ [r.name] := by
    unfold Grammar.resourceNames
    rw [List.filterMap_append, List.map_append]
    rfl
  rw [happend]
  refine List.nodup_append.2 ⟨h.names, List.nodup_singleton _, fun a ha b hb => ?_⟩
  rintro rfl
  rw [h.mem_resourceNames, List.mem_singleton.1 hb, hnew] at ha
  cases ha

theorem Declarations.Collected.definition {ds : List Declaration} {d : Declarations}
    (h : d.Collected ds) (name : String) (node : Node) (place : Position) :
    Declarations.Collected (ds ++ [.definition name node])
      { d with
        definitions := d.definitions.declare name node
        positions := if (Entries.get? d.positions name).isSome then d.positions
          else Entries.insert name place d.positions } := by
  refine ⟨h.collects.definition name node, ?_, fun other hother => ?_⟩
  · have happend : Grammar.resourceNames (ds ++ [.definition name node]) =
        Grammar.resourceNames ds := by
      unfold Grammar.resourceNames
      rw [List.filterMap_append, List.map_append]
      exact List.append_nil _
    rw [happend]
    exact h.names
  · have hpositions : other = name ∨ ∃ e ∈ d.positions, e.1 = other := by
      by_cases heq : other = name
      · exact .inl heq
      · rw [Definitions.nodes_declare, if_neg heq] at hother
        exact .inr (h.positions other hother)
    have hget : ∀ {entries : Entries Position} {key : String},
        (Entries.get? entries key).isSome = true → ∃ e ∈ entries, e.1 = key := by
      intro entries key hsome
      obtain ⟨place, hplace⟩ := Option.isSome_iff_exists.1 hsome
      exact ⟨_, Entries.mem_of_get? hplace, rfl⟩
    simp only
    split
    · rename_i hsome
      rcases hpositions with rfl | hpositions
      · exact hget hsome
      · exact hpositions
    · refine hget ?_
      rw [Entries.get?_insert]
      split
      · rfl
      · rename_i hne
        obtain ⟨e, he, rfl⟩ := hpositions.resolve_left hne
        have hsome := Entries.get?_eq_none.not.2 fun hall => hall e he rfl
        exact Option.isSome_iff_ne_none.2 hsome

/-- The declarations have been noted. -/
structure NotedDeclarations (ds : List Declaration) (noted : List Check) : Prop where
  distinct : ∀ d ∈ ds, ∀ n ∈ d.nodes, n.AllDistinct
  amounts : Amounts noted fun definitions maxDepth =>
    ∀ d ∈ ds, ∀ n ∈ d.nodes, n.AllResolved definitions maxDepth

theorem NotedDeclarations.nil : NotedDeclarations [] [] :=
  ⟨by simp, Amounts.nil.congr fun definitions maxDepth => by simp⟩

theorem NotedDeclarations.cons {d : Declaration} {ds : List Declaration} {noted more : List Check}
    (hdistinct : ∀ n ∈ d.nodes, n.AllDistinct) (hamounts : Amounts noted fun definitions maxDepth =>
      ∀ n ∈ d.nodes, n.AllResolved definitions maxDepth) (hrest : NotedDeclarations ds more) :
    NotedDeclarations (d :: ds) (noted ++ more) :=
  ⟨List.forall_mem_cons.2 ⟨hdistinct, hrest.distinct⟩,
    (hamounts.append hrest.amounts).congr fun definitions maxDepth => by rw [List.forall_mem_cons]⟩

namespace Reads

theorem any_noted : Node.any.Noted [] :=
  .leaf trivial (fun k hk => by cases hk) fun _ _ => trivial

/-- The bodies of a resource have been noted. -/
structure NotedBodies (r : Resource) (noted : List Check) : Prop where
  distinct : r.request.AllDistinct ∧ r.response.AllDistinct
  amounts : Amounts noted fun definitions maxDepth =>
    r.request.AllResolved definitions maxDepth ∧ r.response.AllResolved definitions maxDepth

theorem NotedBodies.of_noted {r : Resource} {noted more : List Check} (h : r.request.Noted noted)
    (h' : r.response.Noted more) : NotedBodies r (noted ++ more) :=
  ⟨⟨h.distinct, h'.distinct⟩, h.amounts.append h'.amounts⟩

/-- One body for both directions is noted once. -/
theorem NotedBodies.of_both {name : String} {access : Access} {node : Node} {noted : List Check}
    (h : node.Noted noted) : NotedBodies ⟨name, access, node, node⟩ noted :=
  ⟨⟨h.distinct, h.distinct⟩, h.amounts.congr fun _ _ => (and_self_iff).symm⟩

theorem resource (maxDepth : Nat) (name : String) : Reads (Parser.resource maxDepth name)
    (fun tokens r rest => r.name = name ∧
      Grammar.Arrow (Grammar.Value maxDepth) tokens (r.access, r.request, r.response) rest)
    NotedBodies := by
  have hkeeps := Keeps.value steady_proper maxDepth
  intro s r t hs h
  unfold Parser.resource at h
  obtain ⟨token, s₁, hcurrent, h⟩ := h.bind
  obtain ⟨htoken, rfl⟩ := current_ok hcurrent
  split at h
  · cases h
  · rename_i access haccess
    obtain ⟨u, s₂, hadvance, h⟩ := h.bind
    have hend : token ≠ .endOfInput := by
      rintro rfl
      cases haccess
    obtain ⟨htokens, hchecks, hs₂⟩ := advance_takes hs htoken hend hadvance
    obtain ⟨first, s₃, hfirst, h⟩ := h.bind
    obtain ⟨hderived, noted, hnoted, hfirst'⟩ := value maxDepth _ _ _ hs₂ hfirst
    rw [htokens, ← hchecks]
    have harrow : ∃ symbol, token = .symbol symbol := by
      cases token with
      | symbol symbol => exact ⟨symbol, rfl⟩
      | _ => cases haccess
    obtain ⟨symbol, rfl⟩ := harrow
    split at h
    · obtain ⟨u', s₄, hexpect, h⟩ := h.bind
      obtain ⟨hresult, hchecks₄, hs₄⟩ := expect_ok (hkeeps.of_ok hs₂ hfirst) hexpect
      obtain ⟨second, s₅, hsecond, h⟩ := h.bind
      cases h
      obtain ⟨hderived', more, hmore, hsecond'⟩ := value maxDepth _ _ _ hs₄ hsecond
      cases symbol <;> cases haccess
      refine ⟨⟨rfl, .post (hresult ▸ hderived) hderived'⟩, noted ++ more, ?_,
        .of_noted hfirst' hsecond'⟩
      rw [hmore, hchecks₄, hnoted, List.append_assoc]
    · cases h
      cases symbol <;> cases haccess
      have hbodies : NotedBodies ⟨name, .get, .any, first⟩ ([] ++ noted) := .of_noted any_noted hfirst'
      exact ⟨⟨rfl, .get hderived⟩, noted, hnoted, hbodies⟩
    · cases h
      cases symbol <;> cases haccess
      exact ⟨⟨rfl, .put hderived⟩, noted, hnoted, List.append_nil noted ▸ .of_noted hfirst' any_noted⟩
    · cases h
      cases symbol <;> cases haccess
      exact ⟨⟨rfl, .getPut hderived⟩, noted, hnoted, .of_both hfirst'⟩
    · cases h
      cases symbol <;> cases haccess
      exact ⟨⟨rfl, .getPutDelete hderived⟩, noted, hnoted, .of_both hfirst'⟩

/-- **Declarations that are read up to the end of the text are derived and collected**, after those that
have been collected before. -/
theorem declarations (maxDepth bound : Nat) {before : List Declaration} {d d' : Declarations}
    {s t : State} (hs : s.Proper) (hd : d.Collected before)
    (h : Runs (Parser.declarations maxDepth bound d) s d' t) :
    ∃ ds, Grammar.Suite maxDepth s.tokens ds ∧ d'.Collected (before ++ ds) ∧
      ∃ noted, t.checks = s.checks ++ noted ∧ NotedDeclarations ds noted := by
  have hkeeps := Keeps.value steady_proper maxDepth
  induction bound generalizing before d s with
  | zero => cases h
  | succ bound ih =>
    unfold Parser.declarations at h
    obtain ⟨token, s₁, hcurrent, h⟩ := h.bind
    obtain ⟨htoken, rfl⟩ := current_ok hcurrent
    split at h
    · cases h
      have htokens : t.tokens = [.endOfInput] := by
        unfold State.tokens
        rw [hs.ended.2 htoken, htoken]
        rfl
      refine ⟨[], htokens ▸ .endOfInput, ?_, [], (List.append_nil _).symm, .nil⟩
      rwa [List.append_nil]
    · obtain ⟨u, s₂, hadvance, h⟩ := h.bind
      obtain ⟨htokens, hchecks₂, hs₂⟩ := advance_takes hs htoken nofun hadvance
      obtain ⟨place, s₃, hplace, h⟩ := h.bind
      obtain rfl := position_ok hplace
      obtain ⟨name, s₃, hname, h⟩ := h.bind
      have hs₃ := (Keeps.name steady_proper).of_ok hs₂ hname
      obtain ⟨hname, hchecks₃⟩ := takes_name _ _ _ hs₂ hname
      split at h
      · cases h
      · rename_i hnew
        obtain ⟨r, s₄, hr, h⟩ := h.bind
        have hs₄ := (Keeps.resource steady_proper maxDepth name).of_ok hs₃ hr
        obtain ⟨⟨rfl, harrow⟩, noted, hnoted, hbodies⟩ := resource maxDepth name _ _ _ hs₃ hr
        have hnew : Entries.get? d.resources r.name = none := by simpa using hnew
        obtain ⟨ds, hsuite, hcollected, more, hmore, hds⟩ := ih hs₄ (hd.resource hnew) h
        refine ⟨.resource r :: ds, ?_, ?_, noted ++ more, ?_, .cons ?_ ?_ hds⟩
        · exact .declaration (htokens ▸ .resource hname harrow) hsuite
        · rwa [List.append_assoc] at hcollected
        · rw [hmore, hnoted, hchecks₃, hchecks₂, List.append_assoc]
        · simpa [Declaration.nodes] using hbodies.distinct
        · exact hbodies.amounts.congr fun definitions maxDepth => by simp [Declaration.nodes]
    · obtain ⟨u, s₂, hadvance, h⟩ := h.bind
      obtain ⟨htokens, hchecks₂, hs₂⟩ := advance_takes hs htoken nofun hadvance
      obtain ⟨place, s₃, hplace, h⟩ := h.bind
      obtain rfl := position_ok hplace
      obtain ⟨name, s₃, hname, h⟩ := h.bind
      have hs₃ := (Keeps.name steady_proper).of_ok hs₂ hname
      obtain ⟨hname, hchecks₃⟩ := takes_name _ _ _ hs₂ hname
      obtain ⟨u', s₄, hequals, h⟩ := h.bind
      obtain ⟨hequals, hchecks₄, hs₄⟩ := expect_ok hs₃ hequals
      obtain ⟨node, s₅, hnode, h⟩ := h.bind
      have hs₅ := hkeeps.of_ok hs₄ hnode
      obtain ⟨hderived, noted, hnoted, hnode'⟩ := value maxDepth _ _ _ hs₄ hnode
      obtain ⟨ds, hsuite, hcollected, more, hmore, hds⟩ := ih hs₅ (hd.definition name node place) h
      refine ⟨.definition name node :: ds, ?_, ?_, noted ++ more, ?_, .cons ?_ ?_ hds⟩
      · exact .declaration (htokens ▸ .definition (hequals ▸ hname) hderived) hsuite
      · rwa [List.append_assoc] at hcollected
      · rw [hmore, hnoted, hchecks₄, hchecks₃, hchecks₂, List.append_assoc]
      · simpa [Declaration.nodes] using hnode'.distinct
      · exact hnode'.amounts.congr fun definitions maxDepth => by simp [Declaration.nodes]
    · cases h

end Reads

end Parser

end Conformance
