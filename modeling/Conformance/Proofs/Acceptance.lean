import Conformance.Proofs.Completeness

/-!
# The reader accepts exactly the grammar

A text without faults in its tokens is accepted as a schema or a suite just where its tokens derive one,
and the conditions hold that are not a matter of grammar. What is read is the tree of the derivation, and
there is no other.

* `Parser.schema_iff`, `Parser.suite_iff` — what a call on a text from its beginning gives.
* `Parser.accepts_iff_derivable` — schemas, suites, and the derivations of either.
-/

set_option autoImplicit false

namespace Conformance

open Relation (TransGen)

theorem Definitions.acyclic_nil : Definitions.Acyclic [] := by
  intro name hcycle
  obtain ⟨next, hnext, -⟩ := Relation.TransGen.head'_iff.1 hcycle
  exact List.not_mem_nil hnext

theorem Definitions.inhabited_nil : Definitions.Inhabited [] := fun _ h => by cases h

namespace Parser

theorem run_ok_iff {α : Type} {parser : Parser α} {text : String} {a : α} :
    parser.run text = .ok a ↔ ∃ s t, start text = .ok s ∧ Runs parser s a t := by
  unfold Parser.run
  cases hs : start text with
  | error e => simp [bind, Except.bind]
  | ok s =>
    simp only [bind, Except.bind, Except.ok.injEq, exists_and_left, exists_eq_left']
    unfold Runs
    cases parser s with
    | ok b t => simp
    | error e t => simp

theorem resolveAll_runs_iff {definitions : Definitions} {positions : Entries Position} {maxDepth : Nat}
    {s t : State} : Runs (resolveAll definitions positions maxDepth) s () t ↔
      resolve definitions positions maxDepth s.checks = .ok () ∧ t = { s with checks := [] } := by
  constructor
  · intro h
    refine ⟨resolveAll_ok h, ?_⟩
    have hresolve := resolveAll_ok h
    unfold resolveAll at h
    obtain ⟨a, s₁, hget, h⟩ := h.bind
    cases hget
    obtain ⟨b, s₂, hmodify, h⟩ := h.bind
    cases hmodify
    rw [hresolve] at h
    cases h
    rfl
  · rintro ⟨hresolve, rfl⟩
    have hget : Runs (MonadState.get : Parser State) s s s := rfl
    have hmodify : Runs (modify fun s => { s with checks := [] } : Parser Unit) s ()
        { s with checks := [] } := rfl
    unfold Runs resolveAll
    rw [bind_of_ok hget, bind_of_ok hmodify, hresolve]
    rfl

theorem tokens_of_ended {s : State} (hs : s.Proper) (h : s.current = .endOfInput) :
    s.tokens = [.endOfInput] := by
  unfold State.tokens
  rw [hs.ended.2 h, h]
  rfl

variable {maxDepth : Nat} {s : State}

/-- What a call that reads a schema has found, and noted down to be checked along with what was there. -/
theorem schema_ok (hs : s.Proper) {t : State} {schema : Schema}
    (h : Runs (Parser.schema maxDepth) s schema t) : schema.maxDepth = defaultMaxDepth ∧
      Grammar.Value maxDepth s.tokens schema.node [.endOfInput] ∧ ∃ noted, schema.node.Noted noted ∧
        resolve [] [] maxDepth (s.checks ++ noted) = .ok () := by
  unfold Parser.schema at h
  obtain ⟨node, s₁, hnode, h⟩ := h.bind
  have hs₁ := (Keeps.value steady_proper maxDepth).of_ok hs hnode
  obtain ⟨hderived, noted, hnoted, hnode⟩ := Reads.value maxDepth _ _ _ hs hnode
  obtain ⟨token, s₂, hcurrent, h⟩ := h.bind
  obtain ⟨htoken, rfl⟩ := current_ok hcurrent
  split at h
  · rename_i hend
    obtain ⟨u, s₂, hall, h⟩ := h.bind
    cases h
    obtain ⟨hall, -⟩ := resolveAll_runs_iff.1 hall
    rw [tokens_of_ended hs₁ (htoken.trans hend)] at hderived
    exact ⟨rfl, hderived, noted, hnode, hnoted ▸ hall⟩
  · cases h

/-- What a call that reads a suite has found, and noted down to be checked along with what was there. -/
theorem suite_ok (hs : s.Proper) {t : State} {suite : Suite}
    (h : Runs (Parser.suite maxDepth) s suite t) : ∃ ds noted, ∃ d : Declarations,
      suite = { resources := d.resources, definitions := d.definitions } ∧
      Grammar.Suite maxDepth s.tokens ds ∧ d.Collected ds ∧ NotedDeclarations ds noted ∧
      resolve d.definitions d.positions maxDepth (s.checks ++ noted) = .ok () := by
  unfold Parser.suite at h
  obtain ⟨bound, s₁, hbound, h⟩ := h.bind
  obtain rfl := listBound_ok hbound
  obtain ⟨d, s₁, hd, h⟩ := h.bind
  obtain ⟨ds, hderived, hcollected, noted, hnoted, hds⟩ :=
    Reads.declarations maxDepth bound hs .empty hd
  rw [List.nil_append] at hcollected
  obtain ⟨u, s₂, hall, h⟩ := h.bind
  cases h
  obtain ⟨hall, -⟩ := resolveAll_runs_iff.1 hall
  exact ⟨ds, noted, d, rfl, hderived, hcollected, hds, hnoted ▸ hall⟩

/-- **A call that reads a schema**, from any proper state in which nothing has been noted down. -/
theorem schema_iff (hs : s.Proper) (hchecks : s.checks = []) (schema : Schema) :
    (∃ t, Runs (Parser.schema maxDepth) s schema t) ↔ schema.maxDepth = defaultMaxDepth ∧
      Grammar.Value maxDepth s.tokens schema.node [.endOfInput] ∧ schema.node.AllDistinct ∧
      schema.node.AllResolved [] maxDepth := by
  have hresolve : ∀ {node : Node} {noted : List Check}, node.Noted noted →
      (resolve [] [] maxDepth noted = .ok () ↔ node.AllResolved [] maxDepth) := by
    intro node noted h
    rw [resolve_ok_iff Definitions.inhabited_nil (fun _ hne => absurd rfl hne) h.amounts.formed,
      h.amounts.passes, and_iff_left Definitions.acyclic_nil]
  constructor
  · rintro ⟨t, h⟩
    obtain ⟨hdepth, hderived, noted, hnode, hall⟩ := schema_ok hs h
    rw [hchecks, List.nil_append, hresolve hnode] at hall
    exact ⟨hdepth, hderived, hnode.distinct, hall⟩
  · rintro ⟨hdepth, hderived, hdistinct, hresolved⟩
    obtain ⟨s₁, hnode, hs₁⟩ := Finds.value maxDepth s _ _ _ hderived hdistinct
    obtain ⟨-, noted, hnoted, hnode'⟩ := Reads.value maxDepth _ _ _ hs hnode
    have hall : resolve [] [] maxDepth s₁.checks = .ok () := by
      rw [hnoted, hchecks, List.nil_append]
      exact (hresolve hnode').2 hresolved
    refine ⟨{ s₁ with checks := [] }, ?_⟩
    unfold Runs Parser.schema
    rw [bind_of_ok hnode, bind_current (State.current_of_tokens hs₁), if_pos rfl,
      bind_of_ok (resolveAll_runs_iff.2 ⟨hall, rfl⟩), ← hdepth]
    rfl

/-- **A call that reads a suite**, from any proper state in which nothing has been noted down. -/
theorem suite_iff (hs : s.Proper) (hchecks : s.checks = []) (suite : Suite) :
    (∃ t, Runs (Parser.suite maxDepth) s suite t) ↔ suite.maxDepth = defaultMaxDepth ∧
      ∃ ds, Grammar.Suite maxDepth s.tokens ds ∧ (Grammar.resourceNames ds).Nodup ∧
        Collects ds suite.resources suite.definitions ∧
        (∀ d ∈ ds, ∀ n ∈ d.nodes, n.AllDistinct ∧ n.AllResolved suite.definitions maxDepth) ∧
        suite.definitions.Acyclic := by
  have hresolve : ∀ {ds : List Grammar.Declaration} {d : Declarations} {noted : List Check},
      d.Collected ds → NotedDeclarations ds noted →
      (resolve d.definitions d.positions maxDepth noted = .ok () ↔
        (∀ e ∈ ds, ∀ n ∈ e.nodes, n.AllResolved d.definitions maxDepth) ∧ d.definitions.Acyclic) := by
    intro ds d noted hd h
    rw [resolve_ok_iff hd.collects.inhabited hd.positions h.amounts.formed, h.amounts.passes]
  constructor
  · rintro ⟨t, h⟩
    obtain ⟨ds, noted, d, rfl, hderived, hcollected, hds, hall⟩ := suite_ok hs h
    rw [hchecks, List.nil_append, hresolve hcollected hds] at hall
    refine ⟨rfl, ds, hderived, hcollected.names, hcollected.collects, fun e he n hn => ?_, hall.2⟩
    exact ⟨hds.distinct e he n hn, hall.1 e he n hn⟩
  · rintro ⟨hdepth, ds, hderived, hnames, hcollects, hnodes, hacyclic⟩
    have hdistinct : ∀ e ∈ ds, ∀ n ∈ e.nodes, n.AllDistinct := fun e he n hn => (hnodes e he n hn).1
    have hnames : (Grammar.resourceNames ([] ++ ds)).Nodup := hnames
    obtain ⟨d, s₁, hd⟩ := declarations_of_suite hderived hdistinct hnames .empty rfl s.length_tokens_le
    obtain ⟨es, hderived', hcollected, noted, hnoted, hes⟩ :=
      Reads.declarations maxDepth _ hs .empty hd
    rw [List.nil_append] at hcollected
    obtain rfl := Grammar.Suite.unique hderived' hderived
    obtain ⟨hresources, hdefinitions⟩ := hcollected.collects.unique hcollects
    have hall : resolve d.definitions d.positions maxDepth s₁.checks = .ok () := by
      rw [hnoted, hchecks, List.nil_append, hresolve hcollected hes, hdefinitions]
      exact ⟨fun e he n hn => (hnodes e he n hn).2, hacyclic⟩
    refine ⟨{ s₁ with checks := [] }, ?_⟩
    unfold Runs Parser.suite
    rw [bind_listBound, bind_of_ok hd, bind_of_ok (resolveAll_runs_iff.2 ⟨hall, rfl⟩),
      hresources, hdefinitions, ← hdepth]
    rfl

end Parser

variable {text : String} {tokens : List Token}

theorem Schema.ofText_iff (h : Lexed text tokens) (maxDepth : Nat) (s : Schema) :
    Schema.ofText text maxDepth = .ok s ↔ s.maxDepth = defaultMaxDepth ∧
      Grammar.Value maxDepth tokens s.node [.endOfInput] ∧ s.node.AllDistinct ∧
      s.node.AllResolved [] maxDepth := by
  obtain ⟨start, hstart, rfl, hchecks⟩ := Parser.start_of_lexed h
  rw [← Parser.schema_iff (Parser.start_proper hstart) hchecks]
  unfold Schema.ofText
  rw [Parser.run_ok_iff]
  simp [hstart]

theorem Suite.ofText_iff (h : Lexed text tokens) (maxDepth : Nat) (s : Suite) :
    Suite.ofText text maxDepth = .ok s ↔ s.maxDepth = defaultMaxDepth ∧
      ∃ ds, Grammar.Suite maxDepth tokens ds ∧ (Grammar.resourceNames ds).Nodup ∧
        Collects ds s.resources s.definitions ∧
        (∀ d ∈ ds, ∀ n ∈ d.nodes, n.AllDistinct ∧ n.AllResolved s.definitions maxDepth) ∧
        s.definitions.Acyclic := by
  obtain ⟨start, hstart, rfl, hchecks⟩ := Parser.start_of_lexed h
  rw [← Parser.suite_iff (Parser.start_proper hstart) hchecks]
  unfold Suite.ofText
  rw [Parser.run_ok_iff]
  simp [hstart]

/-- **The reader accepts exactly the grammar and builds the tree of the derivation.** A text that has no
faults in its tokens is read as a schema just where these derive its node from `value`, nesting so many
values at most, where nothing in the node repeats a name or a key, and where what its nodes say about
definitions is so while there are none: no name occurs, each alternative of a selector is a map that
accepts its key, and defaults can be converted. It is read as a suite just where the tokens derive
declarations from `suite`, with distinct names of resources, that make up the suite, and the same holds of
each body and definition with the definitions collected, in which no chain of bare names leads back to its
start. There is one derivation at most of either kind, however deep. -/
theorem Parser.accepts_iff_derivable (h : Lexed text tokens) (maxDepth : Nat) :
    (∀ s : Schema, Schema.ofText text maxDepth = .ok s ↔ s.maxDepth = defaultMaxDepth ∧
      Grammar.Value maxDepth tokens s.node [.endOfInput] ∧ s.node.AllDistinct ∧
      s.node.AllResolved [] maxDepth) ∧
    (∀ s : Suite, Suite.ofText text maxDepth = .ok s ↔ s.maxDepth = defaultMaxDepth ∧
      ∃ ds, Grammar.Suite maxDepth tokens ds ∧ (Grammar.resourceNames ds).Nodup ∧
        Collects ds s.resources s.definitions ∧
        (∀ d ∈ ds, ∀ n ∈ d.nodes, n.AllDistinct ∧ n.AllResolved s.definitions maxDepth) ∧
        s.definitions.Acyclic) ∧
    (∀ depth levels n m, Grammar.Value depth tokens n [.endOfInput] →
      Grammar.Value levels tokens m [.endOfInput] → n = m) ∧
    ∀ depth levels ds es, Grammar.Suite depth tokens ds → Grammar.Suite levels tokens es → ds = es :=
  ⟨Schema.ofText_iff h maxDepth, Suite.ofText_iff h maxDepth,
    fun _ _ _ _ hn hm => (Grammar.Value.unique hn hm).1,
    fun _ _ _ _ hds hes => Grammar.Suite.unique hds hes⟩

/-- A map with a default and a comma at its end nests two values, so it is read with two levels and not
with one. -/
theorem Parser.accepts_iff_derivable_map :
    Lexed "\x7b n: int = 1, \x7d" [.symbol .openBrace, .name "n", .symbol .colon, .keyword .int,
      .symbol .equals, .integer 1, .symbol .comma, .symbol .closeBrace, .endOfInput] ∧
    Schema.ofText "\x7b n: int = 1, \x7d" 2 =
      .ok { node := .map [⟨"n", .primitive .integer, false, some (.integer 1)⟩] } ∧
    ∀ s, Schema.ofText "\x7b n: int = 1, \x7d" 1 ≠ .ok s := by
  have hlexed : Lexed "\x7b n: int = 1, \x7d" [.symbol .openBrace, .name "n", .symbol .colon,
      .keyword .int, .symbol .equals, .integer 1, .symbol .comma, .symbol .closeBrace,
      .endOfInput] := by
    unfold Lexed
    rfl
  refine ⟨hlexed, ((accepts_iff_derivable hlexed 2).1 _).2 ⟨rfl, ?_, ?_, ?_⟩, fun s hs => ?_⟩
  · exact .map (.last (.field (.name .name) .absent (.primitive rfl) (.present .integer))
      (.brace (.inr rfl)))
  · refine Node.forall_subnodes_iff.2 ⟨List.nodup_singleton _, fun k hk => ?_⟩
    cases hk with
    | field hf =>
      obtain rfl := List.mem_singleton.1 hf
      exact Node.forall_subnodes_iff.2 ⟨trivial, fun k hk => by cases hk⟩
  · refine Node.forall_subnodes_iff.2 ⟨fun f hf v hv => ?_, fun k hk => ?_⟩
    · obtain rfl := List.mem_singleton.1 hf
      cases hv
      exact ⟨.matched (.integer 1), rfl, by decide⟩
    · cases hk with
      | field hf =>
        obtain rfl := List.mem_singleton.1 hf
        exact Node.forall_subnodes_iff.2 ⟨trivial, fun k hk => by cases hk⟩
  · obtain ⟨-, hderived, -⟩ := ((accepts_iff_derivable hlexed 1).1 s).1 hs
    generalize s.node = node at hderived
    cases hderived with
    | literal h => cases h
    | map h =>
      obtain ⟨f, rest, ⟨-, -, hnode, -⟩⟩ := h.begins
      exact hnode

end Conformance
