import Conformance.Proofs.Formed
import Conformance.Proofs.Reachable
import Conformance.Proofs.Resolution

/-!
# What is read is derived

Wherever a rule of the reader succeeds, the tokens it has taken derive its result by the rule of the
grammar that it stands for. The checks it has noted down are those that its result gives rise to, no more
and no fewer, and no key or field name is repeated.

* `Node.Distinct`, `Node.Resolved` — the conditions on a node that are not a matter of grammar.
* `Amounts` — what some checks come down to.
* `Parser.Takes`, `Parser.Reads` — what a rule without and with checks takes off the tokens.
* `Parser.Reads.value` — a node that is read is derived, and has been noted.
-/

set_option autoImplicit false

namespace Conformance

/-! ## Conditions on nodes -/

/-- Nothing with names or keys repeats one. -/
def Node.Distinct : Node → Prop
  | .map fields => (fields.map Field.name).Nodup
  | .selector _ alternatives => (alternatives.map Alternative.key).Nodup
  | _ => True

/-- The default of the field, if it has one, can be converted by its node. -/
def Field.Fits (definitions : Definitions) (maxDepth : Nat) (f : Field Node) : Prop :=
  ∀ v, f.default? = some v → DefaultFits definitions maxDepth f.node v

/-- What the node says about definitions is so: a name is defined, a selector can choose, and defaults
can be converted. -/
def Node.Resolved (definitions : Definitions) (maxDepth : Nat) : Node → Prop
  | .reference name => definitions.nodes name ≠ []
  | .selector discriminant alternatives => ∀ a ∈ alternatives, a.Fits definitions discriminant
  | .map fields => ∀ f ∈ fields, f.Fits definitions maxDepth
  | _ => True

/-- Nothing in the tree repeats a name or a key. -/
def Node.AllDistinct (node : Node) : Prop := ∀ m ∈ node.subnodes, m.Distinct

/-- What the nodes of the tree say about definitions is so. -/
def Node.AllResolved (node : Node) (definitions : Definitions) (maxDepth : Nat) : Prop :=
  ∀ m ∈ node.subnodes, m.Resolved definitions maxDepth

theorem Node.allDistinct_of_parts {node : Node} (h : node.Distinct)
    (hparts : ∀ k, Part k node → k.AllDistinct) : node.AllDistinct := forall_subnodes_iff.2 ⟨h, hparts⟩

theorem Node.AllDistinct.part {node k : Node} (h : node.AllDistinct) (hk : k.Part node) :
    k.AllDistinct := fun m hm => h m (hk.mem_subnodes hm)

theorem Node.AllDistinct.self {node : Node} (h : node.AllDistinct) : node.Distinct :=
  h node node.mem_subnodes_self

/-! ## What checks come down to -/

/-- The checks can arise from a text, and they are passed just where the condition holds. -/
structure Amounts (noted : List Check) (P : Definitions → Nat → Prop) : Prop where
  formed : ∀ c ∈ noted, c.Formed
  passes : ∀ definitions maxDepth,
    (∀ c ∈ noted, c.Passes definitions maxDepth) ↔ P definitions maxDepth

namespace Amounts

variable {noted more : List Check} {P Q : Definitions → Nat → Prop}

theorem nil : Amounts [] fun _ _ => True := ⟨by simp, by simp⟩

theorem single {c : Check} (h : c.Formed) : Amounts [c] c.Passes :=
  ⟨by simpa using h, fun definitions maxDepth => by simp⟩

theorem append (h : Amounts noted P) (h' : Amounts more Q) :
    Amounts (noted ++ more) fun definitions maxDepth => P definitions maxDepth ∧ Q definitions maxDepth := by
  refine ⟨fun c hc => (List.mem_append.1 hc).elim (h.formed c) (h'.formed c), ?_⟩
  intro definitions maxDepth
  rw [List.forall_mem_append, h.passes, h'.passes]

theorem congr (h : Amounts noted P)
    (hiff : ∀ definitions maxDepth, P definitions maxDepth ↔ Q definitions maxDepth) :
    Amounts noted Q :=
  ⟨h.formed, fun definitions maxDepth => (h.passes definitions maxDepth).trans (hiff definitions maxDepth)⟩

end Amounts

namespace Parser

variable {α β : Type}

/-- The rule succeeds with the result, and leads from the first state to the second. -/
abbrev Runs (p : Parser α) (s : State) (a : α) (t : State) : Prop := p s = .ok a t

theorem Runs.bind {p : Parser α} {f : α → Parser β} {s t : State} {b : β}
    (h : Runs (p >>= f) s b t) : ∃ a u, Runs p s a u ∧ Runs (f a) u b t := bind_ok h

/-! ## Rules that note nothing down -/

/-- What the rule gives is derived from the tokens it takes. -/
def Takes (p : Parser α) (rule : Rule α) : Prop :=
  ∀ s a t, s.Proper → Runs p s a t → rule s.tokens a t.tokens ∧ t.checks = s.checks

theorem current_ok {s t : State} {a : Token} (h : Runs Parser.current s a t) :
    s.current = a ∧ s = t := by
  cases h
  exact ⟨rfl, rfl⟩

theorem position_ok {s t : State} {a : Position} (h : Runs Parser.position s a t) : s = t := by
  cases h
  rfl

theorem listBound_ok {s t : State} {a : Nat} (h : Runs Parser.listBound s a t) : s = t := by
  cases h
  rfl

/-- Going on takes the current token, whichever it is known to be. -/
theorem advance_takes {s t : State} {u : Unit} {token : Token} (hs : s.Proper)
    (htoken : s.current = token) (hend : token ≠ .endOfInput) (h : Runs advance s u t) :
    s.tokens = token :: t.tokens ∧ t.checks = s.checks ∧ t.Proper := by
  subst htoken
  obtain ⟨htokens, hchecks⟩ := advance_ok hs hend h
  exact ⟨htokens, hchecks, steady_proper.advance.of_ok hs h⟩

theorem accept_ok {s t : State} {symbol : Symbol} {found : Bool} (hs : s.Proper)
    (h : Runs (accept symbol) s found t) : t.checks = s.checks ∧ t.Proper ∧
      ((found = true ∧ s.tokens = .symbol symbol :: t.tokens) ∨
        (found = false ∧ s = t ∧ s.current ≠ .symbol symbol)) := by
  unfold accept at h
  obtain ⟨token, s₁, hcurrent, h⟩ := h.bind
  obtain ⟨htoken, rfl⟩ := current_ok hcurrent
  split at h
  · rename_i hsymbol
    obtain ⟨u, s₂, hadvance, h⟩ := h.bind
    cases h
    obtain ⟨htokens, hchecks, hproper⟩ := advance_takes hs (htoken.trans hsymbol) nofun hadvance
    exact ⟨hchecks, hproper, .inl ⟨rfl, htokens⟩⟩
  · rename_i hsymbol
    cases h
    exact ⟨rfl, hs, .inr ⟨rfl, rfl, htoken ▸ hsymbol⟩⟩

theorem expect_ok {s t : State} {symbol : Symbol} {fault : Fault} {u : Unit} (hs : s.Proper)
    (h : Runs (expect symbol fault) s u t) :
    s.tokens = .symbol symbol :: t.tokens ∧ t.checks = s.checks ∧ t.Proper := by
  unfold expect at h
  obtain ⟨token, s₁, hcurrent, h⟩ := h.bind
  obtain ⟨htoken, rfl⟩ := current_ok hcurrent
  split at h
  · rename_i hsymbol
    exact advance_takes hs (htoken.trans hsymbol) nofun h
  · cases h

theorem another_ok {s t : State} {more : Bool} (hs : s.Proper) (h : Runs another s more t) :
    t.checks = s.checks ∧ t.Proper ∧ ((more = true ∧ s.tokens = .symbol .comma :: t.tokens) ∨
      (more = false ∧ Grammar.BraceEnd s.tokens () t.tokens)) := by
  unfold another at h
  obtain ⟨comma, s₁, hcomma, h⟩ := h.bind
  obtain ⟨hchecks, hproper, hcomma⟩ := accept_ok hs hcomma
  rcases hcomma with ⟨rfl, htokens⟩ | ⟨rfl, rfl, -⟩
  · rw [if_pos rfl] at h
    obtain ⟨close, s₂, hclose, h⟩ := h.bind
    cases h
    obtain ⟨hchecks', hproper', hclose⟩ := accept_ok hproper hclose
    refine ⟨hchecks'.trans hchecks, hproper', ?_⟩
    rcases hclose with ⟨rfl, htokens'⟩ | ⟨rfl, rfl, -⟩
    · exact .inr ⟨rfl, .brace (.inr (htokens' ▸ htokens))⟩
    · exact .inl ⟨rfl, htokens⟩
  · rw [if_neg Bool.false_ne_true] at h
    obtain ⟨u, s₂, hexpect, h⟩ := h.bind
    cases h
    obtain ⟨htokens, hchecks, hproper⟩ := expect_ok hs hexpect
    exact ⟨hchecks, hproper, .inr ⟨rfl, .brace (.inl htokens)⟩⟩

theorem name_of_name? {token : Token} {spelling : String} {rest : List Token}
    (h : token.name? = some spelling) : Grammar.Name (token :: rest) spelling rest := by
  cases token with
  | name text =>
    cases h
    exact .name
  | keyword k =>
    cases h
    exact .keyword
  | _ => cases h

/-- Taking a token for what it stands for by itself. -/
theorem takes_token {rule : Rule α} {s t : State} {token : Token} {v a : α} (hs : s.Proper)
    (htoken : s.current = token) (hend : token ≠ .endOfInput) (hrule : ∀ rest, rule (token :: rest) v rest)
    (h : Runs (do advance; return v) s a t) : rule s.tokens a t.tokens ∧ t.checks = s.checks := by
  obtain ⟨u, s₁, hadvance, h⟩ := h.bind
  cases h
  obtain ⟨htokens, hchecks, -⟩ := advance_takes hs htoken hend hadvance
  exact ⟨htokens ▸ hrule _, hchecks⟩

theorem takes_name : Takes Parser.name Grammar.Name := by
  intro s a t hs h
  unfold Parser.name at h
  obtain ⟨token, s₁, hcurrent, h⟩ := h.bind
  obtain ⟨htoken, rfl⟩ := current_ok hcurrent
  split at h
  · rename_i text hname
    refine takes_token hs htoken ?_ (fun rest => name_of_name? hname) h
    rintro rfl
    cases hname
  · cases h

theorem takes_key : Takes Parser.key Grammar.Key := by
  intro s a t hs h
  unfold Parser.key at h
  obtain ⟨token, s₁, hcurrent, h⟩ := h.bind
  obtain ⟨htoken, rfl⟩ := current_ok hcurrent
  split at h
  · exact takes_token hs htoken nofun (fun _ => .text) h
  · cases h
  · cases h
  · obtain ⟨hname, hchecks⟩ := takes_name s a t hs h
    exact ⟨.name hname, hchecks⟩

theorem literal_of_literalValue? {token : Token} {v : Value} {rest : List Token}
    (h : literalValue? token = some v) : Grammar.Literal (token :: rest) v rest := by
  unfold literalValue? at h
  split at h <;> cases h <;> constructor

theorem takes_literal : Takes Parser.literal Grammar.Literal := by
  intro s a t hs h
  unfold Parser.literal at h
  obtain ⟨token, s₁, hcurrent, h⟩ := h.bind
  obtain ⟨htoken, rfl⟩ := current_ok hcurrent
  split at h
  · rename_i v hv
    refine takes_token hs htoken ?_ (fun rest => literal_of_literalValue? hv) h
    rintro rfl
    cases hv
  · cases h

/-- The key of an alternative is looked at and not yet taken. -/
theorem alternativeKey_ok {s t : State} {key : Value} (h : Runs alternativeKey s key t) :
    s = t ∧ s.current ≠ .endOfInput ∧
      ∀ rest, Grammar.AlternativeKey (s.current :: rest) key rest := by
  unfold alternativeKey at h
  obtain ⟨token, s₁, hcurrent, h⟩ := h.bind
  obtain ⟨htoken, rfl⟩ := current_ok hcurrent
  cases token with
  | text content =>
    cases h
    exact ⟨rfl, htoken ▸ nofun, fun rest => htoken ▸ .text⟩
  | integer i =>
    cases h
    exact ⟨rfl, htoken ▸ nofun, fun rest => htoken ▸ .integer⟩
  | keyword k => cases k <;> cases h
  | _ => cases h

/-! ## Rules that note checks down -/

/-- What the rule gives is derived from the tokens it takes, and has been noted. -/
def Reads (p : Parser α) (rule : Rule α) (Noted : α → List Check → Prop) : Prop :=
  ∀ s a t, s.Proper → Runs p s a t →
    rule s.tokens a t.tokens ∧ ∃ noted, t.checks = s.checks ++ noted ∧ Noted a noted

end Parser

/-- Nothing in the tree repeats a name or a key, and the checks come down to what its nodes say about
definitions. -/
structure Node.Noted (node : Node) (noted : List Check) : Prop where
  distinct : node.AllDistinct
  amounts : Amounts noted node.AllResolved

theorem Node.Noted.leaf {node : Node} (h : node.Distinct) (hparts : ∀ k, ¬ Part k node)
    (hresolved : ∀ definitions maxDepth, node.Resolved definitions maxDepth) : node.Noted [] := by
  refine ⟨allDistinct_of_parts h fun k hk => (hparts k hk).elim, Amounts.nil.congr ?_⟩
  intro definitions maxDepth
  refine iff_of_true trivial (forall_subnodes_iff.2 ⟨hresolved _ _, fun k hk => (hparts k hk).elim⟩)

namespace Parser.Reads

open Grammar (Listed ArrayEnd BraceEnd FieldRule AlternativeRule ValueRule)

section Parts

variable {rule : Parser Node} {value : Rule Node}

/-! ### Arrays -/

/-- The elements of an array have been noted. -/
def NotedAll (nodes : List Node) (noted : List Check) : Prop :=
  (∀ n ∈ nodes, n.AllDistinct) ∧
    Amounts noted fun definitions maxDepth => ∀ n ∈ nodes, n.AllResolved definitions maxDepth

theorem NotedAll.single {n : Node} {noted : List Check} (h : n.Noted noted) : NotedAll [n] noted :=
  ⟨by simpa using h.distinct, h.amounts.congr fun definitions maxDepth => by simp⟩

theorem NotedAll.cons {n : Node} {ns : List Node} {noted more : List Check} (h : n.Noted noted)
    (hrest : NotedAll ns more) : NotedAll (n :: ns) (noted ++ more) :=
  ⟨List.forall_mem_cons.2 ⟨h.distinct, hrest.1⟩,
    (h.amounts.append hrest.2).congr fun definitions maxDepth => by simp⟩

theorem elements (hkeeps : Keeps State.Proper rule) (hrule : Reads rule value Node.Noted)
    (bound : Nat) : Reads (Parser.elements rule bound) (Listed value ArrayEnd)
      fun found noted => NotedAll found.1 noted := by
  induction bound with
  | zero => exact fun _ _ _ _ h => by cases h
  | succ bound ih =>
    intro s found t hs h
    obtain ⟨node, s₁, hnode, h⟩ := h.bind
    obtain ⟨hderived, noted, hnoted, hnode'⟩ := hrule s node s₁ hs hnode
    have hs₁ := hkeeps.of_ok hs hnode
    obtain ⟨comma, s₂, hcomma, h⟩ := h.bind
    obtain ⟨hchecks, hs₂, hfound⟩ := accept_ok hs₁ hcomma
    have htokens : Grammar.OptionalComma s₁.tokens s₂.tokens := by
      rcases hfound with ⟨-, htokens⟩ | ⟨-, rfl, -⟩
      · exact .inr htokens
      · exact .inl rfl
    obtain ⟨token, s₃, hcurrent, h⟩ := h.bind
    obtain ⟨htoken, rfl⟩ := current_ok hcurrent
    split at h
    · obtain ⟨u, s₄, hadvance, h⟩ := h.bind
      obtain ⟨u', s₅, hexpect, h⟩ := h.bind
      cases h
      obtain ⟨hellipsis, hchecks₄, hs₄⟩ := advance_takes hs₂ htoken nofun hadvance
      obtain ⟨hbracket, hchecks₅, -⟩ := expect_ok hs₄ hexpect
      refine ⟨.last hderived (.repeating (hbracket ▸ hellipsis ▸ htokens)), noted, ?_, .single hnode'⟩
      rw [hchecks₅, hchecks₄, hchecks, hnoted]
    · obtain ⟨u, s₄, hadvance, h⟩ := h.bind
      cases h
      obtain ⟨hbracket, hchecks₄, -⟩ := advance_takes hs₂ htoken nofun hadvance
      refine ⟨.last hderived (.exact (hbracket ▸ htokens)), noted, ?_, .single hnode'⟩
      rw [hchecks₄, hchecks, hnoted]
    · rcases hfound with ⟨rfl, hfound⟩ | ⟨rfl, -, -⟩
      · obtain ⟨⟨nodes, size⟩, s₄, hmore, h⟩ := h.bind
        cases h
        obtain ⟨hlisted, more, hmore', hnodes⟩ := ih s₂ _ _ hs₂ hmore
        refine ⟨.more (hfound ▸ hderived) hlisted, noted ++ more, ?_, .cons hnode' hnodes⟩
        rw [hmore', hchecks, hnoted, List.append_assoc]
      · cases h

theorem array (hkeeps : Keeps State.Proper rule) (hrule : Reads rule value Node.Noted) :
    Reads (Parser.array rule)
      (fun tokens => ValueRule value (.symbol .openBracket :: tokens)) Node.Noted := by
  intro s node t hs h
  unfold Parser.array at h
  obtain ⟨token, s₁, hcurrent, h⟩ := h.bind
  obtain ⟨-, rfl⟩ := current_ok hcurrent
  split at h
  · cases h
  · obtain ⟨bound, s₂, hbound, h⟩ := h.bind
    obtain rfl := listBound_ok hbound
    obtain ⟨⟨nodes, size⟩, s₃, helements, h⟩ := h.bind
    cases h
    obtain ⟨hlisted, noted, hnoted, hall⟩ := elements hkeeps hrule bound _ _ _ hs helements
    refine ⟨.array hlisted, noted, hnoted, ?_, hall.2.congr fun definitions maxDepth => ?_⟩
    · refine Node.allDistinct_of_parts trivial fun k hk => ?_
      cases hk with
      | element hk => exact hall.1 k hk
    · constructor
      · intro h
        refine Node.forall_subnodes_iff.2 ⟨trivial, fun k hk => ?_⟩
        cases hk with
        | element hk => exact h k hk
      · exact fun h n hn => (Node.forall_subnodes_iff.1 h).2 n (.element hn)

/-! ### Maps -/

theorem literal_isScalar {tokens rest : List Token} {v : Value} (h : Grammar.Literal tokens v rest) :
    v.kind.isScalar = true := by
  cases h <;> rfl

theorem fieldDefault? (node : Node) : Reads (Parser.fieldDefault? node) Grammar.Default
    fun default? noted => Amounts noted fun definitions maxDepth =>
      ∀ v, default? = some v → DefaultFits definitions maxDepth node v := by
  intro s default? t hs h
  unfold Parser.fieldDefault? at h
  obtain ⟨found, s₁, haccept, h⟩ := h.bind
  obtain ⟨hchecks, hs₁, hfound⟩ := accept_ok hs haccept
  rcases hfound with ⟨rfl, htokens⟩ | ⟨rfl, rfl, -⟩
  · rw [if_pos rfl] at h
    obtain ⟨place, s₂, hplace, h⟩ := h.bind
    obtain rfl := position_ok hplace
    obtain ⟨v, s₃, hv, h⟩ := h.bind
    obtain ⟨u, s₄, hnote, h⟩ := h.bind
    cases hnote
    cases h
    obtain ⟨hliteral, hchecks₃⟩ := takes_literal _ _ _ hs₁ hv
    refine ⟨htokens ▸ .present hliteral, [.default node v place], ?_, ?_⟩
    · rw [← hchecks, ← hchecks₃]
    · refine (Amounts.single (c := .default node v place) (literal_isScalar hliteral)).congr ?_
      intro definitions maxDepth
      simp only [Option.some.injEq, forall_eq']
      rfl
  · rw [if_neg Bool.false_ne_true] at h
    cases h
    refine ⟨.absent, [], (List.append_nil _).symm, Amounts.nil.congr fun definitions maxDepth => ?_⟩
    simp

/-- The field has been noted. -/
def NotedField (f : Field Node) (noted : List Check) : Prop :=
  f.node.AllDistinct ∧ Amounts noted fun definitions maxDepth =>
    f.node.AllResolved definitions maxDepth ∧ f.Fits definitions maxDepth

theorem field (hkeeps : Keeps State.Proper rule) (hrule : Reads rule value Node.Noted) :
    Reads (Parser.field rule) (FieldRule value) NotedField := by
  intro s f t hs h
  unfold Parser.field at h
  obtain ⟨name, s₁, hname, h⟩ := h.bind
  obtain ⟨hkey, hchecks₁⟩ := takes_key _ _ _ hs hname
  have hs₁ := (Keeps.key steady_proper).of_ok hs hname
  obtain ⟨isOptional, s₂, hmark, h⟩ := h.bind
  obtain ⟨hchecks₂, hs₂, hmark⟩ := accept_ok hs₁ hmark
  obtain ⟨u, s₃, hcolon, h⟩ := h.bind
  obtain ⟨hcolon, hchecks₃, hs₃⟩ := expect_ok hs₂ hcolon
  obtain ⟨node, s₄, hnode, h⟩ := h.bind
  obtain ⟨hderived, noted, hnoted, hnode'⟩ := hrule _ _ _ hs₃ hnode
  obtain ⟨default?, s₅, hdefault, h⟩ := h.bind
  cases h
  obtain ⟨hdefault, more, hmore, hdefault'⟩ :=
    fieldDefault? node _ _ _ (hkeeps.of_ok hs₃ hnode) hdefault
  have hmark : Grammar.OptionalMark s₁.tokens isOptional (.symbol .colon :: s₃.tokens) := by
    rw [← hcolon]
    rcases hmark with ⟨rfl, htokens⟩ | ⟨rfl, rfl, -⟩
    · exact htokens ▸ .present
    · exact .absent
  refine ⟨.field hkey hmark hderived hdefault, noted ++ more, ?_, hnode'.distinct, ?_⟩
  · rw [hmore, hnoted, hchecks₃, hchecks₂, hchecks₁, List.append_assoc]
  · exact hnode'.amounts.append hdefault'

/-- The fields of a map have been noted; their names differ from each other and from those before. -/
structure NotedFields (before : List String) (fs : List (Field Node)) (noted : List Check) : Prop where
  distinct : ∀ f ∈ fs, f.node.AllDistinct
  names : (fs.map Field.name).Nodup
  fresh : ∀ f ∈ fs, f.name ∉ before
  amounts : Amounts noted fun definitions maxDepth =>
    ∀ f ∈ fs, f.node.AllResolved definitions maxDepth ∧ f.Fits definitions maxDepth

theorem NotedFields.single {before : List String} {f : Field Node} {noted : List Check}
    (h : NotedField f noted) (hname : f.name ∉ before) : NotedFields before [f] noted where
  distinct := by simpa using h.1
  names := List.nodup_singleton _
  fresh := by simpa using hname
  amounts := h.2.congr fun definitions maxDepth => by simp

theorem NotedFields.cons {before : List String} {f : Field Node} {fs : List (Field Node)}
    {noted more : List Check} (h : NotedField f noted) (hname : f.name ∉ before)
    (hrest : NotedFields (f.name :: before) fs more) : NotedFields before (f :: fs) (noted ++ more) where
  distinct := List.forall_mem_cons.2 ⟨h.1, hrest.distinct⟩
  names := by
    refine List.nodup_cons.2 ⟨fun hmem => ?_, hrest.names⟩
    obtain ⟨g, hg, heq⟩ := List.mem_map.1 hmem
    exact hrest.fresh g hg (heq ▸ List.mem_cons_self)
  fresh := by
    refine List.forall_mem_cons.2 ⟨hname, fun g hg hmem => ?_⟩
    exact hrest.fresh g hg (List.mem_cons_of_mem _ hmem)
  amounts := (h.2.append hrest.amounts).congr fun definitions maxDepth => by simp

theorem fields (hkeeps : Keeps State.Proper rule) (hrule : Reads rule value Node.Noted) (bound : Nat)
    (before : List String) : Reads (Parser.fields rule bound before)
      (fun tokens fs => Listed (FieldRule value) BraceEnd tokens (fs, ())) (NotedFields before) := by
  induction bound generalizing before with
  | zero => exact fun _ _ _ _ h => by cases h
  | succ bound ih =>
    intro s fs t hs h
    unfold Parser.fields at h
    obtain ⟨place, s₁, hplace, h⟩ := h.bind
    obtain rfl := position_ok hplace
    obtain ⟨f, s₂, hf, h⟩ := h.bind
    obtain ⟨hderived, noted, hnoted, hf'⟩ := field hkeeps hrule _ _ _ hs hf
    have hs₂ := (Keeps.field steady_proper hkeeps).of_ok hs hf
    split at h
    · cases h
    · rename_i hname
      have hname : f.name ∉ before := by simpa using hname
      obtain ⟨more, s₃, hanother, h⟩ := h.bind
      obtain ⟨hchecks₃, hs₃, hmore⟩ := another_ok hs₂ hanother
      rcases hmore with ⟨rfl, htokens⟩ | ⟨rfl, hend⟩
      · rw [if_pos rfl] at h
        obtain ⟨rest, s₄, hrest, h⟩ := h.bind
        cases h
        obtain ⟨hlisted, others, hothers, hrest'⟩ := ih (f.name :: before) _ _ _ hs₃ hrest
        refine ⟨.more (htokens ▸ hderived) hlisted, noted ++ others, ?_, .cons hf' hname hrest'⟩
        rw [hothers, hchecks₃, hnoted, List.append_assoc]
      · rw [if_neg Bool.false_ne_true] at h
        cases h
        exact ⟨.last hderived hend, noted, hchecks₃.trans hnoted, .single hf' hname⟩

theorem map (hkeeps : Keeps State.Proper rule) (hrule : Reads rule value Node.Noted) :
    Reads (Parser.map rule)
      (fun tokens => ValueRule value (.symbol .openBrace :: tokens)) Node.Noted := by
  intro s node t hs h
  unfold Parser.map at h
  obtain ⟨token, s₁, hcurrent, h⟩ := h.bind
  obtain ⟨htoken, rfl⟩ := current_ok hcurrent
  split at h
  · cases h
  · obtain ⟨u, s₂, hadvance, h⟩ := h.bind
    obtain ⟨hdollar, hchecks₂, hs₂⟩ := advance_takes hs htoken nofun hadvance
    obtain ⟨u', s₃, hcolon, h⟩ := h.bind
    obtain ⟨hcolon, hchecks₃, hs₃⟩ := expect_ok hs₂ hcolon
    obtain ⟨entry, s₄, hentry, h⟩ := h.bind
    obtain ⟨hderived, noted, hnoted, hentry'⟩ := hrule _ _ _ hs₃ hentry
    obtain ⟨u'', s₅, hclose, h⟩ := h.bind
    cases h
    obtain ⟨hclose, hchecks₅, -⟩ := expect_ok (hkeeps.of_ok hs₃ hentry) hclose
    refine ⟨?_, noted, ?_, ?_, hentry'.amounts.congr fun definitions maxDepth => ?_⟩
    · rw [hdollar, hcolon]
      exact .dictionary (hclose ▸ hderived)
    · rw [hchecks₅, hnoted, hchecks₃, hchecks₂]
    · refine Node.allDistinct_of_parts trivial fun k hk => ?_
      cases hk with
      | entry => exact hentry'.distinct
    · constructor
      · intro h
        refine Node.forall_subnodes_iff.2 ⟨trivial, fun k hk => ?_⟩
        cases hk with
        | entry => exact h
      · exact fun h => (Node.forall_subnodes_iff.1 h).2 entry .entry
  · obtain ⟨bound, s₂, hbound, h⟩ := h.bind
    obtain rfl := listBound_ok hbound
    obtain ⟨fs, s₃, hfields, h⟩ := h.bind
    cases h
    obtain ⟨hlisted, noted, hnoted, hall⟩ := fields hkeeps hrule bound [] _ _ _ hs hfields
    refine ⟨.map hlisted, noted, hnoted, ?_, hall.amounts.congr fun definitions maxDepth => ?_⟩
    · refine Node.allDistinct_of_parts hall.names fun k hk => ?_
      cases hk with
      | field hf => exact hall.distinct _ hf
    · constructor
      · intro h
        refine Node.forall_subnodes_iff.2 ⟨fun f hf => (h f hf).2, fun k hk => ?_⟩
        cases hk with
        | field hf => exact (h _ hf).1
      · intro h f hf
        obtain ⟨hself, hparts⟩ := Node.forall_subnodes_iff.1 h
        exact ⟨hparts _ (.field hf), hself f hf⟩

/-! ### Selectors -/

/-- The alternatives of a selector have been noted; their keys differ from each other and from those
before. -/
structure NotedAlternatives (before : List Value) (found : List (Position × Alternative Node))
    (noted : List Check) : Prop where
  distinct : ∀ x ∈ found, x.2.node.AllDistinct
  discriminants : ∀ x ∈ found, x.2.key.isDiscriminant = true
  keys : (found.map fun x => x.2.key).Nodup
  fresh : ∀ x ∈ found, x.2.key ∉ before
  amounts : Amounts noted fun definitions maxDepth =>
    ∀ x ∈ found, x.2.node.AllResolved definitions maxDepth

theorem NotedAlternatives.single {before : List Value} {x : Position × Alternative Node}
    {noted : List Check} (h : x.2.node.Noted noted) (hdiscriminant : x.2.key.isDiscriminant = true)
    (hkey : x.2.key ∉ before) : NotedAlternatives before [x] noted where
  distinct := by simpa using h.distinct
  discriminants := by simpa using hdiscriminant
  keys := List.nodup_singleton _
  fresh := by simpa using hkey
  amounts := h.amounts.congr fun definitions maxDepth => by simp

theorem NotedAlternatives.cons {before : List Value} {x : Position × Alternative Node}
    {found : List (Position × Alternative Node)} {noted more : List Check} (h : x.2.node.Noted noted)
    (hdiscriminant : x.2.key.isDiscriminant = true) (hkey : x.2.key ∉ before)
    (hrest : NotedAlternatives (x.2.key :: before) found more) :
    NotedAlternatives before (x :: found) (noted ++ more) where
  distinct := List.forall_mem_cons.2 ⟨h.distinct, hrest.distinct⟩
  discriminants := List.forall_mem_cons.2 ⟨hdiscriminant, hrest.discriminants⟩
  keys := by
    refine List.nodup_cons.2 ⟨fun hmem => ?_, hrest.keys⟩
    obtain ⟨y, hy, heq⟩ := List.mem_map.1 hmem
    exact hrest.fresh y hy (heq ▸ List.mem_cons_self)
  fresh := by
    refine List.forall_mem_cons.2 ⟨hkey, fun y hy hmem => ?_⟩
    exact hrest.fresh y hy (List.mem_cons_of_mem _ hmem)
  amounts := (h.amounts.append hrest.amounts).congr fun definitions maxDepth => by simp

theorem isDiscriminant_of_alternativeKey {tokens rest : List Token} {key : Value}
    (h : Grammar.AlternativeKey tokens key rest) : key.isDiscriminant = true := by
  cases h <;> rfl

theorem any_equal_iff {before : List Value} {key : Value} (hkey : key.isDiscriminant = true) :
    (before.any fun k => k.equal key) = true ↔ key ∈ before := by
  simp [Value.equal_iff_of_isDiscriminant hkey]

theorem alternatives (hkeeps : Keeps State.Proper rule) (hrule : Reads rule value Node.Noted)
    (bound : Nat) (before : List Value) : Reads (Parser.alternatives rule bound before)
      (fun tokens found =>
        Listed (AlternativeRule value) BraceEnd tokens (found.map Prod.snd, ()))
      (NotedAlternatives before) := by
  induction bound generalizing before with
  | zero => exact fun _ _ _ _ h => by cases h
  | succ bound ih =>
    intro s found t hs h
    unfold Parser.alternatives at h
    obtain ⟨place, s₁, hplace, h⟩ := h.bind
    obtain rfl := position_ok hplace
    obtain ⟨key, s₁, hkey, h⟩ := h.bind
    obtain ⟨rfl, hend, hkey⟩ := alternativeKey_ok hkey
    have hdiscriminant := isDiscriminant_of_alternativeKey (hkey [])
    split at h
    · cases h
    · rename_i hfresh
      rw [any_equal_iff hdiscriminant] at hfresh
      obtain ⟨u, s₂, hadvance, h⟩ := h.bind
      obtain ⟨htaken, hchecks₂, hs₂⟩ := advance_takes hs rfl hend hadvance
      obtain ⟨u', s₃, hcolon, h⟩ := h.bind
      obtain ⟨hcolon, hchecks₃, hs₃⟩ := expect_ok hs₂ hcolon
      obtain ⟨node, s₄, hnode, h⟩ := h.bind
      obtain ⟨hderived, noted, hnoted, hnode'⟩ := hrule _ _ _ hs₃ hnode
      obtain ⟨more, s₅, hanother, h⟩ := h.bind
      obtain ⟨hchecks₅, hs₅, hmore⟩ := another_ok (hkeeps.of_ok hs₃ hnode) hanother
      have hderived : AlternativeRule value s.tokens ⟨key, node⟩ s₄.tokens :=
        .alternative (htaken ▸ hcolon ▸ hkey _) hderived
      have hchecks : s₅.checks = s.checks ++ noted := by
        rw [hchecks₅, hnoted, hchecks₃, hchecks₂]
      rcases hmore with ⟨rfl, htokens⟩ | ⟨rfl, hend⟩
      · rw [if_pos rfl] at h
        obtain ⟨rest, s₆, hrest, h⟩ := h.bind
        cases h
        obtain ⟨hlisted, others, hothers, hrest'⟩ := ih (key :: before) _ _ _ hs₅ hrest
        refine ⟨.more (htokens ▸ hderived) hlisted, noted ++ others, ?_,
          .cons hnode' hdiscriminant hfresh hrest'⟩
        rw [hothers, hchecks, List.append_assoc]
      · rw [if_neg Bool.false_ne_true] at h
        cases h
        exact ⟨.last hderived hend, noted, hchecks, .single hnode' hdiscriminant hfresh⟩

theorem selector (hkeeps : Keeps State.Proper rule) (hrule : Reads rule value Node.Noted) :
    Reads (Parser.selector rule)
      (fun tokens => ValueRule value (.keyword .select :: tokens)) Node.Noted := by
  intro s node t hs h
  unfold Parser.selector at h
  obtain ⟨discriminant, s₁, hkey, h⟩ := h.bind
  have hs₁ := (Keeps.key steady_proper).of_ok hs hkey
  obtain ⟨hkey, hchecks₁⟩ := takes_key _ _ _ hs hkey
  obtain ⟨u, s₂, hopen, h⟩ := h.bind
  obtain ⟨hopen, hchecks₂, hs₂⟩ := expect_ok hs₁ hopen
  obtain ⟨token, s₃, hcurrent, h⟩ := h.bind
  obtain ⟨-, rfl⟩ := current_ok hcurrent
  split at h
  · cases h
  · obtain ⟨bound, s₃, hbound, h⟩ := h.bind
    obtain rfl := listBound_ok hbound
    obtain ⟨found, s₄, hfound, h⟩ := h.bind
    obtain ⟨u', s₅, hnote, h⟩ := h.bind
    cases hnote
    cases h
    obtain ⟨hlisted, noted, hnoted, hall⟩ := alternatives hkeeps hrule bound [] _ _ _ hs₂ hfound
    have hformed : (Check.selector discriminant found).Formed := hall.discriminants
    refine ⟨.selector (hopen ▸ hkey) hlisted, noted ++ [.selector discriminant found], ?_, ?_,
      (hall.amounts.append (.single hformed)).congr fun definitions maxDepth => ?_⟩
    · change s₄.checks ++ _ = _
      rw [hnoted, hchecks₂, hchecks₁, List.append_assoc]
    · refine Node.allDistinct_of_parts ?_ fun k hk => ?_
      · change ((found.map Prod.snd).map Alternative.key).Nodup
        rw [List.map_map]
        exact hall.keys
      · cases hk with
        | alternative ha =>
          obtain ⟨x, hx, rfl⟩ := List.mem_map.1 ha
          exact hall.distinct x hx
    · constructor
      · rintro ⟨hnodes, hfits⟩
        refine Node.forall_subnodes_iff.2 ⟨fun a ha => ?_, fun k hk => ?_⟩
        · obtain ⟨x, hx, rfl⟩ := List.mem_map.1 ha
          exact hfits x hx
        · cases hk with
          | alternative ha =>
            obtain ⟨x, hx, rfl⟩ := List.mem_map.1 ha
            exact hnodes x hx
      · intro h
        obtain ⟨hself, hparts⟩ := Node.forall_subnodes_iff.1 h
        exact ⟨fun x hx => hparts _ (.alternative (List.mem_map_of_mem hx)),
          fun x hx => hself _ (List.mem_map_of_mem hx)⟩

/-! ### Names and values -/

theorem reference (place : Position) : Reads (Parser.reference place)
    (fun tokens => ValueRule value (.symbol .ampersand :: tokens)) Node.Noted := by
  intro s node t hs h
  unfold Parser.reference at h
  obtain ⟨name, s₁, hname, h⟩ := h.bind
  obtain ⟨u, s₂, hnote, h⟩ := h.bind
  cases hnote
  cases h
  obtain ⟨hname, hchecks⟩ := takes_name _ _ _ hs hname
  have hformed : (Check.reference name place).Formed := trivial
  refine ⟨.reference hname, [.reference name place], ?_, ?_, ?_⟩
  · change s₁.checks ++ _ = _
    rw [hchecks]
  · exact Node.allDistinct_of_parts trivial fun k hk => by cases hk
  · refine (Amounts.single hformed).congr fun definitions maxDepth => ?_
    constructor
    · exact fun h => Node.forall_subnodes_iff.2 ⟨h, fun k hk => by cases hk⟩
    · exact fun h => (Node.forall_subnodes_iff.1 h).1

end Parts

/-- **What is read as a value is derived from the tokens taken for it**, with no more levels than asked
for, and its checks have been noted down. -/
theorem value (levels : Nat) :
    Reads (Parser.value levels) (Grammar.Value levels) Node.Noted := by
  induction levels with
  | zero => exact fun _ _ _ _ h => by cases h
  | succ levels ih =>
    have hkeeps := Keeps.value steady_proper levels
    intro s node t hs h
    unfold Parser.value at h
    obtain ⟨token, s₁, hcurrent, h⟩ := h.bind
    obtain ⟨htoken, rfl⟩ := current_ok hcurrent
    split at h
    · rename_i kind hkind
      obtain ⟨u, s₂, hadvance, h⟩ := h.bind
      cases h
      cases token with
      | keyword k =>
        obtain ⟨htokens, hchecks, -⟩ := advance_takes hs htoken nofun hadvance
        refine ⟨htokens ▸ .primitive hkind, [], by rw [hchecks, List.append_nil], ?_⟩
        exact .leaf trivial (fun k hk => by cases hk) fun _ _ => trivial
      | _ => cases hkind
    · split at h
      · obtain ⟨u, s₂, hadvance, h⟩ := h.bind
        cases h
        obtain ⟨htokens, hchecks, -⟩ := advance_takes hs htoken nofun hadvance
        refine ⟨htokens ▸ .any, [], by rw [hchecks, List.append_nil], ?_⟩
        exact .leaf trivial (fun k hk => by cases hk) fun _ _ => trivial
      · obtain ⟨u, s₂, hadvance, h⟩ := h.bind
        obtain ⟨htokens, hchecks, hs₂⟩ := advance_takes hs htoken nofun hadvance
        rw [htokens, ← hchecks]
        exact selector hkeeps ih _ _ _ hs₂ h
      · obtain ⟨u, s₂, hadvance, h⟩ := h.bind
        obtain ⟨htokens, hchecks, hs₂⟩ := advance_takes hs htoken nofun hadvance
        rw [htokens, ← hchecks]
        exact array hkeeps ih _ _ _ hs₂ h
      · obtain ⟨u, s₂, hadvance, h⟩ := h.bind
        obtain ⟨htokens, hchecks, hs₂⟩ := advance_takes hs htoken nofun hadvance
        rw [htokens, ← hchecks]
        exact map hkeeps ih _ _ _ hs₂ h
      · obtain ⟨place, s₂, hplace, h⟩ := h.bind
        obtain rfl := position_ok hplace
        obtain ⟨u, s₂, hadvance, h⟩ := h.bind
        obtain ⟨htokens, hchecks, hs₂⟩ := advance_takes hs htoken nofun hadvance
        rw [htokens, ← hchecks]
        exact reference place _ _ _ hs₂ h
      · cases h
      · cases h
      · cases h
      · obtain ⟨v, s₂, hv, h⟩ := h.bind
        cases h
        obtain ⟨hliteral, hchecks⟩ := takes_literal _ _ _ hs hv
        refine ⟨.literal hliteral, [], by rw [hchecks, List.append_nil], ?_⟩
        exact .leaf trivial (fun k hk => by cases hk) fun _ _ => trivial

end Parser.Reads

end Conformance
