import Conformance.Proofs.Acceptance
import Conformance.Proofs.Located
import Conformance.Proofs.Occurrence

/-!
# Where names are declared and used

The checks of names carry positions of the text. Here the declarations of a text come with the position of each name
that is declared and with the names that are used in it, each with the position of its ampersand. What is noted down
while a suite is read are just these uses, in the order of the text, and they are those of its nodes.

* `Uses` — the names that are used in some tokens; `Grammar.Places` — the declarations in them, with their places.
* `Declares` — the declarations of a text; `Declares.unique`.
* `Parser.Gathers` — the uses in the tokens that a rule takes are noted down, and they are those of what it gives.
* `Parser.PlacesBetween` — the same for declarations; `Parser.declarations_places` adds where names are first defined.
* `Parser.suitePass_ok` — what is known of a suite before its checks, and what they decide.
-/

set_option autoImplicit false

namespace Conformance

/-! ## Uses of names -/

/-- A name that is used, with the position of the ampersand in front of it. -/
abbrev Use := String × Position

/-- The names that are used in the tokens: each ampersand stands in front of one. -/
inductive Uses : List Spot → List Use → Prop where
  | nil : Uses [] []
  | use {p q : Position} {t : Token} {name : String} {spots : List Spot} {uses : List Use} :
    t.name? = some name → Uses spots uses →
    Uses ((p, .symbol .ampersand) :: (q, t) :: spots) ((name, p) :: uses)
  | other {p : Position} {t : Token} {spots : List Spot} {uses : List Use} :
    t ≠ .symbol .ampersand → Uses spots uses → Uses ((p, t) :: spots) uses

namespace Uses

variable {spots rest : List Spot} {uses more : List Use}

theorem append (h : Uses spots uses) (h' : Uses rest more) : Uses (spots ++ rest) (uses ++ more) := by
  induction h with
  | nil => exact h'
  | use hname _ ih => exact .use hname ih
  | other ht _ ih => exact .other ht ih

theorem unique (h : Uses spots uses) (h' : Uses spots more) : uses = more := by
  induction h generalizing more with
  | nil =>
    cases h'
    rfl
  | use hname _ ih =>
    cases h' with
    | use hname' hrest =>
      cases hname.symm.trans hname'
      rw [ih hrest]
    | other ht => exact absurd rfl ht
  | other ht _ ih =>
    cases h' with
    | use => exact absurd rfl ht
    | other _ hrest => exact ih hrest

end Uses

/-- The use of a name that is to be checked. -/
def Check.use? : Check → Option Use
  | .reference name position => some (name, position)
  | _ => none

/-! ## Declarations with their places -/

namespace Grammar

namespace Declaration

/-- The name that a definition is for. -/
def definedName? : Declaration → Option String
  | .resource _ => none
  | .definition name _ => some name

/-- The nodes as they are written down. One body for both directions stands there once. -/
def written : Declaration → List Node
  | .resource r =>
    match r.access with
    | .getPut | .getPutDelete => [r.request]
    | _ => [r.request, r.response]
  | .definition _ node => [node]

end Declaration

theorem DeclarationRule.mem_written {value : Rule Node} {tokens rest : List Token} {d : Declaration} {n : Node}
    (h : DeclarationRule value tokens d rest) : n ∈ d.written ↔ n ∈ d.nodes := by
  cases h with
  | resource _ harrow => cases harrow <;> simp [Declaration.written, Declaration.nodes]
  | definition => rfl

/-- A declaration with the position of the name that is declared, and the names that are used behind it. -/
structure Placed where
  declaration : Declaration
  position : Position
  uses : List Use

/-- The position of the first definition of the name. -/
def Placed.first? (name : String) (ps : List Placed) : Option Position :=
  (ps.find? fun p => p.declaration.definedName? = some name).map Placed.position

theorem Placed.first?_definition (name other : String) (node : Node) (place : Position) (uses : List Use)
    (ps : List Placed) : first? other (⟨.definition name node, place, uses⟩ :: ps) =
      (if name = other then some place else none).or (first? other ps) := by
  by_cases heq : name = other <;> simp [first?, Declaration.definedName?, heq]

/-- Declarations up to the end of the text, the values in which nest so many values at most, with their places. -/
inductive Places (depth : Nat) : List Spot → List Placed → Prop where
  | endOfInput {p : Position} : Places depth [(p, .endOfInput)] []
  | declaration {mark name : Spot} {body rest : List Spot} {d : Declaration} {uses : List Use} {ps : List Placed} :
    DeclarationRule (Value depth) ((mark :: name :: (body ++ rest)).map Prod.snd) d (rest.map Prod.snd) →
    Uses body uses → Places depth rest ps →
    Places depth (mark :: name :: (body ++ rest)) (⟨d, name.1, uses⟩ :: ps)

/-- The name has a definition. -/
def Placed.Defined (ps : List Placed) (name : String) : Prop := ∃ p ∈ ps, p.declaration.definedName? = some name

theorem Placed.first?_iff {ps : List Placed} {name : String} : (first? name ps).isSome = true ↔ Defined ps name := by
  simp [first?, Defined]

/-- The name is used in a body of a resource or in a definition, at any depth. -/
def Placed.Used (ps : List Placed) (name : String) : Prop :=
  ∃ p ∈ ps, ∃ n ∈ p.declaration.nodes, .reference name ∈ n.subnodes

namespace Places

variable {depth : Nat} {spots : List Spot} {ps qs : List Placed}

theorem suite (h : Places depth spots ps) : Suite depth (spots.map Prod.snd) (ps.map Placed.declaration) := by
  induction h with
  | endOfInput => exact .endOfInput
  | declaration hd _ _ ih => exact .declaration hd ih

theorem unique (h : Places depth spots ps) (h' : Places depth spots qs) : ps = qs := by
  induction h generalizing qs with
  | endOfInput => cases h' with | endOfInput => rfl
  | @declaration mark name body rest d uses ps hd huses _ ih =>
    generalize hspots : mark :: name :: (body ++ rest) = spots at h'
    cases h' with
    | endOfInput => cases hspots
    | @declaration mark' name' body' rest' d' uses' ps' hd' huses' hrest' =>
      rw [hspots] at hd
      obtain ⟨rfl, heq⟩ := DeclarationRule.unique (Value.uniqueWithin depth) _ _ _ _ _ hd hd'
      have hlength : rest.length = rest'.length := by
        rw [← List.length_map Prod.snd, heq, List.length_map]
      injection hspots with hmark hspots
      injection hspots with hname hspots
      obtain ⟨rfl, rfl⟩ := List.append_inj' hspots hlength
      rw [hname, huses.unique huses', ih hrest']

theorem exists_end (h : Places depth spots ps) : ∃ p, (p, .endOfInput) ∈ spots := by
  induction h with
  | endOfInput => exact ⟨_, List.mem_singleton_self _⟩
  | @declaration mark name body rest _ _ _ _ _ _ ih =>
    obtain ⟨p, hp⟩ := ih
    exact ⟨p, List.mem_append_right (mark :: name :: body) hp⟩

theorem mem_written (h : Places depth spots ps) {p : Placed} (hp : p ∈ ps) {n : Node} :
    n ∈ p.declaration.written ↔ n ∈ p.declaration.nodes := by
  induction h with
  | endOfInput => cases hp
  | declaration hd _ _ ih =>
    rcases List.mem_cons.1 hp with rfl | hp
    · exact hd.mem_written
    · exact ih hp

end Places

end Grammar

open Grammar (Placed Places)

/-- The declarations of a text without faults in its tokens, with their places. -/
def Declares (text : String) (depth : Nat) (ps : List Placed) : Prop :=
  ∃ spots, Located text spots ∧ Places depth spots ps

/-- **A text has one list of declarations at most.** -/
theorem Declares.unique {text : String} {depth : Nat} {ps qs : List Placed} (h : Declares text depth ps)
    (h' : Declares text depth qs) : ps = qs := by
  obtain ⟨spots, hspots, hps⟩ := h
  obtain ⟨others, hothers, hqs⟩ := h'
  obtain rfl := hspots.unique hothers
  exact hps.unique hqs

namespace Parser

variable {α β : Type} {s t : State} {names more : List String}

/-! ## Rules that gather uses -/

/-- The uses of names that have been noted down. -/
def State.uses (s : State) : List Use := s.checks.filterMap Check.use?

/-- Between the two states the uses in the tokens that are taken have been noted down; the names that had been used
before go on with theirs. -/
structure Passage (s : State) (names : List String) (t : State) (more : List String) : Prop where
  proper : t.Proper
  taken : ∃ taken uses, s.spots = taken ++ t.spots ∧ Uses taken uses ∧ t.uses = s.uses ++ uses ∧
    more = names ++ uses.map Prod.fst

theorem Passage.refl (hs : s.Proper) : Passage s names s names :=
  ⟨hs, [], [], rfl, .nil, (List.append_nil _).symm, (List.append_nil _).symm⟩

theorem Passage.trans {u : State} {others : List String} (h : Passage s names t more) (h' : Passage t more u others) :
    Passage s names u others := by
  obtain ⟨taken, uses, hspots, huses, hchecks, rfl⟩ := h.taken
  obtain ⟨taken', uses', hspots', huses', hchecks', rfl⟩ := h'.taken
  refine ⟨h'.proper, taken ++ taken', uses ++ uses', ?_, huses.append huses', ?_, ?_⟩
  · rw [hspots, hspots', List.append_assoc]
  · rw [hchecks', hchecks, List.append_assoc]
  · rw [List.map_append, List.append_assoc]

/-- Where the rule succeeds from the state on, it notes down the uses in the tokens it takes. What it gives tells the
names that have been used then. -/
def Gathers (p : Parser α) (s : State) (names : List String) (k : α → List String) : Prop :=
  s.Proper → ∀ a t, Runs p s a t → Passage s names t (k a)

theorem symbol_ne_end (symbol : Symbol) : Token.symbol symbol ≠ .endOfInput := nofun

/-- A name behind a token that is not the end of the text. -/
theorem marked_name {u : State} {x : Unit} {spelling : String} (hs : s.Proper) (hmore : s.current ≠ .endOfInput)
    (hadvance : Runs advance s x t) (hname : Runs Parser.name t spelling u) :
    s.spots = (s.position, s.current) :: (t.position, t.current) :: u.spots ∧ t.current.name? = some spelling ∧
      u.checks = s.checks ∧ u.Proper := by
  obtain ⟨-, hchecks, ht⟩ := advance_takes hs rfl hmore hadvance
  have hu := (Keeps.name steady_proper).of_ok ht hname
  unfold Parser.name at hname
  obtain ⟨token, t, hcurrent, hname⟩ := hname.bind
  obtain ⟨rfl, rfl⟩ := current_ok hcurrent
  split at hname
  · rename_i text htext
    obtain ⟨y, v, hadvance', hname⟩ := hname.bind
    cases hname
    have hmore' : t.current ≠ .endOfInput := fun heq => by
      rw [heq] at htext
      cases htext
    refine ⟨?_, htext, (advance_ok ht hmore' hadvance').2.trans hchecks, hu⟩
    rw [hs.spots_of_advance hmore hadvance, ht.spots_of_advance hmore' hadvance']
  · cases hname

namespace Gathers

variable {p : Parser α} {f : α → Parser β} {m : α → List String} {k : β → List String}

theorem bind (hp : Gathers p s names m) (hf : ∀ a t, Runs p s a t → Gathers (f a) t (m a) k) :
    Gathers (p >>= f) s names k := by
  intro hs b u h
  obtain ⟨a, t, ha, hb⟩ := h.bind
  have hpassage := hp hs a t ha
  exact hpassage.trans (hf a t ha hpassage.proper b u hb)

theorem pure {b : β} (h : k b = names) : Gathers (Pure.pure b) s names k := by
  intro hs a t hrun
  cases hrun
  exact h ▸ .refl hs

theorem fail {fault : Fault} {detail? : Option String} : Gathers (Parser.fail fault detail? : Parser α) s names m :=
  fun _ _ _ h => by cases h

theorem failAt {position : Position} {fault : Fault} {detail? : Option String} :
    Gathers (Parser.failAt position fault detail? : Parser α) s names m := fun _ _ _ h => by cases h

theorem current {f : Token → Parser β} (h : Gathers (f s.current) s names k) :
    Gathers (Parser.current >>= f) s names k := fun hs b t hrun => h hs b t ((bind_current rfl).symm.trans hrun)

theorem position {f : Position → Parser β} (h : Gathers (f s.position) s names k) :
    Gathers (Parser.position >>= f) s names k := fun hs b t hrun => h hs b t (bind_position.symm.trans hrun)

theorem listBound {f : Nat → Parser β} (h : Gathers (f (s.rest.length + 1)) s names k) :
    Gathers (Parser.listBound >>= f) s names k := fun hs b t hrun => h hs b t (bind_listBound.symm.trans hrun)

/-- Taking a token other than an ampersand. -/
theorem advance {token : Token} (htoken : s.current = token) (hmore : token ≠ .endOfInput)
    (hother : token ≠ .symbol .ampersand) : Gathers Parser.advance s names fun _ => names := by
  subst htoken
  intro hs u t h
  have huses : t.uses = s.uses := congrArg (List.filterMap Check.use?) (advance_ok hs hmore h).2
  refine ⟨steady_proper.advance.of_ok hs h, [(s.position, s.current)], [], hs.spots_of_advance hmore h,
    .other hother .nil, ?_, ?_⟩
  · rw [huses, List.append_nil]
  · rw [List.map_nil, List.append_nil]

/-- Taking the current token, where something is known of it that is not so of an ampersand. -/
theorem take {γ : Type} {f : Token → Option γ} {x : γ} (h : f s.current = some x) (hend : f .endOfInput = none)
    (hampersand : f (.symbol .ampersand) = none) : Gathers Parser.advance s names fun _ => names := by
  refine advance rfl (fun heq => ?_) fun heq => ?_
  · rw [heq, hend] at h
    cases h
  · rw [heq, hampersand] at h
    cases h

/-- Noting down a check that is no use of a name. -/
theorem note {check : Check} (h : check.use? = none) : Gathers (Parser.note check) s names fun _ => names := by
  intro hs u t hrun
  cases hrun
  refine ⟨steady_proper.checks s _ hs, [], [], rfl, .nil, ?_, ?_⟩
  · change (s.checks ++ [check]).filterMap Check.use? = _
    rw [List.filterMap_append, List.filterMap_cons_none h]
    rfl
  · rw [List.map_nil, List.append_nil]

/-! ### Single tokens -/

theorem accept (symbol : Symbol) (h : symbol ≠ .ampersand) :
    Gathers (Parser.accept symbol) s names fun _ => names := by
  refine current ?_
  split
  · rename_i hsymbol
    exact (advance hsymbol (symbol_ne_end _) fun heq => h (Token.symbol.inj heq)).bind fun _ _ _ => pure rfl
  · exact pure rfl

theorem expect (symbol : Symbol) (fault : Fault) (h : symbol ≠ .ampersand) :
    Gathers (Parser.expect symbol fault) s names fun _ => names := by
  refine current ?_
  split
  · rename_i hsymbol
    exact advance hsymbol (symbol_ne_end _) fun heq => h (Token.symbol.inj heq)
  · exact fail

theorem another : Gathers Parser.another s names fun _ => names := by
  refine (accept .comma nofun).bind fun found _ _ => ?_
  split
  · exact (accept .closeBrace nofun).bind fun _ _ _ => pure rfl
  · exact (expect .closeBrace _ nofun).bind fun _ _ _ => pure rfl

theorem name : Gathers Parser.name s names fun _ => names := by
  refine current ?_
  split
  · rename_i spelling hname
    exact (take hname rfl rfl).bind fun _ _ _ => pure rfl
  · exact fail

theorem key : Gathers Parser.key s names fun _ => names := by
  refine current ?_
  split
  · rename_i content hcontent
    exact (advance hcontent nofun nofun).bind fun _ _ _ => pure rfl
  · exact fail
  · exact fail
  · exact name

theorem literal : Gathers Parser.literal s names fun _ => names := by
  refine current ?_
  split
  · rename_i v hv
    exact (take hv rfl rfl).bind fun _ _ _ => pure rfl
  · exact fail

theorem fieldDefault? (node : Node) : Gathers (Parser.fieldDefault? node) s names fun _ => names := by
  refine (accept .equals nofun).bind fun found _ _ => ?_
  split
  · exact position (literal.bind fun v _ _ => (note rfl).bind fun _ _ _ => pure rfl)
  · exact pure rfl

/-! ### Values -/

section Values

open Node (references subnodes references_append)

variable {rule : Parser Node} (hrule : ∀ {s : State} {names : List String},
  Gathers rule s names fun n => names ++ references n.subnodes)

include hrule

theorem elements (bound : Nat) : Gathers (Parser.elements rule bound) s names
    fun found => names ++ references (found.1.flatMap subnodes) := by
  induction bound generalizing s names with
  | zero => exact fail
  | succ bound ih =>
    have hone : ∀ node : Node, [node].flatMap subnodes = node.subnodes := fun node => List.append_nil _
    refine hrule.bind fun node _ _ => (accept .comma nofun).bind fun comma _ _ => current ?_
    split
    · rename_i hellipsis
      refine (advance hellipsis nofun nofun).bind fun _ _ _ => (expect .closeBracket _ nofun).bind fun _ _ _ => pure ?_
      rw [hone]
    · rename_i hbracket
      refine (advance hbracket nofun nofun).bind fun _ _ _ => pure ?_
      rw [hone]
    · split
      · refine ih.bind fun found _ _ => pure ?_
        rw [List.flatMap_cons, references_append, List.append_assoc]
      · exact fail

theorem array : Gathers (Parser.array rule) s names fun n => names ++ references n.subnodes := by
  refine current ?_
  split
  · exact fail
  · refine listBound ((elements hrule _).bind fun found _ _ => pure ?_)
    rw [Node.references_array]

theorem field : Gathers (Parser.field rule) s names fun f => names ++ references f.node.subnodes := by
  refine key.bind fun name _ _ => (accept .question nofun).bind fun isOptional _ _ => ?_
  refine (expect .colon _ nofun).bind fun _ _ _ => ?_
  exact hrule.bind fun node _ _ => (fieldDefault? node).bind fun default? _ _ => pure rfl

theorem fields (bound : Nat) (before : List String) : Gathers (Parser.fields rule bound before) s names
    fun fs => names ++ references (fs.flatMap fun f => f.node.subnodes) := by
  induction bound generalizing s names before with
  | zero => exact fail
  | succ bound ih =>
    refine position ((field hrule).bind fun f _ _ => ?_)
    split
    · exact failAt
    · refine another.bind fun more _ _ => ?_
      split
      · refine (ih _).bind fun fs _ _ => pure ?_
        rw [List.flatMap_cons, references_append, List.append_assoc]
      · refine pure ?_
        rw [List.flatMap_singleton]

theorem map : Gathers (Parser.map rule) s names fun n => names ++ references n.subnodes := by
  refine current ?_
  split
  · exact fail
  · rename_i hdollar
    refine (advance hdollar nofun nofun).bind fun _ _ _ => (expect .colon _ nofun).bind fun _ _ _ => ?_
    exact hrule.bind fun entry _ _ => (expect .closeBrace _ nofun).bind fun _ _ _ => pure rfl
  · refine listBound ((fields hrule _ []).bind fun fs _ _ => pure ?_)
    rw [Node.references_map]

theorem alternatives (bound : Nat) (before : List Value) : Gathers (Parser.alternatives rule bound before) s names
    fun found => names ++ references ((found.map Prod.snd).flatMap fun a => a.node.subnodes) := by
  induction bound generalizing s names before with
  | zero => exact fail
  | succ bound ih =>
    refine position ?_
    have hkey : Gathers Parser.alternativeKey s names fun _ => names := fun hs key t h => by
      obtain ⟨rfl, -⟩ := alternativeKey_ok h
      exact .refl hs
    refine hkey.bind fun key t hrun => ?_
    split
    · exact fail
    · -- The key is still the current token, and it is no name in use.
      obtain ⟨rfl, hmore, hderived⟩ := alternativeKey_ok hrun
      have hother : s.current ≠ .symbol .ampersand := fun heq => by
        have hampersand := hderived []
        rw [heq] at hampersand
        cases hampersand
      refine (advance rfl hmore hother).bind fun _ _ _ => (expect .colon _ nofun).bind fun _ _ _ => ?_
      refine hrule.bind fun node _ _ => another.bind fun more _ _ => ?_
      split
      · refine (ih _).bind fun found _ _ => pure ?_
        rw [List.map_cons, List.flatMap_cons, references_append, List.append_assoc]
      · refine pure ?_
        rw [List.map_singleton, List.flatMap_singleton]

theorem selector : Gathers (Parser.selector rule) s names fun n => names ++ references n.subnodes := by
  refine key.bind fun discriminant _ _ => (expect .openBrace _ nofun).bind fun _ _ _ => current ?_
  split
  · exact fail
  · refine listBound ((alternatives hrule _ []).bind fun found _ _ => (note rfl).bind fun _ _ _ => pure ?_)
    rw [Node.references_selector]

omit hrule in
/-- An ampersand is taken with the name behind it, and the use of that name is noted down. -/
theorem reference (hampersand : s.current = .symbol .ampersand) :
    Gathers (do Parser.advance; Parser.reference s.position) s names fun n => names ++ references n.subnodes := by
  intro hs n t h
  obtain ⟨u, s₁, hadvance, h⟩ := h.bind
  obtain ⟨spelling, s₂, hname, h⟩ := h.bind
  obtain ⟨u', s₃, hnote, h⟩ := h.bind
  cases hnote
  cases h
  obtain ⟨hspots, hname?, hchecks, hs₂⟩ := marked_name hs (hampersand ▸ symbol_ne_end _) hadvance hname
  refine ⟨steady_proper.checks s₂ _ hs₂, [(s.position, s.current), (s₁.position, s₁.current)], [(spelling, s.position)],
    hspots, ?_, ?_, rfl⟩
  · rw [hampersand]
    exact .use hname? .nil
  · change (s₂.checks ++ [Check.reference spelling s.position]).filterMap Check.use? = _
    rw [List.filterMap_append, hchecks]
    rfl

end Values

theorem value (levels : Nat) : Gathers (Parser.value levels) s names fun n => names ++ Node.references n.subnodes := by
  induction levels generalizing s names with
  | zero => exact fail
  | succ levels ih =>
    refine current ?_
    split
    · rename_i kind hkind
      exact (take hkind rfl rfl).bind fun _ _ _ => pure (List.append_nil _)
    · split
      · rename_i h
        exact (advance h nofun nofun).bind fun _ _ _ => pure (List.append_nil _)
      · rename_i h
        exact (advance h nofun nofun).bind fun _ _ _ => selector ih
      · rename_i h
        exact (advance h nofun nofun).bind fun _ _ _ => array ih
      · rename_i h
        exact (advance h nofun nofun).bind fun _ _ _ => map ih
      · rename_i h
        exact position (reference h)
      · exact fail
      · exact fail
      · exact fail
      · exact literal.bind fun v _ _ => pure (List.append_nil _)

/-- The bodies of a resource, one for both directions once. -/
theorem resource (maxDepth : Nat) (name : String) : Gathers (Parser.resource maxDepth name) s names
    fun r => names ++ Node.references ((Grammar.Declaration.resource r).written.flatMap Node.subnodes) := by
  refine current ?_
  split
  · exact fail
  · rename_i access haccess
    refine (take haccess rfl rfl).bind fun _ _ _ => (value maxDepth).bind fun first _ _ => ?_
    have hany : Node.references Node.any.subnodes = [] := rfl
    split
    · refine (expect .result _ nofun).bind fun _ _ _ => (value maxDepth).bind fun second _ _ => pure ?_
      simp [Grammar.Declaration.written, Node.references_append]
    all_goals exact pure (by simp [Grammar.Declaration.written, Node.references_append, hany])

end Gathers

/-! ## Suites -/

/-- The declarations up to the end of the text are placed. Between the two states their uses have been noted down, which
are those of their nodes. -/
structure PlacesBetween (depth : Nat) (s t : State) (ps : List Placed) : Prop where
  places : Places depth s.spots ps
  uses_eq : t.uses = s.uses ++ ps.flatMap Placed.uses
  names_eq : ∀ p ∈ ps, p.uses.map Prod.fst = Node.references (p.declaration.written.flatMap Node.subnodes)

/-- One more declaration in front of the others: its mark and its name, and what is behind them. -/
theorem PlacesBetween.cons {depth : Nat} {mark name : Spot} {u v : State} {d : Grammar.Declaration} {ps : List Placed}
    (h : PlacesBetween depth v t ps) (hspots : s.spots = mark :: name :: u.spots) (hchecks : u.checks = s.checks)
    (hbody : Passage u [] v (Node.references (d.written.flatMap Node.subnodes)))
    (hd : Grammar.DeclarationRule (Grammar.Value depth) s.tokens d v.tokens) :
    ∃ uses, PlacesBetween depth s t (⟨d, name.1, uses⟩ :: ps) := by
  obtain ⟨body, uses, hbody, huses, hgathered, hnames⟩ := hbody.taken
  have hkept : u.uses = s.uses := congrArg (List.filterMap Check.use?) hchecks
  rw [State.tokens_eq, State.tokens_eq, hspots, hbody] at hd
  refine ⟨uses, ?_, ?_, List.forall_mem_cons.2 ⟨hnames.symm, h.names_eq⟩⟩
  · rw [hspots, hbody]
    exact .declaration hd huses h.places
  · rw [h.uses_eq, hgathered, hkept, List.flatMap_cons, List.append_assoc]

/-- The position of a name that is defined is kept, and that of a new name is added. -/
theorem get?_positions (positions : Entries Position) (name other : String) (place : Position) :
    Entries.get? (if (Entries.get? positions name).isSome then positions
      else Entries.insert name place positions) other =
      (Entries.get? positions other).or (if name = other then some place else none) := by
  by_cases heq : name = other
  · subst heq
    cases hget : Entries.get? positions name with
    | none => simp [Entries.get?_insert]
    | some found => simp [hget]
  · rw [if_neg heq, Option.or_none]
    split
    · rfl
    · rw [Entries.get?_insert, if_neg (Ne.symm heq)]

/-- **The declarations that are read up to the end of the text are placed**, and each name that is defined has the
position of its first definition, which may be among those that were read before. -/
theorem declarations_places (maxDepth bound : Nat) {d d' : Declarations} (hs : s.Proper)
    (h : Runs (declarations maxDepth bound d) s d' t) :
    ∃ ps, PlacesBetween maxDepth s t ps ∧
      (∀ name, Entries.get? d'.positions name = (Entries.get? d.positions name).or (Placed.first? name ps)) ∧
      (d.positions.Sorted → d'.positions.Sorted) := by
  induction bound generalizing d s with
  | zero => cases h
  | succ bound ih =>
    unfold declarations at h
    obtain ⟨token, s₁, hcurrent, h⟩ := h.bind
    obtain ⟨htoken, rfl⟩ := current_ok hcurrent
    split at h
    · cases h
      exact ⟨[], ⟨hs.spots_of_end htoken ▸ .endOfInput, (List.append_nil _).symm, by simp⟩,
        fun name => Option.or_none.symm, id⟩
    · obtain ⟨u, s₂, hadvance, h⟩ := h.bind
      obtain ⟨place, s₃, hplace, h⟩ := h.bind
      cases hplace
      obtain ⟨name, s₃, hname, h⟩ := h.bind
      obtain ⟨hspots, -, hchecks, hs₃⟩ := marked_name hs (htoken ▸ symbol_ne_end _) hadvance hname
      obtain ⟨htokens, -, hs₂⟩ := advance_takes hs htoken (symbol_ne_end _) hadvance
      split at h
      · cases h
      · obtain ⟨r, s₄, hr, h⟩ := h.bind
        obtain ⟨⟨rfl, harrow⟩, -⟩ := Reads.resource maxDepth name _ _ _ hs₃ hr
        have hbody : Passage s₃ [] s₄ _ := Gathers.resource maxDepth r.name hs₃ r s₄ hr
        have hd : Grammar.DeclarationRule (Grammar.Value maxDepth) s.tokens (.resource r) s₄.tokens :=
          htokens ▸ .resource (takes_name _ _ _ hs₂ hname).1 harrow
        -- A resource has no part in the positions of definitions.
        obtain ⟨ps, hps, hpositions, hsorted⟩ := ih hbody.proper h
        obtain ⟨uses, hplaces⟩ := hps.cons hspots hchecks hbody hd
        exact ⟨_, hplaces, hpositions, hsorted⟩
    · obtain ⟨u, s₂, hadvance, h⟩ := h.bind
      obtain ⟨place, s₃, hplace, h⟩ := h.bind
      cases hplace
      obtain ⟨name, s₃, hname, h⟩ := h.bind
      obtain ⟨hspots, -, hchecks, hs₃⟩ := marked_name hs (htoken ▸ symbol_ne_end _) hadvance hname
      obtain ⟨htokens, -, hs₂⟩ := advance_takes hs htoken (symbol_ne_end _) hadvance
      obtain ⟨u', s₄, hequals, h⟩ := h.bind
      obtain ⟨hequals', -, hs₄⟩ := expect_ok hs₃ hequals
      obtain ⟨node, s₅, hnode, h⟩ := h.bind
      obtain ⟨hderived, -⟩ := Reads.value maxDepth _ _ _ hs₄ hnode
      have hbody : Passage s₃ [] s₅ (Node.references
          ((Grammar.Declaration.definition name node).written.flatMap Node.subnodes)) := by
        change Passage s₃ [] s₅ (Node.references ([node].flatMap Node.subnodes))
        rw [List.flatMap_singleton]
        exact (Gathers.expect .equals _ (by decide) hs₃ u' s₄ hequals).trans (Gathers.value maxDepth hs₄ node s₅ hnode)
      have hd : Grammar.DeclarationRule (Grammar.Value maxDepth) s.tokens (.definition name node) s₅.tokens :=
        htokens ▸ .definition (hequals' ▸ (takes_name _ _ _ hs₂ hname).1) hderived
      obtain ⟨ps, hps, hpositions, hsorted⟩ := ih hbody.proper h
      obtain ⟨uses, hplaces⟩ := hps.cons hspots hchecks hbody hd
      refine ⟨_, hplaces, fun other => ?_, fun hold => hsorted ?_⟩
      · rw [hpositions, get?_positions, Option.or_assoc, Placed.first?_definition]
      · dsimp only
        split
        · exact hold
        · exact Entries.sorted_insert hold
    · cases h

/-- What is known of a suite that has been read up to the end of the text, before its checks. -/
structure SuiteRead (text : String) (maxDepth : Nat) (d : Declarations) (ps : List Placed) (checks : List Check) :
    Prop where
  declares : Declares text maxDepth ps
  collects : Collects (ps.map Placed.declaration) d.resources d.definitions
  uses_eq : checks.filterMap Check.use? = ps.flatMap Placed.uses
  names_eq : ∀ p ∈ ps, p.uses.map Prod.fst = Node.references (p.declaration.written.flatMap Node.subnodes)
  positions_eq : ∀ name, Entries.get? d.positions name = Placed.first? name ps
  positions_sorted : d.positions.Sorted
  /-- The checks decide. -/
  decided : Suite.ofText text maxDepth = (resolve d.definitions d.positions maxDepth checks).map fun _ =>
    { resources := d.resources, definitions := d.definitions }

/-- **A suite that is read up to the end of the text has placed declarations**, and the names that are checked are those
used in them. -/
theorem suitePass_ok {text : String} {maxDepth : Nat} {d : Declarations} (h : (suitePass maxDepth).run text = .ok d) :
    ∃ ps checks, SuiteRead text maxDepth d ps checks := by
  obtain ⟨s, t, hstart, hpass⟩ := run_ok_iff.1 h
  have hs := start_proper hstart
  have hdeclarations : Runs (declarations maxDepth (s.rest.length + 1) {}) s d t := hpass
  obtain ⟨ps, hps, hpositions, hsorted⟩ := declarations_places maxDepth _ hs hdeclarations
  obtain ⟨ds, hds, hcollected, -⟩ := Reads.declarations maxDepth _ hs .empty hdeclarations
  obtain rfl : ds = ps.map Placed.declaration := hds.unique (State.tokens_eq s ▸ hps.places.suite)
  have hempty : s.uses = [] := congrArg (List.filterMap Check.use?) (start_checks hstart)
  obtain ⟨p, hend⟩ := hps.places.exists_end
  exact ⟨ps, t.checks,
    { declares := ⟨s.spots, located_of_end hstart hend, hps.places⟩
      collects := hcollected.collects
      uses_eq := by rw [← List.nil_append (ps.flatMap _), ← hempty]; exact hps.uses_eq
      names_eq := hps.names_eq
      positions_eq := fun name => hpositions name
      positions_sorted := hsorted .nil
      decided := Suite.ofText_resolve hstart hpass }⟩

namespace SuiteRead

variable {text name : String} {maxDepth : Nat} {d : Declarations} {ps : List Placed} {checks : List Check}

theorem defined_iff (h : SuiteRead text maxDepth d ps checks) :
    (Entries.get? d.definitions name).isSome = true ↔ Placed.Defined ps name := by
  have hnone : ∀ e : Grammar.Declaration, e.definitionOf? name = none ↔ e.definedName? ≠ some name := by
    rintro (r | ⟨other, node⟩) <;> simp [Grammar.Declaration.definitionOf?, Grammar.Declaration.definedName?]
  rw [← Definitions.nodes_ne_nil_iff h.collects.inhabited, h.collects.nodes_eq, Ne, List.filterMap_eq_nil_iff]
  simp only [hnone, List.forall_mem_map, not_forall, not_not, exists_prop, Placed.Defined]

/-- The uses that are checked are those in the nodes, at any depth. -/
theorem used_iff (h : SuiteRead text maxDepth d ps checks) :
    (∃ place, (name, place) ∈ ps.flatMap Placed.uses) ↔ Placed.Used ps name := by
  obtain ⟨spots, -, hplaces⟩ := h.declares
  have hdeclaration : ∀ p ∈ ps, (∃ place, (name, place) ∈ p.uses) ↔
      ∃ n ∈ p.declaration.nodes, .reference name ∈ n.subnodes := by
    intro p hp
    calc (∃ place, (name, place) ∈ p.uses)
      _ ↔ name ∈ p.uses.map Prod.fst := by simp
      _ ↔ ∃ n ∈ p.declaration.written, .reference name ∈ n.subnodes := by
        rw [h.names_eq p hp, Node.mem_references, List.mem_flatMap]
      _ ↔ ∃ n ∈ p.declaration.nodes, .reference name ∈ n.subnodes := by simp only [hplaces.mem_written hp]
  constructor
  · rintro ⟨place, hmem⟩
    obtain ⟨p, hp, hmem⟩ := List.mem_flatMap.1 hmem
    exact ⟨p, hp, (hdeclaration p hp).1 ⟨place, hmem⟩⟩
  · rintro ⟨p, hp, hused⟩
    obtain ⟨place, hmem⟩ := (hdeclaration p hp).2 hused
    exact ⟨place, List.mem_flatMap.2 ⟨p, hp, hmem⟩⟩

/-- What the call gives as an error is what the checks do. -/
theorem error_iff (h : SuiteRead text maxDepth d ps checks) {e : ParseError} :
    Suite.ofText text maxDepth = .error e ↔ resolve d.definitions d.positions maxDepth checks = .error e := by
  rw [h.decided]
  cases resolve d.definitions d.positions maxDepth checks with
  | ok u => exact iff_of_false nofun nofun
  | error e' => exact ⟨fun heq => by cases heq; rfl, fun heq => by cases heq; rfl⟩

end SuiteRead

end Parser

end Conformance
