import Conformance.Proofs.Composition
import Conformance.Proofs.Occurrence
import Conformance.Syntax.Parser

/-!
# What accepted texts describe

The nodes of a text that is read without a fault meet conditions that the reader checks on the way or
notes down to be checked at the end.

* `Parser.Yields` — what a rule of the grammar ensures about its result and the checks noted down by then.
* `Node.Checked` — a map declares no name twice, and the check of a selector has been noted down.
* `Node.Sound` — a map declares no name twice, and each alternative of a selector is a map in which the
  discriminant takes the key of the alternative as it is.
* `Accepted` — a node that some text is read as, with the definitions of the text; `Accepted.of_schema`
  and `Accepted.of_suite` are about whole texts.
* `Accepted.sound` — every node in it and in the definitions is sound.
-/

set_option autoImplicit false

namespace Conformance

namespace Parser

/-! ## Rules and the checks they note down -/

section Rules

variable {α β : Type}

theorem bind_ok {p : Parser α} {f : α → Parser β} {s t : State} {b : β}
    (h : (p >>= f) s = .ok b t) : ∃ a u, p s = .ok a u ∧ f a u = .ok b t := by
  change EStateM.bind p f s = .ok b t at h
  unfold EStateM.bind at h
  split at h
  · rename_i a u ha
    exact ⟨a, u, ha, h⟩
  · cases h

/-- Wherever the rule succeeds, no check has been forgotten, and its result is as required with the checks
noted down by then. -/
def Yields (p : Parser α) (Q : α → List Check → Prop) : Prop :=
  ∀ s a t, p s = .ok a t → s.checks ⊆ t.checks ∧ Q a t.checks

/-- What holds with some checks still holds when more have been noted down. -/
def Lasting (P : List Check → Prop) : Prop := ∀ checks more, checks ⊆ more → P checks → P more

theorem Lasting.forall_mem {l : List α} {P : α → List Check → Prop} (h : ∀ a, Lasting (P a)) :
    Lasting fun checks => ∀ a ∈ l, P a checks :=
  fun checks more hsub hall a ha => h a checks more hsub (hall a ha)

theorem Lasting.and_const {P : List Check → Prop} (h : Lasting P) (q : Prop) :
    Lasting fun checks => P checks ∧ q :=
  fun checks more hsub hp => ⟨h checks more hsub hp.1, hp.2⟩

namespace Yields

variable {p : Parser α} {Q Q' : α → List Check → Prop} {R : β → List Check → Prop}

theorem mono (h : Yields p Q) (hQ : ∀ a checks, Q a checks → Q' a checks) : Yields p Q' :=
  fun s a t hp => ⟨(h s a t hp).1, hQ _ _ (h s a t hp).2⟩

theorem pure {a : α} (h : ∀ checks, Q a checks) : Yields (Pure.pure a) Q := by
  intro s b t hp
  cases hp
  exact ⟨List.Subset.refl _, h _⟩

theorem bind {f : α → Parser β} (hp : Yields p Q) (hQ : ∀ a, Lasting (Q a))
    (hf : ∀ a, Yields (f a) fun b checks => Q a checks → R b checks) : Yields (p >>= f) R := by
  intro s b t h
  obtain ⟨a, u, ha, h⟩ := bind_ok h
  obtain ⟨hsu, ha⟩ := hp s a u ha
  obtain ⟨hut, hb⟩ := hf a u b t h
  exact ⟨List.Subset.trans hsu hut, hb (hQ a _ _ hut ha)⟩

/-- A rule of which only the checks matter comes first. -/
theorem after {f : α → Parser β} (hp : Yields p fun _ _ => True) (hf : ∀ a, Yields (f a) R) :
    Yields (p >>= f) R :=
  bind hp (fun _ _ _ _ h => h) fun a => (hf a).mono fun _ _ h _ => h

theorem throw (e : ParseError) : Yields (MonadExcept.throw e : Parser α) Q := fun _ _ _ h => by cases h

theorem get : Yields (MonadState.get : Parser State) fun _ _ => True := by
  intro s a t h
  cases h
  exact ⟨List.Subset.refl _, trivial⟩

theorem failAt (position : Position) (fault : Fault) (detail? : Option String) :
    Yields (Parser.failAt position fault detail? : Parser α) Q := throw _

theorem fail (fault : Fault) (detail? : Option String) :
    Yields (Parser.fail fault detail? : Parser α) Q :=
  after get fun _ => failAt _ _ _

theorem current : Yields Parser.current fun _ _ => True := after get fun _ => pure fun _ => trivial

theorem position : Yields Parser.position fun _ _ => True := after get fun _ => pure fun _ => trivial

theorem listBound : Yields Parser.listBound fun _ _ => True := after get fun _ => pure fun _ => trivial

theorem advance : Yields Parser.advance fun _ _ => True := by
  intro s a t h
  obtain ⟨token, position, rest, checks⟩ := s
  refine ⟨?_, trivial⟩
  cases rest with
  | nil =>
    cases h
    exact List.Subset.refl _
  | cons lexeme rest =>
    obtain ⟨result, next⟩ := lexeme
    cases result with
    | ok found =>
      cases h
      exact List.Subset.refl _
    | error e => cases h

theorem note (check : Check) : Yields (Parser.note check) fun _ checks => check ∈ checks := by
  intro s a t h
  cases h
  exact ⟨List.subset_append_left _ _, List.mem_append_right _ List.mem_cons_self⟩

/-- Where only results matter, what each step ensures is ensured by the steps one after the other. -/
theorem composes : Composes (fun _ => True) fun _ p Q => Yields p fun a _ => Q a where
  pure _ ha := pure fun _ => ha
  bind hp hf := by
    intro s b t h
    obtain ⟨a, u, ha, hb⟩ := bind_ok h
    obtain ⟨hsu, hQ⟩ := hp s a u ha
    obtain ⟨hut, hR⟩ := hf a hQ u b t hb
    exact ⟨List.Subset.trans hsu hut, hR⟩
  failAt _ _ _ := failAt _ _ _
  current := current
  position := position
  listBound := listBound
  advance := advance
  note _ := (note _).mono fun _ _ _ => trivial

theorem accept (symbol : Symbol) : Yields (Parser.accept symbol) fun _ _ => True := composes.accept symbol

theorem expect (symbol : Symbol) (fault : Fault) : Yields (Parser.expect symbol fault) fun _ _ => True :=
  composes.expect symbol fault

theorem another : Yields Parser.another fun _ _ => True := composes.another

theorem name : Yields Parser.name fun _ _ => True := composes.name

theorem key : Yields Parser.key fun _ _ => True := composes.key

theorem literal : Yields Parser.literal fun _ _ => True := composes.literal

theorem alternativeKey : Yields Parser.alternativeKey fun _ _ => True := composes.alternativeKey

theorem fieldDefault? (node : Node) : Yields (Parser.fieldDefault? node) fun _ _ => True :=
  composes.fieldDefault? node

end Yields

end Rules

end Parser

/-! ## Nodes that are read -/

namespace Node

/-- A map declares no name twice, and the check of a selector has been noted down. -/
def Checked (checks : List Check) : Node → Prop
  | .map fields => (fields.map Field.name).Nodup
  | .selector discriminant alternatives =>
    ∃ found, .selector discriminant found ∈ checks ∧ alternatives = found.map Prod.snd
  | _ => True

/-- Every node in the tree has been checked. -/
def AllChecked (checks : List Check) (node : Node) : Prop := ∀ m ∈ node.subnodes, m.Checked checks

theorem lasting_allChecked (node : Node) : Parser.Lasting fun checks => node.AllChecked checks := by
  intro checks more hsub h m hm
  have hchecked := h m hm
  cases m
  case selector discriminant alternatives =>
    obtain ⟨found, hfound, halternatives⟩ := hchecked
    exact ⟨found, hsub hfound, halternatives⟩
  all_goals exact hchecked

theorem allChecked_of_parts {checks : List Check} {node : Node} (h : node.Checked checks)
    (hp : ∀ k, Part k node → k.AllChecked checks) : node.AllChecked checks := by
  intro m hm
  rcases mem_subnodes.1 hm with rfl | ⟨k, hk, hm⟩
  · exact h
  · exact hp k hk m hm

end Node

namespace Parser.Yields

variable {rule : Parser Node}

theorem elements (hrule : Yields rule fun n checks => n.AllChecked checks) (bound : Nat) :
    Yields (Parser.elements rule bound) fun r checks => ∀ n ∈ r.1, n.AllChecked checks := by
  induction bound with
  | zero => exact fail _ _
  | succ bound ih =>
    refine bind hrule Node.lasting_allChecked fun node => ?_
    refine after (accept _) fun comma => after current fun token => ?_
    split
    · refine after advance fun _ => after (expect _ _) fun _ => pure fun checks hnode => ?_
      simpa using hnode
    · refine after advance fun _ => pure fun checks hnode => ?_
      simpa using hnode
    · split
      · refine bind ih (fun _ => .forall_mem Node.lasting_allChecked) fun r => ?_
        exact pure fun checks hr hnode => List.forall_mem_cons.2 ⟨hnode, hr⟩
      · exact fail _ _

theorem array (hrule : Yields rule fun n checks => n.AllChecked checks) :
    Yields (Parser.array rule) fun n checks => n.AllChecked checks := by
  refine after current fun token => ?_
  split
  · exact fail _ _
  · refine after listBound fun bound => bind (elements hrule bound)
      (fun _ => .forall_mem Node.lasting_allChecked) fun r => pure fun checks hr => ?_
    refine Node.allChecked_of_parts trivial fun k hk => ?_
    cases hk with
    | element hk => exact hr k hk

theorem field (hrule : Yields rule fun n checks => n.AllChecked checks) :
    Yields (Parser.field rule) fun f checks => f.node.AllChecked checks := by
  refine after key fun name => after (accept _) fun isOptional => after (expect _ _) fun _ => ?_
  refine bind hrule Node.lasting_allChecked fun node => ?_
  exact after (fieldDefault? node) fun default? => pure fun _ h => h

theorem lasting_fields {fs : List (Field Node)} {P : Prop} :
    Lasting fun checks => (∀ f ∈ fs, f.node.AllChecked checks) ∧ P :=
  (Lasting.forall_mem fun f => f.node.lasting_allChecked).and_const P

theorem fields (hrule : Yields rule fun n checks => n.AllChecked checks) (bound : Nat)
    (before : List String) : Yields (Parser.fields rule bound before) fun fs checks =>
      (∀ f ∈ fs, f.node.AllChecked checks) ∧ (fs.map Field.name).Nodup ∧
        ∀ f ∈ fs, f.name ∉ before := by
  induction bound generalizing before with
  | zero => exact fail _ _
  | succ bound ih =>
    refine after position fun _ => ?_
    refine bind (field hrule) (fun f => f.node.lasting_allChecked) fun f => ?_
    split
    · exact failAt _ _ _
    · rename_i hname
      have hname : f.name ∉ before := by simpa using hname
      refine after another fun more => ?_
      split
      · refine bind (ih (f.name :: before)) (fun _ => lasting_fields) fun fs =>
          pure fun checks hfs hf => ?_
        obtain ⟨hall, hnd, hbefore⟩ := hfs
        refine ⟨List.forall_mem_cons.2 ⟨hf, hall⟩, List.nodup_cons.2 ⟨?_, hnd⟩, ?_⟩
        · intro hmem
          obtain ⟨g, hg, heq⟩ := List.mem_map.1 hmem
          exact hbefore g hg (heq ▸ List.mem_cons_self)
        · refine List.forall_mem_cons.2 ⟨hname, fun g hg hmem => ?_⟩
          exact hbefore g hg (List.mem_cons_of_mem _ hmem)
      · exact pure fun checks hf => by simp [hf, hname]

theorem map (hrule : Yields rule fun n checks => n.AllChecked checks) :
    Yields (Parser.map rule) fun n checks => n.AllChecked checks := by
  refine after current fun token => ?_
  split
  · exact fail _ _
  · refine after advance fun _ => after (expect _ _) fun _ => ?_
    refine bind hrule Node.lasting_allChecked fun entry => ?_
    refine after (expect _ _) fun _ => pure fun checks hentry => ?_
    refine Node.allChecked_of_parts trivial fun k hk => ?_
    cases hk with
    | entry => exact hentry
  · refine after listBound fun bound => bind (fields hrule bound []) (fun _ => lasting_fields)
      fun fs => pure fun checks hfs => ?_
    refine Node.allChecked_of_parts hfs.2.1 fun k hk => ?_
    cases hk with
    | field hf => exact hfs.1 _ hf

theorem lasting_alternatives {found : List (Position × Alternative Node)} :
    Lasting fun checks => ∀ x ∈ found, x.2.node.AllChecked checks :=
  Lasting.forall_mem fun x => x.2.node.lasting_allChecked

theorem alternatives (hrule : Yields rule fun n checks => n.AllChecked checks) (bound : Nat)
    (before : List Value) : Yields (Parser.alternatives rule bound before) fun found checks =>
      ∀ x ∈ found, x.2.node.AllChecked checks := by
  induction bound generalizing before with
  | zero => exact fail _ _
  | succ bound ih =>
    refine after position fun _ => after alternativeKey fun key => ?_
    split
    · exact fail _ _
    · refine after advance fun _ => after (expect _ _) fun _ => ?_
      refine bind hrule Node.lasting_allChecked fun node => after another fun more => ?_
      split
      · refine bind (ih (key :: before)) (fun _ => lasting_alternatives) fun found => ?_
        exact pure fun checks hfound hnode => List.forall_mem_cons.2 ⟨hnode, hfound⟩
      · exact pure fun checks hnode => by simpa using hnode

theorem selector (hrule : Yields rule fun n checks => n.AllChecked checks) :
    Yields (Parser.selector rule) fun n checks => n.AllChecked checks := by
  refine after key fun discriminant => after (expect _ _) fun _ => after current fun token => ?_
  split
  · exact fail _ _
  · refine after listBound fun bound => ?_
    refine bind (alternatives hrule bound []) (fun _ => lasting_alternatives) fun found => ?_
    refine bind (note (.selector discriminant found)) (fun _ checks more hsub h => hsub h) fun _ =>
      pure fun checks hnoted hfound => ?_
    refine Node.allChecked_of_parts ⟨found, hnoted, rfl⟩ fun k hk => ?_
    cases hk with
    | alternative ha =>
      obtain ⟨x, hx, rfl⟩ := List.mem_map.1 ha
      exact hfound x hx

theorem reference (place : Position) :
    Yields (Parser.reference place) fun n checks => n.AllChecked checks := by
  refine after name fun name => after ((note _).mono fun _ _ _ => trivial) fun _ => pure fun checks => ?_
  exact Node.allChecked_of_parts trivial fun k hk => by cases hk

/-- **A node that is read has been checked, or its checks have been noted down.** -/
theorem value (levels : Nat) : Yields (Parser.value levels) fun n checks => n.AllChecked checks := by
  induction levels with
  | zero => exact fail _ _
  | succ levels ih =>
    refine after current fun token => ?_
    split
    · refine after advance fun _ => pure fun checks => ?_
      exact Node.allChecked_of_parts trivial fun k hk => by cases hk
    · split
      · refine after advance fun _ => pure fun checks => ?_
        exact Node.allChecked_of_parts trivial fun k hk => by cases hk
      · exact after advance fun _ => selector ih
      · exact after advance fun _ => array ih
      · exact after advance fun _ => map ih
      · exact after position fun place => after advance fun _ => reference place
      · exact fail _ _
      · exact fail _ _
      · exact fail _ _
      · refine after literal fun v => pure fun checks => ?_
        exact Node.allChecked_of_parts trivial fun k hk => by cases hk

end Parser.Yields

/-! ## Declarations -/

theorem Definitions.mem_nodes_declare {definitions : Definitions} {name other : String} {n m : Node}
    (h : m ∈ (definitions.declare name n).nodes other) : m = n ∨ m ∈ definitions.nodes other := by
  unfold nodes declare at h
  rw [Entries.get?_insert] at h
  split at h
  · rename_i heq
    rcases List.mem_append.1 h with h | h
    · exact .inr (heq ▸ h)
    · exact .inl (List.mem_singleton.1 h)
  · exact .inr h

namespace Parser

/-- Every node of the declarations has been checked. -/
structure Declarations.AllChecked (checks : List Check) (d : Declarations) : Prop where
  bodies : ∀ e ∈ d.resources, ∀ direction, (e.2.body direction).AllChecked checks
  definitions : ∀ name, ∀ n ∈ d.definitions.nodes name, n.AllChecked checks

theorem Declarations.AllChecked.empty (checks : List Check) :
    Declarations.AllChecked checks {} :=
  ⟨fun _ he => (List.not_mem_nil he).elim, fun _ _ hn => (List.not_mem_nil hn).elim⟩

theorem Declarations.AllChecked.insert {checks : List Check} {d : Declarations} {name : String}
    {r : Resource} (h : d.AllChecked checks) (hr : ∀ direction, (r.body direction).AllChecked checks) :
    Declarations.AllChecked checks { d with resources := Entries.insert name r d.resources } := by
  refine ⟨fun e he => ?_, h.definitions⟩
  rcases Entries.mem_insert he with rfl | he
  · exact hr
  · exact h.bodies e he

theorem Declarations.AllChecked.declare {checks : List Check} {d : Declarations} {name : String}
    {node : Node} {positions : Entries Position} (h : d.AllChecked checks)
    (hn : node.AllChecked checks) : Declarations.AllChecked checks
      { d with definitions := d.definitions.declare name node, positions := positions } := by
  refine ⟨h.bodies, fun other m hm => ?_⟩
  rcases Definitions.mem_nodes_declare hm with rfl | hm
  · exact hn
  · exact h.definitions other m hm

namespace Yields

theorem resource (maxDepth : Nat) (name : String) :
    Yields (Parser.resource maxDepth name) fun r checks =>
      ∀ direction, (r.body direction).AllChecked checks := by
  have hany : ∀ checks, Node.AllChecked checks .any := fun checks =>
    Node.allChecked_of_parts trivial fun k hk => by cases hk
  refine after current fun token => ?_
  split
  · exact fail _ _
  · refine after advance fun _ => ?_
    refine bind (value maxDepth) Node.lasting_allChecked fun first => ?_
    split
    · refine after (expect _ _) fun _ => ?_
      refine bind (value maxDepth) Node.lasting_allChecked fun second => ?_
      refine pure fun checks hsecond hfirst direction => ?_
      cases direction
      · exact hfirst
      · exact hsecond
    all_goals
      refine pure fun checks hfirst direction => ?_
      cases direction <;> first | exact hfirst | exact hany checks

/-- Declarations that are read have been checked if those read before them have. -/
theorem declarations (maxDepth bound : Nat) (d : Declarations) :
    Yields (Parser.declarations maxDepth bound d) fun d' checks =>
      d.AllChecked checks → d'.AllChecked checks := by
  induction bound generalizing d with
  | zero => exact fail _ _
  | succ bound ih =>
    refine after current fun token => ?_
    split
    · exact pure fun _ h => h
    · refine after advance fun _ => after position fun _ => after name fun name => ?_
      split
      · exact failAt _ _ _
      · refine bind (resource maxDepth name) (fun r checks more hsub h direction => ?_) fun r => ?_
        · exact (r.body direction).lasting_allChecked checks more hsub (h direction)
        · exact (ih _).mono fun d' checks h hr hd => h (hd.insert hr)
    · refine after advance fun _ => after position fun _ => after name fun name => ?_
      refine after (expect _ _) fun _ => bind (value maxDepth) Node.lasting_allChecked fun node => ?_
      exact (ih _).mono fun d' checks h hn hd => h (hd.declare hn)
    · exact fail _ _

end Yields

end Parser

/-! ## The checks at the end -/

/-- A map declares no name twice, and a selector chooses among maps in which the discriminant, where they
declare it, takes the key by which they are chosen as it is. -/
def Node.Sound (definitions : Definitions) : Node → Prop
  | .map fields => (fields.map Field.name).Nodup
  | .selector discriminant alternatives => ∀ a ∈ alternatives, ∃ fields,
    definitions.resolveMap? a.node = some fields ∧
      ∀ f, Field.find? fields discriminant = some f → f.node.acceptsKey a.key = true
  | _ => True

theorem Node.Sound.distinctNames {definitions : Definitions} {node : Node}
    (h : node.Sound definitions) : node.DistinctNames := by
  cases node <;> first | exact h | trivial

theorem forM_ok_iff {α ε : Type} {f : α → Except ε Unit} {l : List α} :
    l.forM f = .ok () ↔ ∀ a ∈ l, f a = .ok () := by
  induction l with
  | nil => exact iff_of_true rfl (by simp)
  | cons a l ih =>
    rw [List.forall_mem_cons, ← ih]
    change (f a >>= fun _ => l.forM f) = .ok () ↔ _
    cases ha : f a with
    | error e => exact iff_of_false nofun fun h => nomatch h.1
    | ok u => exact (and_iff_right rfl).symm

theorem checkAlternative_ok {definitions : Definitions} {discriminant : String} {position : Position}
    {a : Alternative Node} (h : checkAlternative definitions discriminant position a = .ok ()) :
    ∃ fields, definitions.resolveMap? a.node = some fields ∧
      ∀ f, Field.find? fields discriminant = some f → f.node.acceptsKey a.key = true := by
  unfold checkAlternative at h
  split at h
  · cases h
  · rename_i fields hfields
    refine ⟨fields, hfields, fun f hf => ?_⟩
    rw [hf] at h
    simp only at h
    split at h
    · cases h
    split at h
    · cases h
    · rename_i haccepts
      simpa using haccepts

/-- When all checks are passed, what has been checked or noted down is sound. -/
theorem Node.Checked.sound {definitions : Definitions} {positions : Entries Position}
    {maxDepth : Nat} {checks : List Check} {node : Node}
    (hr : resolve definitions positions maxDepth checks = .ok ()) (h : node.Checked checks) :
    node.Sound definitions := by
  cases node <;> try exact h
  rename_i discriminant alternatives
  obtain ⟨found, hfound, rfl⟩ := h
  unfold resolve at hr
  cases hnames : checkNames definitions checks with
  | error e =>
    rw [hnames] at hr
    cases hr
  | ok u =>
    cases hcycles : checkCycles definitions positions with
    | error e =>
      rw [hnames, hcycles] at hr
      cases hr
    | ok u =>
      rw [hnames, hcycles] at hr
      have hrun := forM_ok_iff.1 (forM_ok_iff.1 hr _ hfound)
      intro a ha
      obtain ⟨x, hx, rfl⟩ := List.mem_map.1 ha
      exact checkAlternative_ok (hrun x hx)

theorem Parser.resolveAll_ok {definitions : Definitions} {positions : Entries Position}
    {maxDepth : Nat} {s t : Parser.State} {u : Unit}
    (h : Parser.resolveAll definitions positions maxDepth s = .ok u t) :
    resolve definitions positions maxDepth s.checks = .ok () := by
  cases hr : resolve definitions positions maxDepth s.checks with
  | ok u => rfl
  | error e =>
    obtain ⟨a, s₁, hget, h⟩ := Parser.bind_ok h
    cases hget
    obtain ⟨b, s₂, hmodify, h⟩ := Parser.bind_ok h
    rw [hr] at h
    cases h

/-! ## Accepted nodes -/

/-- The node stands in a text that is read without a fault, with the definitions of the text: it is a whole
schema or a body of a resource. The reader may have read other texts before, and takes any number of
levels. -/
inductive Accepted : Definitions → Node → Prop where
  | schema {maxDepth : Nat} {s t : Parser.State} {schema : Schema} :
    Parser.schema maxDepth s = .ok schema t → Accepted [] schema.node
  | body {maxDepth : Nat} {s t : Parser.State} {suite : Suite} {name : String} {direction : Direction}
    {node : Node} : Parser.suite maxDepth s = .ok suite t → suite.body name direction = .ok node →
    Accepted suite.definitions node

theorem Parser.run_ok {α : Type} {parser : Parser α} {text : String} {a : α}
    (h : parser.run text = .ok a) : ∃ s t, parser s = .ok a t := by
  unfold Parser.run at h
  cases hs : Parser.start text with
  | error e =>
    rw [hs] at h
    cases h
  | ok s =>
    simp only [hs, bind, Except.bind] at h
    cases hp : parser s with
    | error e t =>
      rw [hp] at h
      cases h
    | ok b t =>
      rw [hp] at h
      cases h
      exact ⟨s, t, hp⟩

theorem Accepted.of_schema {text : String} {maxDepth : Nat} {s : Schema}
    (h : Schema.ofText text maxDepth = .ok s) : Accepted [] s.node := by
  obtain ⟨before, after, h⟩ := Parser.run_ok h
  exact .schema h

theorem Accepted.of_suite {text : String} {maxDepth : Nat} {s : Suite} {name : String}
    {direction : Direction} {node : Node} (h : Suite.ofText text maxDepth = .ok s)
    (hbody : s.body name direction = .ok node) : Accepted s.definitions node := by
  obtain ⟨before, after, h⟩ := Parser.run_ok h
  exact .body h hbody

/-- The nodes of a text pass if each is sound. -/
theorem Node.AllChecked.everywhere {definitions : Definitions} {positions : Entries Position}
    {maxDepth : Nat} {checks : List Check} {node : Node}
    (hr : resolve definitions positions maxDepth checks = .ok ()) (h : node.AllChecked checks)
    (hd : ∀ name, ∀ n ∈ definitions.nodes name, n.AllChecked checks) :
    definitions.Everywhere (Node.Sound definitions) node :=
  ⟨fun m hm => (h m hm).sound hr, fun name n hn m hm => (hd name n hn m hm).sound hr⟩

/-- **Every node of an accepted text is sound**, in the definitions as well. -/
theorem Accepted.sound {definitions : Definitions} {node : Node} (h : Accepted definitions node) :
    definitions.Everywhere (Node.Sound definitions) node := by
  cases h with
  | @schema maxDepth s t schema h =>
    unfold Parser.schema at h
    obtain ⟨node, s₁, hnode, h⟩ := Parser.bind_ok h
    obtain ⟨token, s₂, htoken, h⟩ := Parser.bind_ok h
    split at h
    · obtain ⟨u, s₃, hresolve, h⟩ := Parser.bind_ok h
      cases h
      cases htoken
      have hchecked := (Parser.Yields.value maxDepth s node _ hnode).2
      exact hchecked.everywhere (Parser.resolveAll_ok hresolve) fun name n hn => by cases hn
    · cases h
  | @body maxDepth s t suite name direction node h hbody =>
    unfold Parser.suite at h
    obtain ⟨bound, s₁, hbound, h⟩ := Parser.bind_ok h
    obtain ⟨d, s₂, hd, h⟩ := Parser.bind_ok h
    obtain ⟨u, s₃, hresolve, h⟩ := Parser.bind_ok h
    cases h
    have hchecked := (Parser.Yields.declarations maxDepth bound {} s₁ d s₂ hd).2 (.empty _)
    obtain ⟨r, hr, rfl⟩ : ∃ r, Entries.get? d.resources name = some r ∧ r.body direction = node := by
      unfold Suite.body Suite.resource at hbody
      cases hget : Entries.get? d.resources name with
      | none =>
        rw [hget] at hbody
        cases hbody
      | some r =>
        rw [hget] at hbody
        cases hbody
        exact ⟨r, rfl, rfl⟩
    exact (hchecked.bodies _ (Entries.mem_of_get? hr) direction).everywhere
      (Parser.resolveAll_ok hresolve) hchecked.definitions

end Conformance
