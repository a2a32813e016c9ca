import Conformance.Syntax.Parser

/-!
# Rules as compositions of few steps

Every rule of the grammar is put together from the same few steps: to look at the current token, to go on to the next
one, to note down a check, and to fail at a position. What holds of these steps and passes on from them to what is put
together from them holds of every rule. Positions are followed along the way, since those that a rule fails at, gives
or notes down are all taken from tokens.

* `Check.PlacedIn` — the positions that a check carries have a property.
* `Parser.Composes` — what holds of the steps, with what it says of results, and passes on to sequences of them.
* `Parser.Composes.value`, `Parser.Composes.declarations` — it holds of values and of declarations.
* `Parser.Composes.schema`, `Parser.Composes.suite` — it holds of whole calls, if it holds of the checks at their end.
-/

set_option autoImplicit false

namespace Conformance

/-- All positions that a check carries have a property. -/
def Check.PlacedIn (P : Position → Prop) : Check → Prop
  | .reference _ position => P position
  | .selector _ found => ∀ x ∈ found, P x.1
  | .default _ _ position => P position

namespace Parser

/-- `C p Q` passes from the steps that rules consist of on to the rules. It says of the results of `p` that `Q` holds
of them. The positions of tokens have the property `P`, which is needed of those to fail at and to note down. -/
structure Composes (P : Position → Prop) (C : (α : Type) → Parser α → (α → Prop) → Prop) : Prop where
  pure : ∀ {α : Type} {Q : α → Prop} (a : α), Q a → C α (Pure.pure a) Q
  bind : ∀ {α β : Type} {p : Parser α} {f : α → Parser β} {Q : α → Prop} {R : β → Prop},
    C α p Q → (∀ a, Q a → C β (f a) R) → C β (p >>= f) R
  failAt : ∀ {α : Type} {Q : α → Prop} {position : Position} (fault : Fault) (detail? : Option String),
    P position → C α (Parser.failAt position fault detail?) Q
  current : C Token Parser.current fun _ => True
  position : C Position Parser.position P
  listBound : C Nat Parser.listBound fun _ => True
  advance : C Unit Parser.advance fun _ => True
  note : ∀ {check : Check}, check.PlacedIn P → C Unit (Parser.note check) fun _ => True

namespace Composes

variable {P : Position → Prop} {C : (α : Type) → Parser α → (α → Prop) → Prop} (hC : Composes P C)

include hC

/-- A rule of which the result does not matter comes first. -/
theorem andThen {α β : Type} {p : Parser α} {f : α → Parser β} {R : β → Prop} (hp : C α p fun _ => True)
    (hf : ∀ a, C β (f a) R) : C β (p >>= f) R :=
  hC.bind hp fun a _ => hf a

/-- A rule ends with a result of which nothing is said. -/
theorem done {α : Type} (a : α) : C α (Pure.pure a) fun _ => True := hC.pure a trivial

theorem fail {α : Type} {Q : α → Prop} (fault : Fault) (detail? : Option String) :
    C α (Parser.fail fault detail?) Q := by
  rw [show (Parser.fail fault detail? : Parser α) =
    Parser.position >>= fun place => Parser.failAt place fault detail? from rfl]
  exact hC.bind hC.position fun place hplace => hC.failAt fault detail? hplace

/-! ## Tokens -/

theorem accept (symbol : Symbol) : C Bool (Parser.accept symbol) fun _ => True := by
  refine hC.andThen hC.current fun token => ?_
  split
  · exact hC.andThen hC.advance fun _ => hC.done _
  · exact hC.done _

theorem expect (symbol : Symbol) (fault : Fault) : C Unit (Parser.expect symbol fault) fun _ => True := by
  refine hC.andThen hC.current fun token => ?_
  split
  · exact hC.advance
  · exact hC.fail _ _

theorem another : C Bool Parser.another fun _ => True := by
  refine hC.andThen (hC.accept _) fun found => ?_
  split
  · exact hC.andThen (hC.accept _) fun _ => hC.done _
  · exact hC.andThen (hC.expect _ _) fun _ => hC.done _

theorem name : C String Parser.name fun _ => True := by
  refine hC.andThen hC.current fun token => ?_
  split
  · exact hC.andThen hC.advance fun _ => hC.done _
  · exact hC.fail _ _

theorem key : C String Parser.key fun _ => True := by
  refine hC.andThen hC.current fun token => ?_
  split
  · exact hC.andThen hC.advance fun _ => hC.done _
  · exact hC.fail _ _
  · exact hC.fail _ _
  · exact hC.name

theorem literal : C Value Parser.literal fun _ => True := by
  refine hC.andThen hC.current fun token => ?_
  split
  · exact hC.andThen hC.advance fun _ => hC.done _
  · exact hC.fail _ _

theorem alternativeKey : C Value Parser.alternativeKey fun _ => True := by
  refine hC.andThen hC.current fun token => ?_
  cases token with
  | text => exact hC.done _
  | integer => exact hC.done _
  | keyword k => cases k <;> exact hC.fail _ _
  | _ => exact hC.fail _ _

theorem fieldDefault? (node : Node) : C (Option Value) (Parser.fieldDefault? node) fun _ => True := by
  refine hC.andThen (hC.accept _) fun found => ?_
  split
  · refine hC.bind hC.position fun place hplace => hC.andThen hC.literal fun v => ?_
    exact hC.andThen (hC.note hplace) fun _ => hC.done _
  · exact hC.done _

theorem reference {place : Position} (hplace : P place) : C Node (Parser.reference place) fun _ => True := by
  refine hC.andThen hC.name fun name => ?_
  exact hC.andThen (hC.note hplace) fun _ => hC.done _

/-! ## Values -/

section Values

variable {rule : Parser Node} (hrule : C Node rule fun _ => True)

include hrule

theorem elements (bound : Nat) : C (List Node × ArraySize) (Parser.elements rule bound) fun _ => True := by
  induction bound with
  | zero => exact hC.fail _ _
  | succ bound ih =>
    refine hC.andThen hrule fun node => hC.andThen (hC.accept _) fun comma => hC.andThen hC.current fun token => ?_
    split
    · exact hC.andThen hC.advance fun _ => hC.andThen (hC.expect _ _) fun _ => hC.done _
    · exact hC.andThen hC.advance fun _ => hC.done _
    · split
      · exact hC.andThen ih fun _ => hC.done _
      · exact hC.fail _ _

theorem array : C Node (Parser.array rule) fun _ => True := by
  refine hC.andThen hC.current fun token => ?_
  split
  · exact hC.fail _ _
  · exact hC.andThen hC.listBound fun bound => hC.andThen (hC.elements hrule bound) fun _ => hC.done _

theorem field : C (Field Node) (Parser.field rule) fun _ => True := by
  refine hC.andThen hC.key fun name => hC.andThen (hC.accept _) fun isOptional => ?_
  refine hC.andThen (hC.expect _ _) fun _ => hC.andThen hrule fun node => ?_
  exact hC.andThen (hC.fieldDefault? node) fun _ => hC.done _

theorem fields (bound : Nat) (before : List String) :
    C (List (Field Node)) (Parser.fields rule bound before) fun _ => True := by
  induction bound generalizing before with
  | zero => exact hC.fail _ _
  | succ bound ih =>
    refine hC.bind hC.position fun place hplace => hC.andThen (hC.field hrule) fun f => ?_
    split
    · exact hC.failAt _ _ hplace
    · refine hC.andThen hC.another fun more => ?_
      split
      · exact hC.andThen (ih _) fun _ => hC.done _
      · exact hC.done _

theorem map : C Node (Parser.map rule) fun _ => True := by
  refine hC.andThen hC.current fun token => ?_
  split
  · exact hC.fail _ _
  · refine hC.andThen hC.advance fun _ => hC.andThen (hC.expect _ _) fun _ => hC.andThen hrule fun entry => ?_
    exact hC.andThen (hC.expect _ _) fun _ => hC.done _
  · exact hC.andThen hC.listBound fun bound => hC.andThen (hC.fields hrule bound []) fun _ => hC.done _

/-- Alternatives come with the positions of their keys. -/
theorem alternatives (bound : Nat) (before : List Value) :
    C (List (Position × Alternative Node)) (Parser.alternatives rule bound before) fun found =>
      ∀ x ∈ found, P x.1 := by
  induction bound generalizing before with
  | zero => exact hC.fail _ _
  | succ bound ih =>
    refine hC.bind hC.position fun place hplace => hC.andThen hC.alternativeKey fun key => ?_
    split
    · exact hC.fail _ _
    · refine hC.andThen hC.advance fun _ => hC.andThen (hC.expect _ _) fun _ => hC.andThen hrule fun node => ?_
      refine hC.andThen hC.another fun more => ?_
      split
      · refine hC.bind (ih _) fun found hfound => hC.pure _ ?_
        exact List.forall_mem_cons.2 ⟨hplace, hfound⟩
      · exact hC.pure _ (List.forall_mem_singleton.2 hplace)

theorem selector : C Node (Parser.selector rule) fun _ => True := by
  refine hC.andThen hC.key fun discriminant => hC.andThen (hC.expect _ _) fun _ => ?_
  refine hC.andThen hC.current fun token => ?_
  split
  · exact hC.fail _ _
  · refine hC.andThen hC.listBound fun bound => hC.bind (hC.alternatives hrule bound []) fun found hfound => ?_
    exact hC.andThen (hC.note hfound) fun _ => hC.done _

end Values

/-- **What passes on from the steps holds of values**, however many levels they may have. -/
theorem value (levels : Nat) : C Node (Parser.value levels) fun _ => True := by
  induction levels with
  | zero => exact hC.fail _ _
  | succ levels ih =>
    refine hC.andThen hC.current fun token => ?_
    split
    · exact hC.andThen hC.advance fun _ => hC.done _
    · split
      · exact hC.andThen hC.advance fun _ => hC.done _
      · exact hC.andThen hC.advance fun _ => hC.selector ih
      · exact hC.andThen hC.advance fun _ => hC.array ih
      · exact hC.andThen hC.advance fun _ => hC.map ih
      · exact hC.bind hC.position fun place hplace => hC.andThen hC.advance fun _ => hC.reference hplace
      · exact hC.fail _ _
      · exact hC.fail _ _
      · exact hC.fail _ _
      · exact hC.andThen hC.literal fun _ => hC.done _

/-! ## Suites -/

theorem resource (maxDepth : Nat) (name : String) : C Resource (Parser.resource maxDepth name) fun _ => True := by
  refine hC.andThen hC.current fun token => ?_
  split
  · exact hC.fail _ _
  · refine hC.andThen hC.advance fun _ => hC.andThen (hC.value maxDepth) fun first => ?_
    split
    · refine hC.andThen (hC.expect _ _) fun _ => hC.andThen (hC.value maxDepth) fun second => hC.done _
    all_goals exact hC.done _

/-- **What passes on from the steps holds of declarations**, which come with the positions of the definitions. -/
theorem declarations (maxDepth bound : Nat) {d : Declarations} (hd : ∀ e ∈ d.positions, P e.2) :
    C Declarations (Parser.declarations maxDepth bound d) fun d => ∀ e ∈ d.positions, P e.2 := by
  induction bound generalizing d with
  | zero => exact hC.fail _ _
  | succ bound ih =>
    refine hC.andThen hC.current fun token => ?_
    split
    · exact hC.pure _ hd
    · refine hC.andThen hC.advance fun _ => hC.bind hC.position fun place hplace => hC.andThen hC.name fun text => ?_
      split
      · exact hC.failAt _ _ hplace
      · exact hC.andThen (hC.resource maxDepth text) fun r => ih hd
    · refine hC.andThen hC.advance fun _ => hC.bind hC.position fun place hplace => hC.andThen hC.name fun text => ?_
      refine hC.andThen (hC.expect _ _) fun _ => hC.andThen (hC.value maxDepth) fun node => ih ?_
      intro e he
      dsimp only at he
      split at he
      · exact hd e he
      · rcases Entries.mem_insert he with rfl | he
        · exact hplace
        · exact hd e he
    · exact hC.fail _ _

/-! ## Calls -/

section Calls

variable {maxDepth : Nat} (hresolve : ∀ (definitions : Definitions) (positions : Entries Position),
  (∀ e ∈ positions, P e.2) → C Unit (resolveAll definitions positions maxDepth) fun _ => True)

include hresolve

/-- What passes on from the steps holds of calls that read a schema, if it holds of the checks at the end. -/
theorem schema : C Schema (Parser.schema maxDepth) fun _ => True := by
  refine hC.andThen (hC.value maxDepth) fun node => hC.andThen hC.current fun token => ?_
  split
  · exact hC.andThen (hresolve [] [] (List.forall_mem_nil _)) fun _ => hC.done _
  · exact hC.fail _ _

/-- What passes on from the steps holds of calls that read a suite, if it holds of the checks at the end. -/
theorem suite : C Suite (Parser.suite maxDepth) fun _ => True := by
  refine hC.andThen hC.listBound fun bound => ?_
  refine hC.bind (hC.declarations (d := {}) maxDepth bound (List.forall_mem_nil _)) fun d hd => ?_
  exact hC.andThen (hresolve d.definitions d.positions hd) fun _ => hC.done _

end Calls

end Composes

end Parser

end Conformance
