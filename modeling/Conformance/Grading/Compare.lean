import Conformance.Grading.Default
import Conformance.Grading.Parts

/-!
# Comparison of values with nodes

The grading of a value by a schema node. It looks at every part of the value, converts what can be
converted, fills in what is missing, drops what is not declared, and reports each such decision.

* `grade` — the grading with a given depth left, below given names.
* `compare` — the grading of a whole value.

Both give `none` exactly where a default that they need has no value.
-/

set_option autoImplicit false

namespace Conformance

/-- How the parts of a value at some depth are graded and filled in. -/
structure Inside where
  /-- Grades a part by its node. -/
  grade : Node → Value → Option Grading
  /-- The default for a part that is missing. -/
  fill : Node → Option Value
  /-- The default for a field that is missing. -/
  fillField : Field Node → Option Value

/-- Grades a value by a kind. -/
def gradePrimitive (kind : Kind) (v : Value) : Grading :=
  match coerce kind v with
  | .matched => .matched v
  | .converted w => .decided (.converted v.kind kind) w
  | .defaulted w => .decided .defaulted w
  | .incompatible => .decided (.notConvertible v.kind kind) v

/-- Grades a value by a literal. -/
def gradeLiteral (expected v : Value) : Grading :=
  if expected.equal v then .matched v else .decided (.literalMismatch expected) v

namespace ArraySize

/-- The element nodes for an array of so many items: a pattern is repeated as often as the items need. -/
def unroll (size : ArraySize) (elements : List Node) (items : Nat) : List Node :=
  match size with
  | .exact => elements
  | .repeating =>
    (List.replicate ((items + elements.length - 1) / elements.length) elements).flatten

theorem unroll_nil (size : ArraySize) (items : Nat) : size.unroll [] items = [] := by
  cases size <;> simp [unroll]

theorem mem_unroll {size : ArraySize} {elements : List Node} {items : Nat} {n : Node}
    (h : n ∈ size.unroll elements items) : n ∈ elements := by
  cases size with
  | exact => exact h
  | repeating =>
    obtain ⟨l, hl, hn⟩ := List.mem_flatten.1 h
    exact List.eq_of_mem_replicate hl ▸ hn

end ArraySize

/-- The items of an array from an index on, all of which are dropped. -/
def extraItems (index : Nat) : List Value → Parts Value
  | [] => .empty
  | _ :: items => (Parts.decided (.index index) .extraElement []).append (extraItems (index + 1) items)

/-- Grades the items of an array from an index on, one for each node. -/
def gradeItems (inside : Inside) : Nat → List Node → List Value → Option (Parts Value)
  | index, [], items => some (extraItems index items)
  | index, node :: nodes, v :: items => do
    let g ← inside.grade node v
    let rest ← gradeItems inside (index + 1) nodes items
    some ((Parts.graded (.index index) id g).append rest)
  | index, node :: nodes, [] => do
    let v ← inside.fill node
    let rest ← gradeItems inside (index + 1) nodes []
    some ((Parts.decided (.index index) .missingElement [v]).append rest)

/-- Grades a value by the nodes of array elements. -/
def gradeArray (inside : Inside) (elements : List Node) (size : ArraySize) (v : Value) :
    Option Grading :=
  match v with
  | .array items =>
    if elements.isEmpty then some (.matched v)
    else
      (gradeItems inside 0 (size.unroll elements items.length) items).map
        fun parts => parts.close .array v
  | _ => some (.wrongKind .array v)

/-- Grades what a map has at a declared field. A field that may be absent and is undefined counts as
absent, except that nothing is reported where its default is undefined too. -/
def gradeField (inside : Inside) (entries : Entries Value) (f : Field Node) :
    Option (Parts (String × Value)) :=
  let present? := Entries.get? entries f.name
  match present? with
  | some v =>
    if v.isUndefined && f.mayBeAbsent then fillIn present?
    else (inside.grade f.node v).map (Parts.graded (.key f.name) (f.name, ·))
  | none =>
    if f.mayBeAbsent then fillIn present?
    else some (.decided (.key f.name) .missingRequired [])
where
  /-- Puts in the default of the field. -/
  fillIn (present? : Option Value) : Option (Parts (String × Value)) :=
    (inside.fillField f).map fun v =>
      if present?.isNone || !v.isUndefined then
        .decided (.key f.name) .missingOptional [(f.name, v)]
      else .kept (f.name, v)

/-- Grades what a map has at the declared fields, in the order of their declaration. -/
def gradeFields (inside : Inside) (entries : Entries Value) :
    List (Field Node) → Option (Parts (String × Value))
  | [] => some .empty
  | f :: fields => do
    let part ← gradeField inside entries f
    let rest ← gradeFields inside entries fields
    some (part.append rest)

/-- What a map has at keys that are not declared is dropped, except at the key that is to be kept. -/
def undeclaredEntries (fields : List (Field Node)) (kept : Option String) :
    Entries Value → Parts (String × Value)
  | [] => .empty
  | (key, v) :: rest =>
    let others := undeclaredEntries fields kept rest
    if (Field.find? fields key).isSome then others
    else if kept = some key then (Parts.kept (key, v)).append others
    else (Parts.decided (.key key) .undeclaredKey []).append others

/-- Grades a value by the fields of a map. -/
def gradeMap (inside : Inside) (fields : List (Field Node)) (kept : Option String) (v : Value) :
    Option Grading :=
  match v with
  | .map entries =>
    (gradeFields inside entries fields).map fun declared =>
      (declared.append (undeclaredEntries fields kept entries)).close
        (fun pieces => .map (Entries.ofList pieces)) v
  | _ => some (.wrongKind .map v)

/-- Grades every entry of a map by one node. -/
def gradeEntries (inside : Inside) (entry : Node) :
    Entries Value → Option (Parts (String × Value))
  | [] => some .empty
  | (key, v) :: rest => do
    let g ← inside.grade entry v
    let others ← gradeEntries inside entry rest
    some ((Parts.graded (.key key) (key, ·) g).append others)

/-- Grades a value by the node of a dictionary. -/
def gradeDictionary (inside : Inside) (entry : Node) (v : Value) : Option Grading :=
  match v with
  | .map entries =>
    (gradeEntries inside entry entries).map fun parts =>
      parts.close (fun pieces => .map (Entries.ofList pieces)) v
  | _ => some (.wrongKind .map v)

/-- A value by which an alternative can be chosen. -/
def Value.isDiscriminant : Value → Bool
  | .string _ | .integer _ => true
  | _ => false

/-- Grades a value by the alternative of a selector that it chooses. The value at the discriminant is
kept even where the chosen map does not declare it. -/
def gradeSelector (definitions : Definitions) (inside : Inside) (discriminant : String)
    (alternatives : List (Alternative Node)) (v : Value) : Option Grading :=
  match v with
  | .map entries =>
    match (Entries.get? entries discriminant).filter Value.isDiscriminant with
    | some key =>
      match Alternative.find? alternatives key with
      | some chosen =>
        match definitions.resolveMap? chosen.node with
        | some fields => gradeMap inside fields (some discriminant) v
        | none => inside.grade chosen.node v
      | none => some (.decided (.unknownAlternative key) v)
    | none => some (.decided (.badDiscriminant discriminant) v)
  | _ => some (.wrongKind .map v)

/-- The best grading by any of the nodes, the first of equally good ones; nodes after an exact match are
not looked at. -/
def bestGrading (grade : Node → Option Grading) (best : Grading) : List Node → Option Grading
  | [] => some best
  | node :: nodes =>
    if best.outcome = .matched then some best
    else do
      let g ← grade node
      bestGrading grade (if best.outcome < g.outcome then g else best) nodes

/-- Grades a value by the best of the nodes that a name stands for. -/
def gradeReference (definitions : Definitions) (grade : Node → Option Grading) (name : String)
    (v : Value) : Option Grading :=
  match definitions.nodes name with
  | [] => some (.decided (.unknownName name) v)
  | node :: nodes => do
    let g ← grade node
    bestGrading grade g nodes

/-- The grading of a value by a node with so many levels left, below the names that were entered on the
way. A declared default is graded with the levels that are left, as if no name had been entered. -/
def grade (definitions : Definitions) : Nat → List String → Node → Value → Option Grading
  | 0, _, _, v => some (.decided .depthExceeded v)
  | levels + 1, entered, node, v =>
    let convert := grade definitions levels []
    let fill := defaultOf definitions convert entered
    let inside : Inside := ⟨grade definitions levels entered, fill, fieldDefault convert fill⟩
    match node with
    | .any => some (.matched v)
    | .primitive kind => some (gradePrimitive kind v)
    | .literal expected => some (gradeLiteral expected v)
    | .array elements size => gradeArray inside elements size v
    | .map fields => gradeMap inside fields none v
    | .dictionary entry => gradeDictionary inside entry v
    | .selector discriminant alternatives =>
      gradeSelector definitions inside discriminant alternatives v
    | .reference name =>
      gradeReference definitions (fun n => grade definitions levels (name :: entered) n v) name v

/-- The number of levels that are looked at where no other number is asked for. -/
def defaultMaxDepth : Nat := 128

/-- The grading of a value by a node, with values nested deeper than `maxDepth` levels counting as
incompatible. -/
def compare (definitions : Definitions) (maxDepth : Nat) (node : Node) (v : Value) : Option Grading :=
  grade definitions maxDepth [] node v

end Conformance
