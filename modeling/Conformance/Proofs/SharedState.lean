import Conformance.Proofs.FirstBest

/-!
# One matcher for all attempts

A comparison can be made by one matcher that is changed on the way: it counts the depth, keeps the location and
the names that it has entered, and collects the findings. Every attempt leaves it as it found it, apart from the
findings that it appends, so that it comes to the same as the gradings, which share nothing.

* `Matcher`, `Matcher.grade` — the matcher, and the attempts that it makes.
* `Matcher.Appends` — what is done comes to a result and appends findings, and nothing else.
* `Matcher.appends_gradeWithin` — every attempt comes to the grading, seen from the location of the matcher.
* `Matcher.reference_firstBest` — a name comes to the first of its best nodes.
-/

set_option autoImplicit false

namespace Conformance

/-- What one matcher keeps while it goes through a value. -/
structure Matcher where
  /-- How many values and names it has entered. -/
  depth : Nat
  /-- The way from the whole value to where it is. -/
  location : List Step
  /-- The names that it has entered, the last one first. -/
  names : List String
  /-- The findings so far, each at its place in the whole value. -/
  findings : List Finding

/-- What is done with a matcher, unless it needs a default that has no value. -/
abbrev Matching := StateT Matcher Option

namespace Matcher

/-! ## Steps -/

section Steps

variable {α : Type}

/-- Goes to a part and gives the length of the location before. -/
def enter (step : Step) : Matching Nat := do
  let s ← get
  set { s with location := s.location ++ [step] }
  return s.location.length

/-- Cuts the location back to its length before. -/
def leave (length : Nat) : Matching Unit :=
  modify fun s => { s with location := s.location.take length }

/-- What is done at a part. -/
def within (step : Step) (action : Matching α) : Matching α := do
  let length ← enter step
  let a ← action
  leave length
  return a

/-- What is done one level further down. -/
def deeper (action : Matching α) : Matching α := do
  modify fun s => { s with depth := s.depth + 1 }
  let a ← action
  modify fun s => { s with depth := s.depth - 1 }
  return a

/-- What is done below a name. -/
def below (name : String) (action : Matching α) : Matching α := do
  modify fun s => { s with names := name :: s.names }
  let a ← action
  modify fun s => { s with names := s.names.tail }
  return a

/-- Notes down a decision about where the matcher is. -/
def record (reason : Reason) : Matching Unit :=
  modify fun s => { s with findings := s.findings ++ [⟨s.location, reason⟩] }

/-- One decision about the value as a whole. -/
def decided (reason : Reason) (v : Value) : Matching (Outcome × Value) := do
  record reason
  return (reason.outcome, v)

/-- Takes out the findings from an index on. -/
def splitOff (start : Nat) : Matching (List Finding) := do
  let s ← get
  set { s with findings := s.findings.take start }
  return s.findings.drop start

end Steps

/-! ## Attempts -/

section Attempts

variable {α β : Type} (definitions : Definitions) (attempt : Node → Value → Matching (Outcome × Value))

/-- How a second matcher converts a declared default: it begins at the same depth and with nothing else. -/
def convert (depth : Nat) (node : Node) (literal : Value) : Option Grading :=
  ((attempt node literal).run ⟨depth, [], [], []⟩).map fun r => ⟨r.1.1, r.1.2, r.2.findings⟩

/-- The default for a part that is missing. -/
def fill (node : Node) : Matching Value := do
  let s ← get
  (defaultOf definitions (convert attempt s.depth) s.names node : Option Value)

/-- The default for a field that is missing. -/
def fillField (f : Field Node) : Matching Value := do
  let s ← get
  (fieldDefault (convert attempt s.depth) (defaultOf definitions (convert attempt s.depth) s.names) f :
    Option Value)

def gradePrimitive (kind : Kind) (v : Value) : Matching (Outcome × Value) :=
  match coerce kind v with
  | .matched => return (.matched, v)
  | .converted w => decided (.converted v.kind kind) w
  | .defaulted w => decided .defaulted w
  | .incompatible => decided (.notConvertible v.kind kind) v

def gradeLiteral (expected v : Value) : Matching (Outcome × Value) :=
  if expected.equal v then return (.matched, v) else decided (.literalMismatch expected) v

/-- Goes through the parts of a composite and adds each to what the parts before it came to. -/
def each (part : β → Matching (Outcome × List α)) :
    List β → Outcome × List α → Matching (Outcome × List α)
  | [], sofar => return sofar
  | b :: rest, sofar => do
    let p ← part b
    each part rest (sofar.1.join p.1, sofar.2 ++ p.2)

/-- The composite that the pieces make up, unless a part is incompatible. -/
def close (compose : List α → Value) (whole : Value) (parts : Outcome × List α) : Outcome × Value :=
  (parts.1, if parts.1 = .incompatible then whole else compose parts.2)

/-- What an array has at an index for which there is an element node. -/
def gradeItem (items : List Value) (element : Nat × Node) : Matching (Outcome × List Value) :=
  within (.index element.1) do
    match items[element.1]? with
    | some item => do
      let r ← attempt element.2 item
      return (r.1, [r.2])
    | none => do
      record .missingElement
      let v ← fill definitions attempt element.2
      return (.defaulted, [v])

/-- An item for which there is no element node. -/
def dropItem (index : Nat) : Matching (Outcome × List Value) :=
  within (.index index) do
    record .extraElement
    return (.additional, [])

def gradeArray (elements : List Node) (size : ArraySize) (v : Value) : Matching (Outcome × Value) :=
  match v with
  | .array items =>
    if elements.isEmpty then return (.matched, v)
    else do
      let nodes := size.unroll elements items.length
      let parts ← each (gradeItem definitions attempt items) (nodes.zipIdx.map Prod.swap) (.matched, [])
      let parts ← each dropItem (List.range' nodes.length (items.length - nodes.length)) parts
      return close .array v parts
  | _ => decided (.wrongKind .array v.kind) v

/-- Puts in the default of a field that is absent or undefined. -/
def fillIn (f : Field Node) (present? : Option Value) : Matching (Outcome × List (String × Value)) := do
  let d ← fillField definitions attempt f
  if present?.isNone || !d.isUndefined then
    record .missingOptional
    return (.defaulted, [(f.name, d)])
  else return (.matched, [(f.name, d)])

/-- What a map has at a declared field. -/
def gradeField (entries : Entries Value) (f : Field Node) : Matching (Outcome × List (String × Value)) :=
  within (.key f.name) do
    let present? := Entries.get? entries f.name
    match present?.filter fun v => !(v.isUndefined && f.mayBeAbsent) with
    | some v => do
      let r ← attempt f.node v
      return (r.1, [(f.name, r.2)])
    | none =>
      if f.mayBeAbsent then fillIn definitions attempt f present?
      else do
        record .missingRequired
        return (.incompatible, [])

/-- What a map has at a key that is not declared. -/
def dropEntry (kept : Option String) (e : String × Value) : Matching (Outcome × List (String × Value)) :=
  if kept = some e.1 then return (.matched, [e])
  else
    within (.key e.1) do
      record .undeclaredKey
      return (.additional, [])

def gradeMap (fields : List (Field Node)) (kept : Option String) (v : Value) : Matching (Outcome × Value) :=
  match v with
  | .map entries => do
    let parts ← each (gradeField definitions attempt entries) fields (.matched, [])
    let undeclared := entries.filter fun e => (Field.find? fields e.1).isNone
    let parts ← each (dropEntry kept) undeclared parts
    return close (fun pieces => .map (Entries.ofList pieces)) v parts
  | _ => decided (.wrongKind .map v.kind) v

def gradeEntry (entry : Node) (e : String × Value) : Matching (Outcome × List (String × Value)) :=
  within (.key e.1) do
    let r ← attempt entry e.2
    return (r.1, [(e.1, r.2)])

def gradeDictionary (entry : Node) (v : Value) : Matching (Outcome × Value) :=
  match v with
  | .map entries => do
    let parts ← each (gradeEntry attempt entry) entries (.matched, [])
    return close (fun pieces => .map (Entries.ofList pieces)) v parts
  | _ => decided (.wrongKind .map v.kind) v

def gradeSelector (discriminant : String) (alternatives : List (Alternative Node)) (v : Value) :
    Matching (Outcome × Value) :=
  match v with
  | .map entries =>
    match (Entries.get? entries discriminant).filter Value.isDiscriminant with
    | some key =>
      match Alternative.find? alternatives key with
      | some chosen =>
        match definitions.resolveMap? chosen.node with
        | some fields => gradeMap definitions attempt fields (some discriminant) v
        | none => attempt chosen.node v
      | none => decided (.unknownAlternative key) v
    | none => decided (.badDiscriminant discriminant) v
  | _ => decided (.wrongKind .map v.kind) v

/-- The better of what is kept so far and one more; what is kept stays on a tie. -/
def better (best? : Option (Outcome × Value × List Finding)) (other : Outcome × Value × List Finding) :
    Option (Outcome × Value × List Finding) :=
  match best? with
  | some best => if other.1 ≤ best.1 then some best else some other
  | none => some other

/-- Tries one node after the other. Each attempt takes its findings back out of the matcher, and the best one so
far is kept with them; an exact match ends the search. -/
def tryEach (start : Nat) (v : Value) : List Node → Option (Outcome × Value × List Finding) →
    Matching (Option (Outcome × Value × List Finding))
  | [], best? => return best?
  | node :: nodes, best? => do
    let r ← attempt node v
    let findings ← splitOff start
    let better? := better best? (r.1, r.2, findings)
    if r.1 = .matched then return better? else tryEach start v nodes better?

/-- The best attempt with the nodes of a name. A single one needs no comparison. -/
def gradeVariants (nodes : List Node) (v : Value) : Matching (Outcome × Value) :=
  match nodes with
  | [node] => attempt node v
  | _ => do
    let s ← get
    let best? ← tryEach attempt s.findings.length v nodes none
    match best? with
    | some best => do
      modify fun s => { s with findings := s.findings ++ best.2.2 }
      return (best.1, best.2.1)
    | none => return (.incompatible, v)

def gradeReference (name : String) (v : Value) : Matching (Outcome × Value) :=
  match definitions.nodes name with
  | [] => decided (.unknownName name) v
  | nodes => below name (gradeVariants attempt nodes v)

end Attempts

/-- An attempt at a node, in which so many attempts may stand one inside the other. -/
def gradeWithin (definitions : Definitions) (maxDepth : Nat) :
    Nat → Node → Value → Matching (Outcome × Value)
  | 0, _, _ => failure
  | n + 1, node, v => do
    let s ← get
    if maxDepth ≤ s.depth then decided .depthExceeded v
    else
      deeper <|
        let attempt := gradeWithin definitions maxDepth n
        match node with
        | .any => return (.matched, v)
        | .primitive kind => gradePrimitive kind v
        | .literal expected => gradeLiteral expected v
        | .array elements size => gradeArray definitions attempt elements size v
        | .map fields => gradeMap definitions attempt fields none v
        | .dictionary entry => gradeDictionary attempt entry v
        | .selector discriminant alternatives => gradeSelector definitions attempt discriminant alternatives v
        | .reference name => gradeReference definitions attempt name v

/-- An attempt at a node. Attempts end at the depth limit, so no more than it stand one inside the other. -/
def grade (definitions : Definitions) (maxDepth : Nat) : Node → Value → Matching (Outcome × Value) :=
  gradeWithin definitions maxDepth (maxDepth + 1)

/-! ## Nothing but findings is changed -/

/-- A finding about where the matcher is, as one about the whole value. -/
def located (s : Matcher) (f : Finding) : Finding := ⟨s.location ++ f.path, f.reason⟩

/-- The matcher with more findings, which are seen from where it is. -/
def adding (s : Matcher) (findings : List Finding) : Matcher :=
  { s with findings := s.findings ++ findings.map s.located }

@[simp] theorem adding_nil (s : Matcher) : s.adding [] = s := by
  simp [adding]

@[simp] theorem adding_adding (s : Matcher) (fs gs : List Finding) :
    (s.adding fs).adding gs = s.adding (fs ++ gs) := by
  simp [adding, located]

/-- At that depth below those names, whatever the location and the findings so far: what is done comes to the
result, if there is one, appends the findings as seen from the location, and leaves the rest as it was. -/
def Appends {α : Type} (depth : Nat) (names : List String) (action : Matching α)
    (result? : Option (α × List Finding)) : Prop :=
  ∀ s : Matcher, s.depth = depth → s.names = names →
    action.run s = result?.map fun r => (r.1, s.adding r.2)

namespace Appends

variable {α β : Type} {depth : Nat} {names : List String} {action : Matching α}
  {result? : Option (α × List Finding)}

theorem pure (a : α) : Appends depth names (Pure.pure a) (some (a, [])) := by
  intro s _ _
  simp [StateT.run_pure]

theorem bind {next : α → Matching β} {after? : α → Option (β × List Finding)}
    (h : Appends depth names action result?) (hnext : ∀ a, Appends depth names (next a) (after? a)) :
    Appends depth names (action >>= next)
      (result?.bind fun r => (after? r.1).map fun t => (t.1, r.2 ++ t.2)) := by
  intro s hdepth hnames
  rw [StateT.run_bind, h s hdepth hnames]
  cases result? with
  | none => rfl
  | some r =>
    have hafter := hnext r.1 (s.adding r.2) hdepth hnames
    simp only [Option.map_some, Option.bind_eq_bind, Option.bind_some, hafter]
    cases after? r.1 with
    | none => rfl
    | some t => simp

theorem record (reason : Reason) :
    Appends depth names (Matcher.record reason) (some ((), [⟨[], reason⟩])) := by
  intro s _ _
  show some ((), { s with findings := s.findings ++ [Finding.mk s.location reason] }) = _
  simp [adding, located]

/-- What is done at a part appends findings that are about the part. -/
theorem within (step : Step) (h : Appends depth names action result?) :
    Appends depth names (Matcher.within step action)
      (result?.map fun r => (r.1, r.2.map (Finding.under step))) := by
  intro s hdepth hnames
  have hinside := h { s with location := s.location ++ [step] } hdepth hnames
  show (action.run { s with location := s.location ++ [step] }).bind
    (fun r => some (r.1, { r.2 with location := r.2.location.take s.location.length })) = _
  rw [hinside]
  cases result? with
  | none => rfl
  | some r => simp [adding, located, Finding.under]

theorem deeper (h : Appends (depth + 1) names action result?) :
    Appends depth names (Matcher.deeper action) result? := by
  intro s hdepth hnames
  have hinside := h { s with depth := s.depth + 1 } (by rw [hdepth]) hnames
  show (action.run { s with depth := s.depth + 1 }).bind
    (fun r => some (r.1, { r.2 with depth := r.2.depth - 1 })) = _
  rw [hinside]
  cases result? with
  | none => rfl
  | some r => simp [adding, located]

theorem below {name : String} (h : Appends depth (name :: names) action result?) :
    Appends depth names (Matcher.below name action) result? := by
  intro s hdepth hnames
  have hinside := h { s with names := name :: s.names } hdepth (by rw [hnames])
  show (action.run { s with names := name :: s.names }).bind
    (fun r => some (r.1, { r.2 with names := r.2.names.tail })) = _
  rw [hinside]
  cases result? with
  | none => rfl
  | some r => simp [adding, located]

/-- One decision. -/
theorem decided (reason : Reason) (v : Value) :
    Appends depth names (Matcher.decided reason v) (some ((reason.outcome, v), [⟨[], reason⟩])) :=
  (record reason).bind fun _ => pure (reason.outcome, v)

end Appends

end Matcher

/-! ## Attempts come to the gradings -/

/-- A grading as what is come to with a matcher: a grade and a value, and findings. -/
def Grading.result (g : Grading) : (Outcome × Value) × List Finding := ((g.outcome, g.value), g.findings)

/-- Parts as what is come to with a matcher. -/
def Parts.result {α : Type} (p : Parts α) : (Outcome × List α) × List Finding :=
  ((p.outcome, p.pieces), p.findings)

namespace Parts

variable {α β : Type}

/-- The parts that each of a list gives, one after the other. -/
def collect (part? : β → Option (Parts α)) : List β → Option (Parts α)
  | [] => some .empty
  | b :: rest => (part? b).bind fun p => (collect part? rest).map p.append

theorem collect_cons (part? : β → Option (Parts α)) (b : β) (rest : List β) :
    collect part? (b :: rest) = (part? b).bind fun p => (collect part? rest).map p.append := rfl

end Parts

section Pieces

variable {inside : Inside}

theorem gradeFields_eq (entries : Entries Value) (fields : List (Field Node)) :
    gradeFields inside entries fields = Parts.collect (gradeField inside entries) fields := by
  induction fields with
  | nil => rfl
  | cons f fields ih =>
    unfold gradeFields Parts.collect
    rw [ih]
    cases gradeField inside entries f with
    | none => rfl
    | some p => cases Parts.collect (gradeField inside entries) fields <;> rfl

theorem gradeEntries_eq (entry : Node) (entries : Entries Value) :
    gradeEntries inside entry entries = Parts.collect
      (fun e => (inside.grade entry e.2).map (Parts.graded (.key e.1) (e.1, ·))) entries := by
  induction entries with
  | nil => rfl
  | cons e entries ih =>
    obtain ⟨key, v⟩ := e
    unfold gradeEntries Parts.collect
    rw [ih]
    cases inside.grade entry v with
    | none => rfl
    | some g => cases Parts.collect _ entries <;> rfl

/-- What becomes of an entry at a key that is not declared. -/
def undeclaredEntry (kept : Option String) (e : String × Value) : Parts (String × Value) :=
  if kept = some e.1 then .kept e else .decided (.key e.1) .undeclaredKey []

theorem undeclaredEntries_eq (fields : List (Field Node)) (kept : Option String) (entries : Entries Value) :
    some (undeclaredEntries fields kept entries) = Parts.collect (fun e => some (undeclaredEntry kept e))
      (entries.filter fun e => (Field.find? fields e.1).isNone) := by
  induction entries with
  | nil => rfl
  | cons e entries ih =>
    obtain ⟨key, v⟩ := e
    unfold undeclaredEntries
    cases hfind : Field.find? fields key with
    | some f => simpa [hfind] using ih
    | none =>
      rw [List.filter_cons_of_pos (by simp [hfind])]
      unfold Parts.collect
      rw [← ih]
      unfold undeclaredEntry
      simp only [Option.isSome_none, Bool.false_eq_true, if_false]
      split <;> rfl

theorem extraItems_eq (index : Nat) (items : List Value) :
    some (extraItems index items) = Parts.collect
      (fun i => some (Parts.decided (.index i) .extraElement [])) (List.range' index items.length) := by
  induction items generalizing index with
  | nil => rfl
  | cons v items ih =>
    rw [List.length_cons, List.range'_succ]
    unfold extraItems Parts.collect
    rw [← ih (index + 1)]
    rfl

/-- What an array has at an index for which there is an element node. -/
def itemParts (inside : Inside) (items : List Value) (element : Nat × Node) : Option (Parts Value) :=
  match items[element.1]? with
  | some item => (inside.grade element.2 item).map (Parts.graded (.index element.1) id)
  | none => (inside.fill element.2).map fun d => Parts.decided (.index element.1) .missingElement [d]

theorem itemParts_of_some {items : List Value} {index : Nat} {node : Node} {item : Value}
    (h : items[index]? = some item) : itemParts inside items (index, node) =
      (inside.grade node item).map (Parts.graded (.index index) id) := by
  unfold itemParts
  simp only [h]

theorem itemParts_of_none {items : List Value} {index : Nat} {node : Node} (h : items[index]? = none) :
    itemParts inside items (index, node) =
      (inside.fill node).map fun d => Parts.decided (.index index) .missingElement [d] := by
  unfold itemParts
  simp only [h]

theorem gradeItems_cons (items : List Value) (index : Nat) (node : Node) (nodes : List Node) :
    gradeItems inside index (node :: nodes) (items.drop index) =
      (itemParts inside items (index, node)).bind fun p =>
        (gradeItems inside (index + 1) nodes (items.drop (index + 1))).map p.append := by
  cases hitem : items[index]? with
  | none =>
    have hend : items.length ≤ index := List.getElem?_eq_none_iff.1 hitem
    rw [itemParts_of_none hitem, List.drop_of_length_le hend, List.drop_of_length_le (Nat.le_succ_of_le hend)]
    conv => lhs; unfold gradeItems
    cases inside.fill node with
    | none => rfl
    | some d => cases gradeItems inside (index + 1) nodes [] <;> rfl
  | some item =>
    obtain ⟨hlt, rfl⟩ := List.getElem?_eq_some_iff.1 hitem
    rw [itemParts_of_some hitem, List.drop_eq_getElem_cons hlt]
    conv => lhs; unfold gradeItems
    cases inside.grade node items[index] with
    | none => rfl
    | some g => cases gradeItems inside (index + 1) nodes (items.drop (index + 1)) <;> rfl

theorem gradeItems_eq (items : List Value) (index : Nat) (nodes : List Node) :
    gradeItems inside index nodes (items.drop index) =
      (Parts.collect (itemParts inside items) ((nodes.zipIdx index).map Prod.swap)).map fun p =>
        p.append (extraItems (index + nodes.length) (items.drop (index + nodes.length))) := by
  induction nodes generalizing index with
  | nil => simp [gradeItems, Parts.collect]
  | cons node nodes ih =>
    have hlength : index + (node :: nodes).length = index + 1 + nodes.length := by
      rw [List.length_cons]
      omega
    rw [gradeItems_cons, ih (index + 1), List.zipIdx_cons, List.map_cons, hlength]
    conv => rhs; unfold Parts.collect
    rw [Prod.swap_prod_mk]
    cases itemParts inside items (index, node) with
    | none => rfl
    | some p =>
      cases Parts.collect (itemParts inside items) ((nodes.zipIdx (index + 1)).map Prod.swap) with
      | none => rfl
      | some q => exact congrArg some (Parts.append_assoc p q _).symm

end Pieces

namespace Matcher

namespace Appends

variable {α β : Type} {depth : Nat} {names : List String} {action : Matching α}
  {result? : Option (α × List Finding)}

theorem congr {other? : Option (α × List Finding)} (h : Appends depth names action result?)
    (heq : result? = other?) : Appends depth names action other? := heq ▸ h

theorem map (f : α → β) (h : Appends depth names action result?) :
    Appends depth names (do let a ← action; return f a) (result?.map fun r => (f r.1, r.2)) := by
  apply (h.bind fun a => pure (f a)).congr
  cases result? <;> simp

/-- What comes after a step that gives nothing back. -/
theorem after {first : Matching Unit} {findings : List Finding}
    (hfirst : Appends depth names first (some ((), findings))) (h : Appends depth names action result?) :
    Appends depth names (do first; action) (result?.map fun r => (r.1, findings ++ r.2)) :=
  hfirst.bind fun _ => h

/-- Going through the parts comes to all of them together. -/
theorem each {part : β → Matching (Outcome × List α)} {part? : β → Option (Parts α)}
    (h : ∀ b, Appends depth names (part b) ((part? b).map Parts.result)) (l : List β)
    (sofar : Outcome × List α) : Appends depth names (Matcher.each part l sofar)
      ((Parts.collect part? l).map fun p =>
        ((sofar.1.join p.outcome, sofar.2 ++ p.pieces), p.findings)) := by
  induction l generalizing sofar with
  | nil =>
    apply (pure sofar).congr
    simp [Parts.collect, Parts.empty]
  | cons b l ih =>
    apply ((h b).bind fun p => ih (sofar.1.join p.1, sofar.2 ++ p.2)).congr
    rw [Parts.collect_cons]
    cases part? b with
    | none => rfl
    | some p =>
      cases Parts.collect part? l with
      | none => rfl
      | some q => simp [Parts.result, Parts.append, Outcome.join_assoc]

end Appends

/-- Attempts at the parts come to their gradings, and what is filled in is the same. -/
structure Follows (definitions : Definitions) (attempt : Node → Value → Matching (Outcome × Value))
    (inside : Inside) (depth : Nat) (names : List String) : Prop where
  grade : ∀ node v, Appends depth names (attempt node v) ((inside.grade node v).map Grading.result)
  fill : ∀ node, Appends depth names (fill definitions attempt node) ((inside.fill node).map (·, []))
  fillField : ∀ f, Appends depth names (fillField definitions attempt f) ((inside.fillField f).map (·, []))

section Composites

variable {definitions : Definitions} {attempt : Node → Value → Matching (Outcome × Value)}
  {inside : Inside} {depth : Nat} {names : List String}

theorem appends_gradePrimitive (kind : Kind) (v : Value) : Appends depth names (gradePrimitive kind v)
    (some (Conformance.gradePrimitive kind v).result) := by
  unfold gradePrimitive Conformance.gradePrimitive
  cases coerce kind v with
  | matched => exact .pure _
  | converted w => exact .decided _ _
  | defaulted w => exact .decided _ _
  | incompatible => exact .decided _ _

theorem appends_gradeLiteral (expected v : Value) : Appends depth names (gradeLiteral expected v)
    (some (Conformance.gradeLiteral expected v).result) := by
  unfold gradeLiteral Conformance.gradeLiteral
  split
  · exact .pure _
  · exact .decided _ _

theorem appends_gradeItem (h : Follows definitions attempt inside depth names) (items : List Value)
    (element : Nat × Node) : Appends depth names (gradeItem definitions attempt items element)
      ((itemParts inside items element).map Parts.result) := by
  obtain ⟨index, node⟩ := element
  unfold gradeItem
  cases hitem : items[index]? with
  | some item =>
    rw [itemParts_of_some hitem]
    apply (Appends.within _ ((h.grade node item).map _)).congr
    cases inside.grade node item <;> rfl
  | none =>
    rw [itemParts_of_none hitem]
    apply (Appends.within _ ((Appends.record _).after ((h.fill node).map _))).congr
    cases inside.fill node <;> rfl

theorem appends_dropItem (index : Nat) : Appends depth names (dropItem index)
    ((some (Parts.decided (.index index) .extraElement [])).map Parts.result) :=
  Appends.within _ ((Appends.record _).after (Appends.pure _))

theorem appends_fillIn (h : Follows definitions attempt inside depth names) (f : Field Node)
    (present? : Option Value) : Appends depth names (within (.key f.name) (fillIn definitions attempt f present?))
      ((Conformance.gradeField.fillIn inside f present?).map Parts.result) := by
  have hdecide : ∀ d : Value, Appends depth names
      (if present?.isNone || !d.isUndefined then do
        record .missingOptional
        return (Outcome.defaulted, [(f.name, d)])
      else return (.matched, [(f.name, d)]))
      (some (if present?.isNone || !d.isUndefined then
        ((.defaulted, [(f.name, d)]), [⟨[], .missingOptional⟩]) else ((.matched, [(f.name, d)]), []))) := by
    intro d
    split
    · exact (Appends.record _).after (.pure _)
    · exact .pure _
  apply (Appends.within _ ((h.fillField f).bind hdecide)).congr
  unfold gradeField.fillIn
  cases inside.fillField f with
  | none => rfl
  | some d =>
    simp only [Option.map_some, Option.bind_some]
    split <;> rfl

theorem appends_gradeField (h : Follows definitions attempt inside depth names) (entries : Entries Value)
    (f : Field Node) : Appends depth names (gradeField definitions attempt entries f)
      ((Conformance.gradeField inside entries f).map Parts.result) := by
  unfold gradeField Conformance.gradeField
  cases hget : Entries.get? entries f.name with
  | none =>
    by_cases habsent : f.mayBeAbsent = true
    · simp only [Option.filter_none, habsent, if_true]
      exact appends_fillIn h f none
    · simp only [Option.filter_none, habsent]
      exact Appends.within _ ((Appends.record _).after (Appends.pure _))
  | some v =>
    by_cases hfill : (v.isUndefined && f.mayBeAbsent) = true
    · obtain ⟨hundefined, habsent⟩ := Bool.and_eq_true_iff.1 hfill
      simp only [Option.filter_some, hundefined, habsent, Bool.and_self, if_true, Bool.not_true,
        Bool.false_eq_true, if_false]
      exact appends_fillIn h f (some v)
    · simp only [Option.filter_some, hfill, Bool.not_false, if_true, Bool.false_eq_true, if_false]
      apply (Appends.within _ ((h.grade f.node v).map _)).congr
      cases inside.grade f.node v <;> rfl

theorem appends_dropEntry (kept : Option String) (e : String × Value) :
    Appends depth names (dropEntry kept e) ((some (undeclaredEntry kept e)).map Parts.result) := by
  unfold dropEntry undeclaredEntry
  split
  · exact .pure _
  · exact Appends.within _ ((Appends.record _).after (Appends.pure _))

theorem appends_gradeEntry (h : Follows definitions attempt inside depth names) (entry : Node)
    (e : String × Value) : Appends depth names (gradeEntry attempt entry e)
      (((inside.grade entry e.2).map (Parts.graded (.key e.1) (e.1, ·))).map Parts.result) := by
  apply (Appends.within _ ((h.grade entry e.2).map _)).congr
  cases inside.grade entry e.2 <;> rfl

/-- The parts of a composite in two stretches, and what they make up. -/
theorem appends_composite {α β γ : Type} {compose : List α → Value} {whole : Value}
    {first : β → Matching (Outcome × List α)} {second : γ → Matching (Outcome × List α)}
    {first? : β → Option (Parts α)} {second? : γ → Option (Parts α)}
    (hfirst : ∀ b, Appends depth names (first b) ((first? b).map Parts.result))
    (hsecond : ∀ c, Appends depth names (second c) ((second? c).map Parts.result))
    (bs : List β) (cs : List γ) : Appends depth names
      (do
        let parts ← each first bs (.matched, [])
        let parts ← each second cs parts
        return close compose whole parts)
      (((Parts.collect first? bs).bind fun p => (Parts.collect second? cs).map fun q =>
        (p.append q).close compose whole).map Grading.result) := by
  have hrest : ∀ sofar, Appends depth names
      (do
        let parts ← each second cs sofar
        return close compose whole parts)
      ((Parts.collect second? cs).map fun q =>
        (close compose whole (sofar.1.join q.outcome, sofar.2 ++ q.pieces), q.findings)) := by
    intro sofar
    apply ((Appends.each hsecond cs sofar).map _).congr
    cases Parts.collect second? cs <;> rfl
  apply ((Appends.each hfirst bs (.matched, [])).bind hrest).congr
  cases Parts.collect first? bs with
  | none => rfl
  | some p =>
    cases Parts.collect second? cs with
    | none => rfl
    | some q =>
      simp only [Option.map_some, Option.bind_some, Outcome.matched_join, List.nil_append]
      rfl

theorem appends_gradeArray (h : Follows definitions attempt inside depth names) (elements : List Node)
    (size : ArraySize) (v : Value) : Appends depth names (gradeArray definitions attempt elements size v)
      ((Conformance.gradeArray inside elements size v).map Grading.result) := by
  cases v
  case array items =>
    unfold gradeArray Conformance.gradeArray
    by_cases hempty : elements.isEmpty = true
    · simp only [hempty, if_true]
      exact .pure _
    · simp only [hempty]
      apply (appends_composite (appends_gradeItem h items) appends_dropItem _ _).congr
      have hitems := @gradeItems_eq inside items 0 (size.unroll elements items.length)
      rw [List.drop_zero, Nat.zero_add] at hitems
      rw [hitems, ← List.length_drop, ← extraItems_eq]
      cases Parts.collect (itemParts inside items) _ <;> rfl
  all_goals exact .decided _ _

theorem appends_gradeMap (h : Follows definitions attempt inside depth names) (fields : List (Field Node))
    (kept : Option String) (v : Value) : Appends depth names (gradeMap definitions attempt fields kept v)
      ((Conformance.gradeMap inside fields kept v).map Grading.result) := by
  cases v
  case map entries =>
    unfold gradeMap Conformance.gradeMap
    dsimp only
    apply (appends_composite (appends_gradeField h entries) (appends_dropEntry kept) _ _).congr
    rw [← undeclaredEntries_eq, gradeFields_eq]
    cases Parts.collect (Conformance.gradeField inside entries) fields <;> rfl
  all_goals exact .decided _ _

theorem appends_gradeDictionary (h : Follows definitions attempt inside depth names) (entry : Node)
    (v : Value) : Appends depth names (gradeDictionary attempt entry v)
      ((Conformance.gradeDictionary inside entry v).map Grading.result) := by
  cases v
  case map entries =>
    unfold gradeDictionary Conformance.gradeDictionary
    dsimp only
    apply ((Appends.each (appends_gradeEntry h entry) entries (.matched, [])).map _).congr
    rw [gradeEntries_eq]
    cases Parts.collect _ entries with
    | none => rfl
    | some p =>
      simp only [Option.map_some, Outcome.matched_join, List.nil_append]
      rfl
  all_goals exact .decided _ _

theorem appends_gradeSelector (h : Follows definitions attempt inside depth names) (discriminant : String)
    (alternatives : List (Alternative Node)) (v : Value) :
    Appends depth names (gradeSelector definitions attempt discriminant alternatives v)
      ((Conformance.gradeSelector definitions inside discriminant alternatives v).map Grading.result) := by
  cases v
  case map entries =>
    unfold gradeSelector Conformance.gradeSelector
    dsimp only
    cases (Entries.get? entries discriminant).filter Value.isDiscriminant with
    | none => exact .decided _ _
    | some key =>
      dsimp only
      cases Alternative.find? alternatives key with
      | none => exact .decided _ _
      | some chosen =>
        dsimp only
        cases definitions.resolveMap? chosen.node with
        | none => exact h.grade chosen.node _
        | some fields => exact appends_gradeMap h fields (some discriminant) _
  all_goals exact .decided _ _

end Composites

/-! ## The best attempt -/

section Variants

variable {definitions : Definitions} {attempt : Node → Value → Matching (Outcome × Value)}
  {grade : Node → Option Grading} {v : Value} {depth : Nat} {names : List String} {s : Matcher}

/-- A grading as it is kept for comparison, with its findings as they were in the matcher. -/
def kept (s : Matcher) (g : Grading) : Outcome × Value × List Finding :=
  (g.outcome, g.value, g.findings.map s.located)

/-- An attempt leaves nothing behind, as its findings are taken out again. -/
theorem tryEach_cons {node : Node} {g : Grading} (h : (attempt node v).run s = some ((g.outcome, g.value),
    s.adding g.findings)) (nodes : List Node) (best? : Option (Outcome × Value × List Finding)) :
    (tryEach attempt s.findings.length v (node :: nodes) best?).run s =
      if g.outcome = .matched then some (better best? (s.kept g), s)
      else (tryEach attempt s.findings.length v nodes (better best? (s.kept g))).run s := by
  have hsplit : (splitOff s.findings.length).run (s.adding g.findings) =
      some (g.findings.map s.located, s) := by
    show some (((s.adding g.findings).findings.drop s.findings.length),
      { s.adding g.findings with findings := (s.adding g.findings).findings.take s.findings.length }) = _
    simp [adding]
  conv => lhs; unfold tryEach
  rw [StateT.run_bind, h]
  simp only [Option.bind_eq_bind, Option.bind_some, StateT.run_bind, hsplit]
  split <;> rfl

theorem tryEach_none {node : Node} (h : (attempt node v).run s = none) (nodes : List Node)
    (best? : Option (Outcome × Value × List Finding)) :
    (tryEach attempt s.findings.length v (node :: nodes) best?).run s = none := by
  unfold tryEach
  rw [StateT.run_bind, h]
  rfl

theorem better_kept (best g : Grading) : better (some (s.kept best)) (s.kept g) =
    some (s.kept (if best.outcome < g.outcome then g else best)) := by
  unfold better
  by_cases hlt : best.outcome < g.outcome
  · have hnot : ¬ g.outcome ≤ best.outcome := Nat.not_le.2 hlt
    rw [if_pos hlt]
    exact if_neg hnot
  · have hle : g.outcome ≤ best.outcome := Nat.not_lt.1 hlt
    rw [if_neg hlt]
    exact if_pos hle

/-- The search goes on from an attempt that is no exact match as the comparison of gradings does. -/
theorem tryEach_run (h : ∀ n, Appends depth names (attempt n v) ((grade n).map Grading.result))
    (hdepth : s.depth = depth) (hnames : s.names = names) {best : Grading} (hbest : best.outcome ≠ .matched)
    (nodes : List Node) : (tryEach attempt s.findings.length v nodes (some (s.kept best))).run s =
      (bestGrading grade best nodes).map fun g => (some (s.kept g), s) := by
  induction nodes generalizing best with
  | nil => rfl
  | cons node nodes ih =>
    have hrun := h node s hdepth hnames
    cases hg : grade node with
    | none =>
      rw [hg] at hrun
      rw [tryEach_none hrun]
      unfold bestGrading
      rw [if_neg hbest, hg]
      rfl
    | some g =>
      rw [hg] at hrun
      rw [tryEach_cons hrun, better_kept, bestGrading_cons hbest hg]
      by_cases hmatched : g.outcome = .matched
      · -- The search ends here, and the comparison of gradings before the next node.
        have hlt : best.outcome < g.outcome := hmatched ▸ Outcome.lt_matched hbest
        rw [if_pos hmatched, if_pos hlt, bestGrading_of_matched hmatched]
        rfl
      · rw [if_neg hmatched]
        apply ih
        split
        · exact hmatched
        · exact hbest

/-- The best attempt is the best grading, and the only findings that are appended are those of it. -/
theorem appends_gradeVariants (h : ∀ n, Appends depth names (attempt n v) ((grade n).map Grading.result))
    (node : Node) (nodes : List Node) : Appends depth names (gradeVariants attempt (node :: nodes) v)
      (((grade node).bind fun g => bestGrading grade g nodes).map Grading.result) := by
  cases nodes with
  | nil =>
    apply (h node).congr
    cases grade node <;> rfl
  | cons next nodes =>
    intro s hdepth hnames
    have hrun := h node s hdepth hnames
    unfold gradeVariants
    show ((tryEach attempt s.findings.length v (node :: next :: nodes) none).run s).bind _ = _
    cases hg : grade node with
    | none =>
      rw [hg] at hrun
      rw [tryEach_none hrun]
      rfl
    | some g =>
      rw [hg] at hrun
      rw [tryEach_cons hrun, Option.bind_some]
      have hfirst : better none (s.kept g) = some (s.kept g) := rfl
      rw [hfirst]
      by_cases hmatched : g.outcome = .matched
      · rw [if_pos hmatched]
        simp only [Option.bind_some, bestGrading_of_matched hmatched]
        rfl
      · rw [if_neg hmatched, tryEach_run h hdepth hnames hmatched]
        cases bestGrading grade g (next :: nodes) <;> rfl

theorem appends_gradeReference {name : String}
    (h : ∀ n, Appends depth (name :: names) (attempt n v) ((grade n).map Grading.result)) :
    Appends depth names (gradeReference definitions attempt name v)
      ((Conformance.gradeReference definitions grade name v).map Grading.result) := by
  unfold gradeReference Conformance.gradeReference
  cases definitions.nodes name with
  | nil => exact .decided _ _
  | cons node nodes => exact .below (appends_gradeVariants h node nodes)

end Variants

/-! ## Every attempt -/

section Attempts

variable {definitions : Definitions} {attempt : Node → Value → Matching (Outcome × Value)}
  {depth levels : Nat}

/-- A second matcher converts a default as the grading that has entered no name does. -/
theorem convert_eq (h : ∀ names node v, Appends depth names (attempt node v)
    ((Conformance.grade definitions levels names node v).map Grading.result)) :
    convert attempt depth = Conformance.grade definitions levels [] := by
  funext node literal
  have hlocated : located ⟨depth, [], [], []⟩ = id := rfl
  unfold convert
  rw [h [] node literal ⟨depth, [], [], []⟩ rfl rfl]
  cases Conformance.grade definitions levels [] node literal with
  | none => rfl
  | some g => simp [Grading.result, adding, hlocated]

theorem follows (h : ∀ names node v, Appends depth names (attempt node v)
    ((Conformance.grade definitions levels names node v).map Grading.result)) (names : List String) :
    Follows definitions attempt (.below definitions levels names) depth names where
  grade := h names
  fill node s hdepth hnames := by
    subst hdepth hnames
    show (defaultOf definitions (convert attempt s.depth) s.names node).bind (fun d => some (d, s)) = _
    rw [convert_eq h]
    show _ = ((defaultOf definitions (Conformance.grade definitions levels []) s.names node).map _).map _
    cases defaultOf definitions (Conformance.grade definitions levels []) s.names node <;> simp
  fillField f s hdepth hnames := by
    subst hdepth hnames
    show (fieldDefault (convert attempt s.depth) (defaultOf definitions (convert attempt s.depth) s.names)
      f).bind (fun d => some (d, s)) = _
    rw [convert_eq h]
    show _ = ((fieldDefault (Conformance.grade definitions levels [])
      (defaultOf definitions (Conformance.grade definitions levels []) s.names) f).map _).map _
    cases fieldDefault (Conformance.grade definitions levels [])
      (defaultOf definitions (Conformance.grade definitions levels []) s.names) f <;> simp

/-- **Every attempt comes to the grading with the levels that are left**, by induction on how many attempts may
stand one inside the other. -/
theorem appends_gradeWithin {maxDepth n : Nat} {names : List String} {node : Node} {v : Value}
    (hn : maxDepth - depth < n) : Appends depth names (gradeWithin definitions maxDepth n node v)
      ((Conformance.grade definitions (maxDepth - depth) names node v).map Grading.result) := by
  induction n generalizing depth names node v with
  | zero => omega
  | succ n ih =>
    intro s hdepth hnames
    unfold gradeWithin
    rw [StateT.run_bind, StateT.run_get]
    simp only [Option.pure_def, Option.bind_eq_bind, Option.bind_some, hdepth]
    by_cases hlimit : maxDepth ≤ depth
    · rw [if_pos hlimit, Nat.sub_eq_zero_of_le hlimit]
      exact Appends.decided .depthExceeded v s hdepth hnames
    · rw [if_neg hlimit]
      obtain ⟨levels, hlevels⟩ : ∃ levels, maxDepth - depth = levels + 1 :=
        ⟨maxDepth - depth - 1, by omega⟩
      have hbelow : ∀ names node v, Appends (depth + 1) names (gradeWithin definitions maxDepth n node v)
          ((Conformance.grade definitions levels names node v).map Grading.result) := by
        intro names node v
        have hlevels : maxDepth - (depth + 1) = levels := by omega
        rw [← hlevels]
        exact ih (by omega)
      have hfollows := follows hbelow names
      rw [hlevels]
      apply Appends.deeper _ s hdepth hnames
      cases node with
      | any => exact .pure _
      | primitive kind => exact appends_gradePrimitive kind v
      | literal expected => exact appends_gradeLiteral expected v
      | array elements size => exact appends_gradeArray hfollows elements size v
      | map fields => exact appends_gradeMap hfollows fields none v
      | dictionary entry => exact appends_gradeDictionary hfollows entry v
      | selector discriminant alternatives => exact appends_gradeSelector hfollows discriminant alternatives v
      | reference name => exact appends_gradeReference fun n => hbelow (name :: names) n v

theorem run_grade (maxDepth : Nat) (node : Node) (v : Value) (s : Matcher) :
    (grade definitions maxDepth node v).run s =
      (Conformance.grade definitions (maxDepth - s.depth) s.names node v).map fun g =>
        ((g.outcome, g.value), s.adding g.findings) := by
  have hroom : maxDepth - s.depth < maxDepth + 1 := by omega
  have happends : Appends s.depth s.names (grade definitions maxDepth node v)
      ((Conformance.grade definitions (maxDepth - s.depth) s.names node v).map Grading.result) :=
    appends_gradeWithin hroom
  rw [happends s rfl rfl, Option.map_map]
  rfl

theorem run_gradeReference (maxDepth : Nat) (name : String) (v : Value) (s : Matcher) :
    (gradeReference definitions (grade definitions maxDepth) name v).run s =
      (Conformance.gradeReference definitions
        (fun n => Conformance.grade definitions (maxDepth - s.depth) (name :: s.names) n v) name v).map fun g =>
          ((g.outcome, g.value), s.adding g.findings) := by
  have hroom : maxDepth - s.depth < maxDepth + 1 := by omega
  have hnode : ∀ n, Appends s.depth (name :: s.names) (grade definitions maxDepth n v)
      ((Conformance.grade definitions (maxDepth - s.depth) (name :: s.names) n v).map Grading.result) :=
    fun n => appends_gradeWithin hroom
  rw [appends_gradeReference hnode s rfl rfl, Option.map_map]
  rfl

/-- What an attempt at a node below a name comes to in a state, by the grading. -/
theorem run_grade_iff {maxDepth : Nat} {name : String} {node : Node} {v : Value} {s : Matcher}
    {r : Outcome × Value} {u : Matcher} :
    (grade definitions maxDepth node v).run { s with names := name :: s.names } = some (r, u) ↔
      ∃ g, Conformance.grade definitions (maxDepth - s.depth) (name :: s.names) node v = some g ∧
        r = (g.outcome, g.value) ∧ u = { s.adding g.findings with names := name :: s.names } := by
  rw [run_grade, Option.map_eq_some_iff]
  constructor
  · rintro ⟨g, hg, heq⟩
    obtain ⟨rfl, rfl⟩ := Prod.mk.inj heq
    exact ⟨g, hg, rfl, rfl⟩
  · rintro ⟨g, hg, rfl, rfl⟩
    exact ⟨g, hg, rfl⟩

/-- **A name yields the first of its best nodes**, in every state of a matcher that all attempts share: the grade,
the value and the findings that are appended are those of an attempt with that node alone. The attempts come to
the gradings, and leave the depth, the location, the names and the findings before them as they were. -/
theorem reference_firstBest {name : String} (hne : definitions.nodes name ≠ []) (v : Value) :
    (∀ levels names g, Conformance.grade definitions (levels + 1) names (.reference name) v = some g ↔
      ∃ before node after, definitions.nodes name = before ++ node :: after ∧
        FirstBest (fun n => Conformance.grade definitions levels (name :: names) n v) before node after g) ∧
    (∀ maxDepth node (s : Matcher), (grade definitions maxDepth node v).run s =
      (Conformance.grade definitions (maxDepth - s.depth) s.names node v).map fun g =>
        ((g.outcome, g.value), s.adding g.findings)) ∧
    ∀ maxDepth (s : Matcher) (r : Outcome × Value) (t : Matcher),
      (gradeReference definitions (grade definitions maxDepth) name v).run s = some (r, t) ↔
        ∃ before node after u, definitions.nodes name = before ++ node :: after ∧
          (grade definitions maxDepth node v).run { s with names := name :: s.names } = some (r, u) ∧
          t = { u with names := s.names } ∧
          (∃ appended, t = { s with findings := s.findings ++ appended }) ∧
          (∀ m ∈ before, ∃ r' u', (grade definitions maxDepth m v).run
            { s with names := name :: s.names } = some (r', u') ∧ r'.1 < r.1) ∧
          (r.1 = .matched ∨ ∀ m ∈ after, ∃ r' u', (grade definitions maxDepth m v).run
            { s with names := name :: s.names } = some (r', u') ∧ r'.1 ≤ r.1) := by
  refine ⟨fun levels names g => ?_, fun maxDepth node s => run_grade maxDepth node v s,
    fun maxDepth s r t => ?_⟩
  · rw [grade_reference]
    exact gradeReference_iff hne
  · rw [run_gradeReference, Option.map_eq_some_iff]
    constructor
    · rintro ⟨g, hg, heq⟩
      obtain ⟨rfl, rfl⟩ := Prod.mk.inj heq
      obtain ⟨before, node, after, hnodes, hfirst⟩ := (gradeReference_iff hne).1 hg
      refine ⟨before, node, after, _, hnodes, run_grade_iff.2 ⟨g, hfirst.graded, rfl, rfl⟩, rfl,
        ⟨_, rfl⟩, fun m hm => ?_, hfirst.later.imp_right fun hlater m hm => ?_⟩
      · obtain ⟨h, hh, hlt⟩ := hfirst.earlier m hm
        exact ⟨_, _, run_grade_iff.2 ⟨h, hh, rfl, rfl⟩, hlt⟩
      · obtain ⟨h, hh, hle⟩ := hlater m hm
        exact ⟨_, _, run_grade_iff.2 ⟨h, hh, rfl, rfl⟩, hle⟩
    · rintro ⟨before, node, after, u, hnodes, hnode, rfl, -, hearlier, hlater⟩
      obtain ⟨g, hg, rfl, rfl⟩ := run_grade_iff.1 hnode
      refine ⟨g, (gradeReference_iff hne).2 ⟨before, node, after, hnodes, hg, fun m hm => ?_,
        hlater.imp_right fun hlater m hm => ?_⟩, rfl⟩
      · obtain ⟨r', u', hrun, hlt⟩ := hearlier m hm
        obtain ⟨h, hh, rfl, -⟩ := run_grade_iff.1 hrun
        exact ⟨h, hh, hlt⟩
      · obtain ⟨r', u', hrun, hle⟩ := hlater m hm
        obtain ⟨h, hh, rfl, -⟩ := run_grade_iff.1 hrun
        exact ⟨h, hh, hle⟩

/-- A name the second node of which is a name itself. Two nodes of each are equally good, and the first of them is
taken, behind a finding that was made before. -/
theorem reference_firstBest_nested :
    let definitions : Definitions := [("v", [.map [], .reference "w", .primitive .real]),
      ("w", [.primitive .integer, .primitive .real])]
    let s : Matcher := ⟨1, [.key "k"], ["u"], [⟨[.key "a"], .missingOptional⟩]⟩
    definitions.nodes "v" ≠ [] ∧ ∃ t,
      (gradeReference definitions (grade definitions 5) "v" (.boolean true)).run s =
        some ((.converted, .integer 1), t) ∧
      t.findings = [⟨[.key "a"], .missingOptional⟩, ⟨[.key "k"], .converted .boolean .integer⟩] ∧
      ∃ before node after u, definitions.nodes "v" = before ++ node :: after ∧
        (grade definitions 5 node (.boolean true)).run { s with names := "v" :: s.names } =
          some ((.converted, .integer 1), u) ∧ t = { u with names := s.names } := by
  intro definitions s
  have hne : definitions.nodes "v" ≠ [] := nofun
  obtain ⟨t, ht, hfindings⟩ : ∃ t,
      (gradeReference definitions (grade definitions 5) "v" (.boolean true)).run s =
        some ((.converted, .integer 1), t) ∧
      t.findings = [⟨[.key "a"], .missingOptional⟩, ⟨[.key "k"], .converted .boolean .integer⟩] :=
    ⟨_, rfl, rfl⟩
  obtain ⟨before, node, after, u, hnodes, hnode, hu, -⟩ :=
    ((reference_firstBest hne (.boolean true)).2.2 5 s _ t).1 ht
  exact ⟨hne, t, ht, hfindings, before, node, after, u, hnodes, hnode, hu⟩

end Attempts

end Matcher

end Conformance
