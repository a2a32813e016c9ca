import Conformance.Proofs.Reading

/-!
# Tokens with their positions

Where in the text a rule of the reader is, for texts without faults in their tokens. Each rule takes some of the
tokens that are left off the front, and its errors and checks carry positions of tokens.

* `Located` — a text without faults, with its tokens and their positions.
* `Parser.State.spots` — what is left, the current token first; `Parser.State.Clear` — no fault is left.
* `Parser.start_of_located`, `Parser.located_of_end` — the beginning of a text without faults, and how it shows that
  there are none.
* `Parser.schemaPass`, `Parser.suitePass` — the calls up to where the checks are carried out, with what they give
  (`Schema.ofText_error`, `Suite.ofText_error`, `Suite.ofText_resolve`).
-/

set_option autoImplicit false

namespace Conformance

/-- A token with its position. -/
abbrev Spot := Position × Token

/-- The text has no faults, and these are its tokens with their positions. The last one is the end of the text. -/
def Located (text : String) (spots : List Spot) : Prop :=
  (lexemes text.toList).map Lexeme.result = spots.map Except.ok

theorem Located.lexed {text : String} {spots : List Spot} (h : Located text spots) :
    Lexed text (spots.map Prod.snd) := by
  have hmap := congrArg (List.map fun found => found.map Prod.snd) h
  rw [List.map_map, List.map_map] at hmap
  rw [Lexed, List.map_map]
  exact hmap

theorem Located.unique {text : String} {spots others : List Spot} (h : Located text spots)
    (h' : Located text others) : spots = others :=
  List.map_injective_iff.2 (fun _ _ => Except.ok.inj) (h.symm.trans h')

namespace Parser

variable {α β : Type}

/-! ## What is left of a text -/

/-- The tokens at the front of the lexemes with their positions, up to the first fault. -/
def located : List Lexeme → List Spot
  | [] => []
  | l :: rest =>
    match l.result with
    | .ok spot => spot :: located rest
    | .error _ => []

/-- The current token and those after it, up to the first fault, each with its position. -/
def State.spots (s : State) : List Spot := (s.position, s.current) :: located s.rest

/-- The state is proper, and no fault is left. -/
structure State.Clear (s : State) : Prop where
  proper : s.Proper
  rest_ok : ∀ l ∈ s.rest, ∃ spot, l.result = .ok spot

theorem located_of_map_eq {lexemes : List Lexeme} {spots : List Spot}
    (h : lexemes.map Lexeme.result = spots.map Except.ok) : located lexemes = spots := by
  induction lexemes generalizing spots with
  | nil =>
    cases spots with
    | nil => rfl
    | cons spot spots => cases h
  | cons l rest ih =>
    cases spots with
    | nil => cases h
    | cons spot spots =>
      obtain ⟨hl, hrest⟩ := List.cons.inj h
      rw [located, hl, ih hrest]

theorem length_located {lexemes : List Lexeme} (h : ∀ l ∈ lexemes, ∃ spot, l.result = .ok spot) :
    (located lexemes).length = lexemes.length := by
  induction lexemes with
  | nil => rfl
  | cons l rest ih =>
    obtain ⟨⟨spot, hl⟩, hrest⟩ := List.forall_mem_cons.1 h
    rw [located, hl, List.length_cons, ih hrest, List.length_cons]

theorem State.tokens_eq (s : State) : s.tokens = s.spots.map Prod.snd := by
  have hreadable : ∀ lexemes, readable lexemes = (located lexemes).map Prod.snd := by
    intro lexemes
    induction lexemes with
    | nil => rfl
    | cons l rest ih =>
      rw [readable, located]
      cases l.result with
      | error e => rfl
      | ok spot => exact congrArg _ ih
  exact congrArg (List.cons s.current) (hreadable s.rest)

/-- Where the end of the text is the current token, it is all that is left. -/
theorem State.Proper.spots_of_end {s : State} (h : s.Proper) (hend : s.current = .endOfInput) :
    s.spots = [(s.position, .endOfInput)] := by
  rw [State.spots, h.ended.2 hend, hend]
  rfl

/-- Wherever a proper state goes on to the next token, the current one is taken off. -/
theorem State.Proper.spots_of_advance {s t : State} {u : Unit} (hs : s.Proper) (hmore : s.current ≠ .endOfInput)
    (h : Runs Parser.advance s u t) : s.spots = (s.position, s.current) :: t.spots := by
  obtain ⟨current, position, lexemes, checks⟩ := s
  cases lexemes with
  | nil => exact absurd (hs.ended.1 rfl) hmore
  | cons l rest =>
    obtain ⟨result, next⟩ := l
    cases result with
    | error e => cases h
    | ok spot =>
      cases h
      rfl

namespace State.Clear

variable {s : State}

theorem length_spots (h : s.Clear) : s.spots.length = s.rest.length + 1 :=
  congrArg Nat.succ (length_located h.rest_ok)

/-- Without faults, going on takes the current token off, unless it is the end of the text. -/
theorem advance (h : s.Clear) (hmore : s.current ≠ .endOfInput) : ∃ t, Runs Parser.advance s () t ∧
    s.spots = (s.position, s.current) :: t.spots ∧ t.checks = s.checks ∧ t.Clear := by
  obtain ⟨current, position, lexemes, checks⟩ := s
  cases lexemes with
  | nil => exact absurd (h.proper.ended.1 rfl) hmore
  | cons l rest =>
    obtain ⟨⟨spot, hl⟩, hrest⟩ := List.forall_mem_cons.1 h.rest_ok
    obtain ⟨result, next⟩ := l
    cases hl
    exact ⟨⟨spot.2, spot.1, rest, checks⟩, rfl, rfl, rfl, steady_proper.advance.of_ok h.proper rfl, hrest⟩

end State.Clear

/-- The first token of a text is the current one at the beginning. -/
theorem lexemes_of_start {text : String} {s : State} (h : start text = .ok s) :
    ∃ next, lexemes text.toList = ⟨.ok (s.position, s.current), next⟩ :: s.rest := by
  have hadvance := start_ok h
  obtain ⟨before, last, hends, -⟩ := lexemes_end text.toList
  have hne : lexemes text.toList ≠ [] := hends ▸ List.append_ne_nil_of_right_ne_nil _ (List.cons_ne_nil _ _)
  generalize lexemes text.toList = lexemes at hadvance hne
  cases lexemes with
  | nil => exact absurd rfl hne
  | cons l rest =>
    obtain ⟨result, next⟩ := l
    cases result with
    | error e => cases hadvance
    | ok spot =>
      cases hadvance
      exact ⟨next, rfl⟩

/-- A text without faults is there from its first token on, with nothing noted down. -/
theorem start_of_located {text : String} {spots : List Spot} (h : Located text spots) :
    ∃ s, start text = .ok s ∧ s.Clear ∧ s.spots = spots ∧ s.checks = [] := by
  obtain ⟨s, hstart, -, hchecks⟩ := start_of_lexed h.lexed
  obtain ⟨next, hlexemes⟩ := lexemes_of_start hstart
  rw [Located, hlexemes] at h
  cases spots with
  | nil => cases h
  | cons spot spots =>
    obtain ⟨hl, hrest⟩ := List.cons.inj h
    cases hl
    refine ⟨s, hstart, ⟨start_proper hstart, fun l hl => ?_⟩, ?_, hchecks⟩
    · have hmem : l.result ∈ spots.map Except.ok := hrest ▸ List.mem_map_of_mem hl
      obtain ⟨found, -, hfound⟩ := List.mem_map.1 hmem
      exact ⟨found, hfound.symm⟩
    · exact congrArg (List.cons (s.position, s.current)) (located_of_map_eq hrest)

/-- There are no faults if the end of the text is among the tokens up to the first one. -/
theorem map_result_of_end {lexemes : List Lexeme} {p : Position} (hends : EndsOnce lexemes)
    (hend : (p, .endOfInput) ∈ located lexemes) : lexemes.map Lexeme.result = (located lexemes).map Except.ok := by
  induction lexemes with
  | nil => rfl
  | cons l rest ih =>
    obtain ⟨result, next⟩ := l
    cases result with
    | error e => cases hend
    | ok spot =>
      rw [located, List.map_cons, List.map_cons]
      refine congrArg (Except.ok spot :: ·) ?_
      rcases hends.of_cons with ⟨rfl, -⟩ | ⟨-, hnot, hrest⟩
      · rfl
      · refine ih hrest ((List.mem_cons.1 hend).resolve_left ?_)
        rintro rfl
        cases hnot

theorem located_of_end {text : String} {s : State} {p : Position} (hstart : start text = .ok s)
    (hend : (p, .endOfInput) ∈ s.spots) : Located text s.spots := by
  obtain ⟨next, hlexemes⟩ := lexemes_of_start hstart
  have hends := lexemes_end text.toList
  rw [Located, hlexemes]
  rw [hlexemes] at hends
  exact map_result_of_end hends hend

/-! ## The calls up to their checks -/

/-- A schema up to the end of the text, without its checks. -/
def schemaPass (maxDepth : Nat) : Parser Node := do
  let node ← value maxDepth
  if (← current) = .endOfInput then return node
  else fail .expectedEndOfInput

/-- The declarations of a suite up to the end of the text, without their checks. -/
def suitePass (maxDepth : Nat) : Parser Declarations := do
  declarations maxDepth (← listBound) {}

theorem schema_eq (maxDepth : Nat) : schema maxDepth = do
    let node ← schemaPass maxDepth
    resolveAll [] [] maxDepth
    return { node := node } := by
  unfold schema schemaPass
  simp only [bind_assoc]
  congr 1
  funext node
  congr 1
  funext token
  split
  · rw [pure_bind]
  · rfl

theorem suite_eq (maxDepth : Nat) : suite maxDepth = do
    let d ← suitePass maxDepth
    resolveAll d.definitions d.positions maxDepth
    return { resources := d.resources, definitions := d.definitions } := by
  unfold suite suitePass
  simp only [bind_assoc]

theorem run_of_start {p : Parser α} {text : String} {s : State} (h : start text = .ok s) :
    p.run text = match p s with
      | .ok a _ => .ok a
      | .error e _ => .error e := by
  unfold run
  rw [h]
  rfl

/-- Where the first part of a call fails, the call does, with the same error. -/
theorem run_bind_error {p : Parser α} {f : α → Parser β} {text : String} {e : ParseError}
    (h : p.run text = .error e) : (p >>= f).run text = .error e := by
  cases hstart : start text with
  | error e' =>
    unfold run at h ⊢
    rw [hstart] at h ⊢
    cases h
    rfl
  | ok s =>
    rw [run_of_start hstart] at h ⊢
    cases hp : p s with
    | ok a t =>
      rw [hp] at h
      cases h
    | error e' t =>
      rw [hp] at h
      cases h
      rw [bind_of_error hp]

/-- The checks that are noted down settle what carrying them out gives. -/
theorem resolveAll_eq (definitions : Definitions) (positions : Entries Position) (maxDepth : Nat) (s : State) :
    resolveAll definitions positions maxDepth s =
      match resolve definitions positions maxDepth s.checks with
      | .ok _ => .ok () { s with checks := [] }
      | .error e => .error e { s with checks := [] } := by
  change (match resolve definitions positions maxDepth s.checks with
    | .ok _ => pure ()
    | .error e => throw e : Parser Unit) { s with checks := [] } = _
  cases resolve definitions positions maxDepth s.checks <;> rfl

end Parser

variable {text : String} {maxDepth : Nat} {e : ParseError}

/-- Where reading a schema fails before its checks, the call does, with the same error. -/
theorem Schema.ofText_error (h : (Parser.schemaPass maxDepth).run text = .error e) :
    Schema.ofText text maxDepth = .error e := by
  rw [Schema.ofText, Parser.schema_eq]
  exact Parser.run_bind_error h

/-- Where reading a suite fails before its checks, the call does, with the same error. -/
theorem Suite.ofText_error (h : (Parser.suitePass maxDepth).run text = .error e) :
    Suite.ofText text maxDepth = .error e := by
  rw [Suite.ofText, Parser.suite_eq]
  exact Parser.run_bind_error h

/-- Where reading a suite comes to its checks, these decide. -/
theorem Suite.ofText_resolve {s t : Parser.State} {d : Parser.Declarations} (hstart : Parser.start text = .ok s)
    (hpass : Parser.Runs (Parser.suitePass maxDepth) s d t) :
    Suite.ofText text maxDepth = (resolve d.definitions d.positions maxDepth t.checks).map fun _ =>
      { resources := d.resources, definitions := d.definitions } := by
  rw [Suite.ofText, Parser.suite_eq, Parser.run_of_start hstart, Parser.bind_of_ok hpass]
  have hresolve := Parser.resolveAll_eq d.definitions d.positions maxDepth t
  cases hchecks : resolve d.definitions d.positions maxDepth t.checks with
  | ok _ =>
    rw [hchecks] at hresolve
    rw [Parser.bind_of_ok hresolve]
    rfl
  | error e =>
    rw [hchecks] at hresolve
    rw [Parser.bind_of_error hresolve]
    rfl

end Conformance
