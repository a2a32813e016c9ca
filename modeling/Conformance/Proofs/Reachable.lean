import Conformance.Proofs.Accepted
import Conformance.Proofs.Composition
import Conformance.Proofs.Tokens

/-!
# States that calls of the reader lead to

One text can be read in several calls, and a call that fails leaves a state behind that the next one
starts from. What going on to the next token keeps is kept by every rule, so it holds of all these states.

* `Parser.Keeps.value`, `Parser.Keeps.schema`, `Parser.Keeps.suite` — a steady property is kept by each
  rule, also where the rule fails.
* `Parser.steady_proper` — being proper is steady.
* `Parser.Reachable` — the states after any calls on one text; `Parser.Reachable.proper`.
-/

set_option autoImplicit false

namespace Conformance

namespace Parser

section Bind

variable {α β : Type} {p : Parser α} {f : α → Parser β} {s t : State}

theorem bind_of_ok {a : α} (h : p s = .ok a t) : (p >>= f) s = f a t := by
  change EStateM.bind p f s = _
  unfold EStateM.bind
  rw [h]

theorem bind_of_error {e : ParseError} (h : p s = .error e t) : (p >>= f) s = .error e t := by
  change EStateM.bind p f s = _
  unfold EStateM.bind
  rw [h]

end Bind

/-! ## Rules keep steady properties -/

namespace Keeps

variable {I : State → Prop} (hI : Steady I)

include hI

/-- What each step keeps is kept by the steps one after the other. -/
theorem composes : Composes (fun _ => True) fun _ p Q => Keeps I p ∧ ∀ s a t, I s → p s = .ok a t → Q a where
  pure a ha := by
    refine ⟨fun _ hs => hs, fun s b t _ h => ?_⟩
    cases h
    exact ha
  bind {_ _ p f _ _} hp hf := by
    constructor
    · intro s hs
      have hkept := hp.1 s hs
      unfold after at hkept ⊢
      cases h : p s with
      | ok a t =>
        rw [h] at hkept
        rw [bind_of_ok h]
        exact (hf a (hp.2 s a t hs h)).1 t hkept
      | error e t =>
        rw [h] at hkept
        rw [bind_of_error h]
        exact hkept
    · intro s b u hs h
      obtain ⟨a, t, ha, hb⟩ := bind_ok h
      exact (hf a (hp.2 s a t hs ha)).2 t b u (hp.1.of_ok hs ha) hb
  failAt _ _ _ := ⟨fun _ hs => hs, fun _ _ _ _ h => by cases h⟩
  current := ⟨fun _ hs => hs, fun _ _ _ _ _ => trivial⟩
  position := ⟨fun _ hs => hs, fun _ _ _ _ _ => trivial⟩
  listBound := ⟨fun _ hs => hs, fun _ _ _ _ _ => trivial⟩
  advance := ⟨hI.advance, fun _ _ _ _ _ => trivial⟩
  note _ := ⟨fun s hs => hI.checks s _ hs, fun _ _ _ _ _ => trivial⟩

theorem name : Keeps I Parser.name := (composes hI).name.1

theorem key : Keeps I Parser.key := (composes hI).key.1

theorem field {rule : Parser Node} (hrule : Keeps I rule) : Keeps I (Parser.field rule) :=
  ((composes hI).field ⟨hrule, fun _ _ _ _ _ => trivial⟩).1

theorem value (levels : Nat) : Keeps I (Parser.value levels) := ((composes hI).value levels).1

theorem resource (maxDepth : Nat) (name : String) : Keeps I (Parser.resource maxDepth name) :=
  ((composes hI).resource maxDepth name).1

theorem resolveAll (definitions : Definitions) (positions : Entries Position) (maxDepth : Nat) :
    Keeps I (Parser.resolveAll definitions positions maxDepth) := by
  have hC := composes hI
  have hget : Keeps I (get : Parser State) := fun _ hs => hs
  have hforget : Keeps I (modify fun s => { s with checks := [] } : Parser Unit) := fun s hs => hI.checks s [] hs
  refine (hC.andThen (R := fun _ => True) ⟨hget, fun _ _ _ _ _ => trivial⟩ fun s => ?_).1
  refine hC.andThen ⟨hforget, fun _ _ _ _ _ => trivial⟩ fun _ => ?_
  cases resolve definitions positions maxDepth s.checks with
  | ok _ => exact hC.done ()
  | error e => exact ⟨fun _ hs => hs, fun _ _ _ _ _ => trivial⟩

/-- A call that reads a schema keeps what is steady. -/
theorem schema (maxDepth : Nat) : Keeps I (Parser.schema maxDepth) :=
  ((composes hI).schema fun _ _ _ => ⟨resolveAll hI _ _ _, fun _ _ _ _ _ => trivial⟩).1

/-- A call that reads a suite keeps what is steady. -/
theorem suite (maxDepth : Nat) : Keeps I (Parser.suite maxDepth) :=
  ((composes hI).suite fun _ _ _ => ⟨resolveAll hI _ _ _, fun _ _ _ _ _ => trivial⟩).1

end Keeps

/-! ## Proper states -/

/-- Going on to a token leads to a proper state, also from before the first token. -/
theorem proper_of_advance {s t : State} {u : Unit} (hne : s.rest ≠ [])
    (hlexical : ∀ l ∈ s.rest, ∀ x, l.result = .ok x → x.2.Lexical) (hends : EndsOnce s.rest)
    (h : advance s = .ok u t) : t.Proper := by
  obtain ⟨current, position, lexemes, checks⟩ := s
  cases lexemes with
  | nil => exact absurd rfl hne
  | cons l rest =>
    obtain ⟨result, next⟩ := l
    cases result with
    | error e => cases h
    | ok found =>
      cases h
      obtain ⟨place, token⟩ := found
      refine ⟨hlexical _ List.mem_cons_self _ rfl,
        fun m hm => hlexical m (List.mem_cons_of_mem _ hm), ?_, ?_⟩
      · rcases hends.of_cons with ⟨hnil, hend⟩ | ⟨hne, hend, -⟩
        · refine iff_of_true hnil ?_
          cases token <;> first | rfl | cases hend
        · refine iff_of_false hne ?_
          rintro rfl
          cases hend
      · intro hne
        exact (hends.of_cons.resolve_left fun h => hne h.1).2.2

theorem State.Proper.advance {s : State} (h : s.Proper) : (Parser.advance.after s).Proper := by
  by_cases hnil : s.rest = []
  · obtain ⟨current, position, lexemes, checks⟩ := s
    cases hnil
    exact h
  · have hends := h.rest_ends hnil
    unfold after
    cases hadvance : Parser.advance s with
    | ok u t => exact proper_of_advance hnil h.rest_lexical hends hadvance
    | error e t =>
      obtain ⟨current, position, lexemes, checks⟩ := s
      cases lexemes with
      | nil => exact absurd rfl hnil
      | cons l rest =>
        obtain ⟨result, next⟩ := l
        cases result with
        | ok found => cases hadvance
        | error e =>
          cases hadvance
          -- the end of the text is no fault, so something follows
          rcases hends.of_cons with ⟨-, hend⟩ | ⟨hne, -, hends⟩
          · cases hend
          · exact ⟨h.lexical, fun m hm => h.rest_lexical m (List.mem_cons_of_mem _ hm),
              iff_of_false hne fun hend => hnil (h.ended.2 hend), fun _ => hends⟩

theorem steady_proper : Steady State.Proper :=
  ⟨fun _ hs => hs.advance, fun _ _ hs => ⟨hs.lexical, hs.rest_lexical, hs.ended, hs.rest_ends⟩⟩

/-- Wherever a proper state goes on to the next token, it leaves the current one. -/
theorem advance_ok {s t : State} {u : Unit} (hs : s.Proper) (hcurrent : s.current ≠ .endOfInput)
    (h : advance s = .ok u t) : s.tokens = s.current :: t.tokens ∧ t.checks = s.checks := by
  obtain ⟨current, position, lexemes, checks⟩ := s
  cases lexemes with
  | nil => exact absurd (hs.ended.1 rfl) hcurrent
  | cons l rest =>
    obtain ⟨result, next⟩ := l
    cases result with
    | error e => cases h
    | ok found =>
      cases h
      exact ⟨rfl, rfl⟩

/-! ## Calls on one text -/

theorem start_ok {text : String} {s : State} (h : start text = .ok s) :
    advance ⟨.endOfInput, {}, lexemes text.toList, []⟩ = .ok () s := by
  unfold start at h
  split at h
  · rename_i heq
    cases h
    exact heq
  · cases h

theorem start_proper {text : String} {s : State} (h : start text = .ok s) : s.Proper := by
  have hends := lexemes_end text.toList
  refine proper_of_advance ?_ (fun _ hl _ h => lexical_of_mem_lexemes hl h) hends (start_ok h)
  obtain ⟨before, last, heq, -⟩ := hends
  change lexemes text.toList ≠ []
  rw [heq]
  exact List.append_ne_nil_of_right_ne_nil _ (List.cons_ne_nil _ _)

theorem start_checks {text : String} {s : State} (h : start text = .ok s) : s.checks = [] := by
  have hadvance := start_ok h
  cases hlexemes : lexemes text.toList with
  | nil =>
    rw [hlexemes] at hadvance
    cases hadvance
    rfl
  | cons l rest =>
    obtain ⟨result, next⟩ := l
    rw [hlexemes] at hadvance
    cases result with
    | error e => cases hadvance
    | ok found =>
      cases hadvance
      rfl

/-- The states after any number of calls that read a schema or a suite from one text, each with so many
levels at most as it was asked for, and whether they succeeded or not. -/
inductive Reachable (text : String) : State → Prop where
  | start {s : State} : Parser.start text = .ok s → Reachable text s
  | schema {s : State} (maxDepth : Nat) : Reachable text s →
    Reachable text ((Parser.schema maxDepth).after s)
  | suite {s : State} (maxDepth : Nat) : Reachable text s →
    Reachable text ((Parser.suite maxDepth).after s)

theorem Reachable.proper {text : String} {s : State} (h : Reachable text s) : s.Proper := by
  induction h with
  | start h => exact start_proper h
  | schema maxDepth _ ih => exact Keeps.schema steady_proper maxDepth _ ih
  | suite maxDepth _ ih => exact Keeps.suite steady_proper maxDepth _ ih

/-- A text without faults is there from its first token on, with nothing noted down. -/
theorem start_of_lexed {text : String} {tokens : List Token} (h : Lexed text tokens) :
    ∃ s, start text = .ok s ∧ s.tokens = tokens ∧ s.checks = [] := by
  obtain ⟨before, last, heq, hlast, -⟩ := lexemes_end text.toList
  cases tokens with
  | nil =>
    unfold Lexed at h
    rw [heq] at h
    simp at h
  | cons t tokens =>
    have htokens : State.tokens ⟨.endOfInput, {}, lexemes text.toList, []⟩ =
        .endOfInput :: t :: tokens :=
      congrArg (List.cons Token.endOfInput) (readable_of_map_eq h)
    obtain ⟨s, hs, htokens, hchecks⟩ := advance_of_tokens htokens
    refine ⟨s, ?_, htokens, hchecks⟩
    unfold start
    rw [hs]

end Parser

end Conformance
