import Conformance.Proofs.Located
import Conformance.Proofs.Resolution

/-!
# Checks left over from earlier calls

A call that fails before it comes to its checks leaves behind the checks that it noted down, and the next call on the
same text carries them out with its own. Nothing else is left over: how far a call reads, what it reads and where it
fails on the way depend on the current token and the rest of the text only.

* `Parser.State.fresh` — a state without the checks of earlier calls.
* `Parser.Blind` — a rule does not look at checks noted down before; `Parser.Blind.composes`.
* `Parser.Call` — a call, by what it reads and what it takes from that; `Parser.Call.run_of_error` and
  `Parser.Call.run_of_ok` say what it gives in any state.
* `Parser.Carries` — how a call with checks left over goes, beside the same call without any.
* `Parser.LeftBy` — what some calls leave over; `Parser.mem_checks_afterAll` is by the last of them.
* `Parser.calls_carry` — every call after any others.
-/

set_option autoImplicit false

namespace Conformance

namespace Parser

variable {α β : Type}

/-! ## Rules do not look back -/

/-- The state with the same current token and the same rest of the text, and nothing left over from earlier calls. -/
def State.fresh (s : State) : State := { s with checks := [] }

/-- The state with other checks noted down before its own. -/
def State.behind (left : List Check) (s : State) : State := { s with checks := left ++ s.checks }

theorem State.fresh_behind (s : State) : s.fresh.behind s.checks = s := by
  simp [fresh, behind]

/-- The outcome with other checks noted down before those of its state. -/
def outcomeBehind (left : List Check) : EStateM.Result ParseError State α → EStateM.Result ParseError State α
  | .ok a t => .ok a (t.behind left)
  | .error e t => .error e (t.behind left)

/-- The rule does the same whatever checks are noted down already, and keeps them before those that it notes down. -/
def Blind (p : Parser α) : Prop := ∀ left s, p (s.behind left) = outcomeBehind left (p s)

theorem advance_blind : Blind advance := by
  intro left s
  obtain ⟨current, position, lexemes, checks⟩ := s
  cases lexemes with
  | nil => rfl
  | cons l rest =>
    obtain ⟨result, next⟩ := l
    cases result <;> rfl

theorem note_blind (check : Check) : Blind (note check) := by
  intro left s
  change EStateM.Result.ok () _ = EStateM.Result.ok () _
  congr 1
  simp only [State.behind, List.append_assoc]

/-- No step looks at the checks, so steps one after the other do not. -/
theorem Blind.composes : Composes (fun _ => True) fun _ p Q => Blind p ∧ ∀ s a t, p s = .ok a t → Q a where
  pure a ha := by
    refine ⟨fun _ _ => rfl, fun s b t h => ?_⟩
    cases h
    exact ha
  bind {_ _ p f _ _} hp hf := by
    constructor
    · intro left s
      have hfirst := hp.1 left s
      cases h : p s with
      | ok a t =>
        rw [h] at hfirst
        rw [bind_of_ok h, bind_of_ok hfirst]
        exact (hf a (hp.2 s a t h)).1 left t
      | error e t =>
        rw [h] at hfirst
        rw [bind_of_error h, bind_of_error hfirst]
        rfl
    · intro s b u h
      obtain ⟨a, t, ha, hb⟩ := bind_ok h
      exact (hf a (hp.2 s a t ha)).2 t b u hb
  failAt _ _ _ := ⟨fun _ _ => rfl, fun _ _ _ h => by cases h⟩
  current := ⟨fun _ _ => rfl, fun _ _ _ _ => trivial⟩
  position := ⟨fun _ _ => rfl, fun _ _ _ _ => trivial⟩
  listBound := ⟨fun _ _ => rfl, fun _ _ _ _ => trivial⟩
  advance := ⟨advance_blind, fun _ _ _ _ => trivial⟩
  note _ := ⟨note_blind _, fun _ _ _ _ => trivial⟩

theorem schemaPass_blind (maxDepth : Nat) : Blind (schemaPass maxDepth) := by
  have hC := Blind.composes
  refine (hC.andThen (R := fun _ => True) (hC.value maxDepth) fun node => hC.andThen hC.current fun token => ?_).1
  split
  · exact hC.done _
  · exact hC.fail _ _

theorem suitePass_blind (maxDepth : Nat) : Blind (suitePass maxDepth) := by
  have hC := Blind.composes
  exact (hC.bind hC.listBound fun bound _ => hC.declarations (d := {}) maxDepth bound (List.forall_mem_nil _)).1

/-! ## Calls -/

/-- A call of the reader: what it reads, and what it takes from that for its checks and for its result. -/
structure Call (α β : Type) where
  pass : Parser α
  definitions : α → Definitions
  positions : α → Entries Position
  result : α → β

/-- The call reads, carries out all checks that are noted down, and gives its result. -/
def Call.run (c : Call α β) (maxDepth : Nat) : Parser β := do
  let a ← c.pass
  resolveAll (c.definitions a) (c.positions a) maxDepth
  return c.result a

/-- The call that reads a schema. -/
def Call.schema (maxDepth : Nat) : Call Node Schema where
  pass := schemaPass maxDepth
  definitions _ := []
  positions _ := []
  result node := { node := node }

/-- The call that reads a suite. -/
def Call.suite (maxDepth : Nat) : Call Declarations Suite where
  pass := suitePass maxDepth
  definitions := Declarations.definitions
  positions := Declarations.positions
  result d := { resources := d.resources, definitions := d.definitions }

theorem Call.schema_run (maxDepth : Nat) : (Call.schema maxDepth).run maxDepth = Parser.schema maxDepth :=
  (schema_eq maxDepth).symm

theorem Call.suite_run (maxDepth : Nat) : (Call.suite maxDepth).run maxDepth = Parser.suite maxDepth :=
  (suite_eq maxDepth).symm

/-- What a rule gives in a state, without the state that it leaves. -/
def gives (p : Parser α) (s : State) : Except ParseError α :=
  match p s with
  | .ok a _ => .ok a
  | .error e _ => .error e

namespace Call

variable {c : Call α β} {maxDepth : Nat} {s t : State}

/-- Where nothing is left over and reading fails, the call fails with the same error for any checks left over, which
it leaves before those that it noted down. -/
theorem run_of_error {e : ParseError} (hblind : Blind c.pass) (h : c.pass s.fresh = .error e t) :
    c.run maxDepth s = .error e (t.behind s.checks) := by
  have hpass := hblind s.checks s.fresh
  rw [s.fresh_behind, h] at hpass
  exact bind_of_error hpass

/-- Where nothing is left over and the call comes to its checks, it does so for any checks left over, which it carries
out before those that it noted down. -/
theorem run_of_ok {a : α} (hblind : Blind c.pass) (h : c.pass s.fresh = .ok a t) :
    c.run maxDepth s = match resolve (c.definitions a) (c.positions a) maxDepth (s.checks ++ t.checks) with
      | .ok _ => .ok (c.result a) t.fresh
      | .error e => .error e t.fresh := by
  have hpass := hblind s.checks s.fresh
  rw [s.fresh_behind, h] at hpass
  have hresolve : resolveAll (c.definitions a) (c.positions a) maxDepth (t.behind s.checks) =
      match resolve (c.definitions a) (c.positions a) maxDepth (s.checks ++ t.checks) with
        | .ok _ => .ok () t.fresh
        | .error e => .error e t.fresh :=
    resolveAll_eq _ _ _ _
  rw [run, bind_of_ok hpass]
  cases hchecks : resolve (c.definitions a) (c.positions a) maxDepth (s.checks ++ t.checks) with
  | ok _ =>
    rw [hchecks] at hresolve
    exact bind_of_ok hresolve
  | error e =>
    rw [hchecks] at hresolve
    exact bind_of_error hresolve

theorem gives_of_ok {a : α} (hblind : Blind c.pass) (h : c.pass s.fresh = .ok a t) :
    gives (c.run maxDepth) s =
      (resolve (c.definitions a) (c.positions a) maxDepth (s.checks ++ t.checks)).map fun _ => c.result a := by
  rw [gives, run_of_ok hblind h]
  cases resolve (c.definitions a) (c.positions a) maxDepth (s.checks ++ t.checks) <;> rfl

/-- The checks that the call notes down with nothing left over before it, if it fails before it comes to its checks. -/
def noted (c : Call α β) (s : State) : Option (List Check) :=
  match c.pass s.fresh with
  | .ok _ _ => none
  | .error _ t => some t.checks

/-- A call that comes to its checks leaves nothing over, and any other adds those that it noted down. -/
theorem checks_after (hblind : Blind c.pass) :
    ((c.run maxDepth).after s).checks =
      match c.noted s with
      | some own => s.checks ++ own
      | none => [] := by
  unfold noted
  cases hpass : c.pass s.fresh with
  | error e t =>
    rw [after, run_of_error hblind hpass]
    rfl
  | ok a t =>
    rw [after, run_of_ok hblind hpass]
    cases resolve (c.definitions a) (c.positions a) maxDepth (s.checks ++ t.checks) <;> rfl

end Call

end Parser

/-! ## Checks that pass -/

/-- The check is not about a name without definition, and carrying it out finds no fault. -/
def Check.Clears (definitions : Definitions) (maxDepth : Nat) (check : Check) : Prop :=
  check.undefinedName? definitions = none ∧ check.run definitions maxDepth = .ok ()

section Checks

variable {definitions : Definitions} {positions : Entries Position} {maxDepth : Nat} {left own : List Check}

/-- Checks that pass by themselves change nothing about what is carried out after them. -/
theorem resolve_append_of_clears (h : ∀ check ∈ left, check.Clears definitions maxDepth) :
    resolve definitions positions maxDepth (left ++ own) = resolve definitions positions maxDepth own := by
  have hnames : checkNames definitions (left ++ own) = checkNames definitions own := by
    have hnone : left.filterMap (Check.undefinedName? definitions) = [] :=
      List.filterMap_eq_nil_iff.2 fun check hcheck => (h check hcheck).1
    unfold checkNames
    rw [List.filterMap_append, hnone, List.nil_append]
  have hruns : (left ++ own).forM (Check.run definitions maxDepth) = own.forM (Check.run definitions maxDepth) := by
    have hleft : left.forM (Check.run definitions maxDepth) = .ok () :=
      forM_ok_iff.2 fun check hcheck => (h check hcheck).2
    calc (left ++ own).forM (Check.run definitions maxDepth)
      _ = (do left.forM (Check.run definitions maxDepth); own.forM (Check.run definitions maxDepth)) :=
        List.forM_append
      _ = own.forM (Check.run definitions maxDepth) := by rw [hleft]; rfl
  unfold resolve
  rw [hnames, hruns]

/-- Checks are passed together just if some of them are, and the others pass by themselves. -/
theorem resolve_append_ok_iff :
    resolve definitions positions maxDepth (left ++ own) = .ok () ↔
      (∀ check ∈ left, check.Clears definitions maxDepth) ∧
        resolve definitions positions maxDepth own = .ok () := by
  rw [resolve_ok_iff_runs, resolve_ok_iff_runs, List.forall_mem_append, and_assoc]
  exact Iff.rfl

end Checks

namespace Parser

variable {α β : Type}

/-! ## Calls after other calls -/

/-- How a call goes with checks left over, beside the same call at the same place with none. -/
structure Carries (call : Parser β) (c : Call α β) (maxDepth : Nat) (s : State) : Prop where
  /-- Both come to the same token, with the same left of the text. -/
  place : (call.after s).fresh = (call.after s.fresh).fresh
  /-- Where reading fails, both fail with the same error, and all that was noted down is left over. -/
  early : ∀ e t, c.pass s.fresh = .error e t →
    gives call s = .error e ∧ gives call s.fresh = .error e ∧ (call.after s).checks = s.checks ++ t.checks
  /-- Where the call comes to its checks, nothing is left over any more. Both give the same just if the checks left
  over make no difference to what carrying out those of the call gives. -/
  late : ∀ a t, c.pass s.fresh = .ok a t → (call.after s).checks = [] ∧ (gives call s = gives call s.fresh ↔
    resolve (c.definitions a) (c.positions a) maxDepth (s.checks ++ t.checks) =
      resolve (c.definitions a) (c.positions a) maxDepth t.checks)
  /-- Checks left over that pass with the definitions of this call make no difference. -/
  cleared : ∀ a t, c.pass s.fresh = .ok a t →
    (∀ check ∈ s.checks, check.Clears (c.definitions a) maxDepth) → gives call s = gives call s.fresh
  /-- What would succeed does so just if all checks left over pass with the definitions of this call. -/
  accepted : ∀ a t b, c.pass s.fresh = .ok a t → gives call s.fresh = .ok b →
    (gives call s = .ok b ↔ ∀ check ∈ s.checks, check.Clears (c.definitions a) maxDepth)
  /-- What would fail does so. -/
  rejected : ∀ e, gives call s.fresh = .error e → ∃ e', gives call s = .error e'

/-- **How a call goes with checks left over**, if what it reads does not depend on them. -/
theorem Call.carries (c : Call α β) (hblind : Blind c.pass) (maxDepth : Nat) (s : State) :
    Carries (c.run maxDepth) c maxDepth s := by
  have hfresh : ∀ {a t}, c.pass s.fresh = .ok a t → gives (c.run maxDepth) s.fresh =
      (resolve (c.definitions a) (c.positions a) maxDepth t.checks).map fun _ => c.result a :=
    fun hpass => gives_of_ok (s := s.fresh) hblind hpass
  have hinjective : ∀ {b : β} {r s : Except ParseError Unit}, (r.map fun _ => b) = (s.map fun _ => b) ↔ r = s := by
    intro b r s
    refine ⟨fun h => ?_, congrArg _⟩
    cases r <;> cases s <;> cases h <;> rfl
  constructor
  case place =>
    unfold after
    cases hpass : c.pass s.fresh with
    | error e t =>
      rw [run_of_error hblind hpass, run_of_error (s := s.fresh) hblind hpass]
      rfl
    | ok a t =>
      rw [run_of_ok hblind hpass, run_of_ok (s := s.fresh) hblind hpass]
      cases resolve (c.definitions a) (c.positions a) maxDepth (s.checks ++ t.checks) <;>
        cases resolve (c.definitions a) (c.positions a) maxDepth (s.fresh.checks ++ t.checks) <;>
        rfl
  case early =>
    intro e t hpass
    rw [gives, gives, after, run_of_error hblind hpass, run_of_error (s := s.fresh) hblind hpass]
    exact ⟨rfl, rfl, rfl⟩
  case late =>
    intro a t hpass
    constructor
    · rw [after, run_of_ok hblind hpass]
      cases resolve (c.definitions a) (c.positions a) maxDepth (s.checks ++ t.checks) <;> rfl
    · rw [gives_of_ok hblind hpass, hfresh hpass]
      exact hinjective
  case cleared =>
    intro a t hpass hclears
    rw [gives_of_ok hblind hpass, hfresh hpass, resolve_append_of_clears hclears]
  case accepted =>
    intro a t b hpass hok
    rw [hfresh hpass] at hok
    rw [gives_of_ok hblind hpass]
    cases hown : resolve (c.definitions a) (c.positions a) maxDepth t.checks with
    | error e =>
      rw [hown] at hok
      cases hok
    | ok u =>
      rw [hown] at hok
      cases hok
      have hall : resolve (c.definitions a) (c.positions a) maxDepth (s.checks ++ t.checks) = .ok () ↔
          ∀ check ∈ s.checks, check.Clears (c.definitions a) maxDepth := by
        rw [resolve_append_ok_iff]
        exact and_iff_left hown
      rw [← hall]
      exact hinjective (b := c.result a) (r := resolve _ _ maxDepth (s.checks ++ t.checks)) (s := .ok ())
  case rejected =>
    intro e herror
    cases hpass : c.pass s.fresh with
    | error e' t =>
      rw [gives, run_of_error hblind hpass]
      exact ⟨e', rfl⟩
    | ok a t =>
      rw [hfresh hpass] at herror
      rw [gives_of_ok hblind hpass]
      cases hall : resolve (c.definitions a) (c.positions a) maxDepth (s.checks ++ t.checks) with
      | error e' => exact ⟨e', rfl⟩
      | ok u =>
        rw [(resolve_append_ok_iff.1 hall).2] at herror
        cases herror

/-! ## Any number of calls -/

/-- One call on a text, with the limit that it is asked for. -/
inductive Turn where
  | schema (maxDepth : Nat)
  | suite (maxDepth : Nat)

namespace Turn

/-- The state that the call leaves behind. -/
def after : Turn → State → State
  | .schema maxDepth => (Parser.schema maxDepth).after
  | .suite maxDepth => (Parser.suite maxDepth).after

/-- The checks that the call notes down, if it fails before it comes to its checks. -/
def noted : Turn → State → Option (List Check)
  | .schema maxDepth => (Call.schema maxDepth).noted
  | .suite maxDepth => (Call.suite maxDepth).noted

theorem checks_after (turn : Turn) (s : State) :
    (turn.after s).checks =
      match turn.noted s with
      | some own => s.checks ++ own
      | none => [] := by
  cases turn with
  | schema maxDepth =>
    rw [after, ← Call.schema_run]
    exact Call.checks_after (schemaPass_blind maxDepth)
  | suite maxDepth =>
    rw [after, ← Call.suite_run]
    exact Call.checks_after (suitePass_blind maxDepth)

end Turn

/-- The state after some calls, one after the other. -/
def afterAll (s : State) (turns : List Turn) : State := turns.foldl (fun s turn => turn.after s) s

/-- A check is left over by some calls: one of them noted it down and failed before it came to its checks, and so did
all those after it. -/
inductive LeftBy (s : State) : List Turn → Check → Prop where
  | noted {turns : List Turn} {turn : Turn} {own : List Check} {check : Check} :
    turn.noted (afterAll s turns) = some own → check ∈ own → LeftBy s (turns ++ [turn]) check
  | kept {turns : List Turn} {turn : Turn} {own : List Check} {check : Check} :
    LeftBy s turns check → turn.noted (afterAll s turns) = some own → LeftBy s (turns ++ [turn]) check

theorem LeftBy.of_concat {s : State} {turns : List Turn} {turn : Turn} {check : Check}
    (h : LeftBy s (turns ++ [turn]) check) :
    ∃ own, turn.noted (afterAll s turns) = some own ∧ (LeftBy s turns check ∨ check ∈ own) := by
  generalize hall : turns ++ [turn] = all at h
  cases h with
  | noted hnoted hmem =>
    obtain ⟨rfl, hturn⟩ := List.append_inj' hall rfl
    cases hturn
    exact ⟨_, hnoted, .inr hmem⟩
  | kept hleft hnoted =>
    obtain ⟨rfl, hturn⟩ := List.append_inj' hall rfl
    cases hturn
    exact ⟨_, hnoted, .inl hleft⟩

/-- **What is left over by calls**, where nothing was before them. -/
theorem mem_checks_afterAll {s : State} (hs : s.checks = []) (turns : List Turn) (check : Check) :
    check ∈ (afterAll s turns).checks ↔ LeftBy s turns check := by
  -- by the last call, which leaves what was left over before it, or nothing
  induction turns using List.reverseRecOn generalizing check with
  | nil =>
    refine iff_of_false (by simp [afterAll, hs]) fun h => ?_
    generalize hnil : [] = turns at h
    cases h <;> exact absurd hnil (by simp)
  | append_singleton turns turn ih =>
    have hlast : afterAll s (turns ++ [turn]) = turn.after (afterAll s turns) := by
      rw [afterAll, List.foldl_append]
      rfl
    rw [hlast, Turn.checks_after]
    cases hnoted : turn.noted (afterAll s turns) with
    | none =>
      refine iff_of_false List.not_mem_nil fun h => ?_
      obtain ⟨own, hown, -⟩ := h.of_concat
      rw [hnoted] at hown
      cases hown
    | some own =>
      rw [List.mem_append, ih]
      constructor
      · rintro (hleft | hmem)
        · exact .kept hleft hnoted
        · exact .noted hnoted hmem
      · intro h
        obtain ⟨own', hown, h⟩ := h.of_concat
        rw [hnoted] at hown
        cases hown
        exact h

/-- **What a call gives after any other calls on the same text.** How far it reads, and where and how reading fails,
is the same as with nothing left over. Only where it comes to its checks it carries out those left over as well, which
are just those noted down by calls that failed before they came to theirs, since the last one that came to them. Then
it gives the same just if these make no difference, and what would succeed does so just if all of them pass with the
definitions of this call. -/
theorem calls_carry {text : String} {s : State} (hs : start text = .ok s) (turns : List Turn) (maxDepth : Nat) :
    Carries (Parser.schema maxDepth) (Call.schema maxDepth) maxDepth (afterAll s turns) ∧
    Carries (Parser.suite maxDepth) (Call.suite maxDepth) maxDepth (afterAll s turns) ∧
    ∀ check, check ∈ (afterAll s turns).checks ↔ LeftBy s turns check := by
  have hschema := (Call.schema maxDepth).carries (schemaPass_blind maxDepth) maxDepth (afterAll s turns)
  have hsuite := (Call.suite maxDepth).carries (suitePass_blind maxDepth) maxDepth (afterAll s turns)
  rw [Call.schema_run] at hschema
  rw [Call.suite_run] at hsuite
  exact ⟨hschema, hsuite, mem_checks_afterAll (start_checks hs) turns⟩

/-- The beginning of a text with a name and a type behind it. -/
def beforeName : State where
  current := .symbol .ampersand
  position := ⟨⟨1, 1, 0⟩, 0, 1⟩
  rest := [
    ⟨.ok (⟨⟨1, 2, 1⟩, 1, 2⟩, .name "a"), ⟨⟨1, 3, 2⟩, [' ', 'i', 'n', 't']⟩⟩,
    ⟨.ok (⟨⟨1, 4, 3⟩, 3, 6⟩, .keyword .int), ⟨⟨1, 7, 6⟩, []⟩⟩,
    ⟨.ok (⟨⟨1, 7, 6⟩, 0, 0⟩, .endOfInput), ⟨⟨1, 7, 6⟩, []⟩⟩]
  checks := []

theorem start_beforeName : start "&a int" = .ok beforeName := rfl

/-- A call fails behind the name. That is left over and makes a difference to the next call, which would succeed
without it. -/
theorem calls_carry_name :
    let s := afterAll beforeName [.schema defaultMaxDepth]
    start "&a int" = .ok beforeName ∧ LeftBy beforeName [.schema defaultMaxDepth] (.reference "a" ⟨⟨1, 1, 0⟩, 0, 1⟩) ∧
      gives (Parser.schema defaultMaxDepth) s.fresh = .ok { node := .primitive .integer } ∧
      gives (Parser.schema defaultMaxDepth) s ≠ .ok { node := .primitive .integer } := by
  intro s
  obtain ⟨hschema, -, hleft⟩ := calls_carry start_beforeName [.schema defaultMaxDepth] defaultMaxDepth
  have hmem : .reference "a" ⟨⟨1, 1, 0⟩, 0, 1⟩ ∈ s.checks := List.mem_singleton.2 rfl
  refine ⟨start_beforeName, (hleft _).1 hmem, rfl, fun hok => ?_⟩
  have hclears := (hschema.accepted (.primitive .integer) _ _ rfl rfl).1 hok _ hmem
  cases hclears.1

/-- After a call has failed behind a name without definition, the next call reads the type that follows, but finds
fault with that name. -/
theorem schema_after_name :
    let s := (Parser.schema defaultMaxDepth).after beforeName
    start "&a int" = .ok beforeName ∧
      gives (Parser.schema defaultMaxDepth) s.fresh = .ok { node := .primitive .integer } ∧
      gives (Parser.schema defaultMaxDepth) s =
        .error (.structural .undefinedNames (some "a") ⟨⟨1, 1, 0⟩, 0, 1⟩) :=
  ⟨start_beforeName, rfl, rfl⟩

end Parser

end Conformance
