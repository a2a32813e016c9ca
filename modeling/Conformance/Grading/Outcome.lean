/-!
# Outcomes

The grade of a comparison, from worst to best. Grades of parts combine with `Outcome.join`: the worst
absorbs, the best is neutral, and two different grades between them give `mixed`.
-/

set_option autoImplicit false

namespace Conformance

inductive Outcome where
  /-- The value cannot be made to conform. -/
  | incompatible
  /-- Adjustments of more than one of the next three sorts were needed. -/
  | mixed
  /-- The value held data that is not declared, which was dropped. -/
  | additional
  /-- Missing data was filled in. -/
  | defaulted
  /-- Scalars were converted without loss. -/
  | converted
  /-- The value conforms as it is. -/
  | matched
  deriving DecidableEq, Repr

namespace Outcome

/-- The place in the order from worst to best. -/
def rank : Outcome → Nat
  | .incompatible => 0
  | .mixed => 1
  | .additional => 2
  | .defaulted => 3
  | .converted => 4
  | .matched => 5

instance : LE Outcome := ⟨fun a b => a.rank ≤ b.rank⟩

instance : LT Outcome := ⟨fun a b => a.rank < b.rank⟩

instance (a b : Outcome) : Decidable (a ≤ b) := inferInstanceAs (Decidable (a.rank ≤ b.rank))

instance (a b : Outcome) : Decidable (a < b) := inferInstanceAs (Decidable (a.rank < b.rank))

def name : Outcome → String
  | .incompatible => "incompatible"
  | .mixed => "mixed"
  | .additional => "additional"
  | .defaulted => "defaulted"
  | .converted => "converted"
  | .matched => "matched"

/-- Every outcome, from worst to best. -/
def all : List Outcome := [.incompatible, .mixed, .additional, .defaulted, .converted, .matched]

/-- The grade of two parts together. -/
def join (a b : Outcome) : Outcome :=
  if a = .incompatible ∨ b = .incompatible then .incompatible
  else if a = .matched then b
  else if b = .matched ∨ a = b then a
  else .mixed

/-- The grade of any number of parts together. -/
def joinAll (outcomes : List Outcome) : Outcome := outcomes.foldl join .matched

/-- The value can be used after conversion. -/
def isValid (o : Outcome) : Bool := o != .incompatible

/-- The value conforms as it is or by conversions only. -/
def isMatch (o : Outcome) : Bool := decide (.converted ≤ o)

/-- The best of a list of outcomes. -/
def best? (outcomes : List Outcome) : Option Outcome :=
  all.reverse.find? outcomes.contains

/-- The worst of a list of outcomes. -/
def worst? (outcomes : List Outcome) : Option Outcome :=
  all.find? outcomes.contains

theorem join_comm (a b : Outcome) : a.join b = b.join a := by
  cases a <;> cases b <;> rfl

theorem join_assoc (a b c : Outcome) : (a.join b).join c = a.join (b.join c) := by
  cases a <;> cases b <;> cases c <;> rfl

@[simp] theorem matched_join (a : Outcome) : Outcome.matched.join a = a := by
  cases a <;> rfl

@[simp] theorem join_matched (a : Outcome) : a.join .matched = a := by
  cases a <;> rfl

theorem join_eq_incompatible {a b : Outcome} :
    a.join b = .incompatible ↔ a = .incompatible ∨ b = .incompatible := by
  cases a <;> cases b <;> decide

theorem join_ne_incompatible {a b : Outcome} :
    a.join b ≠ .incompatible ↔ a ≠ .incompatible ∧ b ≠ .incompatible := by
  rw [ne_eq, join_eq_incompatible, not_or]

theorem join_eq_matched {a b : Outcome} : a.join b = .matched ↔ a = .matched ∧ b = .matched := by
  cases a <;> cases b <;> decide

theorem join_self (a : Outcome) : a.join a = a := by
  cases a <;> rfl

/-- A grade that cannot come about by mixing others is the grade of each part that is not matched. -/
theorem join_eq_unmixed {a b p : Outcome} (hi : p ≠ .incompatible) (hm : p ≠ .mixed)
    (h : a.join b = p) : (a = p ∨ a = .matched) ∧ (b = p ∨ b = .matched) := by
  revert hi hm h
  cases a <;> cases b <;> cases p <;> decide

@[simp] theorem joinAll_nil : joinAll [] = .matched := rfl

theorem foldl_join (a : Outcome) (os : List Outcome) : os.foldl join a = a.join (joinAll os) := by
  induction os generalizing a with
  | nil => simp
  | cons o os ih =>
    rw [joinAll, List.foldl_cons, List.foldl_cons, ih, ih (matched.join o), matched_join, join_assoc]

@[simp] theorem joinAll_cons (o : Outcome) (os : List Outcome) :
    joinAll (o :: os) = o.join (joinAll os) := by
  rw [joinAll, List.foldl_cons, matched_join, foldl_join]

@[simp] theorem joinAll_append (os ps : List Outcome) :
    joinAll (os ++ ps) = (joinAll os).join (joinAll ps) := by
  induction os with
  | nil => simp
  | cons o os ih => simp [ih, join_assoc]

theorem joinAll_eq_incompatible {os : List Outcome} :
    joinAll os = .incompatible ↔ .incompatible ∈ os := by
  induction os with
  | nil => simp
  | cons o os ih =>
    rw [joinAll_cons, join_eq_incompatible, ih, List.mem_cons, @eq_comm _ incompatible o]

theorem joinAll_eq_matched {os : List Outcome} :
    joinAll os = .matched ↔ ∀ o ∈ os, o = .matched := by
  induction os with
  | nil => simp
  | cons o os ih => simp [join_eq_matched, ih]

theorem joinAll_of_forall_eq {os : List Outcome} {p : Outcome} (hne : os ≠ [])
    (h : ∀ o ∈ os, o = p) : joinAll os = p := by
  induction os with
  | nil => exact absurd rfl hne
  | cons o os ih =>
    obtain rfl := h o List.mem_cons_self
    cases os with
    | nil => simp
    | cons q os =>
      rw [joinAll_cons, ih (by simp) fun x hx => h x (List.mem_cons_of_mem _ hx), join_self]

theorem eq_or_matched_of_joinAll_eq {os : List Outcome} {p : Outcome} (hi : p ≠ .incompatible)
    (hm : p ≠ .mixed) (h : joinAll os = p) : ∀ o ∈ os, o = p ∨ o = .matched := by
  induction os generalizing p with
  | nil => simp
  | cons o os ih =>
    rw [joinAll_cons] at h
    obtain ⟨ho, hos⟩ := join_eq_unmixed hi hm h
    intro q hq
    rcases List.mem_cons.1 hq with rfl | hq
    · exact ho
    · rcases hos with hos | hos
      · exact ih hi hm hos q hq
      · exact .inr (joinAll_eq_matched.1 hos q hq)

end Outcome

end Conformance
