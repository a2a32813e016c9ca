import Conformance.Proofs.Occurrence
import Conformance.Syntax.Resolution
import Mathlib.Data.Finset.Card
import Mathlib.Logic.Relation

/-!
# The search for cycles

Whether a chain of bare names leads from a name back to it is decided by a search with a list of pending names and the
names already seen. It comes to an end on every set of definitions, in whatever order names become pending, and then
it has found the goal just where such a chain is there.

* `pairwise_idxOf_eraseDups` — where equal names are left out, the first of them stays, and the order is kept.
* `Definitions.Bare` — a name stands for another by its bare name.
* `Definitions.Search.Step`, `Definitions.Search.Ends` — one step of the search without a bound, and its end.
* `Definitions.Search.Step.left_lt` — each step leaves less to be done; `Definitions.Search.wellFounded_step`.
* `Definitions.Search.Explores` — what each step keeps up; `Definitions.Search.Ends.iff` — what is known at the end.
* `Definitions.isCyclic_iff` — the bounded search comes to the end as well, so it is exact.
-/

set_option autoImplicit false

namespace Conformance

open Relation (TransGen ReflTransGen)

/-! ## First occurrences -/

section FirstOccurrences

variable {α : Type} [BEq α] [LawfulBEq α]

/-- Leaving out other members does not change which of two comes first. -/
theorem idxOf_filter_lt_iff {p : α → Bool} {a b : α} (ha : p a = true) (hb : p b = true) (l : List α) :
    (l.filter p).idxOf a < (l.filter p).idxOf b ↔ l.idxOf a < l.idxOf b := by
  induction l with
  | nil => rfl
  | cons x l ih =>
    by_cases hxa : x = a
    · subst hxa
      by_cases hxb : x = b
      · subst hxb
        simp
      · simp [ha, hxb]
    · by_cases hxb : x = b
      · subst hxb
        simp [hb, hxa]
      · cases hp : p x <;> simp [hp, hxa, hxb, ih]

/-- What is left when later ones of equal members are left out stands in the order of first occurrences. -/
theorem pairwise_idxOf_eraseDups (l : List α) : l.eraseDups.Pairwise fun a b => l.idxOf a < l.idxOf b := by
  cases l with
  | nil => exact .nil
  | cons x l =>
    rw [List.eraseDups_cons]
    have hother : ∀ a ∈ (l.filter fun b => !b == x).eraseDups, (!a == x) = true ∧ x ≠ a := by
      intro a ha
      have hne := (List.mem_filter.1 (List.mem_eraseDups.1 ha)).2
      refine ⟨hne, ?_⟩
      rintro rfl
      simp at hne
    refine List.pairwise_cons.2 ⟨fun a ha => ?_, ?_⟩
    · rw [List.idxOf_cons_self, List.idxOf_cons_ne _ (hother a ha).2]
      exact Nat.succ_pos _
    · refine (pairwise_idxOf_eraseDups _).imp_of_mem fun {a b} ha hb hlt => ?_
      obtain ⟨hpa, hxa⟩ := hother a ha
      obtain ⟨hpb, hxb⟩ := hother b hb
      rw [List.idxOf_cons_ne _ hxa, List.idxOf_cons_ne _ hxb]
      exact Nat.succ_lt_succ ((idxOf_filter_lt_iff (p := fun c => !c == x) hpa hpb l).1 hlt)
termination_by l.length
decreasing_by exact Nat.lt_succ_of_le (List.length_filter_le _ _)

theorem nodup_eraseDups (l : List α) : l.eraseDups.Nodup :=
  (pairwise_idxOf_eraseDups l).imp fun hlt => ne_of_apply_ne (l.idxOf ·) hlt.ne

end FirstOccurrences

/-! ## Chains of bare names -/

namespace Definitions

variable {definitions : Definitions} {goal name next : String}

/-- The first name stands for the second, among other nodes perhaps. -/
def Bare (definitions : Definitions) (name next : String) : Prop :=
  .reference next ∈ definitions.nodes name

theorem mem_successors : next ∈ definitions.successors name ↔ definitions.Bare name next := Node.mem_references

/-- The names that stand by themselves as nodes of a definition. -/
def bareNames (definitions : Definitions) : List String :=
  definitions.flatMap fun e => e.2.filterMap Node.bareName?

theorem length_bareNames_le (definitions : Definitions) :
    definitions.bareNames.length ≤ definitions.size := by
  have hnodes : ∀ ns : List Node, ns.length ≤ Node.sizeAll ns := by
    intro ns
    induction ns with
    | nil => exact Nat.le_refl _
    | cons n ns ih =>
      have hpos : 0 < n.size := by cases n <;> simp [Node.size]
      simp only [List.length_cons, Node.sizeAll]
      omega
  induction definitions with
  | nil => exact Nat.le_refl _
  | cons e rest ih =>
    have hfound := List.length_filterMap_le Node.bareName? e.2
    have hsize := hnodes e.2
    have hrest : bareNames (e :: rest) = e.2.filterMap Node.bareName? ++ bareNames rest := rfl
    rw [hrest, List.length_append]
    simp only [size]
    omega

theorem Bare.mem_bareNames (h : definitions.Bare name next) : next ∈ definitions.bareNames := by
  unfold Bare nodes at h
  cases hget : Entries.get? definitions name with
  | none =>
    rw [hget] at h
    cases h
  | some ns =>
    rw [hget] at h
    refine List.mem_flatMap.2 ⟨(name, ns), Entries.mem_of_get? hget, ?_⟩
    exact List.mem_filterMap.2 ⟨_, h, rfl⟩

/-- The bare names that have not been seen. -/
def unseen (definitions : Definitions) (seen : List String) : Finset String :=
  definitions.bareNames.toFinset \ seen.toFinset

/-- The successors of a name that have not been seen, each once. -/
def fresh (definitions : Definitions) (name : String) (seen : List String) : List String :=
  ((definitions.successors name).filter fun n => !seen.contains n).eraseDups

theorem mem_fresh {seen : List String} :
    next ∈ definitions.fresh name seen ↔ definitions.Bare name next ∧ next ∉ seen := by
  unfold fresh
  rw [List.mem_eraseDups, List.mem_filter, mem_successors]
  simp

/-- Names that have not been seen are seen from now on. -/
theorem card_unseen_append {more seen : List String} (hnd : more.Nodup)
    (hnew : ∀ y ∈ more, definitions.Bare name y ∧ y ∉ seen) :
    (definitions.unseen (more ++ seen)).card + more.length = (definitions.unseen seen).card := by
  have hsub : more.toFinset ⊆ definitions.unseen seen := by
    intro n hn
    obtain ⟨hbare, hunseen⟩ := hnew n (List.mem_toFinset.1 hn)
    simp [unseen, hbare.mem_bareNames, hunseen]
  have hunseen : definitions.unseen (more ++ seen) = definitions.unseen seen \ more.toFinset := by
    unfold unseen
    rw [List.toFinset_append, Finset.union_comm, Finset.sdiff_union_distrib]
    ext n
    simp
    tauto
  rw [hunseen, ← List.toFinset_card_of_nodup hnd, Finset.card_sdiff_add_card_eq_card hsub]

theorem nodup_fresh (definitions : Definitions) (name : String) (seen : List String) :
    (definitions.fresh name seen).Nodup := nodup_eraseDups _

theorem leadsTo_succ (steps : Nat) (pending seen : List String) :
    definitions.leadsTo goal (steps + 1) (name :: pending) seen =
      if (definitions.successors name).contains goal then true
      else definitions.leadsTo goal steps (definitions.fresh name seen ++ pending)
        (definitions.fresh name seen ++ seen) := rfl

theorem contains_successors :
    (definitions.successors name).contains next = true ↔ definitions.Bare name next := by
  rw [List.contains_iff_mem, mem_successors]

/-! ## The search without a bound -/

/-- The names that are pending, and those that have been seen. -/
structure Search where
  pending : List String
  seen : List String

namespace Search

variable {s t : Search} {found : Bool}

/-- The search for a name begins at the name itself. -/
def start (goal : String) : Search := ⟨[goal], []⟩

/-- A pending name is looked at, and it does not stand for the goal. The names that it stands for become pending, each
once and in any order, unless they have been seen. -/
inductive Step (definitions : Definitions) (goal : String) : Search → Search → Prop where
  | pass {name : String} {pending seen fresh : List String} :
    ¬ definitions.Bare name goal → fresh.Nodup → (∀ n, n ∈ fresh ↔ definitions.Bare name n ∧ n ∉ seen) →
    Step definitions goal ⟨name :: pending, seen⟩ ⟨fresh ++ pending, fresh ++ seen⟩

/-- The search has ended: a pending name stands for the goal, or no name is pending. -/
inductive Ends (definitions : Definitions) (goal : String) : Search → Bool → Prop where
  | found {name : String} {pending seen : List String} :
    definitions.Bare name goal → Ends definitions goal ⟨name :: pending, seen⟩ true
  | exhausted {seen : List String} : Ends definitions goal ⟨[], seen⟩ false

/-! ### The search comes to an end -/

/-- The number of names that can still be looked at. -/
def left (definitions : Definitions) (s : Search) : Nat := s.pending.length + (definitions.unseen s.seen).card

/-- One name has been looked at, and a name that becomes pending is not counted among those to be seen any more. -/
theorem Step.left_lt (h : Step definitions goal s t) : t.left definitions < s.left definitions := by
  cases h with
  | pass _ hnd hfresh =>
    have hcard := card_unseen_append hnd fun n => (hfresh n).1
    simp only [left, List.length_append, List.length_cons]
    omega

theorem wellFounded_step (definitions : Definitions) (goal : String) :
    WellFounded fun t s => Step definitions goal s t :=
  Subrelation.wf (fun h => h.left_lt) (measure (left definitions)).wf

theorem left_start_le (definitions : Definitions) (goal : String) :
    (start goal).left definitions ≤ definitions.size + 1 := by
  have hcard : (definitions.unseen []).card ≤ definitions.bareNames.length := by
    unfold unseen
    rw [List.toFinset_nil, Finset.sdiff_empty]
    exact List.toFinset_card_le _
  have hlength := definitions.length_bareNames_le
  simp only [left, start, List.length_singleton]
  omega

/-- The next step of the search, where it has not ended: names become pending in the order of the definitions. -/
theorem step_fresh {pending seen : List String} (h : ¬ definitions.Bare name goal) :
    Step definitions goal ⟨name :: pending, seen⟩
      ⟨definitions.fresh name seen ++ pending, definitions.fresh name seen ++ seen⟩ :=
  .pass h (nodup_fresh definitions name seen) fun _ => mem_fresh

/-- A search goes on or has ended. -/
theorem step_or_ends (definitions : Definitions) (goal : String) (s : Search) :
    (∃ t, Step definitions goal s t) ∨ ∃ found, Ends definitions goal s found := by
  obtain ⟨pending, seen⟩ := s
  cases pending with
  | nil => exact .inr ⟨false, .exhausted⟩
  | cons name pending =>
    by_cases h : definitions.Bare name goal
    · exact .inr ⟨true, .found h⟩
    · exact .inl ⟨_, step_fresh h⟩

/-! ### What is known at the end -/

/-- The pending names can be reached from the goal. A name that has been seen is pending, or the names it stands for
have been seen as well, and the goal is none of them. -/
structure Explores (definitions : Definitions) (goal : String) (s : Search) : Prop where
  reached : ∀ n ∈ s.pending, ReflTransGen definitions.Bare goal n
  covered : ∀ n, n = goal ∨ n ∈ s.seen → n ∈ s.pending ∨ ∀ m, definitions.Bare n m → m ∈ s.seen ∧ m ≠ goal

theorem explores_start (definitions : Definitions) (goal : String) : (start goal).Explores definitions goal where
  reached := by
    rintro n hn
    rw [List.mem_singleton.1 hn]
  covered := by
    rintro n (rfl | hn)
    · exact .inl (List.mem_singleton_self _)
    · cases hn

theorem Step.explores (h : Step definitions goal s t) (hs : s.Explores definitions goal) :
    t.Explores definitions goal := by
  cases h with
  | @pass name pending seen fresh hgoal _ hfresh =>
    have hname : ∀ m, definitions.Bare name m → m ∈ fresh ++ seen ∧ m ≠ goal := by
      intro m hm
      refine ⟨?_, fun heq => hgoal (heq ▸ hm)⟩
      by_cases hseen : m ∈ seen
      · exact List.mem_append_right _ hseen
      · exact List.mem_append_left _ ((hfresh m).2 ⟨hm, hseen⟩)
    refine ⟨fun n hn => ?_, fun n hn => ?_⟩
    · rcases List.mem_append.1 hn with hn | hn
      · exact (hs.reached name List.mem_cons_self).tail ((hfresh n).1 hn).1
      · exact hs.reached n (List.mem_cons_of_mem _ hn)
    · by_cases hnew : n ∈ fresh
      · exact .inl (List.mem_append_left _ hnew)
      · have hold : n = goal ∨ n ∈ seen := hn.imp_right fun hn => (List.mem_append.1 hn).resolve_left hnew
        rcases hs.covered n hold with hpending | hdone
        · rcases List.mem_cons.1 hpending with rfl | hpending
          · exact .inr hname
          · exact .inl (List.mem_append_right _ hpending)
        · exact .inr fun m hm => ⟨List.mem_append_right _ (hdone m hm).1, (hdone m hm).2⟩

theorem explores_of_steps (h : ReflTransGen (Step definitions goal) (start goal) s) : s.Explores definitions goal := by
  induction h with
  | refl => exact explores_start definitions goal
  | tail _ hstep ih => exact hstep.explores ih

/-- At its end the search has found the goal just where a chain of bare names leads from the goal back to it. -/
theorem Ends.iff (h : Ends definitions goal s found) (hs : s.Explores definitions goal) :
    found = true ↔ TransGen definitions.Bare goal goal := by
  cases h with
  | found hgoal =>
    exact iff_of_true rfl (Relation.TransGen.tail' (hs.reached _ List.mem_cons_self) hgoal)
  | @exhausted seen =>
    -- Nothing is pending, so what has been seen is closed under passing on, and the goal is not in it.
    have hclosed : ∀ n, n = goal ∨ n ∈ seen → ∀ m, definitions.Bare n m → m ∈ seen ∧ m ≠ goal := fun n hn =>
      (hs.covered n hn).resolve_left List.not_mem_nil
    have hreach : ∀ m, TransGen definitions.Bare goal m → m ∈ seen ∧ m ≠ goal := by
      intro m hm
      induction hm with
      | single hbare => exact hclosed goal (.inl rfl) _ hbare
      | tail _ hbare ih => exact hclosed _ (.inr ih.1) _ hbare
    exact iff_of_false Bool.false_ne_true fun hcycle => (hreach goal hcycle).2 rfl

end Search

/-! ## The bounded search -/

/-- With a bound of no fewer names than can still be looked at, the bounded search comes to the end of the search. -/
theorem leadsTo_ends {steps : Nat} {pending seen : List String}
    (h : Search.left definitions ⟨pending, seen⟩ ≤ steps) :
    ∃ s, ReflTransGen (Search.Step definitions goal) ⟨pending, seen⟩ s ∧
      s.Ends definitions goal (definitions.leadsTo goal steps pending seen) := by
  induction steps generalizing pending seen with
  | zero =>
    have hnil : pending = [] := List.length_eq_zero_iff.1 (by simp only [Search.left] at h; omega)
    subst hnil
    exact ⟨_, .refl, .exhausted⟩
  | succ steps ih =>
    cases pending with
    | nil => exact ⟨_, .refl, .exhausted⟩
    | cons name pending =>
      rw [leadsTo_succ]
      split
      · rename_i hgoal
        exact ⟨_, .refl, .found (contains_successors.1 hgoal)⟩
      · rename_i hgoal
        have hstep : Search.Step definitions goal ⟨name :: pending, seen⟩ _ :=
          Search.step_fresh (mt contains_successors.2 hgoal)
        obtain ⟨s, hsteps, hends⟩ := ih (Nat.le_of_lt_succ (hstep.left_lt.trans_le h))
        exact ⟨s, .head hstep hsteps, hends⟩

/-- **The search for cycles is exact**: it finds just the names from which a chain of bare names leads
back to them. -/
theorem isCyclic_iff : definitions.isCyclic name = true ↔ TransGen definitions.Bare name name := by
  obtain ⟨s, hsteps, hends⟩ := leadsTo_ends (Search.left_start_le definitions name)
  exact hends.iff (Search.explores_of_steps hsteps)

/-- **The search comes to an end on every set of definitions**, in whatever order names become pending: no search goes
on for ever, and where one does not go on it has ended with what the bounded search gives. -/
theorem search_ends (definitions : Definitions) (name : String) :
    (WellFounded fun t s => Search.Step definitions name s t) ∧
      ∀ s, ReflTransGen (Search.Step definitions name) (.start name) s →
        (∃ t, Search.Step definitions name s t) ∨ s.Ends definitions name (definitions.isCyclic name) := by
  refine ⟨Search.wellFounded_step definitions name, fun s hsteps => ?_⟩
  refine (Search.step_or_ends definitions name s).imp_right ?_
  rintro ⟨found, hends⟩
  have hiff := (hends.iff (Search.explores_of_steps hsteps)).trans isCyclic_iff.symm
  rwa [← Bool.eq_iff_iff.2 hiff]

end Definitions

end Conformance
