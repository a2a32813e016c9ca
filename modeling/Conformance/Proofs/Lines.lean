import Conformance.Proofs.Coverage
import Mathlib.Data.Nat.Count

/-!
# Lines and columns

The line and the column of a place are kept up character by character, with one character looked ahead at. They
come to what the text before the place says: how many lines end there, and how many characters stand behind the
last of these ends.

* `EndsLine` — a line of a text ends with a character.
* `SameLine` — no line ends from a character on up to a place.
* `Place.behind` — the place behind some characters, by counting; `Place.behind_after` is the step to the next one.
* `Place.CountedIn` — a place is on a boundary between characters, and says what is counted there.
* `Cursor.Counts` — a cursor is at such a place; it stays at one with every character and with every read.
* `places_countedIn` — all places that the reads of a text come to.
-/

set_option autoImplicit false

namespace Conformance

/-! ## Counting in a text -/

/-- A line ends with the character at an index: with a line feed, or with a carriage return that no line feed
follows. -/
def EndsLine (text : List Char) (i : Nat) : Prop :=
  text[i]? = some '\n' ∨ text[i]? = some '\r' ∧ text[i + 1]? ≠ some '\n'

instance (text : List Char) : DecidablePred (EndsLine text) := fun _ =>
  inferInstanceAs (Decidable (_ ∨ _))

/-- No line ends with the character at the second index, or with one behind it before the first index. -/
def SameLine (text : List Char) (n i : Nat) : Prop := ∀ j < n, i ≤ j → ¬ EndsLine text j

instance (text : List Char) (n : Nat) : DecidablePred (SameLine text n) := fun _ =>
  inferInstanceAs (Decidable (∀ j < n, _))

/-- The place behind so many characters of a text: one line more than end before it, and one column more than there
are characters since. -/
def Place.behind (text : List Char) (n : Nat) : Place where
  line := Nat.count (EndsLine text) n + 1
  column := Nat.count (SameLine text n) n + 1
  index := byteCount (text.take n)

/-- The place is on a boundary between characters of the text. Its line is one more than the lines that end before
it, and its column one more than the characters between the last of these ends and the place. -/
structure Place.CountedIn (text : List Char) (p : Place) : Prop where
  boundary : ∃ n ≤ text.length, p.index = byteCount (text.take n)
  counts : ∀ n ≤ text.length, p.index = byteCount (text.take n) →
    p.line = Nat.count (EndsLine text) n + 1 ∧ p.column = Nat.count (SameLine text n) n + 1

section Counting

variable {text : List Char} {n : Nat}

/-- A character begins a new line if one ends with it, and is one more character of its line otherwise. -/
theorem count_sameLine_succ : Nat.count (SameLine text (n + 1)) (n + 1) =
    if EndsLine text n then 0 else Nat.count (SameLine text n) n + 1 := by
  split
  · rename_i hends
    rw [Nat.count_iff_forall_not]
    exact fun i hi hsame => hsame n (Nat.lt_succ_self n) (Nat.le_of_lt_succ hi) hends
  · rename_i hends
    have hself : SameLine text (n + 1) n := fun j hj hle => by
      obtain rfl : j = n := Nat.le_antisymm (Nat.le_of_lt_succ hj) hle
      exact hends
    have hbefore : Nat.count (SameLine text (n + 1)) n = Nat.count (SameLine text n) n := by
      apply Nat.le_antisymm
      · exact Nat.count_mono_left fun i _ hsame j hj => hsame j (Nat.lt_succ_of_lt hj)
      · refine Nat.count_mono_left fun i _ hsame j hj hle => ?_
        rcases Nat.lt_succ_iff_lt_or_eq.1 hj with hlt | rfl
        · exact hsame j hlt hle
        · exact hends
    rw [Nat.count_succ, if_pos hself, hbefore]

/-- What is looked at behind a character is whether it ends a line. -/
theorem endsLine_iff {c : Char} (hc : text[n]? = some c) :
    EndsLine text n ↔ c = '\n' ∨ c = '\r' ∧ text[n + 1]? ≠ some '\n' := by
  unfold EndsLine
  rw [hc, Option.some.injEq, Option.some.injEq]

theorem byteCount_take_succ {c : Char} (hc : text[n]? = some c) :
    byteCount (text.take (n + 1)) = byteCount (text.take n) + c.utf8Size := by
  rw [List.take_add_one, hc, byteCount_append, Option.toList_some, byteCount_cons]
  rfl

/-- **The step to the next character** keeps up what is counted. -/
theorem Place.behind_after {c : Char} (hc : text[n]? = some c) :
    (Place.behind text n).after c text[n + 1]? = Place.behind text (n + 1) := by
  unfold Place.after Place.behind
  rw [Nat.count_succ, count_sameLine_succ, byteCount_take_succ hc]
  by_cases hends : EndsLine text n
  · rw [if_pos ((endsLine_iff hc).1 hends), if_pos hends, if_pos hends]
  · rw [if_neg (mt (endsLine_iff hc).2 hends), if_neg hends, if_neg hends]

end Counting

/-! ## Cursors -/

namespace Cursor

/-- The cursor is behind so many characters of the text, with the rest of the text before it. -/
def Counts (text : List Char) (k : Cursor) : Prop :=
  ∃ n ≤ text.length, k = ⟨.behind text n, text.drop n⟩

theorem index_behind (text : List Char) (n : Nat) :
    ((Cursor.ofText text).advance n).place.index = (Place.behind text n).index := by
  rw [index_advance]
  exact Nat.zero_add _

/-- A number of bytes belongs to one boundary only. -/
theorem eq_of_byteCount_take {text : List Char} {m n : Nat} (hm : m ≤ text.length) (hn : n ≤ text.length)
    (h : byteCount (text.take m) = byteCount (text.take n)) : m = n := by
  have hmono : ∀ {m n : Nat}, m < n → n ≤ text.length →
      byteCount (text.take m) < byteCount (text.take n) := fun hlt hle => by
    have hindex := index_advance_lt (k := .ofText text) hlt hle
    rwa [index_behind, index_behind] at hindex
  rcases Nat.lt_trichotomy m n with hlt | heq | hlt
  · exact absurd h (Nat.ne_of_lt (hmono hlt hn))
  · exact heq
  · exact absurd h (Nat.ne_of_gt (hmono hlt hm))

namespace Counts

variable {text : List Char} {k : Cursor}

theorem ofText (text : List Char) : Counts text (.ofText text) := ⟨0, Nat.zero_le _, rfl⟩

theorem advance (h : Counts text k) (m : Nat) : Counts text (k.advance m) := by
  induction m generalizing k with
  | zero => exact h
  | succ m ih =>
    obtain ⟨n, hn, rfl⟩ := h
    rcases Nat.lt_or_eq_of_le hn with hlt | rfl
    · have hc : text[n]? = some text[n] := List.getElem?_eq_getElem hlt
      have hstep : (Place.behind text n).after text[n] (text.drop (n + 1)).head? = .behind text (n + 1) := by
        rw [List.head?_drop, Place.behind_after hc]
      rw [List.drop_eq_getElem_cons hlt]
      exact ih ⟨n + 1, hlt, congrArg (Cursor.mk · _) hstep⟩
    · rw [List.drop_length]
      exact ⟨text.length, Nat.le_refl _, by rw [List.drop_length]; rfl⟩

theorem start (h : Counts text k) : Counts text k.start := h.advance _

theorem next (h : Counts text k) : Counts text k.read.next := by
  rw [next_read]
  exact h.start.advance _

theorem place (h : Counts text k) : k.place.CountedIn text := by
  obtain ⟨n, hn, rfl⟩ := h
  refine ⟨⟨n, hn, rfl⟩, fun m hm hindex => ?_⟩
  obtain rfl := eq_of_byteCount_take hn hm hindex
  exact ⟨rfl, rfl⟩

end Counts

/-- A token is where blanks and comments end. -/
theorem toPlace_of_token {k : Cursor} {p : Position} {t : Token} (h : k.read.result = .ok (p, t)) :
    p.toPlace = k.start.place := by
  unfold read at h
  simp only at h
  split at h <;> cases h <;> rfl

/-- Wherever the text is read on, the cursor is where the text before it says. -/
theorem cursorAfter_counts (text : List Char) (n : Nat) : Counts text (cursorAfter text n) := by
  induction n with
  | zero => exact .ofText text
  | succ n ih => exact ih.next

end Cursor

/-- **The line and the column of a place are what the text before it says**, for every place that the reads of a
text come to: where each read begins, after however many characters it stands, where its token begins or its fault
shows, also behind other faults. -/
theorem places_countedIn (text : List Char) (n : Nat) :
    (cursorAfter text n).place.CountedIn text ∧
    (∀ m, ((cursorAfter text n).advance m).place.CountedIn text) ∧
    (∀ p t, (lexemeAt text n).result = .ok (p, t) → p.toPlace.CountedIn text) ∧
    (∀ e, (lexemeAt text n).result = .error e → e.position.toPlace.CountedIn text) ∧
    (lexemeAt text n).next.place.CountedIn text := by
  have hcounts := Cursor.cursorAfter_counts text n
  refine ⟨hcounts.place, fun m => (hcounts.advance m).place, fun p t h => ?_, fun e h => ?_, hcounts.next.place⟩
  · rw [Cursor.toPlace_of_token h]
    exact hcounts.start.place
  · obtain ⟨fault, -, hposition⟩ := Cursor.position_of_fault h
    rw [hposition]
    exact (hcounts.start.advance _).place

/-- A fault between the two halves of a line end: the next read begins there, still in the first line. -/
theorem places_countedIn_halfway :
    let text := ['"', 'ü', '\r', '\n', '\r', '\x7d']
    ∃ e p, (lexemeAt text 0).result = .error e ∧ e.position.toPlace = ⟨1, 3, 3⟩ ∧
      (lexemeAt text 0).next.place = ⟨1, 4, 4⟩ ∧ (lexemeAt text 1).result = .ok (p, .symbol .closeBrace) ∧
      p.toPlace = ⟨3, 1, 6⟩ ∧ e.position.toPlace.CountedIn text ∧ (lexemeAt text 0).next.place.CountedIn text ∧
      p.toPlace.CountedIn text := by
  intro text
  obtain ⟨e, he, heplace⟩ : ∃ e, (lexemeAt text 0).result = .error e ∧ e.position.toPlace = ⟨1, 3, 3⟩ :=
    ⟨_, rfl, rfl⟩
  obtain ⟨p, hp, hpplace⟩ : ∃ p, (lexemeAt text 1).result = .ok (p, .symbol .closeBrace) ∧
      p.toPlace = ⟨3, 1, 6⟩ := ⟨_, rfl, rfl⟩
  have hnext : (lexemeAt text 0).next.place = ⟨1, 4, 4⟩ := rfl
  obtain ⟨-, -, -, hfault, hbehind⟩ := places_countedIn text 0
  obtain ⟨-, -, htoken, -⟩ := places_countedIn text 1
  exact ⟨e, p, he, heplace, hnext, hp, hpplace, hfault e he, hbehind, htoken p _ hp⟩

end Conformance
