import Conformance.Grading.Finding
import Conformance.Text.Separated

/-!
# Locations within values

A location is the list of segments that a JSON pointer writes. Read against a value, a segment is a key
of a map or an index of an array.

* `Value.part?` — the part of a value at a step.
* `Pointer.segments` — the segments of a pointer text; `Pointer.segments_pointerText` reads back what
  `pointerText` writes.
* `Value.locate?` — the part of a value at a location.
* `Value.Fits` — a step is of the sort that leads into the value; for such a step, the segment leads to
  the part at the step (`Value.member?_segment`).
* `Value.SameShape` — two arrays or two maps, which are equal if their parts are (`Value.SameShape.ext`).
-/

set_option autoImplicit false

namespace Conformance

/-! ## Pointer texts -/

/-- The segment of a pointer that a step is written as, without escapes. -/
def Step.segment : Step → String
  | .key name => name
  | .index i => String.ofList (Digits.ofNat i)

namespace Pointer

/-- Reads the escapes of a segment: `~1` is a slash and `~0` a tilde. -/
def unescape : List Char → List Char
  | '~' :: '1' :: rest => '/' :: unescape rest
  | '~' :: '0' :: rest => '~' :: unescape rest
  | c :: rest => c :: unescape rest
  | [] => []

/-- The segments of a pointer text, which stand behind a slash each. -/
def segments (pointer : String) : List String :=
  ((splitOn '/' pointer.toList).drop 1).map fun segment => String.ofList (unescape segment)

/-- The index that a segment writes: decimal digits without zeros in front. -/
def index? (segment : String) : Option Nat :=
  if Digits.ofNat (Digits.value segment.toList) = segment.toList then
    some (Digits.value segment.toList)
  else none

theorem value_ofNat (n : Nat) : Digits.value (Digits.ofNat n) = n :=
  Nat.ofDigitChars_ten_toDigits

theorem index?_ofNat (i : Nat) : index? (String.ofList (Digits.ofNat i)) = some i := by
  unfold index?
  rw [String.toList_ofList, value_ofNat, if_pos rfl]

theorem segment_of_index? {segment : String} {i : Nat} (h : index? segment = some i) :
    (Step.index i).segment = segment := by
  unfold index? at h
  split at h
  · rename_i hdigits
    cases h
    rw [Step.segment, hdigits, String.ofList_toList]
  · cases h

theorem unescape_cons {c : Char} (h : c ≠ '~') (rest : List Char) :
    unescape (c :: rest) = c :: unescape rest := by
  rw [unescape]
  · rintro rest' rfl
    exact absurd rfl h
  · rintro rest' rfl
    exact absurd rfl h

theorem unescape_digits {digits : List Char} (h : ∀ c ∈ digits, c.isDigit) :
    unescape digits = digits := by
  induction digits with
  | nil => rfl
  | cons c digits ih =>
    have hc : c ≠ '~' := fun hc => by
      have := h c List.mem_cons_self
      rw [hc] at this
      exact absurd this (by decide)
    rw [unescape_cons hc, ih fun d hd => h d (List.mem_cons_of_mem _ hd)]

theorem unescape_escape (text : List Char) :
    unescape (text.flatMap fun c =>
      if c = '~' then ['~', '0'] else if c = '/' then ['~', '1'] else [c]) = text := by
  induction text with
  | nil => rfl
  | cons c text ih =>
    rw [List.flatMap_cons]
    split
    · rename_i hc
      rw [hc, List.cons_append, List.cons_append, List.nil_append, unescape, ih]
    split
    · rename_i hc
      rw [hc, List.cons_append, List.cons_append, List.nil_append, unescape, ih]
    · rename_i htilde _
      rw [List.cons_append, List.nil_append, unescape_cons htilde, ih]

theorem unescape_characters (step : Step) :
    String.ofList (unescape step.characters) = step.segment := by
  cases step with
  | key name => rw [Step.characters, unescape_escape, Step.segment, String.ofList_toList]
  | index i =>
    rw [Step.characters, Step.segment, unescape_digits]
    exact fun c hc => Nat.isDigit_of_mem_toDigits (by decide) (by decide) hc

theorem slash_not_mem_characters (step : Step) : '/' ∉ step.characters := by
  cases step with
  | key name =>
    intro h
    obtain ⟨c, -, hc⟩ := List.mem_flatMap.1 h
    split at hc
    · simp at hc
    split at hc
    · simp at hc
    · rename_i hslash
      exact hslash (List.mem_singleton.1 hc).symm
  | index i =>
    intro h
    have := Nat.isDigit_of_mem_toDigits (by decide) (by decide) h
    exact absurd this (by decide)

theorem splitOn_append {separator : Char} {part rest head : List Char} {tail : List (List Char)}
    (hp : separator ∉ part) (h : splitOn separator rest = head :: tail) :
    splitOn separator (part ++ rest) = (part ++ head) :: tail := by
  induction part with
  | nil => exact h
  | cons c part ih =>
    rw [List.mem_cons, not_or] at hp
    rw [List.cons_append, splitOn, if_neg (Ne.symm hp.1), ih hp.2]
    rfl

theorem splitOn_pointerCharacters (path : List Step) :
    splitOn '/' (pointerCharacters path) = [] :: path.map Step.characters := by
  induction path with
  | nil => rfl
  | cons step path ih =>
    have hhead : pointerCharacters (step :: path) =
        '/' :: (step.characters ++ pointerCharacters path) := rfl
    rw [hhead, splitOn, if_pos rfl, splitOn_append (slash_not_mem_characters step) ih,
      List.append_nil, List.map_cons]

/-- **A pointer text reads back as the segments of its path.** -/
theorem segments_pointerText (path : List Step) :
    segments (pointerText path) = path.map Step.segment := by
  rw [segments, pointerText, String.toList_ofList, splitOn_pointerCharacters, List.drop_succ_cons,
    List.drop_zero, List.map_map]
  exact List.map_congr_left fun step _ => unescape_characters step

end Pointer

/-! ## Parts of values -/

namespace Value

/-- The part of a value at a step. -/
def part? : Value → Step → Option Value
  | .map entries, .key name => Entries.get? entries name
  | .array items, .index i => items[i]?
  | _, _ => none

/-- The part of a value at a segment of a location. -/
def member? (v : Value) (segment : String) : Option Value :=
  match v with
  | .map entries => Entries.get? entries segment
  | .array items => (Pointer.index? segment).bind fun i => items[i]?
  | _ => none

/-- The part of a value at a location; the value itself where the location has no segment. -/
def locate? (v : Value) : List String → Option Value
  | [] => some v
  | segment :: location => (v.member? segment).bind fun part => part.locate? location

/-- The step is of the sort that leads into the value. -/
def Fits : Value → Step → Prop
  | .map _, .key _ => True
  | .array _, .index _ => True
  | _, _ => False

theorem fits_of_part? {v w : Value} {step : Step} (h : v.part? step = some w) : v.Fits step := by
  cases v <;> cases step <;> trivial

theorem member?_segment {v : Value} {step : Step} (h : v.Fits step) :
    v.member? step.segment = v.part? step := by
  cases v <;> cases step <;> first | exact h.elim | skip
  · rename_i items i
    rw [Step.segment, member?, Pointer.index?_ofNat]
    rfl
  · rfl

/-- Two composite values of one sort, with the entries of maps in order. -/
inductive SameShape : Value → Value → Prop where
  | arrays (items others : List Value) : SameShape (.array items) (.array others)
  | maps {entries others : Entries Value} : entries.Sorted → others.Sorted →
    SameShape (.map entries) (.map others)

namespace SameShape

variable {v w : Value}

theorem kind_eq (h : SameShape v w) : v.kind = w.kind := by
  cases h <;> rfl

theorem fits_iff (h : SameShape v w) (step : Step) : v.Fits step ↔ w.Fits step := by
  cases h <;> cases step <;> exact Iff.rfl

/-- Composites of one sort are equal if they have the same parts. -/
theorem ext (h : SameShape v w) (hp : ∀ step, v.part? step = w.part? step) : v = w := by
  cases h with
  | arrays items others => rw [List.ext_getElem? fun i => hp (.index i)]
  | maps hv hw => rw [Entries.Sorted.ext hv hw fun name => hp (.key name)]

/-- A segment leads to the parts at one step in both of them, or to nothing in either. -/
theorem member?_cases (h : SameShape v w) (segment : String) :
    (∃ step, step.segment = segment ∧ v.member? segment = v.part? step ∧
      w.member? segment = w.part? step) ∨ v.member? segment = none ∧ w.member? segment = none := by
  cases h with
  | maps => exact .inl ⟨.key segment, rfl, rfl, rfl⟩
  | arrays items others =>
    cases hi : Pointer.index? segment with
    | none => exact .inr ⟨by simp only [member?, hi, Option.bind_none],
        by simp only [member?, hi, Option.bind_none]⟩
    | some i => exact .inl ⟨.index i, Pointer.segment_of_index? hi,
        by simp only [member?, hi, Option.bind_some, part?],
        by simp only [member?, hi, Option.bind_some, part?]⟩

end SameShape

end Value

end Conformance
