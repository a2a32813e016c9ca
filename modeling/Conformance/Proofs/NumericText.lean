import Conformance.Proofs.RoundedFrom

/-!
# Texts that are converted to integers

A text is converted to an integer where it is numeric and the number that it spells is rounded to the integer.
Every integer of 32 bits is therefore read from each of its spellings, however long, and no other text is read
as an integer, unless it spells a number that lies within the rounding beside one.

* `Decimal.IsSpelled` — numeric texts, by their sign, digits, point and power of ten.
* `Decimal.ofText?_iff` — what a text is read as is what it spells.
* `coerce_integer_text` — the texts that are converted to an integer, and to which.
* `coerce_integer_text_lossy` — a text that is converted although it does not spell an integer.
-/

set_option autoImplicit false

namespace Conformance

namespace Decimal

/-! ## Numeric texts -/

/-- A sign or none, and whether it is a minus. -/
inductive IsSign : List Char → Bool → Prop where
  | none : IsSign [] false
  | plus : IsSign ['+'] false
  | minus : IsSign ['-'] true

/-- A point and the digits behind it, or neither. -/
inductive IsFraction : List Char → List Char → Prop where
  | none : IsFraction [] []
  | point {digits : List Char} : (∀ c ∈ digits, c.isDigit = true) → IsFraction ('.' :: digits) digits

/-- A power of ten with a digit at least, or none, which is the zeroth. -/
inductive IsPower : List Char → Int → Prop where
  | none : IsPower [] 0
  | mark {e : Char} {sign digits : List Char} {negative : Bool} : e = 'e' ∨ e = 'E' →
      IsSign sign negative → digits ≠ [] → (∀ c ∈ digits, c.isDigit = true) →
      IsPower (e :: (sign ++ digits)) (if negative then -(Digits.value digits : Int) else Digits.value digits)

/-- The text is numeric: an optional sign, digits with an optional point, of which there is at least one, and an
optional power of ten. It spells the numeral with all its digits, where each digit behind the point takes one
from the power of ten. -/
inductive IsSpelled : List Char → Decimal → Prop where
  | of {sign whole point fraction power : List Char} {negative : Bool} {exponent : Int} :
      IsSign sign negative → (∀ c ∈ whole, c.isDigit = true) → IsFraction point fraction →
      whole ++ fraction ≠ [] → IsPower power exponent →
      IsSpelled (sign ++ (whole ++ (point ++ power)))
        ⟨negative, Digits.value (whole ++ fraction), exponent - fraction.length⟩

/-- The characters of the sort of signs. -/
def isSignMark (c : Char) : Bool := c == '-' || c == '+'

theorem not_isSignMark {c : Char} (h : c.isDigit = true) : isSignMark c = false := by
  rw [← Bool.not_eq_true]
  intro hmark
  rcases Bool.or_eq_true_iff.1 hmark with hmark | hmark
  · rw [eq_of_beq hmark] at h
    exact absurd h (by decide)
  · rw [eq_of_beq hmark] at h
    exact absurd h (by decide)

theorem takeSign_append {sign rest : List Char} {negative : Bool} (h : IsSign sign negative)
    (hrest : Stops isSignMark rest) : takeSign (sign ++ rest) = (negative, rest) := by
  cases h with
  | plus => rfl
  | minus => rfl
  | none =>
    rw [List.nil_append]
    unfold takeSign
    split
    · exact absurd (hrest '-' rfl) (by decide)
    · exact absurd (hrest '+' rfl) (by decide)
    · rfl

theorem exists_sign (text : List Char) :
    ∃ sign, IsSign sign (takeSign text).1 ∧ text = sign ++ (takeSign text).2 := by
  unfold takeSign
  split
  · exact ⟨['-'], .minus, rfl⟩
  · exact ⟨['+'], .plus, rfl⟩
  · exact ⟨[], .none, rfl⟩

theorem stops_digits {digits : List Char} (hne : digits ≠ []) (h : ∀ c ∈ digits, c.isDigit = true)
    (rest : List Char) : Stops isSignMark (digits ++ rest) := by
  cases digits with
  | nil => exact absurd rfl hne
  | cons c digits => exact .cons (not_isSignMark (h c List.mem_cons_self))

/-- What is read as a power of ten is what the text spells. -/
theorem exponentOf?_iff {text : List Char} {e : Int} : exponentOf? text = some e ↔ IsPower text e := by
  constructor
  · intro h
    cases text with
    | nil =>
      obtain rfl := Option.some.inj h
      exact .none
    | cons c rest =>
      obtain ⟨sign, hsign, hrest⟩ := exists_sign rest
      unfold exponentOf? at h
      simp only at h
      split at h
      · rename_i hpower
        obtain ⟨hmark, hne, hall⟩ := hpower
        obtain rfl := Option.some.inj h
        have hspelled := IsPower.mark hmark hsign hne (List.all_eq_true.1 hall)
        rwa [← hrest] at hspelled
      · cases h
  · intro h
    cases h with
    | none => rfl
    | @mark c sign digits negative hmark hsign hne hall =>
      have htake : takeSign (sign ++ digits) = (negative, digits) := by
        have hstops := stops_digits hne hall []
        rw [List.append_nil] at hstops
        exact takeSign_append hsign hstops
      unfold exponentOf?
      simp only [htake]
      rw [if_pos ⟨hmark, hne, List.all_eq_true.2 hall⟩]

namespace IsPower

variable {power : List Char} {e : Int}

theorem stops (h : IsPower power e) {p : Char → Bool} (hsmall : p 'e' = false) (hlarge : p 'E' = false) :
    Stops p power := by
  cases h with
  | none => exact .nil
  | mark hmark =>
    rcases hmark with rfl | rfl
    · exact .cons hsmall
    · exact .cons hlarge

end IsPower

/-- A text spells what it is read as: its sign, the digits up to the first other character, and what is behind
them, which may begin with a point. -/
theorem isSpelled_of_ofText? {text : List Char} {d : Decimal} (h : ofText? text = some d) : IsSpelled text d := by
  obtain ⟨sign, hsign, htext⟩ := exists_sign text
  have hwhole := List.takeWhile_append_dropWhile (p := Char.isDigit) (l := (takeSign text).2)
  have hdigits : ∀ c ∈ (takeSign text).2.takeWhile Char.isDigit, c.isDigit = true :=
    List.all_eq_true.1 List.all_takeWhile
  have hread : ∀ {point fraction power : List Char}, IsFraction point fraction →
      (if ((takeSign text).2.takeWhile Char.isDigit ++ fraction).isEmpty then none else
        (exponentOf? power).map fun e => Decimal.mk (takeSign text).1
          (Digits.value ((takeSign text).2.takeWhile Char.isDigit ++ fraction)) (e - fraction.length)) =
        some d →
      (takeSign text).2.dropWhile Char.isDigit = point ++ power → IsSpelled text d := by
    intro point fraction power hfraction h hrest
    split at h
    · cases h
    · rename_i hempty
      obtain ⟨e, he, rfl⟩ := Option.map_eq_some_iff.1 h
      have hspelled := IsSpelled.of hsign hdigits hfraction (mt List.isEmpty_iff.2 hempty)
        (exponentOf?_iff.1 he)
      rwa [← hrest, hwhole, ← htext] at hspelled
  unfold ofText? at h
  simp only at h
  split at h
  · rename_i rest hpoint
    apply hread (.point (List.all_eq_true.1 (List.all_takeWhile (l := rest)))) h
    rw [hpoint, List.cons_append, List.takeWhile_append_dropWhile]
  · exact hread .none h rfl

/-- A numeric text is read as what it spells, as each of its parts ends where the next one begins. -/
theorem ofText?_of_isSpelled {text : List Char} {d : Decimal} (h : IsSpelled text d) : ofText? text = some d := by
  obtain @⟨sign, whole, point, fraction, power, negative, e, hsign, hdigits, hfraction, hne, hpower⟩ := h
  have hstops : Stops Char.isDigit power := hpower.stops (by decide) (by decide)
  have hpoint : Stops Char.isDigit (point ++ power) := by
    cases hfraction with
    | none => exact hstops
    | point => exact .cons (by decide)
  have hbody : Stops isSignMark (whole ++ (point ++ power)) := by
    by_cases hwhole : whole = []
    · subst hwhole
      cases hfraction with
      | none => exact absurd rfl hne
      | point => exact .cons (by decide)
    · exact stops_digits hwhole hdigits _
  unfold ofText?
  simp only [takeSign_append hsign hbody, Stops.takeWhile_append hdigits hpoint,
    Stops.dropWhile_append hdigits hpoint]
  have hempty : (whole ++ fraction).isEmpty = false := by
    rw [← Bool.not_eq_true, List.isEmpty_iff]
    exact hne
  cases hfraction with
  | none =>
    have hstart : Stops (· == '.') power := hpower.stops (by decide) (by decide)
    rw [List.nil_append]
    split
    · exact absurd (hstart '.' rfl) (by decide)
    · simp only [hempty, exponentOf?_iff.2 hpower]
      rfl
  | point hall =>
    simp only [List.cons_append, Stops.takeWhile_append hall hstops, Stops.dropWhile_append hall hstops,
      hempty, exponentOf?_iff.2 hpower]
    rfl

/-- **What a text is read as is what it spells**: exactly the numeric texts are read, each as a whole. -/
theorem ofText?_iff {text : List Char} {d : Decimal} : ofText? text = some d ↔ IsSpelled text d :=
  ⟨isSpelled_of_ofText?, ofText?_of_isSpelled⟩

end Decimal

/-! ## Conversion to an integer -/

namespace Coercion

theorem integer?_iff {r : Binary64} {i : Int32} :
    integer? r = some (.integer i) ↔ r.toInt? = some i.toInt := by
  unfold integer?
  rw [Option.map_eq_some_iff]
  constructor
  · rintro ⟨j, hj, hij⟩
    obtain rfl := Value.integer.inj hij
    obtain ⟨k, hk, hint⟩ := Option.bind_eq_some_iff.1 hj
    rw [hk, toInt_of_int32? hint]
  · intro h
    exact ⟨i, by rw [h, Option.bind_some, Scan.int32?_toInt], rfl⟩

/-- The number of a text is the number of the numeral it spells, where that is finite. -/
theorem number?_eq_some {text : String} {r : Binary64} : number? text = some r ↔
    ∃ d, Decimal.IsSpelled text.toList d ∧ d.toBinary64 = r ∧ r.isFinite = true := by
  unfold number?
  rw [Option.filter_eq_some_iff, Option.map_eq_some_iff]
  constructor
  · rintro ⟨⟨d, hd, rfl⟩, hfinite⟩
    exact ⟨d, Decimal.ofText?_iff.1 hd, rfl, hfinite⟩
  · rintro ⟨d, hd, rfl, hfinite⟩
    exact ⟨⟨d, Decimal.ofText?_iff.2 hd, rfl⟩, hfinite⟩

theorem toInteger?_text {text : String} {i : Int32} : toInteger? (.string text) = some (.integer i) ↔
    ∃ d, Decimal.IsSpelled text.toList d ∧ RoundsTo d.toRat i.toInt := by
  have hsmall : i.toInt.natAbs < 2 ^ 52 := by
    have := i.le_toInt
    have := i.toInt_lt
    omega
  unfold toInteger?
  simp only
  rw [Option.bind_eq_some_iff]
  constructor
  · rintro ⟨r, hr, hi⟩
    obtain ⟨d, hd, rfl, -⟩ := number?_eq_some.1 hr
    exact ⟨d, hd, (Decimal.toInt?_toBinary64 hsmall).1 (integer?_iff.1 hi)⟩
  · rintro ⟨d, hd, hround⟩
    have hint := (Decimal.toInt?_toBinary64 hsmall).2 hround
    obtain ⟨negative, m, hfinite, -⟩ := Binary64.exists_of_toInt? hint
    exact ⟨d.toBinary64, number?_eq_some.2 ⟨d, hd, rfl, by rw [hfinite]; rfl⟩, integer?_iff.2 hint⟩

end Coercion

/-- A text that is not empty is converted to the integer that it is read as, if any. -/
theorem coerce_integer_of_ne {text : String} (hne : text ≠ "") :
    coerce .integer (.string text) = .ofOption (Coercion.toInteger? (.string text)) := by
  have hkind : (Value.string text).kind ≠ .integer := by simp [Value.kind]
  exact coerce_of_present hkind (Coercion.isMissing_text hne)

theorem coerce_integer_text_iff {text : String} {i : Int32} :
    coerce .integer (.string text) = .converted (.integer i) ↔
      ∃ d, Decimal.IsSpelled text.toList d ∧ RoundsTo d.toRat i.toInt := by
  rw [← Coercion.toInteger?_text]
  by_cases hne : text = ""
  · subst hne
    -- The empty text is missing data, and it spells nothing.
    have hread : Coercion.toInteger? (.string "") = none := by
      unfold Coercion.toInteger? Coercion.number?
      rfl
    rw [hread]
    exact ⟨nofun, nofun⟩
  · rw [coerce_integer_of_ne hne]
    cases Coercion.toInteger? (.string text) with
    | none => exact ⟨nofun, nofun⟩
    | some v => simp [Coercion.ofOption]

/-- **When a text is converted to an integer**: when it spells a number which is rounded to it, where the number
may lie half of the distance to the next double away. So a text that spells an integer of 32 bits is converted
to it, whatever its digits and its power of ten; with six decimal places at most it is converted to nothing else;
and if it is not converted and not empty, it is incompatible. -/
theorem coerce_integer_text (text : String) :
    (∀ i : Int32, coerce .integer (.string text) = .converted (.integer i) ↔
      ∃ d, Decimal.IsSpelled text.toList d ∧ RoundsTo d.toRat i.toInt) ∧
    (text ≠ "" → (∃ i, coerce .integer (.string text) = .converted (.integer i)) ∨
      coerce .integer (.string text) = .incompatible) ∧
    (∀ (d : Decimal) (i : Int32), Decimal.IsSpelled text.toList d → d.toRat = i.toInt →
      coerce .integer (.string text) = .converted (.integer i)) ∧
    ∀ (d : Decimal) (i : Int32), Decimal.IsSpelled text.toList d → -6 ≤ d.exponent →
      (coerce .integer (.string text) = .converted (.integer i) ↔ d.toRat = i.toInt) := by
  have hexact : ∀ (d : Decimal) (i : Int32), Decimal.IsSpelled text.toList d → d.toRat = i.toInt →
      coerce .integer (.string text) = .converted (.integer i) := by
    intro d i hd hvalue
    apply coerce_integer_text_iff.2
    exact ⟨d, hd, hvalue ▸ RoundsTo.self i.toInt⟩
  refine ⟨fun i => coerce_integer_text_iff, ?_, hexact, ?_⟩
  · intro hne
    rw [coerce_integer_of_ne hne]
    cases hread : Coercion.toInteger? (.string text) with
    | none => exact .inr rfl
    | some v =>
      left
      have hkind := Coercion.kind_of_toInteger? hread
      cases v <;> cases hkind
      exact ⟨_, rfl⟩
  · intro d i hd hplaces
    constructor
    · intro h
      obtain ⟨d', hd', hround⟩ := coerce_integer_text_iff.1 h
      obtain rfl := Option.some.inj ((Decimal.ofText?_iff.2 hd).symm.trans (Decimal.ofText?_iff.2 hd'))
      apply Decimal.toRat_eq_of_near hplaces
      apply hround.dist_lt
      have := i.le_toInt
      have := i.toInt_lt
      omega
    · exact hexact d i hd

/-- The least integer of 32 bits with a point in its digits and a power of ten, and a text that is near to zero. -/
theorem coerce_integer_text_near :
    coerce .integer (.string "-21474836480.0e-1") = .converted (.integer (-2147483648)) ∧
      coerce .integer (.string "0.000001") ≠ .converted (.integer 0) := by
  constructor
  · obtain ⟨-, -, hexact, -⟩ := coerce_integer_text "-21474836480.0e-1"
    apply hexact ⟨true, 214748364800, -2⟩
    · exact Decimal.ofText?_iff.1 (by decide +kernel)
    · have hleast : (-2147483648 : Int32).toInt = -2147483648 := by decide
      rw [hleast]
      norm_num [Decimal.toRat, Decimal.size]
  · obtain ⟨-, -, -, hplaces⟩ := coerce_integer_text "0.000001"
    have hzero : (0 : Int32).toInt = 0 := by decide
    rw [ne_eq, hplaces ⟨false, 1, -6⟩ 0 (Decimal.ofText?_iff.1 (by decide +kernel)) le_rfl, hzero]
    norm_num [Decimal.toRat, Decimal.size]

/-- **A conversion can lose a little**: this text spells no integer, and is converted to one all the same. -/
theorem coerce_integer_text_lossy :
    coerce .integer (.string "2147483646.9999999999") = .converted (.integer 2147483647) ∧
      ¬ ∃ d, Decimal.IsSpelled "2147483646.9999999999".toList d ∧ d.toRat = 2147483647 := by
  have hread : Decimal.ofText? "2147483646.9999999999".toList = some ⟨false, 21474836469999999999, -10⟩ := by
    decide +kernel
  have hint : (Decimal.toBinary64 ⟨false, 21474836469999999999, -10⟩).toInt? = some 2147483647 := by
    decide +kernel
  constructor
  · apply coerce_integer_text_iff.2
    refine ⟨_, Decimal.ofText?_iff.1 hread, ?_⟩
    exact (Decimal.toInt?_toBinary64 (by decide)).1 hint
  · rintro ⟨d, hd, hvalue⟩
    obtain rfl := Option.some.inj (hread.symm.trans (Decimal.ofText?_iff.2 hd))
    norm_num [Decimal.toRat, Decimal.size] at hvalue

end Conformance
