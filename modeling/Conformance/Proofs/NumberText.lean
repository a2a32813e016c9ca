import Conformance.Proofs.Rounding
import Conformance.Syntax.Scan

/-!
# Number literals read back

The literals of integers and of finite double-precision numbers, as they are written where a delimiter
follows, are found by the reader up to their end and read as the numbers they were written for.

* `Delimited` — what a name or a number may be followed by where it is written.
* `Scan.NumberParts.of` — the parts of a number, which are found as they are put together
  (`Scan.NumberParts.ofText_of`) and read as the numeral of their digits (`Decimal.ofText?_of`).
* `Numeral.IsWritten` — the layouts of a numeral, which do not change what it stands for.
* `Scan.number_literalText`, `Scan.number_ofInt` — reals and integers read back.
-/

set_option autoImplicit false

namespace Conformance

/-! ## Runs of characters -/

/-- The text does not begin with a character of the sort. -/
def Stops (p : Char → Bool) (text : List Char) : Prop := ∀ c, text.head? = some c → p c = false

namespace Stops

variable {p : Char → Bool} {run rest : List Char}

theorem nil : Stops p [] := nofun

theorem cons {c : Char} (h : p c = false) : Stops p (c :: rest) := fun _ hd => Option.some.inj hd ▸ h

theorem takeWhile (h : Stops p rest) : rest.takeWhile p = [] := by
  cases rest with
  | nil => rfl
  | cons c rest => rw [List.takeWhile_cons_of_neg (by rw [h c rfl]; decide)]

theorem dropWhile (h : Stops p rest) : rest.dropWhile p = rest := by
  cases rest with
  | nil => rfl
  | cons c rest => rw [List.dropWhile_cons_of_neg (by rw [h c rfl]; decide)]

theorem takeWhile_append (hrun : ∀ c ∈ run, p c = true) (h : Stops p rest) :
    (run ++ rest).takeWhile p = run := by
  rw [List.takeWhile_append_of_pos hrun, h.takeWhile, List.append_nil]

theorem dropWhile_append (hrun : ∀ c ∈ run, p c = true) (h : Stops p rest) :
    (run ++ rest).dropWhile p = rest := by
  rw [List.dropWhile_append_of_pos hrun, h.dropWhile]

end Stops

/-- The characters that a name or a number may be followed by where it is written. -/
def delimiters : List Char := [' ', '\n', ',', ':', '?']

/-- The text is at its end or goes on with a delimiter. -/
def Delimited (text : List Char) : Prop := ∀ c, text.head? = some c → c ∈ delimiters

theorem Delimited.nil : Delimited [] := nofun

theorem Delimited.cons {c : Char} {rest : List Char} (h : c ∈ delimiters) : Delimited (c :: rest) :=
  fun _ hd => Option.some.inj hd ▸ h

theorem Delimited.stops {p : Char → Bool} {rest : List Char} (h : Delimited rest)
    (hp : (delimiters.all fun c => !p c) = true) : Stops p rest := by
  intro c hc
  have hnot := List.all_eq_true.1 hp c (h c hc)
  simpa using hnot

/-! ## Integers -/

namespace Digits

theorem ofInt_cons (i : Int) : ∃ c digits, ofInt i = c :: digits ∧ (c.isDigit = true ∨ c = '-') ∧
    ∀ d ∈ digits, d.isDigit = true := by
  unfold ofInt
  split
  · exact ⟨_, _, rfl, .inr rfl, fun d hd => isDigit_ofNat hd⟩
  · cases h : ofNat i.natAbs with
    | nil => exact absurd h Nat.toDigits_ne_nil
    | cons c digits =>
      have hall : ∀ d ∈ c :: digits, d.isDigit = true := fun d hd => isDigit_ofNat (h ▸ hd)
      exact ⟨c, digits, rfl, .inl (hall c List.mem_cons_self),
        fun d hd => hall d (List.mem_cons_of_mem _ hd)⟩

end Digits

/-- A digit is not a sign. -/
theorem takeSign_of_digit {c : Char} {rest : List Char} (h : c.isDigit = true) :
    Decimal.takeSign (c :: rest) = (false, c :: rest) := by
  unfold Decimal.takeSign
  split
  · rename_i heq
    cases heq
    exact absurd h (by decide)
  · rename_i heq
    cases heq
    exact absurd h (by decide)
  · rfl

theorem takeSign_ofNat (n : Nat) : Decimal.takeSign (Digits.ofNat n) = (false, Digits.ofNat n) := by
  cases h : Digits.ofNat n with
  | nil => rfl
  | cons c rest => exact takeSign_of_digit (Digits.isDigit_ofNat (n := n) (h ▸ List.mem_cons_self))

/-! ## The parts of a number -/

namespace Scan.NumberParts

/-- The characters of a fraction. -/
def fractionText (digits : List Char) : List Char := if digits = [] then [] else '.' :: digits

/-- The characters of an exponent. -/
def exponentText : Option Int → List Char
  | none => []
  | some e => 'e' :: Digits.ofInt e

/-- The parts of a number, by the digits before and after the point and the power of ten. -/
def of (negative : Bool) (whole fraction : List Char) (exponent? : Option Int) : NumberParts where
  sign := if negative then ['-'] else []
  whole := whole
  fraction := fractionText fraction
  exponent := exponentText exponent?

variable {p : Char → Bool} {digits rest : List Char}

theorem stops_fractionText (hp : p '.' = false) (h : Stops p rest) :
    Stops p (fractionText digits ++ rest) := by
  unfold fractionText
  split
  · exact h
  · exact .cons hp

theorem stops_exponentText {exponent? : Option Int} (hp : p 'e' = false) (h : Stops p rest) :
    Stops p (exponentText exponent? ++ rest) := by
  cases exponent? with
  | none => exact h
  | some e => exact .cons hp

theorem fractionOf_fractionText (hdigits : ∀ c ∈ digits, c.isDigit = true)
    (hpoint : Stops (· == '.') rest) (h : Stops Char.isDigit rest) :
    fractionOf (fractionText digits ++ rest) = fractionText digits := by
  unfold fractionText
  split
  · rw [List.nil_append]
    unfold fractionOf
    split
    · exact absurd (hpoint '.' rfl) (by decide)
    · rfl
  · rename_i hne
    change (if ((digits ++ rest).takeWhile Char.isDigit).isEmpty then []
      else '.' :: (digits ++ rest).takeWhile Char.isDigit) = _
    rw [Stops.takeWhile_append hdigits h, if_neg (by rw [List.isEmpty_iff]; exact hne)]

theorem exponentOf_exponentText {exponent? : Option Int} (hmark : Stops (fun c => c == 'e' || c == 'E') rest)
    (h : Stops Char.isDigit rest) :
    exponentOf (exponentText exponent? ++ rest) = exponentText exponent? := by
  cases exponent? with
  | none =>
    change exponentOf rest = []
    unfold exponentOf
    split
    · rename_i e c rest
      have he := hmark e rfl
      rw [if_neg (fun hc => ?_)]
      simp_all
    · rfl
  | some e =>
    obtain ⟨c, digits, hc, hfirst, hdigits⟩ := Digits.ofInt_cons e
    change exponentOf ('e' :: (Digits.ofInt e ++ rest)) = 'e' :: Digits.ofInt e
    rw [hc]
    change (if _ then 'e' :: c :: (digits ++ rest).takeWhile Char.isDigit else []) = _
    rw [Stops.takeWhile_append hdigits h, if_pos]
    refine ⟨.inl rfl, ?_⟩
    rcases hfirst with hfirst | rfl
    · exact .inl hfirst
    · exact .inr (.inr rfl)

/-- The digits of a number, at least one of them before the point. -/
structure IsNumber (whole fraction : List Char) : Prop where
  ne_nil : whole ≠ []
  whole : ∀ c ∈ whole, c.isDigit = true
  fraction : ∀ c ∈ fraction, c.isDigit = true

variable {negative : Bool} {whole fraction : List Char} {exponent? : Option Int}

theorem characters_of : (of negative whole fraction exponent?).characters =
    (if negative then ['-'] else []) ++
      (whole ++ (fractionText fraction ++ exponentText exponent?)) := by
  change _ ++ whole ++ fractionText fraction ++ exponentText exponent? = _
  rw [List.append_assoc, List.append_assoc]
  rfl

/-- A number that is followed by a delimiter is found as it was written. -/
theorem ofText_of (h : IsNumber whole fraction) (hrest : Delimited rest) :
    ofText ((of negative whole fraction exponent?).characters ++ rest) =
      of negative whole fraction exponent? := by
  have hdigit : Stops Char.isDigit rest := hrest.stops (by decide)
  have hsign : Stops (· == '-')
      (whole ++ (fractionText fraction ++ (exponentText exponent? ++ rest))) := by
    cases whole with
    | nil => exact absurd rfl h.ne_nil
    | cons c whole =>
      refine .cons ?_
      have hc := h.whole c List.mem_cons_self
      refine beq_eq_false_iff_ne.2 ?_
      rintro rfl
      exact absurd hc (by decide)
  have hminus : ∀ c ∈ (if negative then ['-'] else []), (c == '-') = true := by
    cases negative <;> simp
  have hexponent : Stops Char.isDigit (exponentText exponent? ++ rest) :=
    stops_exponentText (by decide) hdigit
  rw [characters_of, List.append_assoc, List.append_assoc, List.append_assoc]
  unfold ofText
  simp only [Stops.takeWhile_append hminus hsign, List.drop_left,
    Stops.takeWhile_append h.whole (stops_fractionText (by decide) hexponent),
    fractionOf_fractionText h.fraction (stops_exponentText (by decide) (hrest.stops (by decide)))
      hexponent,
    exponentOf_exponentText (hrest.stops (by decide)) hdigit]
  rfl

end Scan.NumberParts

namespace Decimal

open Scan.NumberParts

theorem exponentOf?_exponentText (exponent? : Option Int) :
    exponentOf? (exponentText exponent?) = some (exponent?.getD 0) := by
  cases exponent? with
  | none => rfl
  | some e =>
    have hne : Digits.ofNat e.natAbs ≠ [] := Nat.toDigits_ne_nil
    have hall : (Digits.ofNat e.natAbs).all Char.isDigit = true :=
      List.all_eq_true.2 fun c hc => Digits.isDigit_ofNat hc
    have hsign : takeSign (Digits.ofInt e) = (decide (e < 0), Digits.ofNat e.natAbs) := by
      unfold Digits.ofInt
      split
      · rename_i he
        rw [decide_eq_true he]
        rfl
      · rename_i he
        rw [takeSign_ofNat, decide_eq_false he]
    unfold exponentText exponentOf?
    simp only [hsign, hall, hne, Pointer.value_ofNat, true_or, ne_eq, not_false_eq_true,
      and_self, if_true, Option.getD_some]
    split
    · rename_i he
      have := of_decide_eq_true he
      congr 1
      omega
    · rename_i he
      have : ¬ e < 0 := fun h => he (decide_eq_true h)
      congr 1
      omega

variable {negative : Bool} {whole fraction : List Char} {exponent? : Option Int}

/-- A number is read as the numeral of its digits. -/
theorem ofText?_of (h : IsNumber whole fraction) :
    ofText? (of negative whole fraction exponent?).characters =
      some ⟨negative, Digits.value (whole ++ fraction),
        exponent?.getD 0 - fraction.length⟩ := by
  have hsign : takeSign (of negative whole fraction exponent?).characters =
      (negative, whole ++ (fractionText fraction ++ exponentText exponent?)) := by
    rw [characters_of]
    cases negative with
    | true => rfl
    | false =>
      cases whole with
      | nil => exact absurd rfl h.ne_nil
      | cons c whole => exact takeSign_of_digit (h.whole c List.mem_cons_self)
  have hexponent : Stops Char.isDigit (exponentText exponent?) := by
    cases exponent? with
    | none => exact .nil
    | some e => exact .cons (by decide)
  have hwhole : Stops Char.isDigit (fractionText fraction ++ exponentText exponent?) :=
    stops_fractionText (by decide) hexponent
  have hempty : (whole ++ fraction).isEmpty = false := by
    cases whole with
    | nil => exact absurd rfl h.ne_nil
    | cons c whole => rfl
  unfold ofText?
  simp only [hsign, Stops.takeWhile_append h.whole hwhole, Stops.dropWhile_append h.whole hwhole]
  cases fraction with
  | nil =>
    have hplain : (whole ++ []).isEmpty = false := hempty
    cases exponent? with
    | none =>
      change (if (whole ++ []).isEmpty then none else (exponentOf? (exponentText none)).map _) = _
      rw [hplain, exponentOf?_exponentText]
      rfl
    | some e =>
      change (if (whole ++ []).isEmpty then none else (exponentOf? (exponentText (some e))).map _) = _
      rw [hplain, exponentOf?_exponentText]
      rfl
  | cons c fraction =>
    have htake := Stops.takeWhile_append h.fraction hexponent
    have hdrop := Stops.dropWhile_append h.fraction hexponent
    unfold fractionText
    rw [if_neg (List.cons_ne_nil c fraction), List.cons_append]
    simp only [htake, hdrop, hempty, exponentOf?_exponentText, Option.map_some]
    rfl

end Decimal

/-! ## Literals -/

namespace Numeral

open Scan.NumberParts

/-- The digits before and after the point and the power of ten write the numeral, and not as an
integer. -/
structure IsWritten (d : Numeral) (whole fraction : List Char) (exponent? : Option Int) : Prop where
  isNumber : IsNumber whole fraction
  not_integer : fraction ≠ [] ∨ exponent?.isSome = true
  value : (Digits.value (whole ++ fraction) : ℚ) * 10 ^ (exponent?.getD 0 - fraction.length) =
    d.significand * 10 ^ d.scale

variable {d : Numeral}

theorem isDigit_zeros {k : Nat} {c : Char} (h : c ∈ List.replicate k '0') : c.isDigit = true := by
  rw [(List.mem_replicate.1 h).2]
  rfl

theorem value_zeros_append (k : Nat) (digits : List Char) :
    Digits.value (List.replicate k '0' ++ digits) = Digits.value digits := by
  rw [Digits.value_append, Digits.value_zeros, Nat.zero_mul, Nat.zero_add]

/-- Zeros before the digits, the first of them before the point. -/
theorem isWritten_small (hd : d.Proper) (hpoint : d.point ≤ 0) :
    d.IsWritten ['0'] (List.replicate (-d.point).toNat '0' ++ d.digits) none := by
  refine ⟨⟨List.cons_ne_nil _ _, fun c hc => ?_, fun c hc => ?_⟩, .inl ?_, ?_⟩
  · exact isDigit_zeros (k := 1) hc
  · exact (List.mem_append.1 hc).elim isDigit_zeros (hd.isDigit c)
  · exact List.append_ne_nil_of_right_ne_nil _ hd.ne_nil
  · have hvalue : Digits.value (['0'] ++ (List.replicate (-d.point).toNat '0' ++ d.digits)) =
        d.significand := by
      change Digits.value (List.replicate 1 '0' ++ _) = _
      rw [value_zeros_append, value_zeros_append]
      rfl
    have hexponent : 0 - ((List.replicate (-d.point).toNat '0' ++ d.digits).length : Int) = d.scale := by
      unfold scale
      rw [List.length_append, List.length_replicate]
      omega
    rw [hvalue, Option.getD_none, hexponent]

/-- Zeros behind the digits, and one behind the point. -/
theorem isWritten_large (hd : d.Proper) (hplaces : d.digits.length ≤ d.point.toNat) :
    d.IsWritten (d.digits ++ List.replicate (d.point.toNat - d.digits.length) '0') ['0'] none := by
  refine ⟨⟨?_, fun c hc => ?_, fun c hc => ?_⟩, .inl (List.cons_ne_nil _ _), ?_⟩
  · exact List.append_ne_nil_of_left_ne_nil hd.ne_nil _
  · exact (List.mem_append.1 hc).elim (hd.isDigit c) isDigit_zeros
  · exact isDigit_zeros (k := 1) hc
  · have hlength := List.length_pos_of_ne_nil hd.ne_nil
    have hscale : d.scale = (d.point.toNat - d.digits.length : Nat) := by
      unfold scale
      omega
    have hvalue : Digits.value
        (d.digits ++ List.replicate (d.point.toNat - d.digits.length) '0' ++ ['0']) =
        d.significand * 10 ^ (d.point.toNat - d.digits.length) * 10 := by
      rw [Digits.value_append, Digits.value_append, Digits.value_zeros, List.length_replicate]
      rfl
    have hexponent : 0 - ((['0'] : List Char).length : Int) = -1 := rfl
    rw [hvalue, Option.getD_none, hexponent, hscale, zpow_natCast, zpow_neg_one]
    push_cast
    rw [mul_assoc, mul_inv_cancel₀ (by norm_num), mul_one]

/-- A point somewhere among the digits, with the power of ten that makes up for it. -/
theorem isWritten_split (hd : d.Proper) {places : Nat} (exponent? : Option Int) (hpos : 0 < places)
    (hsome : places < d.digits.length ∨ exponent?.isSome = true)
    (hexponent : exponent?.getD 0 - (d.digits.length - places : Nat) = d.scale) :
    d.IsWritten (d.digits.take places) (d.digits.drop places) exponent? := by
  have hlength := List.length_pos_of_ne_nil hd.ne_nil
  refine ⟨⟨fun hnil => ?_, fun c hc => ?_, fun c hc => ?_⟩, hsome.imp_left fun h hnil => ?_, ?_⟩
  · have := congrArg List.length hnil
    rw [List.length_take, List.length_nil] at this
    omega
  · exact hd.isDigit c (List.mem_of_mem_take hc)
  · exact hd.isDigit c (List.mem_of_mem_drop hc)
  · have := congrArg List.length hnil
    rw [List.length_drop, List.length_nil] at this
    omega
  · rw [List.take_append_drop, List.length_drop, hexponent]
    rfl

theorem fractionText_of_ne_nil {digits : List Char} (h : digits ≠ []) :
    fractionText digits = '.' :: digits := if_neg h

theorem exists_positional (hd : d.Proper) : ∃ whole fraction, d.IsWritten whole fraction none ∧
    d.positional ".0".toList = whole ++ fractionText fraction := by
  unfold positional
  split
  · rename_i hpoint
    refine ⟨_, _, isWritten_small hd hpoint, ?_⟩
    rw [fractionText_of_ne_nil (List.append_ne_nil_of_right_ne_nil _ hd.ne_nil)]
    rfl
  · rename_i hpoint
    simp only
    split
    · rename_i hplaces
      exact ⟨_, _, isWritten_large hd hplaces, by rw [fractionText_of_ne_nil (List.cons_ne_nil _ _)]; rfl⟩
    · rename_i hplaces
      have hlt : d.point.toNat < d.digits.length := Nat.not_le.1 hplaces
      refine ⟨_, _, isWritten_split hd none (by omega) (.inl hlt) ?_, ?_⟩
      · unfold scale
        rw [Option.getD_none]
        omega
      · have hne : d.digits.drop d.point.toNat ≠ [] := by
          intro hnil
          have := congrArg List.length hnil
          rw [List.length_drop, List.length_nil] at this
          omega
        rw [fractionText_of_ne_nil hne]

theorem exists_scientific (hd : d.Proper) : ∃ whole fraction e, d.IsWritten whole fraction (some e) ∧
    d.scientific = whole ++ (fractionText fraction ++ exponentText (some e)) := by
  have hlength := List.length_pos_of_ne_nil hd.ne_nil
  refine ⟨_, _, d.point - 1, isWritten_split hd (some (d.point - 1)) Nat.one_pos (.inr rfl) ?_, ?_⟩
  · unfold scale
    rw [Option.getD_some]
    omega
  · unfold scientific fractionText
    simp only [List.isEmpty_iff, List.append_assoc]
    rfl

end Numeral

open Scan.NumberParts Magnitude in
/-- The literal of a finite number is the text of a number with a fraction or an exponent, the digits of
which are rounded to it. -/
theorem Binary64.exists_literalText (negative : Bool) (m : Magnitude) :
    ∃ whole fraction exponent?, m.numeral.IsWritten whole fraction exponent? ∧
      (finite negative m).literalText = (of negative whole fraction exponent?).characters := by
  have hproper := m.numeral_isWrittenAs.proper
  have hsigned : ∀ text, signed negative text = (if negative then ['-'] else []) ++ text := by
    cases negative <;> exact fun _ => rfl
  change ∃ whole fraction exponent?, _ ∧ signed negative _ = _
  split
  · obtain ⟨whole, fraction, hwritten, htext⟩ := Numeral.exists_positional hproper
    refine ⟨whole, fraction, none, hwritten, ?_⟩
    rw [hsigned, htext, characters_of]
    change _ = _ ++ (whole ++ (fractionText fraction ++ []))
    rw [List.append_nil]
  · obtain ⟨whole, fraction, e, hwritten, htext⟩ := Numeral.exists_scientific hproper
    refine ⟨whole, fraction, some e, hwritten, ?_⟩
    rw [hsigned, htext, characters_of]

namespace Scan

open NumberParts

theorem number_of {negative : Bool} {whole fraction rest : List Char} {exponent? : Option Int}
    {t : Token} (h : IsNumber whole fraction) (hrest : Delimited rest)
    (ht : (of negative whole fraction exponent?).token = .ok t) :
    number ((of negative whole fraction exponent?).characters ++ rest) =
      token (of negative whole fraction exponent?).characters.length t := by
  unfold number
  simp only [ofText_of h hrest, ht]
  rfl

/-- **The literal of a finite number reads back as it**, where a delimiter follows. -/
theorem number_literalText {r : Binary64} (hr : r.isFinite = true) {rest : List Char}
    (hrest : Delimited rest) :
    number (r.literalText ++ rest) = token r.literalText.length (.real r) := by
  cases r with
  | nan => cases hr
  | infinite => cases hr
  | finite negative m =>
    obtain ⟨whole, fraction, exponent?, hwritten, htext⟩ := Binary64.exists_literalText negative m
    have hnearest := m.numeral_isWrittenAs.nearest
    rw [← Magnitude.nearestDecimal?_congr hwritten.value] at hnearest
    have hinteger : (of negative whole fraction exponent?).isInteger = false := by
      unfold isInteger of fractionText
      rcases hwritten.not_integer with hne | hsome
      · rw [if_neg hne]
        rfl
      · obtain ⟨e, rfl⟩ := Option.isSome_iff_exists.1 hsome
        exact Bool.and_false _
    have hnumber : Decimal.toBinary64 ⟨negative, Digits.value (whole ++ fraction),
        exponent?.getD 0 - fraction.length⟩ = .finite negative m := Decimal.toBinary64_eq hnearest
    rw [htext]
    refine number_of hwritten.isNumber hrest ?_
    unfold NumberParts.token
    rw [hinteger, Decimal.ofText?_of hwritten.isNumber]
    simp only [hnumber]
    rfl

theorem int32?_toInt (i : Int32) : int32? i.toInt = some i := by
  unfold int32?
  rw [if_pos ⟨i.le_toInt, Int.le_of_lt_add_one i.toInt_lt⟩, Int32.ofInt_toInt]

theorem isNumber_ofNat (n : Nat) : IsNumber (Digits.ofNat n) [] :=
  ⟨Nat.toDigits_ne_nil, fun _ hc => Digits.isDigit_ofNat hc, nofun⟩

theorem ofInt_eq (i : Int) :
    Digits.ofInt i = (of (decide (i < 0)) (Digits.ofNat i.natAbs) [] none).characters := by
  rw [characters_of]
  change _ = _ ++ (_ ++ [])
  rw [List.append_nil]
  unfold Digits.ofInt
  by_cases hnegative : i < 0
  · rw [if_pos hnegative, decide_eq_true hnegative]
    rfl
  · rw [if_neg hnegative, decide_eq_false hnegative]
    rfl

/-- **An integer reads back as it is written**, where a delimiter follows. -/
theorem number_ofInt (i : Int32) {rest : List Char} (hrest : Delimited rest) :
    number (Digits.ofInt i.toInt ++ rest) = token (Digits.ofInt i.toInt).length (.integer i) := by
  have hvalue : (of (decide (i.toInt < 0)) (Digits.ofNat i.toInt.natAbs) [] none).integer = i.toInt := by
    unfold integer of
    simp only [Pointer.value_ofNat]
    by_cases hnegative : i.toInt < 0
    · rw [decide_eq_true hnegative, if_pos rfl, List.isEmpty_cons, if_neg Bool.false_ne_true]
      omega
    · rw [decide_eq_false hnegative, if_neg Bool.false_ne_true, List.isEmpty_nil, if_pos rfl]
      omega
  rw [ofInt_eq]
  refine number_of (isNumber_ofNat _) hrest ?_
  unfold NumberParts.token
  rw [hvalue, int32?_toInt]
  rfl

end Scan

end Conformance
