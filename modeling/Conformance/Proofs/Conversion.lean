import Conformance.Proofs.JsonTrip
import Conformance.Proofs.NumberText

/-!
# Conversions lose nothing

What a boolean, an integer, a real, a UUID or a URI is converted to is converted back to an equal value.

* `Magnitude.exists_units` — the integers below 2⁵³ are magnitudes.
* `Binary64.toInt?_ofInt`, `Binary64.ofInt_equal` — integers of 32 bits become numbers and back, and numbers
  that are integers become integers and back.
* `Coercion.number?_ofInt`, `Coercion.number?_plainText` — the texts of an integer and of a finite number are
  read as that number.
* `coerce_eq_converted` — what it means that a value is converted.
* `coerce_restores` — what a value is converted to is converted back to it.
-/

set_option autoImplicit false

namespace Conformance

/-! ## Integers among the numbers -/

namespace Magnitude

/-- A magnitude is the one nearest to its own size. -/
theorem nearest?_units (m : Magnitude) : nearest? m.units 1 = some m := by
  rcases Nat.eq_zero_or_pos m.rank with hrank | hrank
  · obtain rfl : m = zero := by
      obtain ⟨rank, hlt⟩ := m
      cases hrank
      rfl
    exact nearest?_of_lt (by decide)
  · have hunits := units_pos (Nat.ne_of_gt hrank)
    exact nearest?_of_near 0 (by omega) (by omega) (by omega)

/-- The sizes of a run that is not the first. -/
theorem exists_inRun {e f : Nat} (he : e < 2046) (hf : f < runLength) :
    ∃ m : Magnitude, m.units = (runLength + f) * 2 ^ e := by
  have hrank : (e + 1) * runLength + f < count := by
    have hruns := Nat.mul_le_mul_right runLength (Nat.succ_le_of_lt he)
    exact Nat.lt_of_lt_of_le (Nat.add_lt_add_of_le_of_lt hruns hf) (by decide)
  have hdiv : ((e + 1) * runLength + f) / runLength = e + 1 := by
    rw [Nat.mul_comm, Nat.mul_add_div (by decide), Nat.div_eq_of_lt hf, Nat.add_zero]
  have hmod : ((e + 1) * runLength + f) % runLength = f := by
    rw [Nat.mul_comm, Nat.mul_add_mod, Nat.mod_eq_of_lt hf]
  have hlater : ¬ (e + 1) * runLength + f < runLength := by
    have hle : runLength ≤ (e + 1) * runLength := Nat.le_mul_of_pos_left runLength (Nat.succ_pos e)
    omega
  refine ⟨⟨_, hrank⟩, ?_⟩
  unfold units
  simp only [hdiv, hmod]
  rw [if_neg hlater, Nat.add_sub_cancel, Nat.pow_eq]

/-- The integers below 2⁵³ are magnitudes. -/
theorem exists_units {n : Nat} (h : n < 2 ^ 53) : ∃ m : Magnitude, m.units = n * unitsPerOne := by
  rcases Nat.eq_zero_or_pos n with rfl | hn
  · exact ⟨zero, by rw [Nat.zero_mul]; rfl⟩
  -- The integer is of the run of its highest binary digit, with the other digits for the fraction.
  have hne := Nat.ne_of_gt hn
  have hlow := Nat.log2_self_le hne
  have hhigh := Nat.lt_log2_self (n := n)
  have hlog := (Nat.log2_lt hne).2 h
  generalize n.log2 = e at hlow hhigh hlog
  obtain ⟨k, hk⟩ : ∃ k, e + k = 52 := ⟨52 - e, by omega⟩
  obtain ⟨r, rfl⟩ := Nat.exists_eq_add_of_le hlow
  have hrun : 2 ^ e * 2 ^ k = runLength := by rw [← Nat.pow_add, hk]
  have hfraction : r * 2 ^ k < runLength := by
    rw [← hrun]
    exact Nat.mul_lt_mul_of_pos_right (by omega) (Nat.two_pow_pos k)
  obtain ⟨m, hm⟩ := exists_inRun (e := 1022 + e) (by omega) hfraction
  have hexponent : k + (1022 + e) = 1074 := by omega
  refine ⟨m, ?_⟩
  rw [hm, ← hrun, ← Nat.add_mul, Nat.mul_assoc, ← Nat.pow_add]
  unfold unitsPerOne
  rw [← hexponent, Nat.pow_eq]

/-- The magnitude nearest to an integer that is a magnitude is that magnitude. -/
theorem nearestDecimal?_units {m : Magnitude} {n : Nat} (h : m.units = n * unitsPerOne) :
    nearestDecimal? n 0 = some m := by
  unfold nearestDecimal?
  rw [Int.neg_zero, Int.toNat_zero, Nat.pow_zero, Nat.mul_one, ← h]
  exact nearest?_units m

end Magnitude

namespace Binary64

open Magnitude

/-- The number of an integer that is a magnitude is that magnitude with its sign. -/
theorem ofInt_eq {i : Int} {m : Magnitude} (h : m.units = i.natAbs * unitsPerOne) :
    ofInt i = .finite (decide (i < 0)) m :=
  nearest_eq (h ▸ nearest?_units m)

theorem toInt?_finite {negative : Bool} {m : Magnitude} {n : Nat} (h : m.units = n * unitsPerOne) :
    (finite negative m).toInt? = some (if negative then -(n : Int) else n) := by
  unfold toInt?
  simp only [h, Nat.mul_mod_left, if_true, Nat.mul_div_cancel n unitsPerOne_pos]

/-- An integer below 2⁵³ is the integer that its number is. -/
theorem toInt?_ofInt {i : Int} (h : i.natAbs < 2 ^ 53) : (ofInt i).toInt? = some i := by
  obtain ⟨m, hm⟩ := exists_units h
  rw [ofInt_eq hm, toInt?_finite hm]
  by_cases hnegative : i < 0
  · simp only [hnegative, decide_true, if_true]
    congr 1
    omega
  · simp only [hnegative, decide_false, Bool.false_eq_true, if_false]
    congr 1
    omega

/-- A number that is an integer equals the number of that integer; the negative zero becomes the other one. -/
theorem ofInt_equal {r : Binary64} {i : Int} (h : r.toInt? = some i) : (ofInt i).equal r = true := by
  cases r with
  | nan => cases h
  | infinite => cases h
  | finite negative m =>
    unfold toInt? at h
    simp only at h
    split at h
    · rename_i hmod
      have hunits : m.units = m.units / unitsPerOne * unitsPerOne :=
        (Nat.div_mul_cancel (Nat.dvd_of_mod_eq_zero hmod)).symm
      generalize hsize : m.units / unitsPerOne = n at h hunits
      have habs : i.natAbs = n := by
        split at h <;> cases h <;> omega
      rw [ofInt_eq (habs ▸ hunits)]
      unfold equal
      rcases Nat.eq_zero_or_pos m.rank with hrank | hrank
      · simp [hrank]
      · have hpos := units_pos (Nat.ne_of_gt hrank)
        have hn : 0 < n := Nat.pos_of_ne_zero fun hzero => by
          rw [hunits, hzero, Nat.zero_mul] at hpos
          exact absurd hpos (Nat.lt_irrefl 0)
        have hsign : decide (i < 0) = negative := by
          cases negative <;> cases h <;> simp [hn]
        simp [hsign]
    · cases h

end Binary64

/-! ## Numbers in texts -/

namespace Numeral

open Scan.NumberParts

/-- Zeros behind the digits, and no point, write a numeral that has no fraction. -/
theorem plain_large {d : Numeral} (hd : d.Proper) (hplaces : d.digits.length ≤ d.point.toNat) :
    IsNumber (d.digits ++ List.replicate (d.point.toNat - d.digits.length) '0') [] ∧
      (Digits.value (d.digits ++ List.replicate (d.point.toNat - d.digits.length) '0') : ℚ) =
        d.significand * 10 ^ d.scale := by
  obtain ⟨hne, hdigits, -⟩ := (isWritten_large hd hplaces).isNumber
  refine ⟨⟨hne, hdigits, nofun⟩, ?_⟩
  have hlength := List.length_pos_of_ne_nil hd.ne_nil
  have hscale : d.scale = (d.point.toNat - d.digits.length : Nat) := by
    unfold scale
    omega
  rw [Digits.value_append, Digits.value_zeros, List.length_replicate, hscale, zpow_natCast, Nat.add_zero]
  push_cast
  rfl

/-- Plain digits write the numeral, with a fraction only where there is one. -/
theorem exists_plain {d : Numeral} (hd : d.Proper) : ∃ whole fraction, IsNumber whole fraction ∧
    (Digits.value (whole ++ fraction) : ℚ) * 10 ^ (0 - (fraction.length : Int)) =
      d.significand * 10 ^ d.scale ∧
    d.positional [] = whole ++ fractionText fraction := by
  unfold positional
  split
  · rename_i hpoint
    have hwritten := isWritten_small hd hpoint
    refine ⟨_, _, hwritten.isNumber, hwritten.value, ?_⟩
    rw [fractionText_of_ne_nil (List.append_ne_nil_of_right_ne_nil _ hd.ne_nil)]
    rfl
  · rename_i hpoint
    simp only
    split
    · rename_i hplaces
      obtain ⟨hnumber, hvalue⟩ := plain_large hd hplaces
      refine ⟨_, [], hnumber, ?_, rfl⟩
      rw [List.append_nil, List.length_nil, Nat.cast_zero, Int.sub_zero, zpow_zero, mul_one, hvalue]
    · rename_i hplaces
      have hlt : d.point.toNat < d.digits.length := Nat.not_le.1 hplaces
      have hwritten := isWritten_split hd none (by omega : 0 < d.point.toNat) (.inl hlt) (by
        unfold scale
        rw [Option.getD_none]
        omega)
      have hne : d.digits.drop d.point.toNat ≠ [] := by
        rw [ne_eq, List.drop_eq_nil_iff]
        omega
      exact ⟨_, _, hwritten.isNumber, hwritten.value, by rw [fractionText_of_ne_nil hne]⟩

end Numeral

namespace Coercion

open Scan.NumberParts Magnitude

/-- A text that writes what is rounded to a finite number is read as that number. -/
theorem number?_of {negative : Bool} {whole fraction : List Char} {m : Magnitude}
    (h : IsNumber whole fraction)
    (hnearest : nearestDecimal? (Digits.value (whole ++ fraction)) (0 - fraction.length) = some m) :
    number? (String.ofList (of negative whole fraction none).characters) = some (.finite negative m) := by
  have hread : Decimal.toBinary64 ⟨negative, Digits.value (whole ++ fraction), 0 - fraction.length⟩ =
      .finite negative m := Decimal.toBinary64_eq hnearest
  unfold number?
  rw [String.toList_ofList, Decimal.ofText?_of h, Option.map_some, Option.getD_none, hread]
  rfl

/-- The text of an integer below 2⁵³ is read as its number. -/
theorem number?_ofInt {i : Int} (h : i.natAbs < 2 ^ 53) :
    number? (String.ofList (Digits.ofInt i)) = some (.ofInt i) := by
  obtain ⟨m, hm⟩ := exists_units h
  have hnumber := Scan.isNumber_ofNat i.natAbs
  rw [Scan.ofInt_eq, Binary64.ofInt_eq hm]
  refine number?_of hnumber ?_
  rw [List.append_nil, Pointer.value_ofNat, List.length_nil, Int.natCast_zero, Int.sub_zero]
  exact nearestDecimal?_units hm

/-- **The plain text of a finite number is read as that number**, bit for bit. -/
theorem number?_plainText {r : Binary64} (h : r.isFinite = true) :
    number? (String.ofList r.plainText) = some r := by
  cases r with
  | nan => cases h
  | infinite => cases h
  | finite negative m =>
    obtain ⟨whole, fraction, hnumber, hvalue, htext⟩ := Numeral.exists_plain m.numeral_isWrittenAs.proper
    have hnearest := m.numeral_isWrittenAs.nearest
    rw [← nearestDecimal?_congr hvalue] at hnearest
    have hplain : (Binary64.finite negative m).plainText =
        (of negative whole fraction none).characters := by
      rw [characters_of]
      change Binary64.signed negative (m.numeral.positional []) = _ ++ (whole ++ (fractionText fraction ++ []))
      rw [htext, List.append_nil]
      cases negative <;> rfl
    rw [hplain]
    exact number?_of hnumber hnearest

end Coercion

/-! ## Conversions and back -/

/-- A value is converted where it is of another kind, is not missing, and has a counterpart of the kind. -/
theorem coerce_eq_converted {target : Kind} {v w : Value} : coerce target v = .converted w ↔
    v.kind ≠ target ∧ Coercion.isMissing target v = false ∧ Coercion.convert? target v = some w := by
  by_cases hkind : v.kind = target
  · simp [coerce, hkind]
  cases hmissing : Coercion.isMissing target v with
  | true => simp [coerce, hkind, hmissing]
  | false =>
    rw [coerce_of_present hkind hmissing]
    cases Coercion.convert? target v <;> simp [Coercion.ofOption, hkind]

theorem toInt_of_int32? {k : Int} {i : Int32} (h : int32? k = some i) : i.toInt = k := by
  unfold int32? at h
  split at h
  · rename_i hrange
    cases h
    exact Int32.toInt_ofInt_of_le hrange.1 (Int.lt_add_one_of_le hrange.2)
  · cases h

theorem Binary64.equal_comm (r s : Binary64) : r.equal s = s.equal r := by
  cases r <;> cases s <;> simp only [equal]
  · exact Bool.beq_comm
  · rename_i x m y n
    rw [Bool.beq_comm (a := x), Bool.eq_iff_iff]
    simp only [Bool.and_eq_true, Bool.or_eq_true, beq_iff_eq]
    constructor
    · rintro ⟨hrank, hsign⟩
      exact ⟨hrank.symm, hsign.imp_right fun h => hrank ▸ h⟩
    · rintro ⟨hrank, hsign⟩
      exact ⟨hrank.symm, hsign.imp_right fun h => hrank ▸ h⟩

namespace Coercion

variable {target : Kind} {w : Value}

/-- What has a counterpart of a kind is not missing, unless it is the empty text of a URI. -/
theorem isMissing_of_convert? {u : Value} (h : convert? target w = some u)
    (huri : target = .uri → w ≠ .string "") : isMissing target w = false := by
  cases w
  case string text =>
    by_cases hempty : text = ""
    · subst hempty
      cases target <;> first | exact absurd rfl (huri rfl) | rfl | cases h
    · exact isMissing_text hempty
  case undefined => cases target <;> cases h
  all_goals rfl

theorem toBoolean?_of_boolean {b : Bool} (h : convert? target (.boolean b) = some w) :
    toBoolean? w = some b := by
  cases target <;> cases h <;> cases b <;> decide +kernel

theorem toInteger?_of_integer {i : Int32} (h : convert? target (.integer i) = some w) :
    toInteger? w = some (.integer i) := by
  have hsmall : i.toInt.natAbs < 2 ^ 53 := by
    have := i.le_toInt
    have := i.toInt_lt
    omega
  have hback : integer? (.ofInt i.toInt) = some (.integer i) := by
    unfold integer?
    rw [Binary64.toInt?_ofInt hsmall, Option.bind_some, Scan.int32?_toInt, Option.map_some]
  cases target <;> simp only [convert?, toBoolean?, toInteger?, toReal?, toText?, toUuid?, toDate?, toUri?,
    Option.map_some, Option.map_none, Option.some.injEq, reduceCtorEq] at h
  case boolean =>
    split at h
    · rename_i hi
      cases h
      rw [hi]
      rfl
    · split at h
      · rename_i hi
        cases h
        rw [hi]
        rfl
      · cases h
  case real =>
    subst h
    exact hback
  case string =>
    subst h
    change (number? _).bind integer? = _
    rw [number?_ofInt hsmall, Option.bind_some, hback]

/-- A number is restored but for the sign of zero. -/
theorem toReal?_of_real {r : Binary64} (hfinite : target = .string → r.isFinite = true)
    (h : convert? target (.real r) = some w) : ∃ s, toReal? w = some s ∧ s.equal r = true := by
  cases target <;> simp only [convert?, toBoolean?, toInteger?, toReal?, toText?, toUuid?, toDate?, toUri?,
    Option.map_some, Option.map_none, Option.some.injEq, reduceCtorEq] at h
  case boolean =>
    split at h
    · rename_i hzero
      cases h
      exact ⟨.zero, rfl, Binary64.equal_comm _ _ ▸ hzero⟩
    · split at h
      · rename_i hone
        cases h
        exact ⟨.ofInt 1, rfl, Binary64.equal_comm _ _ ▸ hone⟩
      · cases h
  case integer =>
    obtain ⟨i, hi, rfl⟩ := Option.map_eq_some_iff.1 h
    obtain ⟨k, hk, hi⟩ := Option.bind_eq_some_iff.1 hi
    obtain rfl := toInt_of_int32? hi
    exact ⟨_, rfl, Binary64.ofInt_equal hk⟩
  case string =>
    subst h
    refine ⟨r, number?_plainText (hfinite rfl), ?_⟩
    cases r with
    | finite => simp [Binary64.equal]
    | _ => cases hfinite rfl

end Coercion

/-- The value is of a kind from which nothing is lost: a boolean, an integer, a UUID, a real, which is finite where
it becomes a text, or a URI that is not empty and is a URI reference. -/
def Value.IsTypedScalar (target : Kind) : Value → Prop
  | .boolean _ | .integer _ | .uuid _ => True
  | .real r => target = .string → r.isFinite = true
  | .uri text => text ≠ "" ∧ UriReference.isValid text.toList = true
  | _ => False

open Coercion in
/-- What such a value has for a counterpart has an equal value for its own. -/
theorem convert?_restores {target : Kind} {v w : Value} (hv : v.IsTypedScalar target)
    (h : convert? target v = some w) : ∃ u, convert? v.kind w = some u ∧ u.equal v = true := by
  cases v with
  | boolean b =>
    refine ⟨.boolean b, ?_, by simp [Value.equal]⟩
    exact congrArg (Option.map Value.boolean) (toBoolean?_of_boolean h)
  | integer i => exact ⟨.integer i, toInteger?_of_integer h, by simp [Value.equal]⟩
  | real r =>
    obtain ⟨s, hs, hequal⟩ := toReal?_of_real hv h
    exact ⟨.real s, congrArg (Option.map Value.real) hs, by simpa [Value.equal] using hequal⟩
  | uuid u =>
    cases target <;> cases h
    refine ⟨.uuid u, ?_, by simp [Value.equal]⟩
    simp [Value.kind, convert?, toUuid?, Uuid.text, Uuid.ofText?_characters]
  | uri text =>
    cases target <;> cases h
    refine ⟨.uri text, ?_, by simp [Value.equal]⟩
    simp [Value.kind, convert?, toUri?, hv.2]
  | _ => exact hv.elim

/-- **Conversions of typed scalars lose nothing.** What a boolean, an integer, a real, a UUID or a URI is converted
to is of the kind that was asked for, conforms to it as it is, and is converted back to a value that equals the
first one. -/
theorem coerce_restores {target : Kind} {v w : Value} (hv : v.IsTypedScalar target)
    (h : coerce target v = .converted w) : w.kind = target ∧ coerce target w = .matched ∧
      ∃ u, coerce v.kind w = .converted u ∧ u.equal v = true := by
  obtain ⟨hkind, -, hw⟩ := coerce_eq_converted.1 h
  have htarget := Coercion.kind_of_convert? hw
  obtain ⟨u, hu, hequal⟩ := convert?_restores hv hw
  refine ⟨htarget, coerce_eq_matched.2 htarget, u, coerce_eq_converted.2 ⟨?_, ?_, hu⟩, hequal⟩
  · exact fun heq => hkind (heq.symm.trans htarget)
  · refine Coercion.isMissing_of_convert? hu fun huri hempty => ?_
    -- The only value of the kind of URIs is a URI, the text of which is not empty.
    cases v <;> cases huri
    cases target <;> cases hw
    exact hv.1 (Value.string.inj hempty)

/-- The smallest integer of 32 bits as a text, and the negative zero, which comes back as the positive one. -/
theorem coerce_restores_extremes :
    (∃ u, coerce .string (.integer (-2147483648)) = .converted (.string "-2147483648") ∧
      coerce .integer (.string "-2147483648") = .converted u ∧ u.equal (.integer (-2147483648)) = true) ∧
    ∃ u, coerce .integer (.real (.finite true .zero)) = .converted (.integer 0) ∧
      coerce .real (.integer 0) = .converted u ∧ u.equal (.real (.finite true .zero)) = true := by
  have hinteger : coerce .string (.integer (-2147483648)) = .converted (.string "-2147483648") := rfl
  have hreal : coerce .integer (.real (.finite true .zero)) = .converted (.integer 0) := by
    have hzero : (Binary64.finite true .zero).toInt? = some 0 := by decide +kernel
    have hconvert : Coercion.integer? (.finite true .zero) = some (.integer 0) := by
      unfold Coercion.integer?
      rw [hzero]
      rfl
    exact coerce_eq_converted.2 ⟨by decide, rfl, hconvert⟩
  have htyped : Value.IsTypedScalar .string (.integer (-2147483648)) := trivial
  have hfinite : Value.IsTypedScalar .integer (.real (.finite true .zero)) := fun _ => rfl
  obtain ⟨-, -, u, hu, hequal⟩ := coerce_restores htyped hinteger
  obtain ⟨-, -, s, hs, hsame⟩ := coerce_restores hfinite hreal
  exact ⟨⟨u, hinteger, hu, hequal⟩, s, hreal, hs, hsame⟩

end Conformance
