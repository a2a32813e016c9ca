import Conformance.Binary64.Text
import Conformance.Decimal
import Conformance.Proofs.Pointer
import Mathlib.Algebra.Order.Field.Power
import Mathlib.Tactic.Linarith
import Mathlib.Tactic.FieldSimp

/-!
# The digits of a double-precision number read back as it

A number is written with digits that are rounded to it, and a numeral is read as the number that it is
rounded to. So what is written reads back as what it was, bit for bit.

* `Magnitude.nearest?_of_near` — what is near enough to a magnitude is rounded to it.
* `Magnitude.nearestDecimal?` — the magnitude nearest to a number times a power of ten, which depends on
  the product alone (`Magnitude.nearestDecimal?_congr`).
* `Magnitude.exists_seventeen` — seventeen digits are always enough.
* `Magnitude.numeral_isWrittenAs` — the digits of a magnitude are rounded to it.
* `Decimal.toBinary64_eq` — a numeral is read as the number that it is rounded to.
-/

set_option autoImplicit false

namespace Conformance

/-! ## Digits -/

namespace Digits

theorem length_ofNat_pos (n : Nat) : 0 < (ofNat n).length := Nat.length_toDigits_pos

theorem lt_pow_length (n : Nat) : n < 10 ^ (ofNat n).length :=
  (Nat.length_toDigits_le_iff (by decide) (length_ofNat_pos n)).1 (Nat.le_refl _)

theorem pow_length_le {n : Nat} (h : n ≠ 0) : 10 ^ ((ofNat n).length - 1) ≤ n := by
  rcases Nat.eq_zero_or_pos ((ofNat n).length - 1) with hzero | hpos
  · rw [hzero, Nat.pow_zero]
    exact Nat.one_le_iff_ne_zero.2 h
  · refine Nat.not_lt.1 fun hlt => ?_
    have hle : (ofNat n).length ≤ (ofNat n).length - 1 :=
      (Nat.length_toDigits_le_iff (by decide) hpos).2 hlt
    omega

theorem isDigit_ofNat {n : Nat} {c : Char} (h : c ∈ ofNat n) : c.isDigit = true :=
  Nat.isDigit_of_mem_toDigits (by decide) (by decide) h

theorem value_append (s t : List Char) : value (s ++ t) = value s * 10 ^ t.length + value t := by
  unfold value
  rw [← Nat.ofDigitChars_eq_foldl, ← Nat.ofDigitChars_eq_foldl, ← Nat.ofDigitChars_eq_foldl,
    Nat.ofDigitChars_append, Nat.ofDigitChars_eq_ofDigitChars_zero, Nat.mul_comm]

theorem value_zeros (k : Nat) : value (List.replicate k '0') = 0 := by
  unfold value
  rw [← Nat.ofDigitChars_eq_foldl, Nat.ofDigitChars_replicate_zero, Nat.mul_zero]

end Digits

namespace Numeral

/-- The number that the digits write. -/
def significand (d : Numeral) : Nat := Digits.value d.digits

/-- The power of ten that the number of the digits is multiplied by. -/
def scale (d : Numeral) : Int := d.point - d.digits.length

/-- The digits are digits, and there are some. -/
structure Proper (d : Numeral) : Prop where
  ne_nil : d.digits ≠ []
  isDigit : ∀ c ∈ d.digits, c.isDigit = true

/-- Only zeros are left out at the end. -/
theorem exists_zeros (n : Nat) (scale : Int) :
    ∃ k, Digits.ofNat n = (ofScaled n scale).digits ++ List.replicate k '0' := by
  have hsplit := congrArg List.reverse
    (List.takeWhile_append_dropWhile (p := (· == '0')) (l := (Digits.ofNat n).reverse))
  rw [List.reverse_append, List.reverse_reverse] at hsplit
  have hzeros : ((Digits.ofNat n).reverse.takeWhile (· == '0')).reverse =
      List.replicate ((Digits.ofNat n).reverse.takeWhile (· == '0')).length '0' := by
    refine List.eq_replicate_iff.2 ⟨List.length_reverse, fun c hc => ?_⟩
    have hall := List.all_takeWhile (p := (· == '0')) (l := (Digits.ofNat n).reverse)
    exact eq_of_beq (List.all_eq_true.1 hall c (List.mem_reverse.1 hc))
  exact ⟨_, by rw [← hzeros]; exact hsplit.symm⟩

theorem proper_ofScaled {n : Nat} (hn : n ≠ 0) (scale : Int) : (ofScaled n scale).Proper := by
  obtain ⟨k, hk⟩ := exists_zeros n scale
  refine ⟨fun hnil => hn ?_, fun c hc => ?_⟩
  · rw [hnil, List.nil_append] at hk
    rw [← Pointer.value_ofNat n, hk, Digits.value_zeros]
  · exact Digits.isDigit_ofNat (n := n) (hk ▸ List.mem_append_left _ hc)

theorem ofScaled_eq (n : Nat) (scale : Int) :
    ((ofScaled n scale).significand : ℚ) * 10 ^ (ofScaled n scale).scale = n * 10 ^ scale := by
  obtain ⟨k, hk⟩ := exists_zeros n scale
  have hvalue := congrArg Digits.value hk
  rw [Pointer.value_ofNat, Digits.value_append, Digits.value_zeros, List.length_replicate,
    Nat.add_zero] at hvalue
  have hlength := congrArg List.length hk
  rw [List.length_append, List.length_replicate] at hlength
  have hscale : (ofScaled n scale).scale = (k : Int) + scale := by
    change ((Digits.ofNat n).length : Int) + scale - _ = _
    omega
  have hn : (n : ℚ) = (ofScaled n scale).significand * 10 ^ k := by
    exact_mod_cast hvalue
  rw [hscale, zpow_add₀ (by norm_num), zpow_natCast, hn, mul_assoc]

end Numeral

namespace Magnitude

/-! ## Rounding to a natural number -/

/-- A quotient less than a half away from a natural number is rounded to it. -/
theorem roundHalfEven_of_near {a d n : Nat} (hlow : 2 * (n * d) < 2 * a + d)
    (hhigh : 2 * a < 2 * (n * d) + d) : roundHalfEven a d = n := by
  have hd : 0 < d := by omega
  have hdiv := Nat.div_add_mod a d
  have hmod := Nat.mod_lt a hd
  unfold roundHalfEven
  simp only
  generalize a / d = q at hdiv ⊢
  generalize a % d = r at hdiv hmod ⊢
  rw [Nat.mul_comm d q] at hdiv
  rcases Nat.lt_trichotomy q n with hlt | rfl | hgt
  · obtain ⟨k, rfl⟩ := Nat.exists_eq_add_of_lt hlt
    rw [Nat.add_mul, Nat.add_mul, Nat.one_mul] at hlow
    have hk : k * d < d := by omega
    have hk : k = 0 := by
      rcases Nat.eq_zero_or_pos k with hk | hk
      · exact hk
      · exact absurd (Nat.le_mul_of_pos_left d hk) (Nat.not_le.2 ‹_›)
    subst hk
    rw [Nat.zero_mul] at hlow
    rw [if_neg (by omega), if_pos (by omega)]
  · rw [if_pos (by omega)]
  · obtain ⟨k, rfl⟩ := Nat.exists_eq_add_of_lt hgt
    rw [Nat.add_mul, Nat.add_mul, Nat.one_mul] at hdiv
    omega

theorem roundHalfEven_mul_right {c : Nat} (hc : 0 < c) (a d : Nat) :
    roundHalfEven (a * c) (d * c) = roundHalfEven a d := by
  have hlt : ∀ x y, x * c < y * c ↔ x < y := fun _ _ => Nat.mul_lt_mul_right hc
  unfold roundHalfEven
  simp only [Nat.mul_div_mul_right a d hc, Nat.mul_mod_mul_right, ← Nat.mul_assoc, hlt]

/-! ## Rounding to a magnitude -/

/-- The nearest magnitude does not depend on how the quotient is written. -/
theorem nearest?_mul_right {c : Nat} (hc : 0 < c) (a b : Nat) :
    nearest? (a * c) (b * c) = nearest? a b := by
  unfold nearest?
  simp only [Nat.mul_div_mul_right a b hc, Nat.mul_right_comm b c, roundHalfEven_mul_right hc]

theorem nearest?_of_cross {a b c d : Nat} (hb : 0 < b) (hd : 0 < d) (h : a * d = c * b) :
    nearest? a b = nearest? c d := by
  rw [← nearest?_mul_right hd a b, ← nearest?_mul_right hb c d, h, Nat.mul_comm b d]

/-- The step that the nearest magnitude is found with: one unit for quotients below 2⁵³, and otherwise
the one that leaves 53 binary digits. -/
theorem shift_eq {a b shift step : Nat} (hstep : b * 2 ^ shift = step) (hb : 0 < b)
    (hlow : shift = 0 ∨ 2 ^ 52 * step ≤ a) (hhigh : a < 2 ^ 53 * step) :
    (a / b).log2 - 52 = shift := by
  have hpow : ∀ j, 2 ^ (j + shift) * b = 2 ^ j * step := fun j => by
    rw [← hstep, Nat.pow_add, Nat.mul_assoc, Nat.mul_comm b]
  have hlt : a / b < 2 ^ (53 + shift) := by
    rw [Nat.div_lt_iff_lt_mul hb, hpow]
    exact hhigh
  have hge : shift = 0 ∨ 2 ^ (52 + shift) ≤ a / b := by
    rw [Nat.le_div_iff_mul_le hb, hpow]
    exact hlow
  rcases Nat.eq_zero_or_pos (a / b) with hzero | hpos
  · have := Nat.two_pow_pos (52 + shift)
    have hshift : shift = 0 := by omega
    rw [hzero, hshift]
    rfl
  · have hne := Nat.ne_of_gt hpos
    have hupper := (Nat.log2_lt hne).2 hlt
    rcases hge with rfl | hge
    · omega
    · have hlower := (Nat.le_log2 hne).2 hge
      omega

/-- The nearest magnitude, by its step and the number of steps that the quotient is rounded to. -/
theorem nearest?_of_steps {m : Magnitude} {a b step : Nat} (shift : Nat)
    (hstep : b * 2 ^ shift = step) (hb : 0 < b) (hlow : shift = 0 ∨ 2 ^ 52 * step ≤ a)
    (hhigh : a < 2 ^ 53 * step) (hrank : shift * 2 ^ 52 + roundHalfEven a step = m.rank) :
    nearest? a b = some m := by
  have hrank : shift * runLength + roundHalfEven a step = m.rank := hrank
  unfold nearest?
  simp only [shift_eq hstep hb hlow hhigh, Nat.pow_eq, hstep, hrank, m.rank_lt, dite_true]

/-- A quotient that is less than half a step away from a multiple of its step. -/
theorem nearest?_eq_some {m : Magnitude} {a b step : Nat} (shift k : Nat)
    (hstep : b * 2 ^ shift = step) (hb : 0 < b) (hlow : shift = 0 ∨ 2 ^ 52 * step ≤ a) (hhigh : a < 2 ^ 53 * step)
    (habove : 2 * (k * step) < 2 * a + step) (hbelow : 2 * a < 2 * (k * step) + step)
    (hrank : shift * 2 ^ 52 + k = m.rank) : nearest? a b = some m := by
  apply nearest?_of_steps shift hstep hb hlow hhigh
  rw [roundHalfEven_of_near habove hbelow]
  exact hrank

/-- The ranks of a run that is not the first: their sizes are multiples of one power of two. -/
theorem exists_run {m : Magnitude} (h : runLength ≤ m.rank) : ∃ e f, f < 2 ^ 52 ∧
    m.rank = (e + 1) * 2 ^ 52 + f ∧ m.units = (2 ^ 52 + f) * 2 ^ e := by
  refine ⟨m.rank / runLength - 1, m.rank % runLength, Nat.mod_lt _ (by decide), ?_, ?_⟩
  · have hpos : 1 ≤ m.rank / runLength := (Nat.one_le_div_iff (by decide)).2 h
    rw [Nat.sub_add_cancel hpos]
    exact (Nat.div_add_mod' m.rank runLength).symm
  · unfold units
    rw [if_neg (Nat.not_lt.2 h)]
    rfl

/-- Just below the first size of a run steps are half as long as in it, apart from the second run. -/
theorem nearest?_of_below {m : Magnitude} {a b e step : Nat} (δ : Nat) (hstep : b * 2 ^ e = step)
    (hb : 0 < b) (hrank : m.rank = (e + 1) * 2 ^ 52) (hlow : 2 ^ 52 * step ≤ a + δ) (hhigh : a < 2 ^ 52 * step)
    (hδ : 4 * δ < step) : nearest? a b = some m := by
  cases e with
  | zero =>
    rw [Nat.pow_zero, Nat.mul_one] at hstep
    subst hstep
    apply nearest?_eq_some 0 (2 ^ 52) (Nat.mul_one b) hb (.inl rfl)
    all_goals omega
  | succ e =>
    rw [Nat.pow_succ, ← Nat.mul_assoc] at hstep
    apply nearest?_eq_some e (2 ^ 53) rfl hb (.inr _)
    all_goals omega

/-- A quotient that differs from a magnitude by less than one part in 2⁵⁴ is rounded to it. -/
theorem nearest?_of_near {m : Magnitude} {a b : Nat} (δ : Nat) (hlow : m.units * b ≤ a + δ)
    (hhigh : a ≤ m.units * b + δ) (hδ : 2 ^ 54 * δ < m.units * b) : nearest? a b = some m := by
  have hb : 0 < b := Nat.pos_of_ne_zero (by rintro rfl; simp at hδ)
  rcases Nat.lt_or_ge m.rank runLength with hrank | hrank
  · have hunits : m.units = m.rank := by unfold units; rw [if_pos hrank]
    have hbound : m.rank * b ≤ 2 ^ 52 * b := Nat.mul_le_mul_right b (Nat.le_of_lt hrank)
    rw [hunits] at hlow hhigh hδ
    apply nearest?_eq_some 0 m.rank (Nat.mul_one b) hb (.inl rfl)
    all_goals omega
  · obtain ⟨e, f, hf, hrank, hunits⟩ := exists_run hrank
    rw [hunits, Nat.mul_assoc, Nat.mul_comm (2 ^ e)] at hlow hhigh hδ
    have hpos : 0 < b * 2 ^ e := Nat.mul_pos hb (Nat.two_pow_pos e)
    generalize hstep : b * 2 ^ e = step at hlow hhigh hδ hpos
    have hsum : (2 ^ 52 + f) * step = 2 ^ 52 * step + f * step := Nat.add_mul _ _ _
    have hbound := Nat.mul_le_mul_right step (Nat.succ_le_of_lt hf)
    rw [Nat.succ_mul] at hbound
    by_cases hrun : 2 ^ 52 * step ≤ a
    · apply nearest?_eq_some e (2 ^ 52 + f) hstep hb (.inr hrun)
      all_goals omega
    · have hf : f = 0 := by
        rcases Nat.eq_zero_or_pos f with hf | hf
        · exact hf
        · have := Nat.le_mul_of_pos_left step hf
          omega
      subst hf
      rw [Nat.add_zero] at hrank
      apply nearest?_of_below δ hstep hb hrank
      all_goals omega

/-- What is less than half a unit is rounded to zero. -/
theorem nearest?_of_lt {a b : Nat} (h : 2 * a < b) : nearest? a b = some zero :=
  nearest?_eq_some 0 0 (Nat.mul_one b) (by omega) (.inl rfl) (by omega)
    (by rw [Nat.zero_mul]; omega) (by rw [Nat.zero_mul]; omega) rfl

/-- What is rounded to a finite magnitude has 2100 binary digits at most. -/
theorem log2_lt_of_nearest? {m : Magnitude} {a b : Nat} (h : nearest? a b = some m) :
    (a / b).log2 < 2100 := by
  unfold nearest? at h
  simp only at h
  split at h
  · rename_i hrank
    have hrank : ((a / b).log2 - 52) * runLength < 2047 * runLength :=
      Nat.lt_of_le_of_lt (Nat.le_add_right _ _) hrank
    have hshift := Nat.lt_of_mul_lt_mul_right hrank
    omega
  · cases h

/-! ## Decimals -/

/-- The magnitude nearest to `n · 10 ^ scale`. -/
def nearestDecimal? (n : Nat) (scale : Int) : Option Magnitude :=
  nearest? (n * 10 ^ scale.toNat * unitsPerOne) (10 ^ (-scale).toNat)

theorem nearestDecimal?_zero (scale : Int) : nearestDecimal? 0 scale = some zero := by
  refine nearest?_of_lt ?_
  rw [Nat.zero_mul, Nat.zero_mul]
  exact Nat.pow_pos (by decide)

theorem unitsPerOne_pos : 0 < unitsPerOne := by decide +kernel

theorem ten_zpow (e : Int) : (10 : ℚ) ^ e = 10 ^ e.toNat / 10 ^ (-e).toNat := by
  rcases Int.le_total 0 e with he | he
  · obtain ⟨k, rfl⟩ := Int.eq_ofNat_of_zero_le he
    simp
  · obtain ⟨k, hk⟩ := Int.eq_ofNat_of_zero_le (Int.neg_nonneg_of_nonpos he)
    obtain rfl : e = -k := by omega
    simp

theorem nearestDecimal?_congr {n k : Nat} {e f : Int} (h : (n : ℚ) * 10 ^ e = k * 10 ^ f) :
    nearestDecimal? n e = nearestDecimal? k f := by
  apply nearest?_of_cross (Nat.pow_pos (by decide)) (Nat.pow_pos (by decide))
  rw [ten_zpow, ten_zpow] at h
  field_simp at h
  have hcross : n * 10 ^ e.toNat * 10 ^ (-f).toNat = k * 10 ^ f.toNat * 10 ^ (-e).toNat := by
    rw [Nat.mul_comm (k * _), ← Nat.mul_assoc]
    exact_mod_cast h
  rw [Nat.mul_right_comm, hcross, Nat.mul_right_comm]

theorem units_pos {m : Magnitude} (h : m.rank ≠ 0) : 0 < m.units := by
  unfold units
  split
  · exact Nat.pos_of_ne_zero h
  · exact Nat.mul_pos (Nat.add_pos_left (by decide) _) (Nat.two_pow_pos _)

/-- The decade of a magnitude: it is no less than the power of ten below it. -/
theorem pow_decade_le {m : Magnitude} (h : m.rank ≠ 0) :
    (10 : ℚ) ^ (m.decade - 1) * unitsPerOne ≤ m.units := by
  have hunits := units_pos h
  unfold decade
  split
  · rename_i hone
    have hquotient : m.units / unitsPerOne ≠ 0 :=
      Nat.ne_of_gt ((Nat.one_le_div_iff unitsPerOne_pos).2 hone)
    have hpow := Nat.mul_le_mul_right unitsPerOne (Digits.pow_length_le hquotient)
    have hle := Nat.le_trans hpow (Nat.div_mul_le_self _ _)
    have hlength := Digits.length_ofNat_pos (m.units / unitsPerOne)
    generalize (Digits.ofNat (m.units / unitsPerOne)).length = l at hle hlength
    obtain ⟨k, rfl⟩ := Nat.exists_eq_add_of_lt hlength
    have hexponent : ((0 + k + 1 : Nat) : Int) - 1 = k := by omega
    rw [hexponent, zpow_natCast]
    rw [Nat.zero_add, Nat.add_sub_cancel] at hle
    exact_mod_cast hle
  · have hlt := Digits.lt_pow_length ((unitsPerOne - 1) / m.units)
    rw [Nat.div_lt_iff_lt_mul hunits] at hlt
    generalize (Digits.ofNat ((unitsPerOne - 1) / m.units)).length = l at hlt
    have hle : unitsPerOne ≤ 10 ^ l * m.units := by omega
    have hexponent : 1 - (l : Int) - 1 = -l := by omega
    rw [hexponent, zpow_neg, zpow_natCast, inv_mul_le_iff₀ (by positivity)]
    exact_mod_cast hle

/-- The numerator and the denominator that the digits of a magnitude are worked out from. -/
theorem le_of_seventeen {m : Magnitude} (h : m.rank ≠ 0) :
    10 ^ 16 * (unitsPerOne * 10 ^ (m.decade - (17 : Nat)).toNat) ≤ m.units * 10 ^ (-(m.decade - (17 : Nat))).toNat := by
  have hle := pow_decade_le h
  have hexponent : m.decade - 1 = (16 : Nat) + (m.decade - (17 : Nat)) := by omega
  rw [hexponent, zpow_add₀ (by norm_num), zpow_natCast, ten_zpow (m.decade - (17 : Nat)), ← mul_div_assoc,
    div_mul_eq_mul_div, div_le_iff₀ (by positivity)] at hle
  have hle : 10 ^ 16 * 10 ^ (m.decade - (17 : Nat)).toNat * unitsPerOne ≤
      m.units * 10 ^ (-(m.decade - (17 : Nat))).toNat := by
    exact_mod_cast hle
  rw [Nat.mul_comm unitsPerOne, ← Nat.mul_assoc]
  exact hle

/-- The digits are those of a number that is rounded to the magnitude. -/
structure IsWrittenAs (m : Magnitude) (d : Numeral) : Prop where
  proper : d.Proper
  nearest : nearestDecimal? d.significand d.scale = some m

theorem isWrittenAs_zero : zero.IsWrittenAs .zero := by
  refine ⟨⟨nofun, fun c hc => ?_⟩, nearestDecimal?_zero _⟩
  rw [List.mem_singleton.1 hc]
  rfl

theorem isWrittenAs_ofScaled {m : Magnitude} (hm : m.rank ≠ 0) {n : Nat} {scale : Int}
    (h : nearestDecimal? n scale = some m) : m.IsWrittenAs (.ofScaled n scale) := by
  refine ⟨Numeral.proper_ofScaled ?_ scale, ?_⟩
  · rintro rfl
    cases (nearestDecimal?_zero scale).symm.trans h
    exact hm rfl
  · rw [nearestDecimal?_congr (Numeral.ofScaled_eq n scale), h]

theorem numeralOfCount?_isWrittenAs {m : Magnitude} (hm : m.rank ≠ 0) {count : Nat} {d : Numeral}
    (h : m.numeralOfCount? count = some d) : m.IsWrittenAs d := by
  have hreads : ∀ {n}, (nearest? (n * (unitsPerOne * Nat.pow 10 (m.decade - count).toNat))
      (Nat.pow 10 (-(m.decade - count)).toNat) == some m) = true →
      m.IsWrittenAs (.ofScaled n (m.decade - count)) := by
    intro n hn
    have hn := eq_of_beq hn
    rw [Nat.mul_comm unitsPerOne, ← Nat.mul_assoc] at hn
    exact isWrittenAs_ofScaled hm hn
  unfold numeralOfCount? at h
  simp only at h
  split at h
  · rename_i hlower
    cases h
    exact hreads (Bool.and_eq_true_iff.1 hlower).1
  · split at h
    · rename_i hupper
      cases h
      exact hreads hupper
    · cases h

/-- Where the numerator is more than 10¹⁶ times the denominator, the nearer of the two multiples beside it
is rounded to the magnitude. -/
theorem nearest?_of_multiple {m : Magnitude} {down denominator : Nat} (hpos : 0 < denominator)
    (hle : 10 ^ 16 * denominator ≤ m.units * down) :
    nearest? (m.units * down / denominator * denominator) down = some m ∨
      nearest? ((m.units * down / denominator + 1) * denominator) down = some m := by
  have hdiv := Nat.div_add_mod' (m.units * down) denominator
  have hmod := Nat.mod_lt (m.units * down) hpos
  generalize hremainder : m.units * down % denominator = r at hdiv hmod
  rcases Nat.le_total (2 * r) denominator with hlower | hupper
  · refine .inl (nearest?_of_near r ?_ ?_ ?_)
    all_goals omega
  · refine .inr (nearest?_of_near (denominator - r) ?_ ?_ ?_)
    all_goals first | omega | (rw [Nat.add_mul, Nat.one_mul]; omega)

/-- Seventeen digits are enough: one of the two numbers that a magnitude stands between is nearer to it
than any other magnitude can be. -/
theorem exists_seventeen {m : Magnitude} (h : m.rank ≠ 0) : ∃ d, m.numeralOfCount? 17 = some d := by
  have hpos : 0 < unitsPerOne * Nat.pow 10 (m.decade - (17 : Nat)).toNat :=
    Nat.mul_pos unitsPerOne_pos (Nat.pow_pos (by decide))
  have hnear := nearest?_of_multiple hpos (le_of_seventeen h)
  unfold numeralOfCount?
  simp only
  split
  · exact ⟨_, rfl⟩
  · rename_i hlower
    split
    · exact ⟨_, rfl⟩
    · rename_i hupper
      rcases hnear with hnear | hnear
      · have hlower' := beq_iff_eq.2 hnear
        rw [Bool.not_eq_true] at hupper
        exact absurd (by rw [Bool.and_eq_true_iff, hupper, Bool.not_false, Bool.or_true]; exact ⟨hlower', rfl⟩) hlower
      · exact absurd (beq_iff_eq.2 hnear) hupper

/-- **The digits of a magnitude read back as it.** -/
theorem numeral_isWrittenAs (m : Magnitude) : m.IsWrittenAs m.numeral := by
  unfold numeral
  split
  · rename_i hm
    have hzero : m = zero := by
      obtain ⟨rank, hrank⟩ := m
      cases hm
      rfl
    rw [hzero]
    exact isWrittenAs_zero
  · rename_i hm
    have hsome : ((List.range' 1 17).findSome? m.numeralOfCount?).isSome = true := by
      obtain ⟨d, hd⟩ := exists_seventeen hm
      exact List.findSome?_isSome_iff.2 ⟨17, by decide, by rw [hd]; rfl⟩
    obtain ⟨d, hd⟩ := Option.isSome_iff_exists.1 hsome
    obtain ⟨count, -, hcount⟩ := List.exists_of_findSome?_eq_some hd
    rw [hd]
    exact numeralOfCount?_isWrittenAs hm hcount

theorem nearestDecimal?_of_lt {n : Nat} {e : Int} (h : e + (Digits.ofNat n).length < -330) :
    nearestDecimal? n e = some zero := by
  apply nearest?_of_lt
  have hten : ∀ k, 0 < 10 ^ k := fun _ => Nat.pow_pos (by decide)
  have hlt := Nat.mul_lt_mul_of_pos_right (Digits.lt_pow_length n) (hten e.toNat)
  have hunits : 2 * unitsPerOne < 10 ^ 331 := by decide +kernel
  have hbound : 10 ^ ((Digits.ofNat n).length + e.toNat) * 10 ^ 331 ≤ 10 ^ (-e).toNat := by
    rw [← Nat.pow_add]
    exact Nat.pow_le_pow_right (by decide) (by omega)
  rw [← Nat.pow_add] at hlt
  have hpow := Nat.mul_le_mul_right (2 * unitsPerOne) (Nat.le_of_lt hlt)
  have hstrict := Nat.mul_lt_mul_of_pos_left hunits (hten ((Digits.ofNat n).length + e.toNat))
  rw [Nat.mul_left_comm] at hpow
  omega

theorem decade_le {n : Nat} {e : Int} {m : Magnitude} (hn : n ≠ 0)
    (h : nearestDecimal? n e = some m) : e + (Digits.ofNat n).length ≤ 310 := by
  have hlog := log2_lt_of_nearest? h
  refine Int.not_lt.1 fun hhigh => ?_
  have hten : ∀ k, 0 < 10 ^ k := fun _ => Nat.pow_pos (by decide)
  have hpow := Nat.mul_le_mul_right (10 ^ e.toNat) (Digits.pow_length_le hn)
  have hunits : 2 ^ 2100 ≤ 10 ^ 310 * unitsPerOne := by decide +kernel
  have hbound : 10 ^ 310 * 10 ^ (-e).toNat ≤ 10 ^ ((Digits.ofNat n).length - 1) * 10 ^ e.toNat := by
    rw [← Nat.pow_add, ← Nat.pow_add]
    exact Nat.pow_le_pow_right (by decide) (by omega)
  have hquotient := Nat.mul_le_mul_right unitsPerOne (Nat.le_trans hbound hpow)
  rw [Nat.mul_right_comm, ← Nat.le_div_iff_mul_le (hten (-e).toNat)] at hquotient
  have hle := Nat.le_trans hunits hquotient
  have hpos := Nat.mul_pos (hten 310) unitsPerOne_pos
  have hne := Nat.ne_of_gt (Nat.lt_of_lt_of_le hpos hquotient)
  exact absurd ((Nat.le_log2 hne).2 hle) (Nat.not_le.2 hlog)

end Magnitude

open Magnitude in
/-- A numeral is read as the number it is rounded to; the bounds for long powers of ten do not matter. -/
theorem Decimal.toBinary64_eq {d : Decimal} {m : Magnitude}
    (h : nearestDecimal? d.significand d.exponent = some m) :
    d.toBinary64 = .finite d.negative m := by
  unfold toBinary64
  simp only
  split
  · rename_i hsmall
    have hzero : nearestDecimal? d.significand d.exponent = some zero := by
      rcases hsmall with hzero | hlow
      · rw [hzero]
        exact nearestDecimal?_zero _
      · exact nearestDecimal?_of_lt hlow
    rw [Option.some.inj (hzero.symm.trans h)]
  · rename_i hlarge
    have hhigh := decade_le (fun hzero => hlarge (.inl hzero)) h
    rw [if_neg (by omega)]
    exact Binary64.nearest_eq h

end Conformance
