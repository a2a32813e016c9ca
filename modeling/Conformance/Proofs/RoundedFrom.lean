import Conformance.Proofs.Conversion

/-!
# What is rounded to an integer

A numeral is read as the nearest double-precision number, and only then asked whether that number is an
integer. So it is taken for an integer where it stands for a number within half of the distance from the
integer to the numbers beside it, the halves included: an integer below 2⁵² ranks even, and takes the ties.

* `Magnitude.nearest?_run`, `Magnitude.nearest?_zero` — the quotients that are rounded to an even rank.
* `RoundsTo` — the numbers that are rounded to an integer, by the distances `gapBelow` and `gapAbove`.
* `Decimal.toInt?_toBinary64` — a numeral is taken for exactly the integers that it is rounded to.
* `RoundsTo.self`, `RoundsTo.dist_lt` — an integer is rounded to itself, and nothing far from it is.
-/

set_option autoImplicit false

namespace Conformance

namespace Magnitude

/-! ## Quotients that are rounded to an even rank -/

/-- The rounded quotient is at most a half away. -/
theorem roundHalfEven_bounds {a d : Nat} (hd : 0 < d) :
    2 * (roundHalfEven a d * d) ≤ 2 * a + d ∧ 2 * a ≤ 2 * (roundHalfEven a d * d) + d := by
  have hdiv := Nat.div_add_mod' a d
  have hmod := Nat.mod_lt a hd
  unfold roundHalfEven
  simp only
  generalize a % d = r at *
  split
  · omega
  · split
    · rw [Nat.add_mul, Nat.one_mul]
      omega
    · -- At the half both neighbours are as far away.
      rcases Nat.mod_two_eq_zero_or_one (a / d) with heven | hodd
      · rw [heven, Nat.add_zero]
        omega
      · rw [hodd, Nat.add_mul, Nat.one_mul]
        omega

/-- A quotient at most a half away from an even number is rounded to it. -/
theorem roundHalfEven_of_even {a d n : Nat} (hd : 0 < d) (hn : n % 2 = 0)
    (hlow : 2 * (n * d) ≤ 2 * a + d) (hhigh : 2 * a ≤ 2 * (n * d) + d) : roundHalfEven a d = n := by
  by_cases hnear : 2 * (n * d) < 2 * a + d ∧ 2 * a < 2 * (n * d) + d
  · exact roundHalfEven_of_near hnear.1 hnear.2
  have hdiv := Nat.div_add_mod' a d
  have hmod := Nat.mod_lt a hd
  unfold roundHalfEven
  simp only
  rcases Nat.eq_or_lt_of_le hhigh with habove | habove
  · have hquotient : a / d = n := by
      rw [Nat.div_eq_iff hd]
      omega
    rw [hquotient] at hdiv ⊢
    rw [if_neg (by omega), if_neg (by omega), hn, Nat.add_zero]
  · have hbelow : 2 * (n * d) = 2 * a + d := by omega
    have hpos : 0 < n := Nat.pos_of_ne_zero fun hzero => by
      rw [hzero, Nat.zero_mul] at hbelow
      omega
    obtain ⟨k, rfl⟩ : ∃ k, n = k + 1 := ⟨n - 1, by omega⟩
    rw [Nat.add_mul, Nat.one_mul] at hbelow
    have hquotient : a / d = k := by
      rw [Nat.div_eq_iff hd]
      omega
    rw [hquotient] at hdiv ⊢
    rw [if_neg (by omega), if_neg (by omega)]
    omega

/-- The number of steps that is rounded to is not past a multiple of the step which the quotient is not past. -/
theorem le_of_rounded {k n a step : Nat} (hstep : 0 < step) (hnear : 2 * (k * step) ≤ 2 * a + step)
    (h : a < n * step) : k ≤ n := by
  by_contra hlt
  have hmul := Nat.mul_le_mul_right step (Nat.succ_le_of_lt (Nat.not_le.1 hlt))
  rw [Nat.succ_mul] at hmul
  omega

theorem ge_of_rounded {k n a step : Nat} (hstep : 0 < step) (hnear : 2 * a ≤ 2 * (k * step) + step)
    (h : n * step ≤ a) : n ≤ k := by
  by_contra hlt
  have hmul := Nat.mul_le_mul_right step (Nat.succ_le_of_lt (Nat.not_le.1 hlt))
  rw [Nat.succ_mul] at hmul
  omega

/-- What the rank of the nearest magnitude is made up of: the step that it is found with, and the number of
steps that the quotient is rounded to. -/
theorem nearest?_parts {m : Magnitude} {a b : Nat} (hb : 0 < b) (h : nearest? a b = some m) :
    ∃ shift k, (shift = 0 ∨ 2 ^ 52 * (b * 2 ^ shift) ≤ a) ∧ a < 2 ^ 53 * (b * 2 ^ shift) ∧
      2 * (k * (b * 2 ^ shift)) ≤ 2 * a + b * 2 ^ shift ∧
      2 * a ≤ 2 * (k * (b * 2 ^ shift)) + b * 2 ^ shift ∧ shift * 2 ^ 52 + k = m.rank := by
  have hstep : 0 < b * 2 ^ ((a / b).log2 - 52) := Nat.mul_pos hb (Nat.two_pow_pos _)
  obtain ⟨hlow, hhigh⟩ := roundHalfEven_bounds (a := a) hstep
  have hpow : ∀ j k, 2 ^ j * (b * 2 ^ k) = 2 ^ (j + k) * b := fun j k => by
    rw [Nat.pow_add, Nat.mul_assoc, Nat.mul_comm b]
  refine ⟨(a / b).log2 - 52, _, ?_, ?_, hlow, hhigh, ?_⟩
  · by_cases hzero : (a / b).log2 ≤ 52
    · exact .inl (by omega)
    · have hne : a / b ≠ 0 := fun hquotient => hzero (by rw [hquotient]; decide)
      right
      rw [hpow, Nat.add_sub_cancel' (by omega), ← Nat.le_div_iff_mul_le hb]
      exact Nat.log2_self_le hne
  · have hlt : a / b < 2 ^ ((a / b).log2 + 1) := Nat.lt_log2_self
    rw [hpow, ← Nat.div_lt_iff_lt_mul hb]
    exact Nat.lt_of_lt_of_le hlt (Nat.pow_le_pow_right (by decide) (by omega))
  · unfold nearest? at h
    simp only at h
    split at h
    · rw [← Option.some.inj h]
      rfl
    · cases h

/-- A quotient that is half a step away from an even multiple of its step, or nearer. -/
theorem nearest?_of_even {m : Magnitude} {a b step : Nat} (shift k : Nat)
    (hstep : b * 2 ^ shift = step) (hb : 0 < b) (hk : k % 2 = 0)
    (hlow : shift = 0 ∨ 2 ^ 52 * step ≤ a) (hhigh : a < 2 ^ 53 * step)
    (habove : 2 * (k * step) ≤ 2 * a + step) (hbelow : 2 * a ≤ 2 * (k * step) + step)
    (hrank : shift * 2 ^ 52 + k = m.rank) : nearest? a b = some m := by
  have hpos : 0 < step := hstep ▸ Nat.mul_pos hb (Nat.two_pow_pos shift)
  apply nearest?_of_steps shift hstep hb hlow hhigh
  rw [roundHalfEven_of_even hpos hk habove hbelow]
  exact hrank

/-- What is rounded to zero is half a unit at most. -/
theorem nearest?_zero {a b : Nat} (hb : 0 < b) : nearest? a b = some zero ↔ 2 * a ≤ b := by
  constructor
  · intro h
    obtain ⟨shift, k, -, -, -, hhigh, hrank⟩ := nearest?_parts hb h
    have hrank : shift * 2 ^ 52 + k = 0 := hrank
    obtain rfl : shift = 0 := by omega
    obtain rfl : k = 0 := by omega
    rw [Nat.zero_mul, Nat.pow_zero, Nat.mul_one] at hhigh
    omega
  · intro h
    apply nearest?_of_even 0 0 (Nat.mul_one b) hb rfl (.inl rfl)
    · omega
    · omega
    · omega
    · rfl

/-- What is rounded to an even rank of a run is half a step away at most, where the steps below the first of
the run are half as long. -/
theorem nearest?_run {m : Magnitude} {a b e f : Nat} (hb : 0 < b) (hf : f < 2 ^ 52)
    (hrank : m.rank = (e + 2) * 2 ^ 52 + f) (heven : f % 2 = 0) :
    nearest? a b = some m ↔ 2 * a ≤ 2 * ((2 ^ 52 + f) * (b * 2 ^ (e + 1))) + b * 2 ^ (e + 1) ∧
      if f = 0 then 4 * (2 ^ 52 * (b * 2 ^ (e + 1))) ≤ 4 * a + b * 2 ^ (e + 1)
      else 2 * ((2 ^ 52 + f) * (b * 2 ^ (e + 1))) ≤ 2 * a + b * 2 ^ (e + 1) := by
  have hhalf : b * 2 ^ (e + 1) = 2 * (b * 2 ^ e) := by
    rw [Nat.pow_succ, ← Nat.mul_assoc, Nat.mul_comm]
  have hpos : 0 < b * 2 ^ e := Nat.mul_pos hb (Nat.two_pow_pos e)
  have hsum : (2 ^ 52 + f) * (b * 2 ^ (e + 1)) =
      2 ^ 52 * (b * 2 ^ (e + 1)) + f * (b * 2 ^ (e + 1)) := Nat.add_mul _ _ _
  constructor
  · intro h
    obtain ⟨shift, k, hlow, hhigh, habove, hbelow, hparts⟩ := nearest?_parts hb h
    have hstep : 0 < b * 2 ^ shift := Nat.mul_pos hb (Nat.two_pow_pos shift)
    have hk : k ≤ 2 ^ 53 := le_of_rounded hstep habove hhigh
    have hfirst : shift = 0 ∨ 2 ^ 52 ≤ k := hlow.imp_right (ge_of_rounded hstep hbelow)
    rw [hrank] at hparts
    -- The rank is of the run of the step, unless the quotient was rounded up to the first of the next run.
    by_cases hcarry : k = 2 ^ 53
    · obtain rfl : shift = e := by omega
      obtain rfl : f = 0 := by omega
      rw [if_pos rfl]
      subst hcarry
      omega
    · obtain rfl : shift = e + 1 := by omega
      obtain rfl : k = 2 ^ 52 + f := by omega
      refine ⟨hbelow, ?_⟩
      split
      · rcases hlow with hzero | hlow <;> omega
      · exact habove
  · rintro ⟨hbelow, habove⟩
    have hfinal : f * (b * 2 ^ (e + 1)) + b * 2 ^ (e + 1) ≤ 2 ^ 52 * (b * 2 ^ (e + 1)) := by
      have hmul := Nat.mul_le_mul_right (b * 2 ^ (e + 1)) (Nat.succ_le_of_lt hf)
      rwa [Nat.succ_mul] at hmul
    by_cases hrun : 2 ^ 52 * (b * 2 ^ (e + 1)) ≤ a
    · apply nearest?_of_even (e + 1) (2 ^ 52 + f) rfl hb (by omega) (.inr hrun)
      · omega
      · rcases Nat.eq_zero_or_pos f with rfl | hpos
        · omega
        · rwa [if_neg (Nat.ne_of_gt hpos)] at habove
      · omega
      · omega
    · have hzero : f = 0 := by
        by_contra hne
        have hone := Nat.le_mul_of_pos_left (b * 2 ^ (e + 1)) (Nat.pos_of_ne_zero hne)
        rw [if_neg hne] at habove
        omega
      subst hzero
      rw [if_pos rfl] at habove
      apply nearest?_of_even e (2 ^ 53) rfl hb (by decide) (.inr (by omega))
      · omega
      · omega
      · omega
      · omega

/-- The units of one as a power of two; its exponent stands in an equation, as the power is too long to be
worked out. -/
theorem unitsPerOne_eq {t : Nat} (ht : 1074 = t) : unitsPerOne = 2 ^ t := by
  unfold unitsPerOne
  rw [ht, Nat.pow_eq]

/-- A size with 53 binary digits in front of its power of two has the highest digit of the same size written
otherwise. -/
theorem exponent_of_size {n f e t : Nat} (hn : 0 < n) (hf : f < 2 ^ 52)
    (h : n * 2 ^ t = (2 ^ 52 + f) * 2 ^ e) : 52 + e = n.log2 + t := by
  have hlow := Nat.log2_self_le (Nat.ne_of_gt hn)
  have hhigh := Nat.lt_log2_self (n := n)
  generalize n.log2 = k at *
  have hleft : 2 ^ (k + t) < 2 ^ (53 + e) := by
    rw [Nat.pow_add, Nat.pow_add]
    calc 2 ^ k * 2 ^ t ≤ n * 2 ^ t := Nat.mul_le_mul_right _ hlow
      _ = (2 ^ 52 + f) * 2 ^ e := h
      _ < 2 ^ 53 * 2 ^ e := Nat.mul_lt_mul_of_pos_right (by omega) (Nat.two_pow_pos e)
  have hright : 2 ^ (52 + e) < 2 ^ (k + 1 + t) := by
    rw [Nat.pow_add, Nat.pow_add]
    calc 2 ^ 52 * 2 ^ e ≤ (2 ^ 52 + f) * 2 ^ e := Nat.mul_le_mul_right _ (Nat.le_add_right _ _)
      _ = n * 2 ^ t := h.symm
      _ < 2 ^ (k + 1) * 2 ^ t := Nat.mul_lt_mul_of_pos_right hhigh (Nat.two_pow_pos t)
  have hupper := (Nat.pow_lt_pow_iff_right (by decide : 1 < 2)).1 hleft
  have hlower := (Nat.pow_lt_pow_iff_right (by decide : 1 < 2)).1 hright
  omega

/-- The rank of an integer below 2⁵²: its run is that of its highest binary digit, and it is even. -/
theorem rank_of_units {m : Magnitude} {n : Nat} (hn : 0 < n) (hlt : n < 2 ^ 52)
    (hm : m.units = n * unitsPerOne) : ∃ f, f < 2 ^ 52 ∧ f % 2 = 0 ∧
      m.rank = (1021 + n.log2 + 2) * 2 ^ 52 + f ∧ (2 ^ 52 + f) * 2 ^ (1022 + n.log2) = n * unitsPerOne ∧
      (f = 0 ↔ n = 2 ^ n.log2) := by
  have hne := Nat.ne_of_gt hn
  have hlog := (Nat.log2_lt hne).2 hlt
  obtain ⟨t, ht⟩ : ∃ t, 1074 = t := ⟨_, rfl⟩
  have hunits := unitsPerOne_eq ht
  have hlarge : runLength ≤ m.rank := by
    by_contra hsmall
    have hrank : m.units = m.rank := by
      unfold units
      rw [if_pos (Nat.not_le.1 hsmall)]
    have hone : 1 * unitsPerOne ≤ n * unitsPerOne := Nat.mul_le_mul_right _ hn
    have hpow : runLength ≤ 1 * unitsPerOne := by decide +kernel
    omega
  obtain ⟨e, f, hf, hrank, hsize⟩ := exists_run hlarge
  rw [hm, hunits] at hsize
  have he : e = 1022 + n.log2 := by
    have := exponent_of_size hn hf hsize
    omega
  subst he
  generalize n.log2 = k at *
  have hfraction : 2 ^ 52 + f = n * 2 ^ (52 - k) := by
    apply Nat.eq_of_mul_eq_mul_right (Nat.two_pow_pos (1022 + k))
    have hexponent : 52 - k + (1022 + k) = t := by omega
    rw [← hsize, Nat.mul_assoc, ← Nat.pow_add, hexponent]
  rw [hunits]
  refine ⟨f, hf, ?_, ?_, hsize.symm, ?_⟩
  · obtain ⟨j, hj⟩ : ∃ j, 52 - k = j + 1 := ⟨51 - k, by omega⟩
    have hdouble : n * 2 ^ (j + 1) = 2 * (n * 2 ^ j) := by
      rw [Nat.pow_succ, ← Nat.mul_assoc, Nat.mul_comm]
    rw [hj, hdouble] at hfraction
    omega
  · have hrun : 1022 + k + 1 = 1021 + k + 2 := by omega
    rw [hrank, hrun]
  · have hwhole : 2 ^ k * 2 ^ (52 - k) = 2 ^ 52 := by
      rw [← Nat.pow_add, Nat.add_sub_cancel' (by omega)]
    constructor
    · intro hzero
      rw [hzero, Nat.add_zero, ← hwhole] at hfraction
      exact (Nat.eq_of_mul_eq_mul_right (Nat.two_pow_pos _) hfraction).symm
    · intro hpower
      rw [hpower, hwhole] at hfraction
      omega

end Magnitude

/-! ## Numbers that are rounded to an integer -/

/-- Half of the distance from an integer to the next larger number of double precision. -/
def gapAbove (n : Nat) : ℚ := if n = 0 then 2 ^ (-1075 : Int) else 2 ^ ((n.log2 : Int) - 53)

/-- Half of the distance to the next smaller one, which is half as far away from a power of two. -/
def gapBelow (n : Nat) : ℚ := if n = 2 ^ n.log2 then gapAbove n / 2 else gapAbove n

theorem gapAbove_pos (n : Nat) : 0 < gapAbove n := by
  unfold gapAbove
  split
  · exact zpow_pos (by norm_num) _
  · exact zpow_pos (by norm_num) _

theorem gapBelow_pos (n : Nat) : 0 < gapBelow n := by
  have habove := gapAbove_pos n
  unfold gapBelow
  split
  · linarith
  · exact habove

theorem gapBelow_le (n : Nat) : gapBelow n ≤ gapAbove n := by
  have habove := gapAbove_pos n
  unfold gapBelow
  split
  · linarith
  · exact le_rfl

namespace Magnitude

theorem unitsPerOne_zpow {t : Nat} (ht : 1074 = t) : (unitsPerOne : ℚ) = 2 ^ (t : Int) := by
  rw [unitsPerOne_eq ht, zpow_natCast, Nat.cast_pow, Nat.cast_ofNat]

/-- The distances in units. -/
theorem gapAbove_units (n : Nat) : 2 * (unitsPerOne * gapAbove n) =
    if n = 0 then 1 else 2 ^ (1022 + n.log2) := by
  obtain ⟨t, ht⟩ : ∃ t, 1074 = t := ⟨_, rfl⟩
  have hdouble : ∀ e : Int, 2 * ((2 : ℚ) ^ (t : Int) * 2 ^ e) = 2 ^ (1 + (t + e)) := by
    intro e
    rw [← zpow_add₀ (by norm_num), ← zpow_one_add₀ (by norm_num)]
  rw [unitsPerOne_zpow ht]
  unfold gapAbove
  split
  · have hexponent : 1 + ((t : Int) + -1075) = 0 := by omega
    rw [hdouble, hexponent, zpow_zero]
  · have hexponent : 1 + ((t : Int) + (n.log2 - 53)) = (1022 + n.log2 : Nat) := by omega
    rw [hdouble, hexponent, zpow_natCast]

/-- A bound on a number, by half of a step of so many units. -/
theorem le_add_iff_units {a b n u g step : ℚ} (hstep : 2 * (u * g) = step) :
    a ≤ (n + g) * (u * b) ↔ 2 * a ≤ 2 * (n * u * b) + b * step := by
  rw [← hstep]
  constructor
  · intro h
    linarith
  · intro h
    linarith

theorem sub_le_iff_units {a b n u g step : ℚ} (hstep : 2 * (u * g) = step) :
    (n - g) * (u * b) ≤ a ↔ 2 * (n * u * b) ≤ 2 * a + b * step := by
  rw [← hstep]
  constructor
  · intro h
    linarith
  · intro h
    linarith

theorem eq_zero_of_units {m : Magnitude} (h : m.units = 0) : m = zero := by
  obtain ⟨rank, hlt⟩ := m
  congr 1
  by_contra hne
  exact absurd h (Nat.ne_of_gt (units_pos (m := ⟨rank, hlt⟩) hne))

/-- What is rounded to an integer other than zero, by the gaps beside it. -/
theorem nearest?_integer {m : Magnitude} {n a b : Nat} (hb : 0 < b) (hn : 0 < n) (hlt : n < 2 ^ 52)
    (hm : m.units = n * unitsPerOne) : nearest? a b = some m ↔
      ((n : ℚ) - gapBelow n) * (unitsPerOne * b) ≤ a ∧ (a : ℚ) ≤ (n + gapAbove n) * (unitsPerOne * b) := by
  have hgap := gapAbove_units n
  rw [if_neg (Nat.ne_of_gt hn)] at hgap
  obtain ⟨f, hf, heven, hrank, hsize, hpower⟩ := rank_of_units hn hlt hm
  have hexponent : 1021 + n.log2 + 1 = 1022 + n.log2 := by omega
  have hmultiple : (2 ^ 52 + f) * (b * 2 ^ (1022 + n.log2)) = n * unitsPerOne * b := by
    rw [Nat.mul_left_comm, hsize, Nat.mul_comm]
  rw [nearest?_run hb hf hrank heven, hexponent, hmultiple, and_comm]
  refine and_congr ?_ ?_
  · unfold gapBelow
    by_cases hzero : f = 0
    · rw [if_pos hzero, if_pos (hpower.1 hzero)]
      have hhalf : 2 * ((unitsPerOne : ℚ) * (gapAbove n / 2)) = 2 ^ (1022 + n.log2) / 2 := by
        rw [← hgap, mul_div_assoc, mul_div_assoc]
      have hdouble : ∀ x y z : ℚ, 2 * x ≤ 2 * y + b * (z / 2) ↔ 4 * x ≤ 4 * y + b * z := by
        intro x y z
        constructor
        · intro h
          linarith
        · intro h
          linarith
      rw [hzero, Nat.add_zero] at hmultiple
      rw [sub_le_iff_units hhalf, hdouble, hmultiple]
      exact_mod_cast Iff.rfl
    · rw [if_neg hzero, if_neg (mt hpower.2 hzero), sub_le_iff_units hgap]
      exact_mod_cast Iff.rfl
  · rw [le_add_iff_units hgap]
    exact_mod_cast Iff.rfl

/-- A numeral is rounded to an integer below 2⁵² where it is no further from it than the gaps. -/
theorem nearestDecimal?_integer {m : Magnitude} {n s : Nat} {e : Int} (hn : n < 2 ^ 52)
    (hm : m.units = n * unitsPerOne) : nearestDecimal? s e = some m ↔
      n - gapBelow n ≤ s * 10 ^ e ∧ s * 10 ^ e ≤ n + gapAbove n := by
  have hu : (0 : ℚ) < unitsPerOne := by exact_mod_cast unitsPerOne_pos
  have hdown : 0 < 10 ^ (-e).toNat := Nat.pow_pos (by decide)
  have hb : (0 : ℚ) < (10 ^ (-e).toNat : Nat) := by exact_mod_cast hdown
  have hvalue : (s : ℚ) * 10 ^ e = (s * 10 ^ e.toNat * unitsPerOne : Nat) /
      (unitsPerOne * (10 ^ (-e).toNat : Nat)) := by
    rw [ten_zpow]
    push_cast
    field_simp
  unfold nearestDecimal?
  rw [hvalue, le_div_iff₀ (mul_pos hu hb), div_le_iff₀ (mul_pos hu hb)]
  generalize s * 10 ^ e.toNat * unitsPerOne = a
  generalize 10 ^ (-e).toNat = b at *
  rcases Nat.eq_zero_or_pos n with rfl | hpos
  · have hgap := gapAbove_units 0
    rw [if_pos rfl] at hgap
    have hbelow : (((0 : Nat) : ℚ) - gapBelow 0) * (unitsPerOne * b) ≤ a := by
      have hgapBelow := gapBelow_pos 0
      have hproduct := mul_pos hgapBelow (mul_pos hu hb)
      have ha : (0 : ℚ) ≤ a := Nat.cast_nonneg a
      rw [Nat.cast_zero, zero_sub, neg_mul]
      linarith
    rw [eq_zero_of_units (hm.trans (Nat.zero_mul _)), nearest?_zero hdown, le_add_iff_units hgap,
      and_iff_right hbelow, Nat.cast_zero, zero_mul, zero_mul, mul_zero, zero_add, mul_one]
    exact_mod_cast Iff.rfl
  · exact nearest?_integer hdown hpos hn hm

end Magnitude

/-- The number is rounded to the integer: it has the sign of the integer, and its size is no further from the
size of the integer than the gaps beside it. -/
structure RoundsTo (x : ℚ) (i : Int) : Prop where
  pos : 0 < i → 0 < x
  neg : i < 0 → x < 0
  below : (i.natAbs : ℚ) - gapBelow i.natAbs ≤ |x|
  above : |x| ≤ i.natAbs + gapAbove i.natAbs

/-- The gap below an integer is less than the integer, as only zero is rounded to zero from both sides. -/
theorem gapBelow_lt {n : Nat} (hn : 0 < n) (hlt : n < 2 ^ 52) : gapBelow n < n := by
  have hlog := (Nat.log2_lt (Nat.ne_of_gt hn)).2 hlt
  have hpow : (2 : ℚ) ^ ((n.log2 : Int) - 53) < 2 ^ (0 : Int) :=
    zpow_lt_zpow_right₀ (by norm_num) (by omega)
  have hone : (1 : ℚ) ≤ n := by exact_mod_cast hn
  have hle := gapBelow_le n
  unfold gapAbove at hle
  rw [if_neg (Nat.ne_of_gt hn)] at hle
  rw [zpow_zero] at hpow
  linarith

namespace Decimal

/-- The size of the number that a numeral stands for. -/
def size (d : Decimal) : ℚ := d.significand * 10 ^ d.exponent

/-- The number that a numeral stands for, exactly. -/
def toRat (d : Decimal) : ℚ := if d.negative then -d.size else d.size

theorem size_nonneg (d : Decimal) : 0 ≤ d.size :=
  mul_nonneg (Nat.cast_nonneg _) (zpow_nonneg (by norm_num) _)

theorem abs_toRat (d : Decimal) : |d.toRat| = d.size := by
  unfold toRat
  split
  · rw [abs_neg, abs_of_nonneg d.size_nonneg]
  · exact abs_of_nonneg d.size_nonneg

theorem toRat_pos_iff {d : Decimal} : 0 < d.toRat ↔ d.negative = false ∧ 0 < d.size := by
  have hsize := d.size_nonneg
  unfold toRat
  cases d.negative with
  | false => simp
  | true => simpa using hsize

theorem toRat_neg_iff {d : Decimal} : d.toRat < 0 ↔ d.negative = true ∧ 0 < d.size := by
  have hsize := d.size_nonneg
  unfold toRat
  cases d.negative with
  | false => simpa using hsize
  | true => simp

/-- What a numeral is read as is what it is rounded to, under its sign. -/
theorem nearestDecimal?_of_toBinary64 {d : Decimal} {negative : Bool} {m : Magnitude}
    (h : d.toBinary64 = .finite negative m) :
    negative = d.negative ∧ Magnitude.nearestDecimal? d.significand d.exponent = some m := by
  unfold toBinary64 at h
  simp only at h
  split at h
  · rename_i hsmall
    obtain ⟨rfl, rfl⟩ := Binary64.finite.inj h
    refine ⟨rfl, ?_⟩
    rcases hsmall with hzero | hlow
    · rw [hzero]
      exact Magnitude.nearestDecimal?_zero _
    · exact Magnitude.nearestDecimal?_of_lt hlow
  · split at h
    · cases h
    · change ((Magnitude.nearestDecimal? d.significand d.exponent).elim (.infinite d.negative)
        (.finite d.negative) : Binary64) = _ at h
      cases hnearest : Magnitude.nearestDecimal? d.significand d.exponent with
      | none =>
        rw [hnearest] at h
        cases h
      | some m' =>
        rw [hnearest] at h
        obtain ⟨hsign, hm⟩ := Binary64.finite.inj h
        exact ⟨hsign.symm, congrArg some hm⟩

end Decimal

/-- A finite number that is an integer has its size in units. -/
theorem Binary64.exists_of_toInt? {r : Binary64} {i : Int} (h : r.toInt? = some i) :
    ∃ negative m, r = .finite negative m ∧ m.units = i.natAbs * Magnitude.unitsPerOne ∧
      i = if negative then -(i.natAbs : Int) else i.natAbs := by
  cases r with
  | nan => cases h
  | infinite => cases h
  | finite negative m =>
    unfold toInt? at h
    simp only at h
    split at h
    · rename_i hmod
      have hunits : m.units = m.units / Magnitude.unitsPerOne * Magnitude.unitsPerOne :=
        (Nat.div_mul_cancel (Nat.dvd_of_mod_eq_zero hmod)).symm
      generalize m.units / Magnitude.unitsPerOne = n at h hunits
      obtain rfl := Option.some.inj h
      refine ⟨negative, m, rfl, ?_, ?_⟩
      · rw [hunits]
        congr 1
        split <;> omega
      · split <;> omega
    · cases h

/-- **A numeral is taken for exactly the integers that it is rounded to.** -/
theorem Decimal.toInt?_toBinary64 {d : Decimal} {i : Int} (hi : i.natAbs < 2 ^ 52) :
    d.toBinary64.toInt? = some i ↔ RoundsTo d.toRat i := by
  constructor
  · intro h
    obtain ⟨negative, m, hfinite, hunits, hsign⟩ := Binary64.exists_of_toInt? h
    obtain ⟨rfl, hnearest⟩ := nearestDecimal?_of_toBinary64 hfinite
    obtain ⟨hbelow, habove⟩ := (Magnitude.nearestDecimal?_integer hi hunits).1 hnearest
    have hpositive : i ≠ 0 → 0 < d.size := by
      intro hne
      have hgap := gapBelow_lt (Int.natAbs_pos.2 hne) hi
      have hbelow : (i.natAbs : ℚ) - gapBelow i.natAbs ≤ d.size := hbelow
      linarith
    refine ⟨fun hpos => toRat_pos_iff.2 ⟨?_, hpositive (by omega)⟩,
      fun hneg => toRat_neg_iff.2 ⟨?_, hpositive (by omega)⟩, ?_, ?_⟩
    · cases hd : d.negative with
      | false => rfl
      | true =>
        rw [hd, if_pos rfl] at hsign
        omega
    · cases hd : d.negative with
      | true => rfl
      | false =>
        rw [hd, if_neg (by decide)] at hsign
        omega
    · rw [d.abs_toRat]
      exact hbelow
    · rw [d.abs_toRat]
      exact habove
  · rintro ⟨hpos, hneg, hbelow, habove⟩
    rw [d.abs_toRat] at hbelow habove
    obtain ⟨m, hm⟩ := Magnitude.exists_units (n := i.natAbs) (by omega)
    rw [toBinary64_eq ((Magnitude.nearestDecimal?_integer hi hm).2 ⟨hbelow, habove⟩), Binary64.toInt?_finite hm]
    congr 1
    cases hd : d.negative with
    | false =>
      have hnot : ¬ i < 0 := fun hi => by
        have hminus := (toRat_neg_iff.1 (hneg hi)).1
        rw [hd] at hminus
        cases hminus
      rw [if_neg (by decide)]
      omega
    | true =>
      have hnot : ¬ 0 < i := fun hi => by
        have hplus := (toRat_pos_iff.1 (hpos hi)).1
        rw [hd] at hplus
        cases hplus
      rw [if_pos rfl]
      omega

namespace RoundsTo

/-- An integer is rounded to itself. -/
theorem self (i : Int) : RoundsTo i i := by
  have hbelow := gapBelow_pos i.natAbs
  have habove := gapAbove_pos i.natAbs
  have habs : |(i : ℚ)| = i.natAbs := by
    rw [← Int.cast_abs, Int.abs_eq_natAbs, Int.cast_natCast]
  refine ⟨fun h => by exact_mod_cast h, fun h => by exact_mod_cast h, ?_, ?_⟩
  · rw [habs]
    linarith
  · rw [habs]
    linarith

/-- The gap of an integer of 32 bits is less than a millionth. -/
theorem gapAbove_lt {n : Nat} (hn : n ≤ 2 ^ 31) : gapAbove n < 1 / 1000000 := by
  have hlarge : (2 : ℚ) ^ (-22 : Int) < 1 / 1000000 := by norm_num
  have hle : gapAbove n ≤ 2 ^ (-22 : Int) := by
    unfold gapAbove
    split
    · exact zpow_le_zpow_right₀ (by norm_num) (by decide)
    · rename_i hne
      have hlog := (Nat.log2_lt hne).2 (by omega : n < 2 ^ 32)
      exact zpow_le_zpow_right₀ (by norm_num) (by omega)
  exact lt_of_le_of_lt hle hlarge

/-- What is rounded to an integer of 32 bits is less than a millionth away from it. -/
theorem dist_lt {x : ℚ} {i : Int} (h : RoundsTo x i) (hi : i.natAbs ≤ 2 ^ 31) :
    |x - i| < 1 / 1000000 := by
  have hgap := gapAbove_lt hi
  have hle := gapBelow_le i.natAbs
  obtain ⟨hpos, hneg, hbelow, habove⟩ := h
  rcases Int.lt_trichotomy i 0 with hi | rfl | hi
  · have hcast : (i : ℚ) = -(i.natAbs : ℚ) := by
      rw [Nat.cast_natAbs, abs_of_neg hi, Int.cast_neg, neg_neg]
    rw [abs_of_neg (hneg hi)] at hbelow habove
    rw [hcast, abs_lt]
    constructor
    · linarith
    · linarith
  · rw [Int.cast_zero, sub_zero]
    rw [Int.natAbs_zero, Nat.cast_zero, zero_add] at habove
    exact lt_of_le_of_lt habove hgap
  · have hcast : (i : ℚ) = i.natAbs := by rw [Nat.cast_natAbs, abs_of_pos hi]
    rw [abs_of_pos (hpos hi)] at hbelow habove
    rw [hcast, abs_lt]
    constructor
    · linarith
    · linarith

end RoundsTo

/-- A numeral with six decimal places at most that is less than a millionth away from an integer is it. -/
theorem Decimal.toRat_eq_of_near {d : Decimal} {i : Int} (hplaces : -6 ≤ d.exponent)
    (h : |d.toRat - i| < 1 / 1000000) : d.toRat = i := by
  obtain ⟨k, hk⟩ : ∃ k : Nat, d.exponent = k - 6 := ⟨(d.exponent + 6).toNat, by omega⟩
  have hsize : d.size = (d.significand * 10 ^ k : Nat) / 1000000 := by
    unfold size
    rw [hk, zpow_sub₀ (by norm_num), zpow_natCast]
    push_cast
    rw [mul_div_assoc]
  obtain ⟨n, hn⟩ : ∃ n : Int, d.toRat = n / 1000000 := by
    unfold toRat
    rw [hsize]
    split
    · exact ⟨-(d.significand * 10 ^ k : Nat), by push_cast; rw [neg_div]⟩
    · exact ⟨(d.significand * 10 ^ k : Nat), by push_cast; rfl⟩
  rw [hn] at h ⊢
  rw [abs_lt] at h
  have hlow : (-1 : ℚ) < n - i * 1000000 := by linarith [h.1]
  have hhigh : (n : ℚ) - i * 1000000 < 1 := by linarith [h.2]
  have hlow : (-1 : Int) < n - i * 1000000 := by exact_mod_cast hlow
  have hhigh : n - i * 1000000 < (1 : Int) := by exact_mod_cast hhigh
  obtain rfl : n = i * 1000000 := by omega
  push_cast
  rw [mul_div_assoc, div_self (by norm_num), mul_one]

end Conformance
