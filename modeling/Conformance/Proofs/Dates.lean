import Conformance.Proofs.NumberText
import Conformance.Value.Instant

/-!
# The text of an instant reads back as it

The calendar day of a number of days has that number, so the text of an instant is read as the instant, where
its year is written with four digits. A leap second within a minute has the text of the second after it, and is
read as that.

* `InCycle` — a number of days by cycles of 400 years, centuries, spans of four years, years and days, each
  counted from March; `exists_inCycle` — every number has such parts.
* `CalendarDay.ofDays_eq` — the day of a number of days, by its parts.
* `CalendarDay.toDays_ofDays`, `CalendarDay.isValid_ofDays` — it has that number, and it exists.
* `Digits.take?_padded` — a number of fixed width is read back.
* `Instant.fraction?_fractionText` — so is a fraction of a second.
* `Instant.LeapEndsMinute`, `Instant.settled` — an instant that its own text stands for, and the one that the
  text of any instant stands for.
* `Instant.ofText?_characters` — the text of an instant is read as the one that it stands for.
-/

set_option autoImplicit false

namespace Conformance

/-! ## Days -/

/-- The day with this number stands so many days into a year that begins in March, which comes after so many
cycles of 400 years, centuries, spans of four years and years. A century lasts 36524 days, a span 1461 days
and a year 365 days, where what is left over goes to the last of them. -/
structure InCycle (days cycle century span year day : Int) : Prop where
  days_eq : days + 719468 = 146097 * cycle + (36524 * century + 1461 * span + 365 * year + day)
  century_le : 0 ≤ century ∧ century ≤ 3
  span_le : 0 ≤ span ∧ span ≤ 24
  year_le : 0 ≤ year ∧ year ≤ 3
  day_le : 0 ≤ day ∧ day ≤ 365
  leap : day = 365 → year = 3 ∧ (span < 24 ∨ century = 3)

theorem exists_inCycle (days : Int) :
    ∃ cycle century span year day, InCycle days cycle century span year day := by
  have hcycle : ∃ e r : Int, days + 719468 = 146097 * e + r ∧ 0 ≤ r ∧ r < 146097 :=
    ⟨(days + 719468) / 146097, (days + 719468) % 146097, by omega⟩
  obtain ⟨e, r, hr, hr0, hr1⟩ := hcycle
  have hcentury : ∃ c s : Int, r = 36524 * c + s ∧ 0 ≤ c ∧ c ≤ 3 ∧ 0 ≤ s ∧ s ≤ 36524 ∧
      (s = 36524 → c = 3) := by
    by_cases hlast : r = 146096
    · exact ⟨3, 36524, by omega⟩
    · exact ⟨r / 36524, r % 36524, by omega⟩
  obtain ⟨c, s, rfl, hc0, hc1, hs0, hs1, hs⟩ := hcentury
  have hspan : ∃ k t : Int, s = 1461 * k + t ∧ 0 ≤ k ∧ k ≤ 24 ∧ 0 ≤ t ∧ t ≤ 1460 :=
    ⟨s / 1461, s % 1461, by omega⟩
  obtain ⟨k, t, rfl, hk0, hk1, ht0, ht1⟩ := hspan
  by_cases hleap : t = 1460
  · refine ⟨e, c, k, 3, 365, ?_, ⟨hc0, hc1⟩, ⟨hk0, hk1⟩, by omega, by omega, fun _ => ?_⟩
    · omega
    · omega
  · refine ⟨e, c, k, t / 365, t % 365, ?_, ⟨hc0, hc1⟩, ⟨hk0, hk1⟩, by omega, by omega, fun h => ?_⟩
    · omega
    · omega

namespace InCycle

variable {days cycle century span year day : Int}

theorem century_rest (h : InCycle days cycle century span year day) :
    1461 * span + 365 * year + day ≤ 36524 ∧
      (1461 * span + 365 * year + day = 36524 → century = 3) := by
  obtain ⟨-, hc, hk, hj, ht, hlast⟩ := h
  omega

/-- The year of the cycle, counted from March, from the day of the cycle. -/
theorem yearOfEra_eq (h : InCycle days cycle century span year day) {d : Int}
    (hd : d = 36524 * century + 1461 * span + 365 * year + day) :
    (d - d / 1460 + d / 36524 - d / 146096) / 365 = 100 * century + 4 * span + year := by
  have hrest := h.century_rest
  obtain ⟨-, hc, hk, hj, ht, hlast⟩ := h
  have hcenturies : d / 36524 - d / 146096 = century := by
    by_cases hend : 1461 * span + 365 * year + day = 36524
    · omega
    · have hquotient : d / 36524 = century := by omega
      have hzero : d / 146096 = 0 := by omega
      omega
  have hspans : d / 1460 = 25 * century + span +
      (if 1460 ≤ 24 * century + span + 365 * year + day then 1 else 0) := by
    split <;> omega
  split at hspans
  · omega
  · omega

/-- The day of the year, from the day and the year of the cycle. -/
theorem dayOfYear_eq (h : InCycle days cycle century span year day) :
    36524 * century + 1461 * span + 365 * year + day -
      (365 * (100 * century + 4 * span + year) + (100 * century + 4 * span + year) / 4 -
        (100 * century + 4 * span + year) / 100) = day := by
  obtain ⟨-, hc, hk, hj, ht, -⟩ := h
  have hfour : (100 * century + 4 * span + year) / 4 = 25 * century + span := by omega
  have hhundred : (100 * century + 4 * span + year) / 100 = century := by omega
  rw [hfour, hhundred]
  omega

end InCycle

namespace CalendarDay

/-- The day of a year that begins in March. -/
def ofMarch (year day : Int) : CalendarDay :=
  let marchMonth := (5 * day + 2) / 153
  let month := if marchMonth < 10 then marchMonth + 3 else marchMonth - 9
  ⟨if month ≤ 2 then year + 1 else year, month.toNat,
    (day - (153 * marchMonth + 2) / 5 + 1).toNat⟩

theorem daysInMonth_le (year : Int) (month : Nat) : daysInMonth year month ≤ 31 := by
  unfold daysInMonth
  split
  · split <;> decide
  · split <;> decide

theorem ofDays_eq {days cycle century span year day : Int}
    (h : InCycle days cycle century span year day) :
    ofDays days = ofMarch (100 * century + 4 * span + year + cycle * 400) day := by
  have hday : (days + 719468) % 146097 = 36524 * century + 1461 * span + 365 * year + day := by
    have hrest := h.century_rest
    obtain ⟨hdays, hc, hk, hj, ht, -⟩ := h
    omega
  have hcycle : (days + 719468) / 146097 = cycle := by
    have hdays := h.days_eq
    omega
  unfold ofDays ofMarch
  simp only [hday, hcycle, h.yearOfEra_eq rfl, h.dayOfYear_eq]

/-- The months that begin in March, by the days before them. -/
theorem marchMonth_bounds {day : Int} (h : 0 ≤ day ∧ day ≤ 365) :
    0 ≤ (5 * day + 2) / 153 ∧ (5 * day + 2) / 153 ≤ 11 ∧
      (153 * ((5 * day + 2) / 153) + 2) / 5 ≤ day ∧
      day < (153 * ((5 * day + 2) / 153 + 1) + 2) / 5 := by
  omega

/-- **The day of a number of days has that number.** -/
theorem toDays_ofDays (days : Int) : (ofDays days).toDays = days := by
  obtain ⟨cycle, century, span, year, day, h⟩ := exists_inCycle days
  rw [ofDays_eq h]
  obtain ⟨hdays, hc, hk, hj, ht, -⟩ := h
  obtain ⟨hm0, hm1, hfirst, -⟩ := marchMonth_bounds ht
  unfold ofMarch
  generalize hy : 100 * century + 4 * span + year = y
  generalize (5 * day + 2) / 153 = m at *
  have hcount : ∀ c : CalendarDay, (if c.month ≤ 2 then c.year - 1 else c.year) = y + cycle * 400 →
      ((c.month : Int) + 9) % 12 = m → (c.day : Int) = day - (153 * m + 2) / 5 + 1 →
      c.toDays = days := by
    intro c hyear hm hd
    have hmod : (y + cycle * 400) % 400 = y := by omega
    have hdiv : (y + cycle * 400) / 400 = cycle := by omega
    have hfour : y / 4 = 25 * century + span := by omega
    have hhundred : y / 100 = century := by omega
    unfold toDays
    simp only [hyear, hmod, hdiv, hm, hd, hfour, hhundred]
    omega
  apply hcount
  · by_cases hmonth : m < 10
    · simp only [if_pos hmonth]
      rw [if_neg (by omega), if_neg (by omega)]
    · simp only [if_neg hmonth]
      rw [if_pos (by omega), if_pos (by omega)]
      omega
  · by_cases hmonth : m < 10
    · simp only [if_pos hmonth]
      omega
    · simp only [if_neg hmonth]
      omega
  · simp only
    omega

/-- A day 366 of a year that begins in March is the leap day. -/
theorem isLeapYear_of_last {cycle century span year : Int} (hyear : year = 3)
    (hspan : 0 ≤ span ∧ span ≤ 24) (h : span < 24 ∨ century = 3) :
    isLeapYear (100 * century + 4 * span + year + cycle * 400 + 1) = true := by
  have hfour : (100 * century + 4 * span + year + cycle * 400 + 1) % 4 = 0 := by omega
  have hhundred : (100 * century + 4 * span + year + cycle * 400 + 1) % 100 ≠ 0 ∨
      (100 * century + 4 * span + year + cycle * 400 + 1) % 400 = 0 := by omega
  simpa [isLeapYear, hfour] using hhundred

/-- **The day of a number of days exists.** -/
theorem isValid_ofDays (days : Int) : (ofDays days).IsValid := by
  obtain ⟨cycle, century, span, year, day, h⟩ := exists_inCycle days
  rw [ofDays_eq h]
  obtain ⟨-, -, hspan, -, ht, hlast⟩ := h
  obtain ⟨hm0, hm1, hfirst, hnext⟩ := marchMonth_bounds ht
  have hleap : day = 365 → isLeapYear (100 * century + 4 * span + year + cycle * 400 + 1) = true :=
    fun hday => isLeapYear_of_last (hlast hday).1 hspan (hlast hday).2
  unfold ofMarch
  generalize 100 * century + 4 * span + year + cycle * 400 = y at *
  generalize (5 * day + 2) / 153 = m at *
  have hexists : ∀ c : CalendarDay, c.year = (if (c.month : Int) ≤ 2 then y + 1 else y) →
      (c.month : Int) = (if m < 10 then m + 3 else m - 9) →
      (c.day : Int) = day - (153 * m + 2) / 5 + 1 → c.IsValid := by
    intro c hyear hmonth hday
    refine ⟨by omega, by omega, by omega, ?_⟩
    unfold daysInMonth
    -- Only the month before March has a length that the year decides.
    by_cases hfebruary : c.month = 2
    · rw [if_pos hfebruary]
      rw [if_pos (by omega)] at hyear
      by_cases hlast : day = 365
      · rw [hyear, if_pos (hleap hlast)]
        omega
      · split <;> omega
    · rw [if_neg hfebruary]
      split <;> omega
  apply hexists
  · simp only
    congr 1
    rw [Int.toNat_of_nonneg (by omega)]
  · simp only
    rw [Int.toNat_of_nonneg (by omega)]
  · simp only
    omega

end CalendarDay

/-! ## Numbers of fixed width -/

namespace Digits

theorem length_padded {width n : Nat} (hwidth : 0 < width) (h : n < 10 ^ width) :
    (padded width n).length = width := by
  have hle : (ofNat n).length ≤ width := by
    by_cases hn : n = 0
    · subst hn
      exact hwidth
    · have hpow := lt_of_le_of_lt (pow_length_le hn) h
      have hlength := (Nat.pow_lt_pow_iff_right (by decide : 1 < 10)).1 hpow
      omega
  unfold padded
  rw [List.length_append, List.length_replicate]
  omega

theorem isDigit_padded {width n : Nat} {c : Char} (h : c ∈ padded width n) : c.isDigit = true :=
  (List.mem_append.1 h).elim Numeral.isDigit_zeros isDigit_ofNat

theorem value_padded (width n : Nat) : value (padded width n) = n := by
  unfold padded
  rw [Numeral.value_zeros_append, Pointer.value_ofNat]

/-- A number of fixed width is read back. -/
theorem take?_padded {width n : Nat} (hwidth : 0 < width) (h : n < 10 ^ width) (rest : List Char) :
    take? width (padded width n ++ rest) = some (n, rest) := by
  have hlength := length_padded hwidth h
  have htake : (padded width n ++ rest).take width = padded width n := by
    rw [List.take_append_of_le_length (by omega), List.take_of_length_le (by omega)]
  have hdrop : (padded width n ++ rest).drop width = rest := by
    rw [List.drop_append_of_le_length (by omega), List.drop_of_length_le (by omega), List.nil_append]
  unfold take?
  simp only [htake, hdrop, hlength, value_padded, true_and]
  rw [if_pos (List.all_eq_true.2 fun c hc => isDigit_padded hc)]

end Digits

/-! ## Instants -/

namespace Instant

/-- The day of an instant. -/
def day (t : Instant) : CalendarDay := CalendarDay.ofDays (t.seconds / 86400)

/-- A fraction of a second is read by its digits, whatever their number. -/
theorem fraction?_padded {width n : Nat} (hwidth : 0 < width) (hmax : width ≤ 9)
    (h : n < 10 ^ width) :
    fraction? ('.' :: Digits.padded width n ++ ['Z']) = some (n * 10 ^ (9 - width)) := by
  have hlength := Digits.length_padded hwidth h
  have hstops : Stops Char.isDigit ['Z'] := .cons (by decide)
  have hdigits : ∀ c ∈ Digits.padded width n, c.isDigit = true := fun c hc => Digits.isDigit_padded hc
  have hne : Digits.padded width n ≠ [] := by
    intro hnil
    rw [hnil] at hlength
    exact absurd hlength (by simp; omega)
  have hnanos : nanosOfFraction (Digits.padded width n) = n * 10 ^ (9 - width) := by
    unfold nanosOfFraction
    rw [List.take_append, hlength, List.take_of_length_le (by omega), List.take_replicate,
      Nat.min_eq_left (by omega), Digits.value_append, Digits.value_padded, Digits.value_zeros,
      List.length_replicate, Nat.add_zero]
  change (if (Digits.padded width n ++ ['Z']).takeWhile Char.isDigit ≠ [] ∧
    (Digits.padded width n ++ ['Z']).dropWhile Char.isDigit = ['Z'] then
    some (nanosOfFraction ((Digits.padded width n ++ ['Z']).takeWhile Char.isDigit)) else none) = _
  rw [Stops.takeWhile_append hdigits hstops, Stops.dropWhile_append hdigits hstops,
    if_pos ⟨hne, rfl⟩, hnanos]

/-- A fraction of a second is read back. -/
theorem fraction?_fractionText {nanos : Nat} (h : nanos < 1000000000) :
    fraction? (fractionText nanos ++ ['Z']) = some nanos := by
  unfold fractionText
  split
  · rename_i hzero
    rw [hzero]
    rfl
  · split
    · rw [fraction?_padded (by decide) (by decide) (by omega)]
      congr 1
      omega
    · split
      · rw [fraction?_padded (by decide) (by decide) (by omega)]
        congr 1
        omega
      · rw [fraction?_padded (by decide) (by decide) h, Nat.sub_self, Nat.pow_zero, Nat.mul_one]

/-- The instant lies inside a leap second, if at all, at the end of a minute. -/
def LeapEndsMinute (t : Instant) : Prop := 1000000000 ≤ t.nanos → t.seconds % 60 = 59

instance (t : Instant) : Decidable t.LeapEndsMinute :=
  inferInstanceAs (Decidable (1000000000 ≤ t.nanos → t.seconds % 60 = 59))

/-- The instant that the text stands for: a leap second within a minute is the second after it. -/
def settled (t : Instant) : Instant :=
  if t.LeapEndsMinute then t
  else ⟨t.seconds + 1, t.nanos - 1000000000, Nat.lt_of_le_of_lt (Nat.sub_le _ _) t.nanos_lt⟩

theorem settled_of_leapEndsMinute {t : Instant} (h : t.LeapEndsMinute) : t.settled = t := if_pos h

theorem parts_settled {t : Instant} (h : ¬ t.LeapEndsMinute) :
    t.settled.seconds = t.seconds + 1 ∧ t.settled.nanos = t.nanos - 1000000000 := by
  unfold settled
  rw [if_neg h]
  exact ⟨rfl, rfl⟩

theorem leapEndsMinute_settled (t : Instant) : t.settled.LeapEndsMinute := by
  by_cases h : t.LeapEndsMinute
  · rw [settled_of_leapEndsMinute h]
    exact h
  · intro hnanos
    have hlt := t.nanos_lt
    have hparts := parts_settled h
    omega

theorem ofParts?_eq_some_iff {seconds : Int} {nanos : Nat} {t : Instant} :
    ofParts? seconds nanos = some t ↔ (t.seconds = seconds ∧ t.nanos = nanos) ∧ t.LeapEndsMinute := by
  unfold ofParts? LeapEndsMinute
  constructor
  · intro h
    split at h
    · rename_i hparts
      obtain rfl := Option.some.inj h
      exact ⟨⟨rfl, rfl⟩, hparts.2⟩
    · cases h
  · rintro ⟨⟨rfl, rfl⟩, hleap⟩
    exact dif_pos ⟨t.nanos_lt, hleap⟩

/-- The parts of an instant's clock, with the second as it is written, make up the instant that the text stands
for. -/
theorem ofClock?_parts (t : Instant) :
    ofClock? t.day ((t.seconds % 86400).toNat / 3600)
      ((t.seconds % 86400).toNat / 60 % 60)
      ((t.seconds % 86400).toNat % 60 + t.nanos / 1000000000) (t.nanos % 1000000000) = some t.settled := by
  have hnanos := t.nanos_lt
  have hwhole : ∀ s : Nat, t.seconds / 86400 * 86400 + (((t.seconds % 86400).toNat / 3600 * 60 +
      (t.seconds % 86400).toNat / 60 % 60) * 60 + s : Nat) = t.seconds / 60 * 60 + s := by
    omega
  unfold ofClock?
  rw [if_pos ⟨CalendarDay.isValid_ofDays _, by omega, by omega, by omega⟩]
  simp only [day, CalendarDay.toDays_ofDays, hwhole]
  by_cases hleap : t.LeapEndsMinute
  · rw [settled_of_leapEndsMinute hleap]
    unfold LeapEndsMinute at hleap
    split <;> exact ofParts?_eq_some_iff.2 ⟨⟨by omega, by omega⟩, hleap⟩
  · -- The second is not the last of its minute, so the next one is written with two digits below 60.
    obtain ⟨hseconds, hsettled⟩ := parts_settled hleap
    unfold LeapEndsMinute at hleap
    rw [if_neg (by omega)]
    exact ofParts?_eq_some_iff.2 ⟨⟨by omega, by omega⟩, leapEndsMinute_settled t⟩

/-- A number of two digits is read behind its mark. -/
theorem twoDigits_padded {n : Nat} (h : n < 100) (c : Char) (rest : List Char) :
    (skip? c (c :: (Digits.padded 2 n ++ rest))).bind (Digits.take? 2) = some (n, rest) := by
  have hskip : skip? c (c :: (Digits.padded 2 n ++ rest)) = some (Digits.padded 2 n ++ rest) :=
    if_pos rfl
  rw [hskip]
  exact Digits.take?_padded (by decide) h rest

/-- **The text of an instant of the years 0000 to 9999 is read as the one that it stands for.** -/
theorem ofText?_characters {t : Instant} (h : 0 ≤ t.day.year ∧ t.day.year ≤ 9999) :
    ofText? t.characters = some t.settled := by
  have hclock := ofClock?_parts t
  obtain ⟨hmonth, hmonth12, hday, hdayMax⟩ : t.day.IsValid := CalendarDay.isValid_ofDays _
  have hday31 := CalendarDay.daysInMonth_le t.day.year t.day.month
  have hnanos := t.nanos_lt
  have hhour : (t.seconds % 86400).toNat / 3600 ≤ 23 := by omega
  have hdate : CalendarDay.ofDays (t.seconds / 86400) = t.day := rfl
  unfold characters yearText
  simp only [hdate, if_pos h, List.append_assoc, List.cons_append]
  clear hdate
  generalize t.day = date at *
  generalize (t.seconds % 86400).toNat = second at *
  have hyear : (date.year.natAbs : Int) = date.year := by omega
  unfold ofText?
  rw [Digits.take?_padded (by decide) (by omega)]
  simp only [Option.bind_eq_bind, Option.bind_some,
    twoDigits_padded (by omega : date.month < 100), twoDigits_padded (by omega : date.day < 100),
    twoDigits_padded (by omega : second / 3600 < 100),
    twoDigits_padded (by omega : second / 60 % 60 < 100),
    twoDigits_padded (by omega : second % 60 + t.nanos / 1000000000 < 100),
    fraction?_fractionText (Nat.mod_lt t.nanos (by decide : 0 < 1000000000)), hyear]
  exact hclock

theorem toList_text (t : Instant) : t.text.toList = t.characters := String.toList_ofList

theorem ofText?_characters_of_leapEndsMinute {t : Instant} (h : 0 ≤ t.day.year ∧ t.day.year ≤ 9999)
    (hleap : t.LeapEndsMinute) : ofText? t.characters = some t := by
  rw [ofText?_characters h, settled_of_leapEndsMinute hleap]

end Instant

end Conformance
