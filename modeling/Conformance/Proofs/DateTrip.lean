import Conformance.Proofs.Dates
import Mathlib.Data.List.Induction

/-!
# Dates that come from a text

A day of the calendar is the day of its number, and a text that is read as an instant names a year of four
digits. The text of an instant is therefore read as the instant for the instants of those years, and for
every instant that came from a text, however that text was written. Only a leap second within a minute, which
no text stands for, is read as the second after it.

* `CalendarDay.ofDays_toDays` — the day of the number of a day is that day.
* `Digits.value_lt` — a number of so many digits is less than that power of ten.
* `Instant.day_of_ofClock?` — an instant is of the day that its clock was read with.
* `Instant.year_of_ofText?`, `Instant.leapEndsMinute_of_ofText?` — an instant that was read is of the years 0000
  to 9999, and inside a leap second, if at all, at the end of a minute.
* `Instant.text_roundTrip` — the text of an instant is read as it for those instants and no other.
-/

set_option autoImplicit false

namespace Conformance

/-! ## Days -/

namespace CalendarDay

/-- The year that began in the last March. -/
def marchYear (d : CalendarDay) : Int := if d.month ≤ 2 then d.year - 1 else d.year

/-- The number of the month, where March is 0. -/
def marchMonth (d : CalendarDay) : Int := (d.month + 9) % 12

/-- The number of the day in the year that began in the last March, where the first of March is 0. -/
def marchDay (d : CalendarDay) : Int := (153 * d.marchMonth + 2) / 5 + d.day - 1

theorem toDays_eq (d : CalendarDay) : d.toDays =
    d.marchYear / 400 * 146097 + (d.marchYear % 400 * 365 + d.marchYear % 400 / 4 -
      d.marchYear % 400 / 100 + d.marchDay) - 719468 := rfl

/-- A month that begins in March is no longer than the formula for the days before a month has it. -/
theorem day_le_of_isValid {d : CalendarDay} (h : d.IsValid) :
    (d.day : Int) ≤ (153 * (d.marchMonth + 1) + 2) / 5 - (153 * d.marchMonth + 2) / 5 := by
  obtain ⟨hmonth, hmonth12, -, hday⟩ := h
  unfold daysInMonth at hday
  unfold marchMonth
  by_cases hfebruary : d.month = 2
  · rw [if_pos hfebruary] at hday
    split at hday
    · omega
    · omega
  · rw [if_neg hfebruary] at hday
    split at hday
    · omega
    · have hlong : d.month = 1 ∨ d.month = 3 ∨ d.month = 5 ∨ d.month = 7 ∨ d.month = 8 ∨
          d.month = 10 ∨ d.month = 12 := by omega
      omega

/-- The day of the year determines the month. -/
theorem marchMonth_of_marchDay {d : CalendarDay} (h : d.IsValid) :
    (5 * d.marchDay + 2) / 153 = d.marchMonth := by
  have hday := day_le_of_isValid h
  have hpos := h.2.2.1
  unfold marchDay
  generalize d.marchMonth = m at *
  omega

/-- The last day of a year of 366 days is the leap day. -/
theorem marchDay_le {d : CalendarDay} (h : d.IsValid) :
    0 ≤ d.marchDay ∧ d.marchDay ≤ 365 ∧
      (d.marchDay = 365 → isLeapYear (d.marchYear + 1) = true) := by
  have hday := day_le_of_isValid h
  obtain ⟨hmonth, hmonth12, hpos, hmax⟩ := h
  unfold marchDay marchYear
  by_cases hfebruary : d.month = 2
  · have hm : d.marchMonth = 11 := by
      unfold marchMonth
      omega
    rw [hm]
    unfold daysInMonth at hmax
    rw [if_pos hfebruary] at hmax
    rw [if_pos (by omega), Int.sub_add_cancel]
    split at hmax
    · rename_i hleap
      exact ⟨by omega, by omega, fun _ => hleap⟩
    · exact ⟨by omega, by omega, by omega⟩
  · have hm : 0 ≤ d.marchMonth ∧ d.marchMonth ≤ 10 := by
      unfold marchMonth
      omega
    generalize d.marchMonth = m at *
    exact ⟨by omega, by omega, by omega⟩

theorem inCycle_toDays {d : CalendarDay} (h : d.IsValid) :
    InCycle d.toDays (d.marchYear / 400) (d.marchYear % 400 / 100) (d.marchYear % 400 % 100 / 4)
      (d.marchYear % 400 % 4) d.marchDay := by
  obtain ⟨hfirst, hlast, hleap⟩ := marchDay_le h
  rw [toDays_eq]
  generalize d.marchDay = day at *
  generalize d.marchYear = year at *
  refine ⟨by omega, by omega, by omega, by omega, ⟨hfirst, hlast⟩, fun hday => ?_⟩
  have hyear := hleap hday
  simp only [isLeapYear, Bool.and_eq_true, Bool.or_eq_true, beq_iff_eq, bne_iff_ne] at hyear
  omega

/-- **The day of the number of a day is that day**: no two days of the calendar have the same number. -/
theorem ofDays_toDays {d : CalendarDay} (h : d.IsValid) : ofDays d.toDays = d := by
  rw [ofDays_eq (inCycle_toDays h)]
  have hyear : 100 * (d.marchYear % 400 / 100) + 4 * (d.marchYear % 400 % 100 / 4) +
      d.marchYear % 400 % 4 + d.marchYear / 400 * 400 = d.marchYear := by omega
  unfold ofMarch
  simp only [hyear, marchMonth_of_marchDay h]
  obtain ⟨hmonth, hmonth12, -, -⟩ := h
  obtain ⟨year, month, day⟩ := d
  simp only [marchDay, marchYear, marchMonth] at *
  -- March to December come first in such a year, and January and February after them.
  by_cases hearly : month ≤ 2
  · simp only [if_pos hearly]
    rw [if_pos (by omega)]
    congr 1
    · omega
    · omega
    · omega
  · simp only [if_neg hearly]
    rw [if_neg (by omega)]
    congr 1
    · omega
    · omega

end CalendarDay

/-! ## Numbers of fixed width -/

namespace Digits

/-- A digit stands for a number less than ten. -/
theorem toNat_lt_of_isDigit {c : Char} (h : c.isDigit = true) : c.toNat - '0'.toNat < 10 := by
  have hnine : c.toNat ≤ 57 := (Char.isDigit_iff_toNat.1 h).2
  show c.toNat - 48 < 10
  omega

/-- **A number of so many digits is less than that power of ten.** -/
theorem value_lt {digits : List Char} (h : ∀ c ∈ digits, c.isDigit = true) :
    value digits < 10 ^ digits.length := by
  induction digits using List.reverseRecOn with
  | nil => decide
  | append_singleton digits c ih =>
    have hinit := ih fun d hd => h d (List.mem_append_left _ hd)
    have hlast := toNat_lt_of_isDigit (h c (by simp))
    have hvalue : value [c] = c.toNat - '0'.toNat := by simp [value]
    rw [value_append, hvalue, List.length_append, List.length_singleton, pow_succ]
    omega

theorem take?_lt {count n : Nat} {text rest : List Char} (h : take? count text = some (n, rest)) :
    n < 10 ^ count := by
  unfold take? at h
  simp only at h
  split at h
  · rename_i hdigits
    obtain ⟨hlength, hall⟩ := hdigits
    obtain ⟨rfl, -⟩ := Prod.mk.inj (Option.some.inj h)
    have hlt := value_lt (List.all_eq_true.1 hall)
    rwa [hlength] at hlt
  · cases h

end Digits

/-! ## Instants -/

namespace Instant

/-- An instant is of the day that its clock was read with; the leap second is still of that day. -/
theorem day_of_ofClock? {day : CalendarDay} {hour minute second nanos : Nat} {t : Instant}
    (h : ofClock? day hour minute second nanos = some t) : t.day = day := by
  unfold ofClock? at h
  split at h
  · rename_i hclock
    obtain ⟨hday, hhour, hminute, hsecond⟩ := hclock
    have hseconds : ∃ s : Nat, s ≤ 59 ∧
        t.seconds = day.toDays * 86400 + ((hour * 60 + minute) * 60 + s : Nat) := by
      by_cases hleap : second = 60
      · rw [if_pos hleap] at h
        exact ⟨59, le_rfl, (ofParts?_eq_some_iff.1 h).1.1⟩
      · rw [if_neg hleap] at h
        exact ⟨second, by omega, (ofParts?_eq_some_iff.1 h).1.1⟩
    obtain ⟨s, hs, hseconds⟩ := hseconds
    have hdays : t.seconds / 86400 = day.toDays := by omega
    unfold Instant.day
    rw [hdays]
    exact CalendarDay.ofDays_toDays hday
  · cases h

theorem leapEndsMinute_of_ofClock? {day : CalendarDay} {hour minute second nanos : Nat} {t : Instant}
    (h : ofClock? day hour minute second nanos = some t) : t.LeapEndsMinute := by
  unfold ofClock? at h
  split at h
  · dsimp only at h
    split at h <;> exact (ofParts?_eq_some_iff.1 h).2
  · cases h

/-- What was read from a text was read from a clock, in a year of four digits. -/
theorem clock_of_ofText? {text : List Char} {t : Instant} (h : ofText? text = some t) :
    ∃ year month day hour minute second nanos : Nat,
      year < 10000 ∧ ofClock? ⟨year, month, day⟩ hour minute second nanos = some t := by
  simp only [ofText?, Option.bind_eq_bind, Option.bind_eq_some_iff, Prod.exists] at h
  obtain ⟨year, _, hyear, month, _, -, day, _, -, hour, _, -, minute, _, -, second, _, -, nanos, -,
    hclock⟩ := h
  exact ⟨year, month, day, hour, minute, second, nanos, Digits.take?_lt hyear, hclock⟩

/-- An instant that was read from a text is of the years 0000 to 9999. -/
theorem year_of_ofText? {text : List Char} {t : Instant} (h : ofText? text = some t) :
    0 ≤ t.day.year ∧ t.day.year ≤ 9999 := by
  obtain ⟨year, month, day, hour, minute, second, nanos, hyear, hclock⟩ := clock_of_ofText? h
  rw [day_of_ofClock? hclock]
  dsimp only
  omega

/-- An instant that was read from a text is inside a leap second only at the end of a minute. -/
theorem leapEndsMinute_of_ofText? {text : List Char} {t : Instant} (h : ofText? text = some t) :
    t.LeapEndsMinute := by
  obtain ⟨_, _, _, _, _, _, _, -, hclock⟩ := clock_of_ofText? h
  exact leapEndsMinute_of_ofClock? hclock

/-- **The text of an instant is read as the instant exactly for the years 0000 to 9999**, with any nanoseconds and
also inside the leap second at the end of a minute; for a leap second within a minute, which no text stands for,
it is read as the second after it. **What is read from a text is read from its own text again**, whatever the
number of fraction digits it was first written with. -/
theorem text_roundTrip :
    (∀ t : Instant, ofText? t.text.toList = some t ↔
      (0 ≤ t.day.year ∧ t.day.year ≤ 9999) ∧ t.LeapEndsMinute) ∧
    (∀ t : Instant, 0 ≤ t.day.year ∧ t.day.year ≤ 9999 → ofText? t.text.toList = some t.settled) ∧
    ∀ (text : List Char) (t : Instant), ofText? text = some t → ofText? t.text.toList = some t := by
  simp only [toList_text]
  refine ⟨fun t => ⟨fun h => ?_, fun ⟨h, hleap⟩ => ?_⟩, fun t h => ofText?_characters h, fun text t h => ?_⟩
  · exact ⟨year_of_ofText? h, leapEndsMinute_of_ofText? h⟩
  · exact ofText?_characters_of_leapEndsMinute h hleap
  · exact ofText?_characters_of_leapEndsMinute (year_of_ofText? h) (leapEndsMinute_of_ofText? h)

/-- The last nanosecond of the leap second at the end of 1968, a leap year, written with ten digits. -/
theorem text_roundTrip_leapSecond :
    ∃ t, ofText? "1968-12-31T23:59:60.9999999994Z".toList = some t ∧
      t.text = "1968-12-31T23:59:60.999999999Z" ∧ ofText? t.text.toList = some t := by
  refine ⟨⟨-31536001, 1999999999, by decide⟩, ?_, ?_, ?_⟩
  · decide +kernel
  · decide +kernel
  · exact text_roundTrip.2.2 "1968-12-31T23:59:60.9999999994Z".toList _ (by decide +kernel)

/-- Half a second into a leap second within a minute: its text is that of half a second past the second after it,
and is read as that. -/
theorem text_roundTrip_midMinute :
    let t : Instant := ⟨30, 1500000000, by decide⟩
    let later : Instant := ⟨31, 500000000, by decide⟩
    (0 ≤ t.day.year ∧ t.day.year ≤ 9999) ∧ t.text = "1970-01-01T00:00:31.500Z" ∧
      ofText? t.text.toList = some later ∧ t ≠ later := by
  decide +kernel

end Instant

end Conformance
