import Conformance.Proofs.Dates
import Conformance.Proofs.JsonTrip
import Conformance.Proofs.Spelling
import Conformance.Value.Notation

/-!
# Texts of scalars tell them

Each scalar is told by its text, and so is the place where the text ends: by the closing quote for what stands in
quotes, and elsewhere by what may follow a value, which is no part of any number or identifier.

* `Closes` — what may follow a value in notation.
* `run_tells` — a run of characters, none of which may follow a value, is told by what it begins.
* `Quoted.write_tells` — so is a text in quotes, by its escapes.
* `Binary64.literalText_injective`, `Instant.characters_injective`, `Base64.encode_injective` — the texts of numbers,
  dates and bytes, each of which tells what it stands for.
-/

set_option autoImplicit false

namespace Conformance

/-! ## Where a text ends -/

/-- The characters that may follow a value in notation. -/
def closers : List Char := [',', ']', '}']

/-- The text is at its end or goes on with what may follow a value. -/
def Closes (text : List Char) : Prop := ∀ c, text.head? = some c → c ∈ closers

theorem Closes.nil : Closes [] := by
  intro c hc
  cases hc

theorem Closes.cons {c : Char} {rest : List Char} (h : c ∈ closers) : Closes (c :: rest) := by
  intro d hd
  cases hd
  exact h

/-- A run of characters of one sort ends where a character of another sort follows. -/
theorem run_ends {p : Char → Bool} {run other rest rest' : List Char} (hrun : ∀ c ∈ run, p c = true)
    (hother : ∀ c ∈ other, p c = true) (hrest : Stops p rest) (hrest' : Stops p rest')
    (h : run ++ rest = other ++ rest') : run = other ∧ rest = rest' := by
  have htake := congrArg (List.takeWhile p) h
  have hdrop := congrArg (List.dropWhile p) h
  rw [Stops.takeWhile_append hrun hrest, Stops.takeWhile_append hother hrest'] at htake
  rw [Stops.dropWhile_append hrun hrest, Stops.dropWhile_append hother hrest'] at hdrop
  exact ⟨htake, hdrop⟩

/-- A run without characters that may follow a value ends where such a character follows. -/
theorem run_tells {run other rest rest' : List Char} (hrun : ∀ c ∈ run, c ∉ closers)
    (hother : ∀ c ∈ other, c ∉ closers) (hrest : Closes rest) (hrest' : Closes rest')
    (h : run ++ rest = other ++ rest') : run = other ∧ rest = rest' := by
  apply run_ends (p := fun c => !closers.contains c) _ _ _ _ h
  · intro c hc
    simpa using hrun c hc
  · intro c hc
    simpa using hother c hc
  · intro c hc
    simpa using hrest c hc
  · intro c hc
    simpa using hrest' c hc

/-- A run without double quotes ends at the next one. -/
theorem quoted_run_tells {run other rest rest' : List Char} (hrun : '"' ∉ run) (hother : '"' ∉ other)
    (h : run ++ '"' :: rest = other ++ '"' :: rest') : run = other ∧ rest = rest' := by
  have hne : ∀ {l : List Char}, '"' ∉ l → ∀ c ∈ l, (c != '"') = true := by
    intro l hl c hc
    rw [bne_iff_ne]
    rintro rfl
    exact hl hc
  obtain ⟨hrun, hrest⟩ := run_ends (hne hrun) (hne hother) (.cons rfl) (.cons rfl) h
  exact ⟨hrun, List.cons.inj hrest |>.2⟩

/-- A text of which each character can be tried. -/
theorem not_closers_of_all {text : List Char} (h : (text.all fun c => !closers.contains c) = true) :
    ∀ c ∈ text, c ∉ closers := by
  intro c hc
  simpa using List.all_eq_true.1 h c hc

theorem digit_not_mem_closers {c : Char} (h : c.isDigit = true) : c ∉ closers := by
  intro hc
  simp only [closers, List.mem_cons, List.not_mem_nil, or_false] at hc
  rcases hc with rfl | rfl | rfl <;> cases h

/-! ## Texts in quotes -/

namespace Quoted

/-- The quote is written with a backslash before itself, and no other escape is. -/
def Suits (quote : Char) : Prop := quote ∉ ['\\', 'n', 'r', 't']

/-- The character that is written with a backslash and the given character. -/
def meaning (c : Char) : Char :=
  if c = 'n' then '\n' else if c = 'r' then '\r' else if c = 't' then '\t' else c

variable {quote : Char}

/-- A character between quotes is written with a backslash, or stands for itself. -/
theorem escapeChar_shape (hquote : Suits quote) (c : Char) :
    (∃ d, escapeChar quote c = ['\\', d] ∧ meaning d = c) ∨ escapeChar quote c = [c] ∧ c ≠ quote ∧ c ≠ '\\' := by
  simp only [Suits, List.mem_cons, List.not_mem_nil, or_false, not_or] at hquote
  obtain ⟨-, hn, hr, ht⟩ := hquote
  unfold escapeChar
  split
  · exact .inl ⟨_, rfl, by simp_all [meaning]⟩
  split
  · exact .inl ⟨_, rfl, by simp_all [meaning]⟩
  split
  · exact .inl ⟨_, rfl, by simp_all [meaning]⟩
  split
  · exact .inl ⟨_, rfl, by simp_all [meaning]⟩
  split
  · exact .inl ⟨_, rfl, by simp_all [meaning]⟩
  · exact .inr ⟨rfl, ‹_›, ‹_›⟩

/-- The first escape or character tells what it stands for, and where it ends. -/
theorem escapeChar_tells (hquote : Suits quote) {c d : Char} {rest rest' : List Char}
    (h : escapeChar quote c ++ rest = escapeChar quote d ++ rest') : c = d ∧ rest = rest' := by
  rcases escapeChar_shape hquote c with ⟨x, hx, hc⟩ | ⟨hx, -, hc⟩ <;>
    rcases escapeChar_shape hquote d with ⟨y, hy, hd⟩ | ⟨hy, -, hd⟩ <;>
    rw [hx, hy] at h <;>
    simp only [List.cons_append, List.nil_append, List.cons.injEq] at h
  · obtain ⟨-, rfl, hrest⟩ := h
    exact ⟨hc.symm.trans hd, hrest⟩
  · exact absurd h.1.symm hd
  · exact absurd h.1 hc
  · exact h

/-- No escape and no character begins with the quote. -/
theorem escapeChar_ne_quote (hquote : Suits quote) {c : Char} {rest rest' : List Char} :
    escapeChar quote c ++ rest ≠ quote :: rest' := by
  intro h
  have hbackslash : quote ≠ '\\' := by
    rintro rfl
    exact hquote List.mem_cons_self
  rcases escapeChar_shape hquote c with ⟨x, hx, -⟩ | ⟨hx, hc, -⟩ <;>
    rw [hx] at h <;>
    simp only [List.cons_append, List.cons.injEq] at h
  · exact hbackslash h.1.symm
  · exact hc h.1

theorem escape_tells (hquote : Suits quote) {text other rest rest' : List Char}
    (h : escape quote text ++ quote :: rest = escape quote other ++ quote :: rest') :
    text = other ∧ rest = rest' := by
  induction text generalizing other with
  | nil =>
    cases other with
    | nil => exact ⟨rfl, List.cons.inj h |>.2⟩
    | cons d other =>
      rw [escape, escape, List.flatMap_nil, List.flatMap_cons, List.append_assoc] at h
      exact absurd h.symm (escapeChar_ne_quote hquote)
  | cons c text ih =>
    cases other with
    | nil =>
      rw [escape, escape, List.flatMap_nil, List.flatMap_cons, List.append_assoc] at h
      exact absurd h (escapeChar_ne_quote hquote)
    | cons d other =>
      rw [escape, escape, List.flatMap_cons, List.flatMap_cons, List.append_assoc, List.append_assoc] at h
      obtain ⟨rfl, htail⟩ := escapeChar_tells hquote h
      obtain ⟨rfl, hrest⟩ := ih htail
      exact ⟨rfl, hrest⟩

/-- **A text in quotes tells its content and its end.** -/
theorem write_tells (hquote : Suits quote) {text other : String} {rest rest' : List Char}
    (h : write quote text ++ rest = write quote other ++ rest') : text = other ∧ rest = rest' := by
  simp only [write, List.cons_append, List.append_assoc, List.cons.injEq, true_and, List.nil_append] at h
  obtain ⟨htext, hrest⟩ := escape_tells hquote h
  exact ⟨String.toList_inj.1 htext, hrest⟩

end Quoted

/-! ## Numbers -/

theorem Digits.ofInt_injective {i j : Int32} (h : ofInt i.toInt = ofInt j.toInt) : i = j := by
  have hi := Scan.number_ofInt i Delimited.nil
  have hj := Scan.number_ofInt j Delimited.nil
  rw [h, hj] at hi
  simp only [Scan.token, Scan.mk.injEq, true_and, Except.ok.injEq, Token.integer.injEq] at hi
  exact hi.symm

theorem Digits.ofInt_not_closers (i : Int) : ∀ c ∈ ofInt i, c ∉ closers := by
  obtain ⟨c, digits, hdigits, hfirst, hall⟩ := ofInt_cons i
  rw [hdigits]
  intro d hd
  rcases List.mem_cons.1 hd with rfl | hd
  · rcases hfirst with hdigit | rfl
    · exact digit_not_mem_closers hdigit
    · decide
  · exact digit_not_mem_closers (hall d hd)

namespace Binary64

/-- Just the finite numbers are written as numbers. -/
theorem startsNumber_literalText (r : Binary64) : Scan.startsNumber r.literalText = r.isFinite := by
  cases r with
  | nan => rfl
  | infinite negative => cases negative <;> rfl
  | finite negative m =>
    obtain ⟨whole, fraction, exponent?, hwritten, htext⟩ := exists_literalText negative m
    change _ = true
    rw [← List.append_nil (Binary64.literalText _), htext]
    exact Scan.startsNumber_of hwritten.isNumber

/-- **The literal of a number tells it bit for bit**, where all patterns that are not a number are one. -/
theorem literalText_injective {r s : Binary64} (h : r.literalText = s.literalText) : r = s := by
  have hfinite : r.isFinite = s.isFinite := by
    rw [← startsNumber_literalText, ← startsNumber_literalText, h]
  by_cases hr : r.isFinite = true
  · have hnumber := Scan.number_literalText hr Delimited.nil
    rw [h, Scan.number_literalText (hfinite ▸ hr) Delimited.nil] at hnumber
    simp only [Scan.token, Scan.mk.injEq, true_and, Except.ok.injEq, Token.real.injEq] at hnumber
    exact hnumber.symm
  · rw [Bool.not_eq_true] at hr
    have hs := hfinite.symm.trans hr
    cases r with
    | finite => cases hr
    | nan =>
      cases s with
      | finite => cases hs
      | nan => rfl
      | infinite negative => cases negative <;> cases h
    | infinite negative =>
      cases s with
      | finite => cases hs
      | nan => cases negative <;> cases h
      | infinite other => cases negative <;> cases other <;> first | rfl | cases h

theorem literalText_not_closers (r : Binary64) : ∀ c ∈ r.literalText, c ∉ closers := by
  intro c hc
  cases r with
  | nan => exact not_closers_of_all rfl c hc
  | infinite negative => cases negative <;> exact not_closers_of_all rfl c hc
  | finite negative m =>
    obtain ⟨whole, fraction, exponent?, hwritten, htext⟩ := exists_literalText negative m
    rw [htext, Scan.NumberParts.characters_of] at hc
    simp only [List.mem_append] at hc
    rcases hc with hsign | hwhole | hfraction | hexponent
    · cases negative with
      | false => cases hsign
      | true =>
        rw [List.mem_singleton.1 hsign]
        decide
    · exact digit_not_mem_closers (hwritten.isNumber.whole c hwhole)
    · unfold Scan.NumberParts.fractionText at hfraction
      split at hfraction
      · cases hfraction
      · rcases List.mem_cons.1 hfraction with rfl | hdigit
        · decide
        · exact digit_not_mem_closers (hwritten.isNumber.fraction c hdigit)
    · cases exponent? with
      | none => cases hexponent
      | some e =>
        rcases List.mem_cons.1 hexponent with rfl | hdigit
        · decide
        · exact Digits.ofInt_not_closers e c hdigit

end Binary64

/-! ## Identifiers -/

namespace Uuid

theorem characters_injective {u v : Uuid} (h : u.characters = v.characters) : u = v := by
  have hu := ofText?_characters u
  rw [h, ofText?_characters v] at hu
  exact (Option.some.inj hu).symm

theorem mem_hyphenate {sizes : List Nat} {digits : List Char} {c : Char} (h : c ∈ hyphenate sizes digits) :
    c = '-' ∨ c ∈ digits := by
  induction sizes generalizing digits with
  | nil => exact .inr h
  | cons size sizes ih =>
    cases sizes with
    | nil => exact .inr h
    | cons next sizes =>
      simp only [hyphenate, List.mem_append, List.mem_cons] at h
      rcases h with htake | rfl | hrest
      · exact .inr (List.mem_of_mem_take htake)
      · exact .inl rfl
      · rcases ih hrest with hc | hdrop
        · exact .inl hc
        · exact .inr (List.mem_of_mem_drop hdrop)

theorem hexChar_not_closers : ∀ n : Fin 16, hexChar n ∉ closers := by decide

theorem characters_not_closers (u : Uuid) : ∀ c ∈ u.characters, c ∉ closers := by
  intro c hc
  rcases mem_hyphenate hc with rfl | hdigit
  · decide
  · obtain ⟨n, -, rfl⟩ := List.mem_map.1 hdigit
    exact hexChar_not_closers n

end Uuid

/-! ## Dates -/

namespace Instant

/-- The digits of a year, which follow a sign where there is one. -/
theorem yearText_cases (year : Int) :
    (∃ sign, yearText year = sign :: Digits.padded 4 year.natAbs ∧
      (sign = '-' ∧ year < 0 ∨ sign = '+' ∧ 9999 < year)) ∨
    yearText year = Digits.padded 4 year.natAbs ∧ 0 ≤ year ∧ year ≤ 9999 := by
  unfold yearText
  split
  · exact .inr ⟨rfl, ‹_›⟩
  · split
    · exact .inl ⟨_, rfl, .inl ⟨rfl, ‹_›⟩⟩
    · exact .inl ⟨_, rfl, .inr ⟨rfl, by omega⟩⟩

theorem padded_tells {width m n : Nat} {rest rest' : List Char}
    (h : Digits.padded width m ++ '-' :: rest = Digits.padded width n ++ '-' :: rest') : m = n ∧ rest = rest' := by
  obtain ⟨hdigits, hrest⟩ := run_ends (p := Char.isDigit) (fun c hc => Digits.isDigit_padded hc)
    (fun c hc => Digits.isDigit_padded hc) (.cons (by decide)) (.cons (by decide)) h
  have hvalue := congrArg Digits.value hdigits
  rw [Digits.value_padded, Digits.value_padded] at hvalue
  exact ⟨hvalue, List.cons.inj hrest |>.2⟩

/-- A year tells itself where a hyphen follows: by its sign, if it does not fit into four digits, and its digits. -/
theorem yearText_tells {year other : Int} {rest rest' : List Char}
    (h : yearText year ++ '-' :: rest = yearText other ++ '-' :: rest') : year = other ∧ rest = rest' := by
  have hsign : ∀ {sign : Char} {m n : Nat} {l l' : List Char}, sign = '-' ∨ sign = '+' →
      sign :: Digits.padded 4 m ++ l ≠ Digits.padded 4 n ++ '-' :: l' := by
    intro sign m n l l' hsign heq
    have hlength : 0 < (Digits.padded 4 n).length := by
      unfold Digits.padded
      rw [List.length_append, List.length_replicate]
      have := Digits.length_ofNat_pos n
      omega
    obtain ⟨c, digits, hdigits⟩ := List.exists_cons_of_length_pos hlength
    have hc : c.isDigit = true := Digits.isDigit_padded (hdigits ▸ List.mem_cons_self)
    rw [hdigits] at heq
    obtain ⟨rfl, -⟩ := List.cons.inj heq
    rcases hsign with rfl | rfl <;> cases hc
  rcases yearText_cases year with ⟨sign, hyear, hrange⟩ | ⟨hyear, hrange⟩ <;>
    rcases yearText_cases other with ⟨sign', hother, hrange'⟩ | ⟨hother, hrange'⟩ <;>
    rw [hyear, hother] at h
  · obtain ⟨rfl, hdigits⟩ := List.cons.inj h
    obtain ⟨hsize, hrest⟩ := padded_tells hdigits
    refine ⟨?_, hrest⟩
    rcases hrange with ⟨rfl, hlow⟩ | ⟨rfl, hhigh⟩
    · rcases hrange' with ⟨-, hlow'⟩ | ⟨hplus, -⟩
      · omega
      · cases hplus
    · rcases hrange' with ⟨hminus, -⟩ | ⟨-, hhigh'⟩
      · cases hminus
      · omega
  · exact absurd h (hsign (hrange.imp And.left And.left))
  · exact absurd h.symm (hsign (hrange'.imp And.left And.left))
  · obtain ⟨hsize, hrest⟩ := padded_tells h
    exact ⟨by omega, hrest⟩

/-- Two digits behind a mark are read off the front. -/
theorem twoDigits_tells {m n : Nat} (hm : m < 100) (hn : n < 100) {c : Char} {rest rest' : List Char}
    (h : c :: (Digits.padded 2 m ++ rest) = c :: (Digits.padded 2 n ++ rest')) : m = n ∧ rest = rest' := by
  have hread := twoDigits_padded hm c rest
  rw [h, twoDigits_padded hn c rest'] at hread
  simp only [Option.some.injEq, Prod.mk.injEq] at hread
  exact ⟨hread.1.symm, hread.2.symm⟩

/-- The text of a date tells the instant that it stands for, in all years. -/
theorem settled_eq_of_characters {t u : Instant} (h : t.characters = u.characters) : t.settled = u.settled := by
  have bounds : ∀ i : Instant, i.day.month < 100 ∧ i.day.day < 100 ∧ (i.seconds % 86400).toNat / 3600 < 100 ∧
      (i.seconds % 86400).toNat % 60 + i.nanos / 1000000000 < 100 := by
    intro i
    obtain ⟨-, hmonth, -, hday⟩ : i.day.IsValid := CalendarDay.isValid_ofDays _
    have hmax := CalendarDay.daysInMonth_le i.day.year i.day.month
    have hnanos := i.nanos_lt
    omega
  obtain ⟨htmonth, htday, hthour, htsecond⟩ := bounds t
  obtain ⟨humonth, huday, huhour, husecond⟩ := bounds u
  have htime := ofClock?_parts t
  rw [show t.characters = yearText t.day.year ++ ('-' :: (Digits.padded 2 t.day.month ++
      '-' :: (Digits.padded 2 t.day.day ++ 'T' :: (Digits.padded 2 ((t.seconds % 86400).toNat / 3600) ++
      ':' :: (Digits.padded 2 ((t.seconds % 86400).toNat / 60 % 60) ++
      ':' :: (Digits.padded 2 ((t.seconds % 86400).toNat % 60 + t.nanos / 1000000000) ++
      (fractionText (t.nanos % 1000000000) ++ ['Z']))))))) by simp [characters, day],
    show u.characters = yearText u.day.year ++ ('-' :: (Digits.padded 2 u.day.month ++
      '-' :: (Digits.padded 2 u.day.day ++ 'T' :: (Digits.padded 2 ((u.seconds % 86400).toNat / 3600) ++
      ':' :: (Digits.padded 2 ((u.seconds % 86400).toNat / 60 % 60) ++
      ':' :: (Digits.padded 2 ((u.seconds % 86400).toNat % 60 + u.nanos / 1000000000) ++
      (fractionText (u.nanos % 1000000000) ++ ['Z']))))))) by simp [characters, day]] at h
  -- part by part from the front
  obtain ⟨hyear, h⟩ := yearText_tells h
  obtain ⟨hmonth, h⟩ := twoDigits_tells (c := '-') htmonth humonth (congrArg _ h)
  obtain ⟨hday, h⟩ := twoDigits_tells htday huday h
  obtain ⟨hhour, h⟩ := twoDigits_tells hthour huhour h
  obtain ⟨hminute, h⟩ := twoDigits_tells (by omega) (by omega) h
  obtain ⟨hsecond, h⟩ := twoDigits_tells htsecond husecond h
  have hfraction := fraction?_fractionText (Nat.mod_lt t.nanos (by decide : 0 < 1000000000))
  rw [h, fraction?_fractionText (Nat.mod_lt u.nanos (by decide))] at hfraction
  have hdate : t.day = u.day := by
    cases htdate : t.day
    cases hudate : u.day
    simp_all
  rw [hdate, hhour, hminute, hsecond, ← Option.some.inj hfraction, ofClock?_parts u] at htime
  exact (Option.some.inj htime).symm

/-- **The text of a date tells the instant**, in all years, and in the leap second at the end of a minute as well. -/
theorem characters_injective {t u : Instant} (ht : t.LeapEndsMinute) (hu : u.LeapEndsMinute)
    (h : t.characters = u.characters) : t = u := by
  rw [← settled_of_leapEndsMinute ht, ← settled_of_leapEndsMinute hu]
  exact settled_eq_of_characters h

theorem quote_not_mem_characters (t : Instant) : '"' ∉ t.characters := by
  have hpadded : ∀ width n, '"' ∉ Digits.padded width n := by
    intro width n hmem
    cases Digits.isDigit_padded hmem
  have hyear : '"' ∉ yearText t.day.year := by
    rcases yearText_cases t.day.year with ⟨sign, hyear, hrange⟩ | ⟨hyear, -⟩
    · rw [hyear, List.mem_cons, not_or]
      refine ⟨?_, hpadded _ _⟩
      rcases hrange with ⟨rfl, -⟩ | ⟨rfl, -⟩ <;> decide
    · rw [hyear]
      exact hpadded _ _
  have hfraction : '"' ∉ fractionText (t.nanos % 1000000000) := by
    unfold fractionText
    split
    · exact List.not_mem_nil
    · split
      · simp [hpadded]
      · split <;> simp [hpadded]
  simp only [characters, List.mem_append, List.mem_cons, hpadded, hfraction, List.not_mem_nil, or_false,
    not_or]
  exact ⟨by simpa [day] using hyear, by decide⟩

end Instant

/-! ## Bytes -/

namespace Base64

theorem alphabet_nodup : alphabet.Nodup := by decide

theorem length_alphabet : alphabet.length = 64 := rfl

/-- Neither the filler nor the quote stands for bits. -/
theorem not_mem_alphabet : '=' ∉ alphabet ∧ '"' ∉ alphabet := by decide

theorem getD_alphabet {n : Nat} (h : n < alphabet.length) : alphabet.getD n '=' = alphabet[n] := by
  rw [List.getD_eq_getElem?_getD, List.getElem?_eq_getElem h, Option.getD_some]

theorem sixBits_mem (n : Nat) : sixBits n ∈ alphabet := by
  have hlength : n % 64 < alphabet.length := by
    rw [length_alphabet]
    omega
  rw [sixBits, getD_alphabet hlength]
  exact List.getElem_mem hlength

/-- A character tells the six bits that it stands for. -/
theorem sixBits_injective {m n : Nat} (h : sixBits m = sixBits n) : m % 64 = n % 64 := by
  have hbound : ∀ k, k % 64 < alphabet.length := by
    intro k
    rw [length_alphabet]
    omega
  rw [sixBits, sixBits, getD_alphabet (hbound m), getD_alphabet (hbound n)] at h
  exact (alphabet_nodup.getElem_inj_iff).1 h

theorem sixBits_ne_filler (n : Nat) : sixBits n ≠ '=' := by
  intro h
  have hmem := sixBits_mem n
  rw [h] at hmem
  exact not_mem_alphabet.1 hmem

/-- **The text of bytes tells them**, by its fillers how many there are in the last group. -/
theorem encode_injective {bytes others : List UInt8} (h : encode bytes = encode others) : bytes = others := by
  have heq : ∀ {a b : UInt8}, a.toNat = b.toNat → a = b := UInt8.toNat_inj.1
  induction bytes using encode.induct generalizing others with
  | case1 =>
    rcases others with _ | ⟨a, _ | ⟨b, _ | ⟨c, rest⟩⟩⟩
    · rfl
    all_goals cases h
  | case2 a =>
    have ha := a.toNat_lt
    rcases others with _ | ⟨a', _ | ⟨b', _ | ⟨c', rest'⟩⟩⟩
    · cases h
    · have ha' := a'.toNat_lt
      simp only [encode, List.cons.injEq, and_true] at h
      have h1 := sixBits_injective h.1
      have h2 := sixBits_injective h.2
      rw [heq (a := a) (b := a') (by omega)]
    · simp only [encode, List.cons.injEq] at h
      exact absurd h.2.2.1.symm (sixBits_ne_filler _)
    · simp only [encode, List.cons.injEq] at h
      exact absurd h.2.2.1.symm (sixBits_ne_filler _)
  | case3 a b =>
    have ha := a.toNat_lt
    have hb := b.toNat_lt
    rcases others with _ | ⟨a', _ | ⟨b', _ | ⟨c', rest'⟩⟩⟩
    · cases h
    · simp only [encode, List.cons.injEq] at h
      exact absurd h.2.2.1 (sixBits_ne_filler _)
    · have ha' := a'.toNat_lt
      have hb' := b'.toNat_lt
      simp only [encode, List.cons.injEq, and_true] at h
      have h1 := sixBits_injective h.1
      have h2 := sixBits_injective h.2.1
      have h3 := sixBits_injective h.2.2
      rw [heq (a := a) (b := a') (by omega), heq (a := b) (b := b') (by omega)]
    · simp only [encode, List.cons.injEq] at h
      exact absurd h.2.2.2.1.symm (sixBits_ne_filler _)
  | case4 a b c rest ih =>
    have ha := a.toNat_lt
    have hb := b.toNat_lt
    have hc := c.toNat_lt
    rcases others with _ | ⟨a', _ | ⟨b', _ | ⟨c', rest'⟩⟩⟩
    · cases h
    · simp only [encode, List.cons.injEq] at h
      exact absurd h.2.2.1 (sixBits_ne_filler _)
    · simp only [encode, List.cons.injEq] at h
      exact absurd h.2.2.2.1 (sixBits_ne_filler _)
    · have ha' := a'.toNat_lt
      have hb' := b'.toNat_lt
      have hc' := c'.toNat_lt
      simp only [encode, List.cons.injEq] at h
      obtain ⟨h1, h2, h3, h4, hrest⟩ := h
      have h1 := sixBits_injective h1
      have h2 := sixBits_injective h2
      have h3 := sixBits_injective h3
      have h4 := sixBits_injective h4
      rw [heq (a := a) (b := a') (by omega), heq (a := b) (b := b') (by omega), heq (a := c) (b := c') (by omega),
        ih hrest]

theorem quote_not_mem_encode (bytes : List UInt8) : '"' ∉ encode bytes := by
  have hsix : ∀ n, '"' ≠ sixBits n := by
    intro n h
    have hmem := sixBits_mem n
    rw [← h] at hmem
    exact not_mem_alphabet.2 hmem
  induction bytes using encode.induct with
  | case1 => exact List.not_mem_nil
  | case2 a => simp [encode, hsix]
  | case3 a b => simp [encode, hsix]
  | case4 a b c rest ih => simp [encode, hsix, ih]

end Base64

end Conformance
