import Conformance.Proofs.Acceptance
import Conformance.Proofs.Coverage
import Mathlib.Logic.Relation

/-!
# Layout carries no meaning

Blanks, and comments with the ends of their lines, can be put beside any token of a text, also between two tokens
that touch. Every token is read as before, so the text is accepted as before and with the same result.

* `Layout` — what can be put beside a token.
* `EndsAlike` — two texts that no token in front of them tells apart. A scan looks two characters ahead at most
  (`Scan.ofText_alike`).
* `Boundary` — a place of a text that is within no token; `Boundary.hasTokens` — layout there changes no token.
* `BesideToken`, `SpacedOut` — the places beside tokens as the reader gives them, and one insertion there.
* `layout_carries_no_meaning` — any number of insertions, each in the text that the one before leaves.
-/

set_option autoImplicit false

namespace Conformance

/-! ## What can be put beside a token -/

/-- Blanks, and comments with the end of the line that they are on. -/
inductive Layout : List Char → Prop where
  | nil : Layout []
  | blank {c : Char} {gap : List Char} : isBlank c = true → Layout gap → Layout (c :: gap)
  | comment {comment gap : List Char} {lineEnd : Char} : (∀ c ∈ comment, isInner c = true) →
    isInner lineEnd = false → Layout gap → Layout (';' :: comment ++ lineEnd :: gap)

/-- A comment goes on up to the end of its line. -/
theorem blankLength_comment {comment : List Char} {lineEnd : Char} (hcomment : ∀ c ∈ comment, isInner c = true)
    (hend : isInner lineEnd = false) (rest : List Char) :
    blankLength true (comment ++ lineEnd :: rest) = comment.length + 1 + blankLength false rest := by
  induction comment with
  | nil =>
    rw [List.nil_append, blankLength, if_pos rfl, show (lineEnd != '\n' && lineEnd != '\r') = false from hend,
      List.length_nil]
    omega
  | cons c comment ih =>
    obtain ⟨hc, hcomment⟩ := List.forall_mem_cons.1 hcomment
    rw [List.cons_append, blankLength, if_pos rfl, show (c != '\n' && c != '\r') = true from hc, ih hcomment,
      List.length_cons]
    omega

theorem blankLength_blank {c : Char} (hc : isBlank c = true) (rest : List Char) :
    blankLength false (c :: rest) = blankLength false rest + 1 := by
  have hsemicolon : c ≠ ';' := by
    rintro rfl
    exact absurd hc (by decide)
  rw [blankLength, if_neg Bool.false_ne_true, if_neg hsemicolon, if_pos hc]

namespace Layout

variable {gap : List Char}

/-- Layout in front of a text is passed over as a whole. -/
theorem blankLength_append (h : Layout gap) (rest : List Char) :
    blankLength false (gap ++ rest) = gap.length + blankLength false rest := by
  induction h with
  | nil => exact (Nat.zero_add _).symm
  | blank hc _ ih =>
    rw [List.cons_append, blankLength_blank hc, ih, List.length_cons]
    omega
  | @comment comment gap lineEnd hcomment hend _ ih =>
    rw [List.cons_append, List.cons_append, List.append_assoc, List.cons_append, blankLength,
      if_neg Bool.false_ne_true, if_pos rfl, blankLength_comment hcomment hend, ih, List.length_cons,
      List.length_append, List.length_cons]
    omega

/-- Layout is passed over within a comment, too. -/
theorem blankLength_eq (h : Layout gap) (inComment : Bool) : blankLength inComment gap = gap.length := by
  have houtside : ∀ {others : List Char}, Layout others → blankLength false others = others.length := by
    intro others h
    have := h.blankLength_append []
    rwa [List.append_nil, blankLength, Nat.add_zero] at this
  cases inComment with
  | false => exact houtside h
  | true =>
    induction h with
    | nil => rfl
    | @blank c gap _ hgap ih =>
      rw [blankLength, if_pos rfl, List.length_cons]
      cases (c != '\n' && c != '\r') with
      | true => rw [ih]
      | false => rw [houtside hgap]
    | @comment comment gap lineEnd hcomment hend hgap _ =>
      have hinner : ∀ c ∈ ';' :: comment, isInner c = true := List.forall_mem_cons.2 ⟨by decide, hcomment⟩
      rw [blankLength_comment hinner hend, houtside hgap, List.length_append, List.length_cons, List.length_cons]
      omega

/-- Nothing goes on with layout. -/
theorem apart (h : Layout gap) (hne : gap ≠ []) (rest : List Char) : Apart (gap ++ rest) := by
  cases h with
  | nil => exact absurd rfl hne
  | blank hc => exact .cons (.inl hc)
  | comment => exact .cons (.inr (.inl rfl))

end Layout

/-! ## Looking ahead -/

/-- A token that ends in front of the first text ends in front of the second: nothing goes on with the second, or
they begin with the same two characters, or with the same one and nothing goes on behind it. -/
inductive EndsAlike : List Char → List Char → Prop where
  | apart {rest other : List Char} : Apart other → EndsAlike rest other
  | one {c : Char} {rest other : List Char} : c ≠ '-' → c ≠ '.' → Apart other →
    EndsAlike (c :: rest) (c :: other)
  | two {c d : Char} {rest other : List Char} : EndsAlike (c :: d :: rest) (c :: d :: other)

namespace EndsAlike

variable {rest other run : List Char}

theorem prepend (hrun : 2 ≤ run.length) (rest other : List Char) : EndsAlike (run ++ rest) (run ++ other) := by
  match run, hrun with
  | c :: d :: run, _ => exact .two

theorem stops {p : Char → Bool} (h : EndsAlike rest other) (hp : ∀ c, p c = true → continuesToken c = true)
    (hrest : Stops p rest) : Stops p other := by
  cases h with
  | apart hother => exact hother.stops hp
  | one => exact .cons (hrest _ rfl)
  | two => exact .cons (hrest _ rfl)

theorem isPart (h : EndsAlike rest other) : Stops Name.isPart rest → Stops Name.isPart other :=
  h.stops fun c hc => by simp [continuesToken, hc]

theorem isDigit (h : EndsAlike rest other) : Stops Char.isDigit rest → Stops Char.isDigit other :=
  h.stops fun c hc => by simp [continuesToken, Name.isPart_iff, hc]

end EndsAlike

/-- The run of characters of a sort at the front of a text, and the rest of the text. -/
theorem exists_run (p : Char → Bool) (text : List Char) : ∃ run rest, text = run ++ rest ∧
    (∀ c ∈ run, p c = true) ∧ Stops p rest ∧ text.takeWhile p = run ∧ text.dropWhile p = rest := by
  refine ⟨_, _, List.takeWhile_append_dropWhile.symm, fun c hc => ?_, fun c hc => ?_, rfl, rfl⟩
  · exact List.all_eq_true.1 List.all_takeWhile c hc
  · have hhead := List.head?_dropWhile_not p text
    rw [hc] at hhead
    simpa using hhead

theorem takeWhile_eq_iff {p : Char → Bool} {run rest : List Char} :
    (run ++ rest).takeWhile p = run ↔ (∀ c ∈ run, p c = true) ∧ Stops p rest := by
  constructor
  · intro h
    obtain ⟨run', rest', hsplit, hrun, hstops, htake, -⟩ := exists_run p (run ++ rest)
    obtain rfl := h.symm.trans htake
    exact ⟨hrun, (List.append_cancel_left hsplit) ▸ hstops⟩
  · rintro ⟨hrun, hstops⟩
    exact hstops.takeWhile_append hrun

namespace Scan

variable {run rest other : List Char}

/-! ### Names -/

/-- A name ends in front of the text: it does not go on, and it is not followed by a hyphen that begins no arrow. -/
def NameEnds (text : List Char) : Prop :=
  Stops Name.isPart text ∧ ∀ tail, text = '-' :: tail → tail.head? = some '>'

theorem NameEnds.alike (h : NameEnds rest) (halike : EndsAlike rest other) : NameEnds other := by
  refine ⟨halike.isPart h.1, ?_⟩
  rintro tail rfl
  cases halike with
  | apart hother => exact absurd rfl (hother.ne_of_continues (by decide))
  | one hhyphen => exact absurd rfl hhyphen
  | @two _ d rest other => exact h.2 (d :: rest) rfl

theorem name_of_nameEnds (hrun : ∀ c ∈ run, Name.isPart c = true) (h : NameEnds rest) :
    name (run ++ rest) = token run.length (.ofName (String.ofList run)) := by
  unfold name
  rw [h.1.takeWhile_append hrun, h.1.dropWhile_append hrun]
  split
  · rfl
  · rename_i tail harrow
    have hhead := h.2 _ rfl
    cases tail with
    | nil => cases hhead
    | cons c tail =>
      cases hhead
      exact absurd rfl (harrow tail)
  · rfl

/-- Where a name is read, it is a run of its characters, and it ends. -/
theorem nameEnds_of_name {t : Token} (h : name (run ++ rest) = token run.length t) :
    (∀ c ∈ run, Name.isPart c = true) ∧ NameEnds rest ∧ t = .ofName (String.ofList run) := by
  obtain ⟨spelling, tail, hsplit, hall, hstops, htake, hdrop⟩ := exists_run Name.isPart (run ++ rest)
  unfold name at h
  rw [htake, hdrop] at h
  simp only at h
  have hread : (∀ others, tail = '-' :: others → others.head? = some '>') ∧
      token spelling.length (.ofName (String.ofList spelling)) = token run.length t := by
    split at h
    · exact ⟨fun others heq => (List.cons.inj heq).2 ▸ rfl, h⟩
    · exact absurd (congrArg Scan.result h) nofun
    · rename_i hno
      exact ⟨fun others heq => absurd heq (hno others), h⟩
  obtain ⟨hyphen, hread⟩ := hread
  obtain ⟨rfl, rfl⟩ := List.append_inj hsplit (congrArg Scan.length hread).symm
  exact ⟨hall, ⟨hstops, hyphen⟩, (Except.ok.inj (congrArg Scan.result hread)).symm⟩

/-! ### Numbers -/

namespace NumberParts

variable {p : NumberParts} {text : List Char}

/-- The parts are a number that ends in front of the text. -/
structure Precedes (p : NumberParts) (rest : List Char) : Prop where
  sign : p.sign = [] ∨ p.sign = ['-']
  whole : ∀ c ∈ p.whole, c.isDigit = true
  whole_ne_nil : p.whole ≠ []
  whole_stops : Stops Char.isDigit (p.fraction ++ (p.exponent ++ rest))
  fraction : fractionOf (p.fraction ++ (p.exponent ++ rest)) = p.fraction
  exponent : exponentOf (p.exponent ++ rest) = p.exponent

theorem characters_append (p : NumberParts) (rest : List Char) :
    p.characters ++ rest = p.sign ++ (p.whole ++ (p.fraction ++ (p.exponent ++ rest))) := by
  simp only [characters, List.append_assoc]

theorem Precedes.exists_digit (h : p.Precedes rest) :
    ∃ c whole, p.whole = c :: whole ∧ c.isDigit = true := by
  obtain ⟨c, whole, hwhole⟩ := List.exists_cons_of_ne_nil h.whole_ne_nil
  exact ⟨c, whole, hwhole, h.whole c (hwhole ▸ List.mem_cons_self)⟩

theorem ne_minus_of_isDigit {c : Char} (h : c.isDigit = true) : (c == '-') = false := by
  refine beq_eq_false_iff_ne.2 ?_
  rintro rfl
  exact absurd h (by decide)

theorem ofText_of_precedes (h : p.Precedes rest) : ofText (p.characters ++ rest) = p := by
  have hsign : (p.characters ++ rest).takeWhile (· == '-') = p.sign := by
    obtain ⟨c, whole, hwhole, hc⟩ := h.exists_digit
    rw [characters_append, hwhole]
    have hstops : Stops (· == '-') (c :: whole ++ (p.fraction ++ (p.exponent ++ rest))) :=
      .cons (ne_minus_of_isDigit hc)
    refine hstops.takeWhile_append ?_
    rcases h.sign with hnone | hminus
    · simp [hnone]
    · simp [hminus]
  unfold ofText
  simp only
  rw [hsign, characters_append, List.drop_left, h.whole_stops.takeWhile_append h.whole, List.drop_left, h.fraction,
    List.drop_left, h.exponent]

theorem startsNumber_of_precedes (h : p.Precedes rest) : startsNumber (p.characters ++ rest) = true := by
  obtain ⟨c, whole, hwhole, hc⟩ := h.exists_digit
  rw [characters_append, hwhole]
  rcases h.sign with hnone | hminus
  · rw [hnone]
    exact startsNumber_digit hc
  · rw [hminus]
    exact hc

/-- What begins like a number has a sign, or none, and a digit. -/
theorem exists_sign (h : startsNumber text = true) : ∃ sign c tail, text = sign ++ c :: tail ∧
    text.takeWhile (· == '-') = sign ∧ (sign = [] ∨ sign = ['-']) ∧ c.isDigit = true := by
  unfold startsNumber at h
  split at h
  · rename_i c tail
    exact ⟨['-'], c, tail, rfl, by simp [ne_minus_of_isDigit h], .inr rfl, h⟩
  · rename_i c tail _
    exact ⟨[], c, tail, rfl, by simp [ne_minus_of_isDigit h], .inl rfl, h⟩
  · cases h

/-- The number at the front of a text precedes what follows it there. -/
theorem exists_precedes (h : startsNumber text = true) :
    ∃ rest, text = (ofText text).characters ++ rest ∧ (ofText text).Precedes rest := by
  obtain ⟨sign, c, tail, rfl, htake, hsign, hc⟩ := exists_sign h
  obtain ⟨whole, afterWhole, hbody, hwhole, hstops, htake', -⟩ := exists_run Char.isDigit (c :: tail)
  obtain ⟨afterFraction, hfraction⟩ := fractionOf_isPrefix afterWhole
  obtain ⟨rest, hexponent⟩ := exponentOf_isPrefix afterFraction
  have hdrop : afterWhole.drop (fractionOf afterWhole).length = afterFraction := by
    have hbehind := congrArg (List.drop (fractionOf afterWhole).length) hfraction
    rw [List.drop_left] at hbehind
    exact hbehind.symm
  have hparts : ofText (sign ++ c :: tail) = ⟨sign, whole, fractionOf afterWhole, exponentOf afterFraction⟩ := by
    unfold ofText
    simp only
    rw [htake, List.drop_left, htake', hbody, List.drop_left, hdrop]
  have hne : whole ≠ [] := by
    rintro rfl
    rw [List.takeWhile_cons_of_pos hc] at htake'
    cases htake'
  rw [hparts]
  refine ⟨rest, ?_, hsign, hwhole, hne, ?_, ?_, ?_⟩
  · rw [characters_append, hexponent, hfraction, ← hbody]
  · rwa [hexponent, hfraction]
  · rw [hexponent, hfraction]
  · rw [hexponent]

/-- No fraction is read at the front of a text, or the point and digits in front of it are one. -/
theorem fractionOf_eq_iff : fractionOf (run ++ rest) = run ↔
    (run = [] ∧ ∀ c tail, rest = '.' :: c :: tail → c.isDigit = false) ∨
      ∃ digits, run = '.' :: digits ∧ digits ≠ [] ∧ (∀ c ∈ digits, c.isDigit = true) ∧
        Stops Char.isDigit rest := by
  constructor
  · intro h
    cases run with
    | nil =>
      refine .inl ⟨rfl, ?_⟩
      rintro c tail rfl
      refine Bool.eq_false_iff.2 fun hc => ?_
      simp [fractionOf, hc] at h
    | cons point digits =>
      rw [List.cons_append] at h
      unfold fractionOf at h
      split at h
      · rename_i tail heq
        simp only at h
        split at h
        · cases h
        · rename_i hne
          obtain ⟨rfl, rfl⟩ := List.cons.inj heq
          obtain ⟨-, hdigits⟩ := List.cons.inj h
          refine .inr ⟨digits, rfl, ?_, takeWhile_eq_iff.1 hdigits⟩
          rw [hdigits] at hne
          simpa using hne
      · cases h
  · rintro (⟨rfl, hnone⟩ | ⟨digits, rfl, hne, hdigits⟩)
    · rw [List.nil_append]
      unfold fractionOf
      split
      · rename_i tail
        cases tail with
        | nil => rfl
        | cons c tail => simp [hnone c tail rfl]
      · rfl
    · simp [fractionOf, takeWhile_eq_iff.2 hdigits, hne]

/-- An exponent begins with the two characters. -/
def OpensExponent (e c : Char) : Prop := (e = 'e' ∨ e = 'E') ∧ (c.isDigit ∨ c = '+' ∨ c = '-')

/-- No exponent is read at the front of a text, or the mark, the sign or digit, and the digits in front of it are
one. -/
theorem exponentOf_eq_iff : exponentOf (run ++ rest) = run ↔
    (run = [] ∧ ∀ e c tail, rest = e :: c :: tail → ¬ OpensExponent e c) ∨
      ∃ e c digits, run = e :: c :: digits ∧ OpensExponent e c ∧ (∀ c ∈ digits, c.isDigit = true) ∧
        Stops Char.isDigit rest := by
  have hcons : ∀ e c tail, OpensExponent e c →
      exponentOf (e :: c :: tail) = e :: c :: tail.takeWhile Char.isDigit :=
    fun e c tail h => if_pos h
  have hnil : ∀ e c tail, ¬ OpensExponent e c → exponentOf (e :: c :: tail) = [] := fun e c tail h => if_neg h
  constructor
  · intro h
    match run, h with
    | [], h =>
      refine .inl ⟨rfl, ?_⟩
      rintro e c tail rfl hopens
      rw [List.nil_append, hcons e c tail hopens] at h
      cases h
    | [e], h =>
      cases rest with
      | nil => cases h
      | cons c rest =>
        by_cases hopens : OpensExponent e c
        · rw [List.singleton_append, hcons e c rest hopens] at h
          cases h
        · rw [List.singleton_append, hnil e c rest hopens] at h
          cases h
    | e :: c :: digits, h =>
      rw [List.cons_append, List.cons_append] at h
      by_cases hopens : OpensExponent e c
      · rw [hcons _ _ _ hopens] at h
        exact .inr ⟨e, c, digits, rfl, hopens, takeWhile_eq_iff.1 (List.cons.inj (List.cons.inj h).2).2⟩
      · rw [hnil _ _ _ hopens] at h
        cases h
  · rintro (⟨rfl, hnone⟩ | ⟨e, c, digits, rfl, hopens, hdigits⟩)
    · match rest, hnone with
      | [], _ => rfl
      | [_], _ => rfl
      | e :: c :: tail, hnone => exact hnil e c tail (hnone e c tail rfl)
    · rw [List.cons_append, List.cons_append, hcons _ _ _ hopens, takeWhile_eq_iff.2 hdigits]

/-! What a fraction and an exponent take does not depend on what two texts have behind the same beginning. -/

theorem fractionOf_alike (h : fractionOf (run ++ rest) = run) (halike : EndsAlike rest other) :
    fractionOf (run ++ other) = run := by
  rw [fractionOf_eq_iff] at h ⊢
  rcases h with ⟨rfl, hnone⟩ | ⟨digits, rfl, hne, hdigits, hstops⟩
  · refine .inl ⟨rfl, ?_⟩
    rintro d tail rfl
    cases halike with
    | apart hother => exact absurd rfl (hother.ne_of_continues (by decide))
    | one _ hpoint => exact absurd rfl hpoint
    | two => exact hnone d _ rfl
  · exact .inr ⟨digits, rfl, hne, hdigits, halike.isDigit hstops⟩

theorem exponentOf_alike (h : exponentOf (run ++ rest) = run) (halike : EndsAlike rest other) :
    exponentOf (run ++ other) = run := by
  rw [exponentOf_eq_iff] at h ⊢
  rcases h with ⟨rfl, hnone⟩ | ⟨e, c, digits, rfl, hopens, hdigits, hstops⟩
  · refine .inl ⟨rfl, ?_⟩
    rintro e c tail rfl ⟨hmark, hc⟩
    cases halike with
    | apart hother =>
      rcases hmark with rfl | rfl <;> exact absurd rfl (hother.ne_of_continues (by decide))
    | one _ _ hother =>
      rcases hc with hdigit | rfl | rfl
      · rw [hother.isDigit c rfl] at hdigit
        cases hdigit
      · exact absurd rfl (hother.ne_of_continues (by decide))
      · exact absurd rfl (hother.ne_of_continues (by decide))
    | two => exact hnone e c _ rfl ⟨hmark, hc⟩
  · exact .inr ⟨e, c, digits, rfl, hopens, hdigits, halike.isDigit hstops⟩

/-- A number that ends in front of the first text ends in front of the second. -/
theorem Precedes.alike (h : p.Precedes rest) (halike : EndsAlike rest other) : p.Precedes other := by
  have hexponent : EndsAlike (p.exponent ++ rest) (p.exponent ++ other) := by
    rcases exponentOf_eq_iff.1 h.exponent with ⟨hnone, -⟩ | ⟨e, c, digits, hrun, -⟩
    · rwa [hnone]
    · rw [hrun]
      exact .prepend (by simp) rest other
  have hfraction : EndsAlike (p.fraction ++ (p.exponent ++ rest)) (p.fraction ++ (p.exponent ++ other)) := by
    rcases fractionOf_eq_iff.1 h.fraction with ⟨hnone, -⟩ | ⟨digits, hrun, hne, -⟩
    · rwa [hnone]
    · rw [hrun]
      have hpos := List.length_pos_of_ne_nil hne
      exact .prepend (by rw [List.length_cons]; omega) _ _
  exact { h with
    whole_stops := hfraction.isDigit h.whole_stops
    fraction := fractionOf_alike h.fraction hexponent
    exponent := exponentOf_alike h.exponent halike }

end NumberParts

/-- Where a number is read, it is its parts, and it ends. -/
theorem precedes_of_number (hstarts : startsNumber (run ++ rest) = true)
    (hlength : (number (run ++ rest)).length = run.length) :
    ∃ p : NumberParts, run = p.characters ∧ p.Precedes rest ∧
      number (run ++ rest) = ⟨run.length, p.token.mapError fun f => ⟨0, f⟩⟩ := by
  obtain ⟨tail, hsplit, hprecedes⟩ := NumberParts.exists_precedes hstarts
  obtain ⟨hrun, rfl⟩ := List.append_inj hsplit hlength.symm
  exact ⟨_, hrun, hprecedes, by rw [← hlength]; rfl⟩

theorem number_of_precedes {p : NumberParts} (h : p.Precedes rest) :
    ofText (p.characters ++ rest) = ⟨p.characters.length, p.token.mapError fun f => ⟨0, f⟩⟩ := by
  rw [(ofText_number (NumberParts.startsNumber_of_precedes h)).1, number, NumberParts.ofText_of_precedes h]

/-! ### Texts in quotes -/

theorem text_eq_token {body : List Char} {n : Nat} {t : Token} (h : text body = token n t) :
    ∃ content, (quotation body).result = .ok content ∧ (quotation body).length + 1 = n := by
  unfold text at h
  simp only at h
  split at h
  · rename_i content hcontent
    exact ⟨content, hcontent, congrArg Scan.length h⟩
  · cases h

/-- Where a text in quotes is read, it is the same whatever follows. -/
theorem text_replace {t : Token} (h : text (run ++ rest) = token (run.length + 1) t) (other : List Char) :
    text (run ++ other) = token (run.length + 1) t := by
  obtain ⟨content, hcontent, hlength⟩ := text_eq_token h
  obtain ⟨own, tail, hbody, hown, hsame⟩ := quotation_own hcontent
  obtain ⟨rfl, -⟩ := List.append_inj hbody ((Nat.succ.inj hlength).symm.trans hown.symm)
  rw [text, hsame]
  exact h

/-! ### Any token -/

/-- Where a token is read, it is a symbol, a text in quotes, a name or a number. -/
theorem ofText_cases {n : Nat} {t : Token} (h : ofText run = token n t) (hne : run ≠ []) :
    (∃ s tail, run = s.text.toList ++ tail ∧ n = s.text.length ∧ t = .symbol s) ∨
      (∃ body, run = '"' :: body ∧ text body = token n t) ∨
      (∃ c tail, run = c :: tail ∧ Name.isStart c = true ∧ name run = token n t) ∨
      startsNumber run = true ∧ number run = token n t := by
  cases hsymbol : symbol? run with
  | some s =>
    obtain ⟨tail, rfl⟩ := symbol?_eq_some hsymbol
    rw [ofText_symbol] at h
    cases h
    exact .inl ⟨s, tail, rfl, rfl, rfl⟩
  | none =>
    cases run with
    | nil => exact absurd rfl hne
    | cons c tail =>
      by_cases hquote : c = '"'
      · subst hquote
        exact .inr (.inl ⟨tail, rfl, h⟩)
      rw [ofText_cons hsymbol hquote] at h
      split at h
      · rename_i hstart
        exact .inr (.inr (.inl ⟨c, tail, rfl, hstart, h⟩))
      · split at h
        · rename_i hnumber
          exact .inr (.inr (.inr ⟨hnumber, h⟩))
        · cases h

/-- **A token is read wherever it ends.** What follows it does not matter beyond that. -/
theorem ofText_alike {t : Token} (hne : run ≠ []) (h : ofText (run ++ rest) = token run.length t)
    (halike : EndsAlike rest other) : ofText (run ++ other) = token run.length t := by
  rcases ofText_cases h (List.append_ne_nil_of_left_ne_nil hne rest) with
    ⟨s, tail, hsplit, hlength, rfl⟩ | ⟨body, hsplit, hread⟩ | ⟨c, tail, hsplit, hstart, hread⟩ | ⟨hstarts, hread⟩
  · obtain ⟨rfl, rfl⟩ := List.append_inj hsplit (hlength.trans String.length_toList.symm)
    rw [ofText_symbol, String.length_toList]
  · obtain ⟨c, run, rfl⟩ := List.exists_cons_of_ne_nil hne
    obtain ⟨rfl, rfl⟩ := List.cons.inj hsplit
    exact text_replace hread other
  · obtain ⟨hrun, hends, rfl⟩ := nameEnds_of_name hread
    obtain ⟨c', run, rfl⟩ := List.exists_cons_of_ne_nil hne
    obtain ⟨rfl, rfl⟩ := List.cons.inj hsplit
    have hnot : c' ≠ '"' := by
      rintro rfl
      exact absurd hstart (by decide)
    rw [List.cons_append, ofText_cons (symbol?_eq_none (.inl hstart)) hnot, if_pos hstart]
    exact name_of_nameEnds hrun (hends.alike halike)
  · obtain ⟨p, rfl, hprecedes, hsame⟩ := precedes_of_number hstarts (congrArg Scan.length hread)
    rw [number_of_precedes (hprecedes.alike halike), ← hsame, hread]

/-- A token of one character is no hyphen and no point. -/
theorem ofText_single {c : Char} {t : Token} (h : ofText (c :: rest) = token 1 t) : c ≠ '-' ∧ c ≠ '.' := by
  have hdigit : c.isDigit = true → c ≠ '-' ∧ c ≠ '.' := by
    rintro hc
    constructor <;> rintro rfl <;> exact absurd hc (by decide)
  rcases ofText_cases h (List.cons_ne_nil c rest) with
    ⟨s, tail, hsplit, hlength, rfl⟩ | ⟨body, hsplit, -⟩ | ⟨c', tail, hsplit, hstart, -⟩ | ⟨hstarts, hread⟩
  · revert hsplit hlength
    cases s <;> simp [Symbol.text] <;> rintro rfl - <;> decide
  · cases hsplit
    decide
  · cases hsplit
    constructor <;> rintro rfl <;> exact absurd hstart (by decide)
  · have hlength : (number ([c] ++ rest)).length = [c].length := congrArg Scan.length hread
    obtain ⟨p, hrun, hprecedes, -⟩ := precedes_of_number hstarts hlength
    obtain ⟨d, whole, hwhole, hd⟩ := hprecedes.exists_digit
    rcases hprecedes.sign with hsign | hsign
    · rw [NumberParts.characters, hsign, hwhole] at hrun
      exact hdigit ((List.cons.inj hrun).1 ▸ hd)
    · rw [NumberParts.characters, hsign, hwhole] at hrun
      cases (List.cons.inj hrun).2

end Scan

/-! ## Places between tokens -/

section Blanks

variable {inComment : Bool} {text rest other : List Char}

/-- Blanks and comments that end before the text does do not depend on what follows it. -/
theorem blankLength_replace (h : blankLength inComment (text ++ rest) < text.length) :
    blankLength inComment (text ++ other) = blankLength inComment (text ++ rest) := by
  have hlt : blankLength inComment text < text.length := by
    refine Nat.lt_of_le_of_ne (blankLength_le _ _) fun hall => ?_
    obtain ⟨next, hnext⟩ := exists_blankLength_append hall
    rw [hnext] at h
    omega
  rw [blankLength_append_of_lt hlt, blankLength_append_of_lt hlt]

end Blanks

/-- The text is read up to a place in it that is within no token: there may be some tokens in front of it, and some
blanks and comments behind the last one. -/
inductive Boundary : List Char → List Char → Prop where
  | here {rest : List Char} : Boundary [] rest
  | blanks {blanks input : List Char} : blankLength false (blanks ++ input) = blanks.length →
    Boundary blanks input
  | token {blanks run before after : List Char} {t : Token} :
    blankLength false (blanks ++ (run ++ (before ++ after))) = blanks.length → run ≠ [] →
    Scan.ofText (run ++ (before ++ after)) = .token run.length t → Boundary before after →
    Boundary (blanks ++ (run ++ before)) after

namespace Boundary

variable {before after gap : List Char}

/-- No single hyphen or point ends at the place. -/
theorem single {c : Char} (h : Boundary before after) (hone : before = [c]) : c ≠ '-' ∧ c ≠ '.' := by
  cases h with
  | here => cases hone
  | blanks hblanks =>
    subst hone
    constructor
    all_goals
      rintro rfl
      rw [List.singleton_append, blankLength_cons (by decide) (by decide)] at hblanks
      cases hblanks
  | @token blanks run between _ t _ hne hscan _ =>
    rcases List.append_eq_singleton_iff.1 hone with ⟨-, hrun⟩ | ⟨-, hnone⟩
    · rcases List.append_eq_singleton_iff.1 hrun with ⟨hnone, -⟩ | ⟨hrun, -⟩
      · exact absurd hnone hne
      · subst hrun
        exact Scan.ofText_single hscan
    · exact absurd (List.append_eq_nil_iff.1 hnone).1 hne

theorem alike (h : Boundary before after) (hgap : Layout gap) (hne : gap ≠ []) :
    EndsAlike (before ++ after) (before ++ (gap ++ after)) := by
  match before, h with
  | [], _ => exact .apart (hgap.apart hne after)
  | [c], h => exact .one (h.single rfl).1 (h.single rfl).2 (hgap.apart hne after)
  | c :: d :: before, _ => exact .two

end Boundary

/-- Layout behind blanks and comments is passed over with them, also where the last comment is open. -/
theorem Layout.drop_blankLength {gap blanks input : List Char} (hgap : Layout gap)
    (h : blankLength false (blanks ++ input) = blanks.length) :
    (blanks ++ (gap ++ input)).drop (blankLength false (blanks ++ (gap ++ input))) = input := by
  have hall : blankLength false blanks = blanks.length := by
    refine Nat.le_antisymm (blankLength_le _ _) (Nat.le_of_not_lt fun hlt => ?_)
    rw [blankLength_append_of_lt hlt] at h
    exact absurd hlt (Nat.not_lt.2 h.ge)
  obtain ⟨inComment, hbehind⟩ := exists_blankLength_append hall
  have hinput : blankLength inComment input = 0 := by
    have := hbehind input
    omega
  have hlayout : blankLength inComment (gap ++ input) = gap.length := by
    cases inComment with
    | false => rw [hgap.blankLength_append, hinput, Nat.add_zero]
    | true =>
      -- An open comment goes on up to the end of the text.
      cases input with
      | nil => rw [List.append_nil, hgap.blankLength_eq]
      | cons c input =>
        rw [blankLength, if_pos rfl] at hinput
        cases hinput
  rw [hbehind, hlayout, ← List.length_append, ← List.append_assoc, List.drop_left]

/-- **Layout at a place that is within no token changes no token.** -/
theorem Boundary.hasTokens {before after gap : List Char} (h : Boundary before after) (hgap : Layout gap)
    {tokens : List Token} (htokens : HasTokens (before ++ after) tokens) :
    HasTokens (before ++ (gap ++ after)) tokens := by
  induction h generalizing tokens with
  | @here rest =>
    refine htokens.of_drop ?_
    rw [List.nil_append, List.nil_append, hgap.blankLength_append, ← List.drop_drop, List.drop_left]
  | blanks hblanks =>
    refine htokens.of_drop ?_
    rw [hgap.drop_blankLength hblanks, hblanks, List.drop_left]
  | @token blanks run before after t hblanks hne hscan hbefore ih =>
    have hpos := List.length_pos_of_ne_nil hne
    have hblanks' : blankLength false (blanks ++ (run ++ (before ++ (gap ++ after)))) = blanks.length := by
      have hlt : blankLength false (blanks ++ run ++ (before ++ after)) < (blanks ++ run).length := by
        rw [List.append_assoc, hblanks, List.length_append]
        omega
      have hsame : blankLength false (blanks ++ run ++ (before ++ (gap ++ after))) = _ := blankLength_replace hlt
      rwa [List.append_assoc, List.append_assoc, hblanks] at hsame
    have hscan' : Scan.ofText (run ++ (before ++ (gap ++ after))) = .token run.length t := by
      by_cases hnil : gap = []
      · rwa [hnil]
      · exact Scan.ofText_alike hne hscan (hbefore.alike hgap hnil)
    rw [List.append_assoc, List.append_assoc] at htokens ⊢
    cases htokens with
    | endOfInput hend =>
      rw [hblanks, List.drop_left] at hend
      exact absurd (List.append_eq_nil_iff.1 hend).1 hne
    | token hfirst hsome hrest =>
      rw [hblanks, List.drop_left] at hfirst hrest
      cases hscan.symm.trans hfirst
      rw [List.drop_left] at hrest
      refine .token (n := run.length) ?_ hsome ?_
      · rwa [hblanks', List.drop_left]
      · rw [hblanks', List.drop_left, List.drop_left]
        exact ih hrest

/-! ## Places beside tokens -/

/-- A number of bytes belongs to one place of a text only. -/
theorem append_inj_of_byteCount {before after first rest : List Char} (h : before ++ after = first ++ rest)
    (hcount : byteCount before = byteCount first) : before = first ∧ after = rest := by
  have hnil : ∀ part, byteCount part = 0 → part = [] := fun part hpart => by
    refine Decidable.byContradiction fun hne => ?_
    exact Nat.ne_of_gt (byteCount_pos hne) hpart
  rcases List.append_eq_append_iff.1 h with ⟨part, rfl, rfl⟩ | ⟨part, rfl, rfl⟩
  · rw [byteCount_append] at hcount
    rw [hnil part (by omega)]
    simp
  · rw [byteCount_append] at hcount
    rw [hnil part (by omega)]
    simp

namespace Cursor

variable {k : Cursor} {p : Position} {t : Token}

/-- The blanks and comments at a cursor, which go on to where the next token is. -/
theorem exists_blanks (h : k.read.result = .ok (p, t)) : ∃ blanks, k.rest = blanks ++ k.start.rest ∧
    blankLength false (blanks ++ k.start.rest) = blanks.length ∧ p.index = k.place.index + byteCount blanks := by
  have hsplit : k.rest.take (blankLength false k.rest) ++ k.start.rest = k.rest := by
    rw [rest_start, List.take_append_drop]
  refine ⟨_, hsplit.symm, ?_, ?_⟩
  · rw [hsplit, List.length_take, Nat.min_eq_left (blankLength_le _ _)]
  · rw [(position_of_token h).1, start, index_advance]

/-- What a read takes up to behind a token. A place behind that which is within no token is within none from the
cursor on, either. -/
theorem exists_taken (h : k.read.result = .ok (p, t)) (ht : t ≠ .endOfInput) : ∃ taken,
    k.rest = taken ++ k.read.next.rest ∧ p.stop = k.place.index + byteCount taken ∧
      k.read.next.place.index = p.stop ∧ ∀ before after, k.read.next.rest = before ++ after →
        Boundary before after → Boundary (taken ++ before) after := by
  obtain ⟨blanks, hblanks, hlength, hindex⟩ := exists_blanks h
  obtain ⟨run, hrun⟩ : ∃ run, run = k.start.rest.take (Scan.ofText k.start.rest).length := ⟨_, rfl⟩
  have hsplit : k.start.rest = run ++ k.read.next.rest := by
    rw [hrun, next_read, rest_advance, List.take_append_drop]
  have hne : run ≠ [] := by
    rw [hrun, ne_eq, take_eq_nil_iff, isEnd_iff_of_token h]
    exact ht
  have hscan : Scan.ofText k.start.rest = .token run.length t := by
    rw [hrun, List.length_take, Nat.min_eq_left (Scan.ofText_within _).1, ← Scan.eq_token_iff, rest_start]
    exact result_read_ok h
  obtain ⟨hp, hposition⟩ := position_of_token h
  refine ⟨blanks ++ run, ?_, ?_, (hposition ht).2.symm, fun before after hnext hboundary => ?_⟩
  · rw [List.append_assoc, ← hsplit, ← hblanks]
  · rw [(hposition ht).2, next_read, index_advance, ← hp, hindex, ← hrun, byteCount_append, Nat.add_assoc]
  · rw [hsplit, hnext] at hlength hscan
    rw [List.append_assoc]
    exact .token hlength hne hscan hboundary

/-- Where reading from a cursor finds a token, the place in front of it and the place behind it are within no
token. -/
theorem boundary_of_mem_readAll {steps : Nat} {first before after : List Char} {l : Lexeme}
    (hreads : ∀ l ∈ readAll steps k, ∃ found, l.result = .ok found) (hindex : k.place.index = byteCount first)
    (htext : before ++ after = first ++ k.rest) (hl : l ∈ readAll steps k) (hresult : l.result = .ok (p, t))
    (hplace : byteCount before = p.index ∨ t ≠ .endOfInput ∧ byteCount before = p.stop) :
    ∃ between, before = first ++ between ∧ Boundary between after := by
  induction steps generalizing k first with
  | zero => cases hl
  | succ steps ih =>
    rw [readAll] at hl hreads
    by_cases hfirst : l = k.read
    · subst hfirst
      rcases hplace with hfront | ⟨ht, hback⟩
      · obtain ⟨blanks, hblanks, hlength, hp⟩ := exists_blanks hresult
        rw [hblanks, ← List.append_assoc] at htext
        obtain ⟨rfl, rfl⟩ := append_inj_of_byteCount htext (by rw [hfront, hp, hindex, byteCount_append])
        exact ⟨blanks, rfl, .blanks hlength⟩
      · obtain ⟨taken, htaken, hstop, -, hboundary⟩ := exists_taken hresult ht
        rw [htaken, ← List.append_assoc] at htext
        obtain ⟨rfl, rfl⟩ := append_inj_of_byteCount htext (by rw [hback, hstop, hindex, byteCount_append])
        have hbehind := hboundary [] _ rfl .here
        rw [List.append_nil] at hbehind
        exact ⟨taken, rfl, hbehind⟩
    · cases hend : k.read.isEnd with
      | true =>
        rw [if_pos hend] at hl
        exact absurd (List.mem_singleton.1 hl) hfirst
      | false =>
        rw [if_neg (Bool.eq_false_iff.1 hend)] at hl hreads
        obtain ⟨⟨⟨q, u⟩, hfound⟩, hlater⟩ := List.forall_mem_cons.1 hreads
        have hu : u ≠ .endOfInput := fun hu => by
          rw [(isEnd_iff_of_token hfound).2 hu] at hend
          cases hend
        obtain ⟨taken, htaken, hstop, hnext, hboundary⟩ := exists_taken hfound hu
        rw [htaken, ← List.append_assoc] at htext
        have hcount : k.read.next.place.index = byteCount (first ++ taken) := by
          rw [hnext, hstop, hindex, byteCount_append]
        obtain ⟨between, rfl, hbetween⟩ :=
          ih hlater hcount htext ((List.mem_cons.1 hl).resolve_left hfirst)
        rw [List.append_assoc (first ++ taken)] at htext
        exact ⟨taken ++ between, List.append_assoc _ _ _,
          hboundary between after (List.append_cancel_left htext).symm hbetween⟩

end Cursor

/-- The number of bytes is where a token of the text begins, or the end of the text is found, or it is where a token
ends. -/
def BesideToken (text : List Char) (index : Nat) : Prop :=
  ∃ l ∈ lexemes text, ∃ p t, l.result = .ok (p, t) ∧ (index = p.index ∨ t ≠ .endOfInput ∧ index = p.stop)

/-- The second text is the first one with layout put beside one of its tokens. -/
def SpacedOut (text other : List Char) : Prop :=
  ∃ before gap after, text = before ++ after ∧ other = before ++ (gap ++ after) ∧
    BesideToken text (byteCount before) ∧ Layout gap

theorem HasTokens.exists_found {text : List Char} {tokens : List Token} (h : HasTokens text tokens) :
    ∀ l ∈ lexemes text, ∃ found, l.result = .ok found := by
  intro l hl
  have hall := (Cursor.readAll_iff (k := .ofText text) (Nat.lt_succ_self _)).2 h
  have hmem : l.result.map Prod.snd ∈ tokens.map Except.ok := hall ▸ List.mem_map_of_mem hl
  obtain ⟨t, -, ht⟩ := List.mem_map.1 hmem
  cases hresult : l.result with
  | error e =>
    rw [hresult] at ht
    cases ht
  | ok found => exact ⟨found, rfl⟩

/-- **One insertion keeps the tokens.** -/
theorem SpacedOut.hasTokens {text other : List Char} {tokens : List Token} (h : SpacedOut text other)
    (htokens : HasTokens text tokens) : HasTokens other tokens := by
  obtain ⟨before, gap, after, rfl, rfl, ⟨l, hl, p, t, hresult, hplace⟩, hgap⟩ := h
  have hstart : before ++ after = [] ++ (Cursor.ofText (before ++ after)).rest := rfl
  obtain ⟨between, hbefore, hboundary⟩ :=
    Cursor.boundary_of_mem_readAll htokens.exists_found rfl hstart hl hresult hplace
  rw [List.nil_append] at hbefore
  subst hbefore
  exact hboundary.hasTokens hgap htokens

theorem spacedOut_hasTokens {text other : List Char} {tokens : List Token}
    (h : Relation.ReflTransGen SpacedOut text other) (htokens : HasTokens text tokens) : HasTokens other tokens := by
  induction h with
  | refl => exact htokens
  | tail _ hlast ih => exact hlast.hasTokens ih

/-- **Layout carries no meaning.** Whatever blanks and comments with the ends of their lines are put beside tokens
of a text that has no faults in its tokens, each behind the other, the text has none and the same tokens with the same
values, and it is accepted as a suite, or as a schema, just where it was, with the same result. -/
theorem layout_carries_no_meaning {text other : String} {tokens : List Token} (h : Lexed text tokens)
    (hspaced : Relation.ReflTransGen SpacedOut text.toList other.toList) :
    Lexed other tokens ∧
      (∀ maxDepth (suite : Suite),
        Suite.ofText text maxDepth = .ok suite ↔ Suite.ofText other maxDepth = .ok suite) ∧
      ∀ maxDepth (schema : Schema),
        Schema.ofText text maxDepth = .ok schema ↔ Schema.ofText other maxDepth = .ok schema := by
  have hother : Lexed other tokens := lexed_iff.2 (spacedOut_hasTokens hspaced (lexed_iff.1 h))
  refine ⟨hother, fun maxDepth suite => ?_, fun maxDepth schema => ?_⟩
  · rw [Suite.ofText_iff h, Suite.ofText_iff hother]
  · rw [Schema.ofText_iff h, Schema.ofText_iff hother]

/-- A comment between a number and the points that touch it: without it, the number ends where they begin. -/
theorem layout_carries_no_meaning_comment :
    Lexed "[-1...]" [.symbol .openBracket, .integer (-1), .symbol .ellipsis, .symbol .closeBracket, .endOfInput] ∧
      SpacedOut "[-1...]".toList "[-1; c\n...]".toList ∧
      Lexed "[-1; c\n...]"
        [.symbol .openBracket, .integer (-1), .symbol .ellipsis, .symbol .closeBracket, .endOfInput] := by
  have hlexed : Lexed "[-1...]"
      [.symbol .openBracket, .integer (-1), .symbol .ellipsis, .symbol .closeBracket, .endOfInput] := by
    unfold Lexed
    rfl
  have hbeside : BesideToken "[-1...]".toList 3 :=
    ⟨(lexemes "[-1...]".toList).get ⟨2, by decide⟩, List.get_mem _ _, _, _, rfl, .inl rfl⟩
  have hcomment : Layout "; c\n".toList := by
    have hsplit : "; c\n".toList = ';' :: [' ', 'c'] ++ ['\n'] := by decide
    rw [hsplit]
    exact .comment (by simp [isInner]) (by decide) .nil
  have hspaced : SpacedOut "[-1...]".toList "[-1; c\n...]".toList :=
    ⟨"[-1".toList, "; c\n".toList, "...]".toList, rfl, rfl, hbeside, hcomment⟩
  exact ⟨hlexed, hspaced, (layout_carries_no_meaning hlexed (.single hspaced)).1⟩

end Conformance
