import Conformance.Proofs.NumberText
import Conformance.Proofs.Tokens

/-!
# Tokens read back

What stands at the front of a text where a token has been written there. The tokens of a text are found
from its end to its beginning: before a text with known tokens a blank changes nothing, and a symbol, a
name, a number or a text in quotes adds its token.

* `Tokenized` — the tokens of a list of characters; `Tokenized.lexed` is what they are to the reader.
* `Tokenized.symbol`, `Tokenized.name`, `Tokenized.text`, `Tokenized.integer`, `Tokenized.real` — the
  tokens of what is written before a text.
* `Scan.quotation_escape` — a text in quotes ends where it was ended and loses its escapes again.
-/

set_option autoImplicit false

namespace Conformance

/-! ## All tokens of a text -/

/-- The tokens of a text: blanks are passed over, and each token is what stands at the front of the text
from there. -/
inductive Tokenized : List Char → List Token → Prop where
  | endOfInput : Tokenized [] [.endOfInput]
  | blank {c : Char} {text : List Char} {tokens : List Token} :
    isBlank c = true → c ≠ ';' → Tokenized text tokens → Tokenized (c :: text) tokens
  | token {spelling text : List Char} {t : Token} {tokens : List Token} :
    blankLength false (spelling ++ text) = 0 → t ≠ .endOfInput →
    Scan.ofText (spelling ++ text) = .token spelling.length t → Tokenized text tokens →
    Tokenized (spelling ++ text) (t :: tokens)

theorem Tokenized.hasTokens {text : List Char} {tokens : List Token} (h : Tokenized text tokens) :
    HasTokens text tokens := by
  induction h with
  | endOfInput => exact .endOfInput rfl
  | @blank c text tokens hblank hc _ ih =>
    have hlength : blankLength false (c :: text) = blankLength false text + 1 := by
      change (if false = true then _ else if c = ';' then _ else if isBlank c = true then _ else 0) = _
      rw [if_neg Bool.false_ne_true, if_neg hc, if_pos hblank]
    refine ih.of_drop ?_
    rw [hlength]
    rfl
  | @token spelling text t tokens hfront hne hscan _ ih =>
    have hdrop : (spelling ++ text).drop (blankLength false (spelling ++ text)) = spelling ++ text := by
      rw [hfront, List.drop_zero]
    refine .token (hdrop.symm ▸ hscan) hne ?_
    rw [hdrop, List.drop_left]
    exact ih

/-- **A text with tokens has no faults.** -/
theorem Tokenized.lexed {text : String} {tokens : List Token} (h : Tokenized text.toList tokens) :
    Lexed text tokens := lexed_iff.2 h.hasTokens

/-! ## Tokens at the front of a text -/

namespace Tokenized

variable {rest : List Char} {tail : List Token}

theorem space (h : Tokenized rest tail) : Tokenized (' ' :: rest) tail :=
  .blank (by decide) (by decide) h

theorem newline (h : Tokenized rest tail) : Tokenized ('\n' :: rest) tail :=
  .blank (by decide) (by decide) h

theorem symbol (s : Symbol) (h : Tokenized rest tail) :
    Tokenized (s.text.toList ++ rest) (.symbol s :: tail) := by
  refine .token ?_ nofun ?_ h
  · cases s <;> rfl
  · cases s <;> rfl

end Tokenized

/-! ## Names and numbers -/

theorem blankLength_cons {c : Char} {rest : List Char} (hblank : isBlank c = false) (hc : c ≠ ';') :
    blankLength false (c :: rest) = 0 := by
  change (if false = true then _ else if c = ';' then _ else if isBlank c = true then _ else 0) = _
  rw [if_neg Bool.false_ne_true, if_neg hc, if_neg (by rw [hblank]; decide)]

theorem isBlank_eq_false {c : Char} (hlow : 33 ≤ c.toNat) (hhigh : c.toNat < 128) :
    isBlank c = false := by
  unfold isBlank blankRanges
  simp only [List.any_cons, List.any_nil, Bool.or_false, Bool.or_eq_false_iff, Bool.and_eq_false_iff,
    decide_eq_false_iff_not]
  omega

/-- The characters that begin a name, by their numbers. -/
theorem Name.isStart_iff {c : Char} : Name.isStart c = true ↔
    (65 ≤ c.toNat ∧ c.toNat ≤ 90 ∨ 97 ≤ c.toNat ∧ c.toNat ≤ 122) ∨ c = '_' := by
  change ((decide (c.val ≥ 65 ∧ c.val ≤ 90) ||
    decide (c.val ≥ 97) && decide (c.val ≤ 122)) || c == '_') = true ↔ _
  simp only [Bool.or_eq_true, Bool.and_eq_true, decide_eq_true_eq, beq_iff_eq, ge_iff_le,
    UInt32.le_iff_toNat_le]
  rfl

/-- No blank begins a name or a number. -/
theorem isBlank_of_start {c : Char} (h : Name.isStart c = true ∨ c.isDigit = true) :
    isBlank c = false := by
  simp only [Name.isStart_iff, Char.isDigit_iff_toNat, Char.reduceToNat] at h
  by_cases hunderscore : c = '_'
  · rw [hunderscore]
    decide
  · rw [or_iff_left hunderscore] at h
    have hrange : 33 ≤ c.toNat ∧ c.toNat < 128 := by omega
    exact isBlank_eq_false hrange.1 hrange.2

theorem blankLength_of_start {c : Char} {rest : List Char}
    (h : Name.isStart c = true ∨ c.isDigit = true) : blankLength false (c :: rest) = 0 := by
  refine blankLength_cons (isBlank_of_start h) ?_
  rintro rfl
  exact absurd h (by decide)

namespace Scan

/-- The symbols begin with other characters than names and numbers do. -/
theorem symbol?_eq_none {c : Char} {rest : List Char} (h : Name.isStart c = true ∨ c.isDigit = true) :
    symbol? (c :: rest) = none := by
  unfold symbol?
  split
  all_goals first
    | rfl
    | (rename_i heq; cases heq; revert h; decide)

theorem symbol?_minus {c : Char} {rest : List Char} (h : c.isDigit = true) :
    symbol? ('-' :: c :: rest) = none := by
  unfold symbol?
  split
  all_goals first
    | rfl
    | (rename_i heq; cases heq; revert h; decide)
    | (rename_i heq; cases heq)

theorem name_append {spelling rest : List Char} (hname : Name.isName spelling = true)
    (hrest : Delimited rest) :
    name (spelling ++ rest) = token spelling.length (.ofName (String.ofList spelling)) := by
  have hall : ∀ c ∈ spelling, Name.isPart c = true := by
    cases spelling with
    | nil => cases hname
    | cons c spelling =>
      obtain ⟨hc, hall⟩ := Bool.and_eq_true_iff.1 hname
      exact List.forall_mem_cons.2 ⟨Name.isPart_of_isStart hc, List.all_eq_true.1 hall⟩
  have hstops : Stops Name.isPart rest := hrest.stops (by decide)
  unfold name
  rw [hstops.takeWhile_append hall, hstops.dropWhile_append hall]
  split
  · rfl
  · exact absurd (hrest '-' rfl) (by decide)
  · rfl

theorem ofText_cons {c : Char} {rest : List Char} (hsymbol : symbol? (c :: rest) = none)
    (hquote : c ≠ '"') :
    ofText (c :: rest) = if Name.isStart c then name (c :: rest)
      else if startsNumber (c :: rest) then number (c :: rest)
      else fault 1 0 (.malformed .invalidCharacter) := by
  unfold ofText
  rw [hsymbol]
  simp only

theorem isStart_of_isDigit {c : Char} (h : c.isDigit = true) : Name.isStart c = false := by
  refine Bool.eq_false_iff.2 fun hstart => ?_
  simp only [Char.isDigit_iff_toNat, Char.reduceToNat] at h
  rcases Name.isStart_iff.1 hstart with hletter | rfl
  · omega
  · exact absurd h.2 (by decide)

theorem ofText_name {spelling rest : List Char} (hname : Name.isName spelling = true)
    (hrest : Delimited rest) :
    ofText (spelling ++ rest) = token spelling.length (.ofName (String.ofList spelling)) := by
  rw [← name_append hname hrest]
  cases spelling with
  | nil => cases hname
  | cons c spelling =>
    have hc := (Bool.and_eq_true_iff.1 hname).1
    rw [List.cons_append, ofText_cons (symbol?_eq_none (.inl hc)), if_pos hc]
    rintro rfl
    exact absurd hc (by decide)

/-- A number begins with a digit, which may have a minus before it. -/
theorem ofText_number {input : List Char} (h : startsNumber input = true) :
    ofText input = number input ∧ blankLength false input = 0 := by
  cases input with
  | nil => cases h
  | cons c rest =>
    by_cases hminus : c = '-'
    · subst hminus
      cases rest with
      | nil => cases h
      | cons d rest =>
        refine ⟨?_, blankLength_cons (by decide) (by decide)⟩
        rw [ofText_cons (symbol?_minus h) (by decide), if_neg (by decide), if_pos h]
    · have hc : c.isDigit = true := by
        unfold startsNumber at h
        split at h
        · rename_i heq
          cases heq
          exact absurd rfl hminus
        · rename_i heq
          cases heq
          exact h
        · cases h
      refine ⟨?_, blankLength_of_start (.inr hc)⟩
      rw [ofText_cons (symbol?_eq_none (.inr hc)), isStart_of_isDigit hc, if_neg Bool.false_ne_true,
        if_pos h]
      rintro rfl
      exact absurd hc (by decide)

theorem startsNumber_digit {c : Char} {rest : List Char} (h : c.isDigit = true) :
    startsNumber (c :: rest) = true := by
  unfold startsNumber
  split
  · rename_i heq
    cases heq
    exact absurd h (by decide)
  · rename_i heq
    cases heq
    exact h
  · rename_i heq
    cases heq

open NumberParts in
theorem startsNumber_of {negative : Bool} {whole fraction rest : List Char} {exponent? : Option Int}
    (h : IsNumber whole fraction) :
    startsNumber ((of negative whole fraction exponent?).characters ++ rest) = true := by
  rw [characters_of]
  cases whole with
  | nil => exact absurd rfl h.ne_nil
  | cons c whole =>
    have hc := h.whole c List.mem_cons_self
    cases negative with
    | true => exact hc
    | false => exact startsNumber_digit hc

/-! ## Texts in quotes -/

/-- A character between quotes is written with a backslash or stands for itself. -/
theorem escapeChar_cases (c : Char) :
    (∃ d, Quoted.escapeChar '"' c = ['\\', d] ∧ Quoted.unescape? d = some c) ∨
      Quoted.escapeChar '"' c = [c] ∧ c ≠ '"' ∧ c ≠ '\\' ∧ c ≠ '\n' ∧ c ≠ '\r' := by
  unfold Quoted.escapeChar
  split
  · rename_i h
    exact .inl ⟨_, rfl, by rw [h]; rfl⟩
  split
  · rename_i h
    exact .inl ⟨_, rfl, by rw [h]; rfl⟩
  split
  · rename_i h
    exact .inl ⟨_, rfl, by rw [h]; rfl⟩
  split
  · rename_i h
    exact .inl ⟨_, rfl, by rw [h]; rfl⟩
  split
  · rename_i h
    exact .inl ⟨_, rfl, by rw [h]; rfl⟩
  exact .inr ⟨rfl, ‹_›, ‹_›, ‹_›, ‹_›⟩

theorem quotation_escaped {c d : Char} {rest : List Char} (h : Quoted.unescape? d = some c) :
    quotation ('\\' :: d :: rest) = (quotation rest).after 2 c := by
  rw [quotation]
  rw [h]

theorem quotation_plain {c : Char} {rest : List Char} (hquote : c ≠ '"') (hbackslash : c ≠ '\\')
    (hline : ¬ (c = '\n' ∨ c = '\r')) : quotation (c :: rest) = (quotation rest).after 1 c := by
  rw [quotation, if_neg hline]
  · exact hquote
  · exact fun hc _ => hbackslash hc
  · exact fun _ _ hc _ => hbackslash hc

theorem quotation_escape (content rest : List Char) :
    quotation (Quoted.escape '"' content ++ '"' :: rest) =
      ⟨(Quoted.escape '"' content).length + 1, .ok content⟩ := by
  induction content with
  | nil => rfl
  | cons c content ih =>
    change quotation (Quoted.escapeChar '"' c ++ Quoted.escape '"' content ++ '"' :: rest) =
      ⟨(Quoted.escapeChar '"' c ++ Quoted.escape '"' content).length + 1, _⟩
    rcases escapeChar_cases c with ⟨d, hd, hunescape⟩ | ⟨hc, hquote, hbackslash, hnewline, hreturn⟩
    · rw [hd]
      change quotation ('\\' :: d :: (Quoted.escape '"' content ++ '"' :: rest)) = _
      rw [quotation_escaped hunescape, ih]
      rfl
    · rw [hc]
      change quotation (c :: (Quoted.escape '"' content ++ '"' :: rest)) = _
      rw [quotation_plain hquote hbackslash (not_or.2 ⟨hnewline, hreturn⟩), ih]
      rfl

end Scan

namespace Tokenized

variable {rest : List Char} {tail : List Token}

theorem name {spelling : List Char} (hname : Name.isName spelling = true) (hrest : Delimited rest)
    (h : Tokenized rest tail) :
    Tokenized (spelling ++ rest) (.ofName (String.ofList spelling) :: tail) := by
  refine .token ?_ ?_ (Scan.ofText_name hname hrest) h
  · cases spelling with
    | nil => cases hname
    | cons c spelling => exact blankLength_of_start (.inl (Bool.and_eq_true_iff.1 hname).1)
  · intro hend
    have := Token.name?_ofName (String.ofList spelling)
    rw [hend] at this
    cases this

theorem text (content : String) (h : Tokenized rest tail) :
    Tokenized (Quoted.write '"' content ++ rest) (.text content :: tail) := by
  have hquotation := Scan.quotation_escape content.toList rest
  refine .token (blankLength_cons (by decide) (by decide)) nofun ?_ h
  change Scan.ofText ('"' :: (Quoted.escape '"' content.toList ++ ['"'] ++ rest)) = _
  rw [List.append_assoc]
  change Scan.text (Quoted.escape '"' content.toList ++ '"' :: rest) = _
  unfold Scan.text Quoted.write
  simp only [hquotation, String.ofList_toList, List.cons_append, List.length_cons,
    List.length_append, List.length_nil]

theorem number {spelling : List Char} {t : Token} (hstart : Scan.startsNumber (spelling ++ rest) = true)
    (hne : t ≠ .endOfInput) (hnumber : Scan.number (spelling ++ rest) = .token spelling.length t)
    (h : Tokenized rest tail) : Tokenized (spelling ++ rest) (t :: tail) := by
  obtain ⟨htext, hblank⟩ := Scan.ofText_number hstart
  exact .token hblank hne (htext.trans hnumber) h

theorem integer (i : Int32) (hrest : Delimited rest) (h : Tokenized rest tail) :
    Tokenized (Digits.ofInt i.toInt ++ rest) (.integer i :: tail) := by
  refine .number ?_ nofun (Scan.number_ofInt i hrest) h
  rw [Scan.ofInt_eq]
  exact Scan.startsNumber_of (Scan.isNumber_ofNat _)

theorem real {r : Binary64} (hr : r.isFinite = true) (hrest : Delimited rest)
    (h : Tokenized rest tail) : Tokenized (r.literalText ++ rest) (.real r :: tail) := by
  refine .number ?_ nofun (Scan.number_literalText hr hrest) h
  cases r with
  | nan => cases hr
  | infinite => cases hr
  | finite negative m =>
    obtain ⟨whole, fraction, exponent?, hwritten, htext⟩ := Binary64.exists_literalText negative m
    rw [htext]
    exact Scan.startsNumber_of hwritten.isNumber

end Tokenized

end Conformance
