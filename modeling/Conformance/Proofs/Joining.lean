import Conformance.Proofs.Spelling

/-!
# Texts one behind the other

Where the tokens of a text are known, those of the text with another one behind it are known, too: they are the
tokens of both, if no token at the end of the first can go on with the beginning of the second, and no comment
is left open.

* `Apart` — no name or number goes on with what the text begins with.
* `Scan.ofText_append` — what stands at the front of a text stands there whatever is put behind.
* `blankLength_append_of_lt`, `exists_blankLength_append` — blanks and comments that end in the text, and those
  that may go on behind it.
* `HasTokens.append` — the tokens of both texts.
* `HasTokens.apart` — a text whose first token is that of a declaration can stand behind any other.
-/

set_option autoImplicit false

namespace Conformance

/-! ## Runs that go no further -/

namespace Stops

variable {p : Char → Bool} {text rest : List Char}

theorem takeWhile_left (h : Stops p rest) : (text ++ rest).takeWhile p = text.takeWhile p := by
  induction text with
  | nil => exact h.takeWhile
  | cons c text ih => simp only [List.cons_append, List.takeWhile_cons, ih]

theorem dropWhile_left (h : Stops p rest) : (text ++ rest).dropWhile p = text.dropWhile p ++ rest := by
  induction text with
  | nil => exact h.dropWhile
  | cons c text ih =>
    simp only [List.cons_append, List.dropWhile_cons]
    split
    · exact ih
    · rfl

end Stops

/-- A name or a number can go on with the character. -/
def continuesToken (c : Char) : Bool := Name.isPart c || c == '-' || c == '.' || c == '+'

/-- No name and no number goes on with what the text begins with. -/
def Apart (text : List Char) : Prop := Stops continuesToken text

theorem Name.isPart_iff {c : Char} :
    Name.isPart c = true ↔ Name.isStart c = true ∨ c.isDigit = true ∨ c = '/' := by
  simp only [isPart, isStart, Char.isAlphanum, Bool.or_eq_true, beq_iff_eq]
  tauto

namespace Apart

variable {text rest : List Char}

theorem stops {p : Char → Bool} (h : Apart rest) (hp : ∀ c, p c = true → continuesToken c = true) :
    Stops p rest := by
  intro c hc
  refine Bool.eq_false_iff.2 fun hpc => ?_
  have hnot := h c hc
  rw [hp c hpc] at hnot
  cases hnot

theorem isPart (h : Apart rest) : Stops Name.isPart rest :=
  h.stops fun c hc => by simp [continuesToken, hc]

theorem isDigit (h : Apart rest) : Stops Char.isDigit rest :=
  h.stops fun c hc => by simp [continuesToken, Name.isPart_iff, hc]

theorem ne_of_continues {c d : Char} (h : Apart (c :: rest)) (hd : continuesToken d = true) : c ≠ d := by
  rintro rfl
  have hnot := h c rfl
  rw [hd] at hnot
  cases hnot

/-- No blank goes on with a token, and neither does the beginning of a comment or of a declaration. -/
theorem cons {c : Char} (h : isBlank c = true ∨ c = ';' ∨ c = '%' ∨ c = '&') : Apart (c :: rest) := by
  refine Stops.cons ?_
  rcases h with hblank | rfl | rfl | rfl
  · refine Bool.eq_false_iff.2 fun hc => ?_
    have hrange : 33 ≤ c.toNat ∧ c.toNat < 128 := by
      simp only [continuesToken, Bool.or_eq_true, beq_iff_eq, Name.isPart_iff, Name.isStart_iff,
        Char.isDigit_iff_toNat, Char.reduceToNat] at hc
      rcases hc with (((((h | h) | rfl) | h | rfl) | rfl) | rfl) | rfl
      · omega
      · omega
      · decide
      · omega
      all_goals decide
    rw [isBlank_eq_false hrange.1 hrange.2] at hblank
    cases hblank
  all_goals decide

end Apart

/-! ## What stands at the front -/

namespace Scan

variable {input rest : List Char}

theorem symbol?_eq_some {s : Symbol} (h : symbol? input = some s) :
    ∃ tail, input = s.text.toList ++ tail := by
  unfold symbol? at h
  split at h <;> cases h <;> exact ⟨_, rfl⟩

theorem ofText_symbol (s : Symbol) (tail : List Char) :
    ofText (s.text.toList ++ tail) = token s.text.length (.symbol s) := by
  cases s <;> rfl

/-- Names, numbers and texts in quotes are no symbols. -/
theorem symbol?_of_token {n : Nat} {s : Symbol} (h : ofText input = token n (.symbol s)) :
    symbol? input = some s := by
  have hresult : (ofText input).result = .ok (.symbol s) := by rw [h, token]
  unfold ofText at hresult
  split at hresult
  · rename_i hsome
    cases hresult
    exact hsome
  split at hresult
  · cases hresult
  · unfold text at hresult
    simp only at hresult
    split at hresult <;> cases hresult
  · split at hresult
    · have hname := congrArg Token.name? (name_result hresult)
      rw [Token.name?_ofName] at hname
      cases hname
    · split at hresult
      · rcases NumberParts.token_ok (number_result hresult) with ⟨i, -, heq⟩ | ⟨d, -, -, heq⟩ <;> cases heq
      · cases hresult

/-- A name that is followed by what does not belong to it is the same name. -/
theorem name_apart {n : Nat} {t : Token} (h : name input = token n t) (hrest : Apart rest) :
    n ≤ input.length ∧ name (input ++ rest) = token n t := by
  have hlength : (input.takeWhile Name.isPart).length ≤ input.length :=
    (List.takeWhile_prefix _).length_le
  unfold name at h ⊢
  rw [hrest.isPart.takeWhile_left, hrest.isPart.dropWhile_left]
  generalize input.dropWhile Name.isPart = tail at h ⊢
  simp only at h ⊢
  split at h
  · cases h
    exact ⟨hlength, rfl⟩
  · cases h
  · rename_i hno
    have hminus : ∀ others, tail ++ rest ≠ '-' :: others := by
      intro others heq
      cases tail with
      | nil =>
        rw [List.nil_append] at heq
        exact (heq ▸ hrest).ne_of_continues (by decide) rfl
      | cons c tail =>
        cases heq
        exact hno tail rfl
    cases h
    refine ⟨hlength, ?_⟩
    split
    · rename_i heq
      exact absurd heq (hminus _)
    · rename_i heq
      exact absurd heq (hminus _)
    · rfl

namespace NumberParts

theorem fractionOf_isPrefix (text : List Char) : fractionOf text <+: text := by
  unfold fractionOf
  split
  · rename_i tail
    simp only
    split
    · exact List.nil_prefix
    · exact List.prefix_cons_inj _ |>.2 (List.takeWhile_prefix _)
  · exact List.nil_prefix

theorem exponentOf_isPrefix (text : List Char) : exponentOf text <+: text := by
  unfold exponentOf
  split
  · split
    · exact (List.prefix_cons_inj _).2 ((List.prefix_cons_inj _).2 (List.takeWhile_prefix _))
    · exact List.nil_prefix
  · exact List.nil_prefix

theorem fractionOf_append (text : List Char) (hrest : Apart rest) :
    fractionOf (text ++ rest) = fractionOf text := by
  cases text with
  | nil =>
    cases rest with
    | nil => rfl
    | cons c rest =>
      have hc : c ≠ '.' := hrest.ne_of_continues (by decide)
      simp [fractionOf, hc]
  | cons c text =>
    by_cases hc : c = '.'
    · subst hc
      simp only [List.cons_append, fractionOf, hrest.isDigit.takeWhile_left]
    · simp [fractionOf, hc]

theorem exponentOf_append (text : List Char) (hrest : Apart rest) :
    exponentOf (text ++ rest) = exponentOf text := by
  cases text with
  | nil =>
    cases rest with
    | nil => rfl
    | cons e rest =>
      have hsmall : e ≠ 'e' := hrest.ne_of_continues (by decide)
      have hlarge : e ≠ 'E' := hrest.ne_of_continues (by decide)
      cases rest <;> simp [exponentOf, hsmall, hlarge]
  | cons e text =>
    cases text with
    | nil =>
      cases rest with
      | nil => rfl
      | cons c rest =>
        have hdigit : c.isDigit = false := hrest.isDigit c rfl
        have hplus : c ≠ '+' := hrest.ne_of_continues (by decide)
        have hminus : c ≠ '-' := hrest.ne_of_continues (by decide)
        simp [exponentOf, hdigit, hplus, hminus]
    | cons c text => simp only [List.cons_append, exponentOf, hrest.isDigit.takeWhile_left]

theorem drop_append_of_prefix {run text : List Char} (h : run <+: text) :
    (text ++ rest).drop run.length = text.drop run.length ++ rest :=
  List.drop_append_of_le_length h.length_le

/-- The number at the front of a text is the same one whatever follows that does not belong to it. -/
theorem ofText_append (text : List Char) (hrest : Apart rest) : ofText (text ++ rest) = ofText text := by
  have hsign : Stops (· == '-') rest := hrest.stops fun c hc => by simp_all [continuesToken]
  unfold ofText
  simp only
  rw [hsign.takeWhile_left, drop_append_of_prefix (List.takeWhile_prefix _), hrest.isDigit.takeWhile_left,
    drop_append_of_prefix (List.takeWhile_prefix _), fractionOf_append _ hrest,
    drop_append_of_prefix (fractionOf_isPrefix _), exponentOf_append _ hrest]

theorem append_isPrefix {run other text : List Char} (h : run <+: text)
    (h' : other <+: text.drop run.length) : run ++ other <+: text := by
  obtain ⟨tail, rfl⟩ := h
  rw [List.drop_left] at h'
  exact (List.prefix_append_right_inj run).2 h'

theorem characters_isPrefix (text : List Char) : (ofText text).characters <+: text := by
  unfold characters ofText
  simp only [List.append_assoc]
  refine append_isPrefix (List.takeWhile_prefix _) (append_isPrefix (List.takeWhile_prefix _) ?_)
  exact append_isPrefix (fractionOf_isPrefix _) (exponentOf_isPrefix _)

end NumberParts

theorem number_apart {n : Nat} {t : Token} (h : number input = token n t) (hrest : Apart rest) :
    n ≤ input.length ∧ number (input ++ rest) = token n t := by
  have hlength := (NumberParts.characters_isPrefix input).length_le
  refine ⟨?_, ?_⟩
  · have hn : (NumberParts.ofText input).characters.length = n := congrArg Scan.length h
    exact hn ▸ hlength
  · unfold number at h ⊢
    rw [NumberParts.ofText_append input hrest]
    exact h

theorem startsNumber_append (h : startsNumber input = true) : startsNumber (input ++ rest) = true := by
  unfold startsNumber at h
  split at h
  · exact h
  · exact startsNumber_digit h
  · cases h

/-- A quotation does not go on behind the end of its line. -/
theorem quotation_lineEnd {c : Char} {rest : List Char} (hline : c = '\n' ∨ c = '\r') :
    quotation (c :: rest) = ⟨1, .error ⟨0, .malformed .expectedCloseQuote⟩⟩ := by
  rcases hline with rfl | rfl <;> rfl

/-- A character that begins no escape, whatever follows it, is no backslash. -/
theorem ne_backslash {c : Char} {rest : List Char} (hlast : c = '\\' → rest = [] → False)
    (hescape : ∀ d others, c = '\\' → rest = d :: others → False) : c ≠ '\\' := by
  intro hc
  cases rest with
  | nil => exact hlast hc rfl
  | cons d others => exact hescape d others hc rfl

theorem Quotation.after_ok {q : Quotation} {n : Nat} {c : Char} {content : List Char}
    (h : (q.after n c).result = .ok content) : ∃ others, q.result = .ok others := by
  unfold after at h
  simp only at h
  split at h
  · exact ⟨_, ‹_›⟩
  · cases h

/-- A text in quotes ends at its closing quote: it is read from its own characters, whatever follows them. -/
theorem quotation_own {body content : List Char} (h : (quotation body).result = .ok content) :
    ∃ own tail, body = own ++ tail ∧ own.length = (quotation body).length ∧
      ∀ rest, quotation (own ++ rest) = quotation body := by
  induction body using quotation.induct generalizing content with
  | case1 => cases h
  | case2 tail => exact ⟨['"'], tail, rfl, rfl, fun _ => rfl⟩
  | case3 => cases h
  | case4 d tail c hd ih =>
    rw [quotation_escaped hd] at h
    obtain ⟨others, hothers⟩ := Quotation.after_ok h
    obtain ⟨own, behind, rfl, hlength, hsame⟩ := ih hothers
    refine ⟨'\\' :: d :: own, behind, rfl, ?_, fun rest => ?_⟩
    · rw [quotation_escaped hd, Quotation.after, ← hlength]
      rfl
    · rw [List.cons_append, List.cons_append, quotation_escaped hd, quotation_escaped hd, hsame]
  | case5 d tail hnone =>
    rw [quotation, hnone] at h
    cases h
  | case6 c tail hquote hback hback' hline =>
    rw [quotation_lineEnd hline] at h
    cases h
  | case7 c tail hquote hback hback' hline ih =>
    have hbackslash : c ≠ '\\' := ne_backslash hback hback'
    rw [quotation_plain hquote hbackslash hline] at h
    obtain ⟨others, hothers⟩ := Quotation.after_ok h
    obtain ⟨own, behind, rfl, hlength, hsame⟩ := ih hothers
    refine ⟨c :: own, behind, rfl, ?_, fun rest => ?_⟩
    · rw [quotation_plain hquote hbackslash hline, Quotation.after, ← hlength]
      rfl
    · rw [List.cons_append, quotation_plain hquote hbackslash hline,
        quotation_plain hquote hbackslash hline, hsame]

theorem text_append {body : List Char} {n : Nat} {t : Token} (h : text body = token n t)
    (rest : List Char) : n ≤ body.length + 1 ∧ text (body ++ rest) = token n t := by
  have hresult : ∃ content, (quotation body).result = .ok content := by
    unfold text at h
    simp only at h
    split at h
    · exact ⟨_, ‹_›⟩
    · cases h
  obtain ⟨content, hcontent⟩ := hresult
  obtain ⟨own, tail, rfl, hlength, hsame⟩ := quotation_own hcontent
  have hle : (quotation (own ++ tail)).length ≤ (own ++ tail).length := by
    rw [← hlength, List.length_append]
    exact Nat.le_add_right _ _
  unfold text at h ⊢
  rw [List.append_assoc, hsame]
  refine ⟨?_, h⟩
  simp only [hcontent] at h
  cases h
  exact Nat.succ_le_succ hle

/-- **What stands at the front of a text stands there whatever is put behind**, where no name or number can go
on with it. -/
theorem ofText_append {n : Nat} {t : Token} (hne : input ≠ []) (h : ofText input = token n t)
    (hrest : Apart rest) : n ≤ input.length ∧ ofText (input ++ rest) = token n t := by
  cases hsymbol : symbol? input with
  | some s =>
    obtain ⟨tail, rfl⟩ := symbol?_eq_some hsymbol
    rw [ofText_symbol] at h
    rw [List.append_assoc, ofText_symbol]
    refine ⟨?_, h⟩
    cases h
    rw [List.length_append, String.length_toList]
    exact Nat.le_add_right _ _
  | none =>
    cases input with
    | nil => exact absurd rfl hne
    | cons c tail =>
      by_cases hquote : c = '"'
      · subst hquote
        exact text_append h rest
      rw [ofText_cons hsymbol hquote] at h
      split at h
      · rename_i hstart
        have hsymbol' : symbol? (c :: (tail ++ rest)) = none := symbol?_eq_none (.inl hstart)
        obtain ⟨hle, hname⟩ := name_apart h hrest
        refine ⟨hle, ?_⟩
        rw [List.cons_append, ofText_cons hsymbol' hquote, if_pos hstart]
        exact hname
      · split at h
        · rename_i hnumber
          obtain ⟨hle, hsame⟩ := number_apart h hrest
          exact ⟨hle, (ofText_number (startsNumber_append hnumber)).1.trans hsame⟩
        · cases h

end Scan

/-! ## Blanks and comments -/

section Blanks

variable {inComment : Bool} {text rest : List Char}

/-- A character is passed over, or nothing is. Which of the two does not depend on what follows. -/
theorem blankLength_cons_cases (inComment : Bool) (c : Char) :
    (∀ others, blankLength inComment (c :: others) = 0) ∨
      ∃ next, ∀ others, blankLength inComment (c :: others) = blankLength next others + 1 := by
  by_cases hcomment : inComment = true
  · exact .inr ⟨c != '\n' && c != '\r', fun others => by rw [blankLength, if_pos hcomment]⟩
  by_cases hopens : c = ';'
  · exact .inr ⟨true, fun others => by rw [blankLength, if_neg hcomment, if_pos hopens]⟩
  by_cases hblank : isBlank c = true
  · refine .inr ⟨false, fun others => ?_⟩
    rw [blankLength, if_neg hcomment, if_neg hopens, if_pos hblank]
  · refine .inl fun others => ?_
    rw [blankLength, if_neg hcomment, if_neg hopens, if_neg hblank]

theorem blankLength_le (inComment : Bool) (text : List Char) :
    blankLength inComment text ≤ text.length := by
  induction text generalizing inComment with
  | nil => exact Nat.le_refl 0
  | cons c text ih =>
    rcases blankLength_cons_cases inComment c with hnone | ⟨next, hnext⟩
    · rw [hnone]
      exact Nat.zero_le _
    · rw [hnext]
      exact Nat.succ_le_succ (ih next)

/-- Blanks and comments that end before the text does are the same whatever follows. -/
theorem blankLength_append_of_lt (h : blankLength inComment text < text.length) (rest : List Char) :
    blankLength inComment (text ++ rest) = blankLength inComment text := by
  induction text generalizing inComment with
  | nil => exact absurd h (Nat.not_lt_zero _)
  | cons c text ih =>
    rw [List.cons_append]
    rcases blankLength_cons_cases inComment c with hnone | ⟨next, hnext⟩
    · rw [hnone, hnone]
    · rw [hnext] at h
      rw [hnext, hnext, ih (Nat.lt_of_succ_lt_succ h)]

/-- Behind a text of blanks and comments only they go on in the text that follows, as they do there within a
comment or outside of one. -/
theorem exists_blankLength_append (h : blankLength inComment text = text.length) :
    ∃ next, ∀ rest, blankLength inComment (text ++ rest) = text.length + blankLength next rest := by
  induction text generalizing inComment with
  | nil => exact ⟨inComment, fun rest => (Nat.zero_add _).symm⟩
  | cons c text ih =>
    rcases blankLength_cons_cases inComment c with hnone | ⟨next, hnext⟩
    · rw [hnone] at h
      cases h
    · rw [hnext] at h
      obtain ⟨last, hlast⟩ := ih (Nat.succ.inj h)
      refine ⟨last, fun rest => ?_⟩
      rw [List.cons_append, hnext, hlast, List.length_cons]
      omega

end Blanks

/-! ## Tokens of two texts -/

namespace HasTokens

variable {text rest : List Char} {tokens tail : List Token}

/-- A token that is not the last one stands at the front. -/
theorem exists_scan {t : Token} (h : HasTokens text (t :: tokens)) (hmore : tokens ≠ []) :
    ∃ n, Scan.ofText (text.drop (blankLength false text)) = .token n t ∧ t ≠ .endOfInput ∧
      HasTokens ((text.drop (blankLength false text)).drop n) tokens := by
  cases h with
  | endOfInput => exact absurd rfl hmore
  | token hscan hne hrest => exact ⟨_, hscan, hne, hrest⟩

/-- Where a token is read, something is left behind the blanks and comments. -/
theorem blankLength_lt {n : Nat} {t : Token}
    (h : Scan.ofText (text.drop (blankLength false text)) = .token n t) (hne : t ≠ .endOfInput) :
    blankLength false text < text.length := by
  refine Nat.lt_of_le_of_ne (blankLength_le false text) fun hall => ?_
  rw [hall, List.drop_length] at h
  cases h
  exact hne rfl

/-- **The tokens of two texts.** An ampersand put behind the first text is a token there, so no comment is left
open at its end. -/
theorem append (h : HasTokens text (tokens ++ [.endOfInput]))
    (hclosed : HasTokens (text ++ ['&']) (tokens ++ [.symbol .ampersand, .endOfInput]))
    (hrest : HasTokens rest tail) (hapart : Apart rest) : HasTokens (text ++ rest) (tokens ++ tail) := by
  induction tokens generalizing text with
  | nil =>
    have hall : blankLength false text = text.length := by
      cases h with
      | endOfInput hdrop => exact Nat.le_antisymm (blankLength_le _ _) (List.drop_eq_nil_iff.1 hdrop)
      | token _ hne _ => exact absurd rfl hne
    obtain ⟨next, hnext⟩ := exists_blankLength_append hall
    cases hclosed with
    | token hscan hne _ =>
      have hlt := blankLength_lt hscan hne
      cases next with
      | true =>
        have hone : blankLength true ['&'] = 1 := rfl
        rw [hnext, hone, List.length_append] at hlt
        exact absurd hlt (Nat.lt_irrefl _)
      | false =>
        refine hrest.of_drop ?_
        rw [hnext, List.drop_append]
        simp
  | cons t tokens ih =>
    obtain ⟨n, hscan, hne, hnext⟩ := h.exists_scan (by simp)
    obtain ⟨m, hscan', -, hnext'⟩ := hclosed.exists_scan (by simp)
    have hlt := blankLength_lt hscan hne
    have hinput : text.drop (blankLength false text) ≠ [] := by
      rw [ne_eq, List.drop_eq_nil_iff]
      exact Nat.not_le.2 hlt
    have hbehind : ∀ others, (text ++ others).drop (blankLength false (text ++ others)) =
        text.drop (blankLength false text) ++ others := by
      intro others
      rw [blankLength_append_of_lt hlt, List.drop_append_of_le_length (Nat.le_of_lt hlt)]
    rw [hbehind] at hscan' hnext'
    generalize text.drop (blankLength false text) = input at hscan hnext hinput hbehind hscan' hnext'
    obtain ⟨hle, hsame⟩ := Scan.ofText_append hinput hscan (.cons (.inr (.inr (.inr rfl))))
    cases hsame.symm.trans hscan'
    rw [List.drop_append_of_le_length hle] at hnext'
    obtain ⟨-, hjoined⟩ := Scan.ofText_append hinput hscan hapart
    refine .token ((hbehind rest).symm ▸ hjoined) hne ?_
    rw [hbehind, List.drop_append_of_le_length hle]
    exact ih hnext hnext'

/-- A text that begins with the token of a declaration can stand behind any other. -/
theorem apart {s : Symbol} (h : HasTokens text (.symbol s :: tokens)) (hs : s = .resource ∨ s = .ampersand)
    (rest : List Char) : Apart (text ++ rest) := by
  have hscan : ∃ n, Scan.ofText (text.drop (blankLength false text)) = .token n (.symbol s) := by
    cases h with
    | token hscan => exact ⟨_, hscan⟩
  obtain ⟨n, hscan⟩ := hscan
  cases text with
  | nil => cases hscan
  | cons c text =>
    refine .cons ?_
    by_cases hpassed : isBlank c = true ∨ c = ';'
    · exact hpassed.imp_right .inl
    · obtain ⟨hblank, hopens⟩ := not_or.1 hpassed
      rw [blankLength_cons (Bool.eq_false_iff.2 hblank) hopens, List.drop_zero] at hscan
      obtain ⟨tail, heq⟩ := Scan.symbol?_eq_some (Scan.symbol?_of_token hscan)
      rcases hs with rfl | rfl
      · obtain rfl : c = '%' := (List.cons.inj heq).1
        exact .inr (.inr (.inl rfl))
      · obtain rfl : c = '&' := (List.cons.inj heq).1
        exact .inr (.inr (.inr rfl))

end HasTokens

end Conformance
