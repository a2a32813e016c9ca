import Conformance.Syntax.Parser

/-!
# The tokens of a text

What the reader finds in a text before any rule of the grammar is applied, and what is left of it after
any rule, also after one that fails.

* `Token.Lexical` — what a token can hold: a name is a name and no keyword, a real is finite.
* `lexemes_end`, `lexical_of_mem_lexemes` — a text is read up to its end, whatever faults it has.
* `Lexed` — a text without faults, with its tokens; `HasTokens` — the same, character by character
  (`lexed_iff`).
* `Parser.State.tokens` — the tokens left, the current one first; `Parser.advance_ok` takes it off.
* `Parser.State.Proper` — the end of the text is the last thing that is read, and only there.
* `Parser.Keeps` — what every rule keeps, whether it succeeds or not.
-/

set_option autoImplicit false

namespace Conformance

/-! ## Single tokens -/

/-- What a token that is read from a text can hold. -/
def Token.Lexical : Token → Prop
  | .name spelling => Name.isName spelling.toList = true ∧ Keyword.ofText? spelling = none
  | .real r => r.isFinite = true
  | _ => True

theorem Keyword.isName_text (k : Keyword) : Name.isName k.text.toList = true := by
  cases k <;> decide

theorem Keyword.ofText?_eq_some {text : String} {k : Keyword} (h : Keyword.ofText? text = some k) :
    k.text = text := by
  have := List.find?_some h
  simpa using this

theorem Keyword.ofText?_text (k : Keyword) : Keyword.ofText? k.text = some k := by
  cases k <;> decide

theorem Token.name?_ofName (spelling : String) : (Token.ofName spelling).name? = some spelling := by
  unfold Token.ofName
  split
  · rename_i k hk
    exact congrArg some (Keyword.ofText?_eq_some hk)
  · rfl

theorem Token.lexical_ofName {spelling : String} (h : Name.isName spelling.toList = true) :
    (Token.ofName spelling).Lexical := by
  unfold Token.ofName
  split
  · trivial
  · rename_i hk
    exact ⟨h, hk⟩

theorem Token.Lexical.isName {t : Token} {spelling : String} (h : t.Lexical)
    (hname : t.name? = some spelling) : Name.isName spelling.toList = true := by
  cases t with
  | name text =>
    cases hname
    exact h.1
  | keyword k =>
    cases hname
    exact k.isName_text
  | _ => cases hname

namespace Scan

theorem name_result {text : List Char} {t : Token} (h : (name text).result = .ok t) :
    t = .ofName (String.ofList (text.takeWhile Name.isPart)) := by
  unfold name at h
  split at h <;> cases h <;> rfl

theorem isName_takeWhile {c : Char} {rest : List Char} (h : Name.isStart c = true) :
    Name.isName ((c :: rest).takeWhile Name.isPart) = true := by
  rw [List.takeWhile_cons_of_pos (Name.isPart_of_isStart h)]
  simp [Name.isName, h, List.all_takeWhile]

theorem NumberParts.token_ok {p : NumberParts} {t : Token} (h : p.token = .ok t) :
    (∃ i, int32? p.integer = some i ∧ t = .integer i) ∨
      ∃ d, Decimal.ofText? p.characters = some d ∧ d.toBinary64.isFinite = true ∧
        t = .real d.toBinary64 := by
  unfold NumberParts.token at h
  split at h
  · split at h
    · rename_i i hi
      cases h
      exact .inl ⟨i, hi, rfl⟩
    · cases h
  · split at h
    · cases h
    · rename_i d hd
      split at h
      · rename_i hfinite
        cases h
        exact .inr ⟨d, hd, hfinite, rfl⟩
      · cases h

theorem number_result {text : List Char} {t : Token} (h : (number text).result = .ok t) :
    (NumberParts.ofText text).token = .ok t := by
  change (NumberParts.ofText text).token.mapError _ = _ at h
  cases htoken : (NumberParts.ofText text).token with
  | error f =>
    rw [htoken] at h
    cases h
  | ok u =>
    rw [htoken] at h
    cases h
    rfl

/-- A text that is not empty has something at its front that is not its end. -/
theorem ofText_ne_end {input : List Char} {t : Token} (hne : input ≠ [])
    (h : (ofText input).result = .ok t) : t.Lexical ∧ t ≠ .endOfInput := by
  unfold ofText at h
  split at h
  · cases h
    exact ⟨trivial, nofun⟩
  · split at h
    · exact absurd rfl hne
    · rename_i body
      unfold text at h
      simp only at h
      split at h
      · cases h
        exact ⟨trivial, nofun⟩
      · cases h
    · rename_i c rest _ _
      split at h
      · rename_i hc
        obtain rfl := name_result h
        refine ⟨Token.lexical_ofName (by simpa using isName_takeWhile hc), ?_⟩
        intro hend
        have := Token.name?_ofName (String.ofList ((c :: rest).takeWhile Name.isPart))
        rw [hend] at this
        cases this
      · split at h
        · rcases NumberParts.token_ok (number_result h) with ⟨i, -, rfl⟩ | ⟨d, -, hfinite, rfl⟩
          · exact ⟨trivial, nofun⟩
          · exact ⟨hfinite, nofun⟩
        · cases h

theorem number_length_pos {text : List Char} (h : startsNumber text = true) :
    0 < (number text).length := by
  unfold startsNumber at h
  unfold number NumberParts.ofText NumberParts.characters
  split at h
  · simp
  · rename_i c rest hminus
    have hc : (c == '-') = false := by
      rw [beq_eq_false_iff_ne]
      rintro rfl
      exact absurd h (by decide)
    simp [hc, h]
  · cases h

theorem name_length_pos {c : Char} {rest : List Char} (h : Name.isStart c = true) :
    0 < (name (c :: rest)).length := by
  unfold name token fault
  rw [List.takeWhile_cons_of_pos (Name.isPart_of_isStart h)]
  split <;> simp

/-- Whatever stands at the front of a text takes a character of it. -/
theorem ofText_length_pos {input : List Char} (hne : input ≠ []) : 0 < (ofText input).length := by
  unfold ofText
  split
  · rename_i s _
    cases s <;> decide
  · split
    · exact absurd rfl hne
    · unfold text
      simp only
      split <;> exact Nat.succ_pos _
    · split
      · rename_i hc
        exact name_length_pos hc
      · split
        · rename_i hnumber
          exact number_length_pos hnumber
        · exact Nat.one_pos

end Scan

/-! ## All tokens -/

theorem Cursor.rest_advance (k : Cursor) (n : Nat) : (k.advance n).rest = k.rest.drop n := by
  induction n generalizing k with
  | zero => rfl
  | succ n ih =>
    obtain ⟨place, rest⟩ := k
    cases rest with
    | nil => rfl
    | cons c rest => exact ih _

theorem Cursor.rest_read (k : Cursor) :
    k.read.next.rest =
      (k.rest.drop (blankLength false k.rest)).drop
        (Scan.ofText (k.rest.drop (blankLength false k.rest))).length := by
  unfold read
  simp only
  split <;> simp only [rest_advance]

theorem Cursor.result_read (k : Cursor) :
    k.read.result.toOption.map Prod.snd =
      (Scan.ofText (k.rest.drop (blankLength false k.rest))).result.toOption := by
  unfold read
  simp only
  split <;> rename_i h <;> rw [rest_advance] at h <;> rw [h] <;> rfl

theorem Cursor.result_read_ok {k : Cursor} {x : Position × Token} (h : k.read.result = .ok x) :
    (Scan.ofText (k.rest.drop (blankLength false k.rest))).result = .ok x.2 := by
  have hresult := k.result_read
  rw [h] at hresult
  cases hscan : (Scan.ofText (k.rest.drop (blankLength false k.rest))).result with
  | error e =>
    rw [hscan] at hresult
    cases hresult
  | ok t =>
    rw [hscan] at hresult
    exact congrArg Except.ok (Option.some.inj hresult).symm

theorem Cursor.lexical_read {k : Cursor} {x : Position × Token} (h : k.read.result = .ok x) :
    x.2.Lexical := by
  have hscan := result_read_ok h
  cases htext : k.rest.drop (blankLength false k.rest) with
  | nil =>
    rw [htext] at hscan
    have hend : .endOfInput = x.2 := Except.ok.inj hscan
    rw [← hend]
    trivial
  | cons c rest => exact (Scan.ofText_ne_end (htext ▸ List.cons_ne_nil c rest) hscan).1

/-- Reading goes on behind where it was, unless it has come to the end. -/
theorem Cursor.length_read_lt {k : Cursor} (h : k.read.isEnd = false) :
    k.read.next.rest.length < k.rest.length := by
  rw [rest_read, List.length_drop, List.length_drop]
  cases htext : k.rest.drop (blankLength false k.rest) with
  | nil =>
    have hresult := k.result_read
    rw [htext] at hresult
    unfold Lexeme.isEnd at h
    split at h
    · cases h
    · rename_i hne
      cases hread : k.read.result with
      | error e =>
        rw [hread] at hresult
        cases hresult
      | ok x =>
        rw [hread] at hresult
        obtain ⟨position, token⟩ := x
        cases Option.some.inj hresult
        exact absurd hread (hne position)
  | cons c rest =>
    have hpos := Scan.ofText_length_pos (List.cons_ne_nil c rest)
    have hlength := congrArg List.length htext
    rw [List.length_drop, List.length_cons] at hlength
    omega

/-- The last lexeme, and no other, is the end of the text. -/
def EndsOnce (lexemes : List Lexeme) : Prop :=
  ∃ before last, lexemes = before ++ [last] ∧ last.isEnd = true ∧ ∀ l ∈ before, l.isEnd = false

theorem EndsOnce.of_cons {l : Lexeme} {rest : List Lexeme} (h : EndsOnce (l :: rest)) :
    (rest = [] ∧ l.isEnd = true) ∨ (rest ≠ [] ∧ l.isEnd = false ∧ EndsOnce rest) := by
  obtain ⟨before, last, heq, hlast, hbefore⟩ := h
  cases before with
  | nil =>
    cases heq
    exact .inl ⟨rfl, hlast⟩
  | cons b before =>
    cases heq
    refine .inr ⟨by simp, hbefore _ List.mem_cons_self, before, last, rfl, hlast, fun l hl => ?_⟩
    exact hbefore l (List.mem_cons_of_mem _ hl)

theorem Cursor.readAll_end {steps : Nat} {k : Cursor} (h : k.rest.length < steps) :
    EndsOnce (readAll steps k) := by
  induction steps generalizing k with
  | zero => exact absurd h (Nat.not_lt_zero _)
  | succ steps ih =>
    simp only [readAll]
    split
    · rename_i hend
      exact ⟨[], k.read, rfl, hend, by simp⟩
    · rename_i hend
      have hend : k.read.isEnd = false := by simpa using hend
      have hlt := length_read_lt hend
      obtain ⟨before, last, heq, hlast, hbefore⟩ := ih (k := k.read.next) (by omega)
      exact ⟨k.read :: before, last, by rw [heq, List.cons_append], hlast,
        List.forall_mem_cons.2 ⟨hend, hbefore⟩⟩

/-- **A text is read up to its end**, also past faults. -/
theorem lexemes_end (text : List Char) : EndsOnce (lexemes text) :=
  Cursor.readAll_end (Nat.lt_succ_self _)

theorem Cursor.lexical_of_mem_readAll {steps : Nat} {k : Cursor} {l : Lexeme} {x : Position × Token}
    (hl : l ∈ readAll steps k) (h : l.result = .ok x) : x.2.Lexical := by
  induction steps generalizing k with
  | zero => cases hl
  | succ steps ih =>
    simp only [readAll] at hl
    split at hl
    · rw [List.mem_singleton.1 hl] at h
      exact lexical_read h
    · rcases List.mem_cons.1 hl with rfl | hl
      · exact lexical_read h
      · exact ih hl

theorem lexical_of_mem_lexemes {text : List Char} {l : Lexeme} {x : Position × Token}
    (hl : l ∈ lexemes text) (h : l.result = .ok x) : x.2.Lexical :=
  Cursor.lexical_of_mem_readAll hl h

/-- The text has no faults, and these are its tokens. The last one is the end of the text. -/
def Lexed (text : String) (tokens : List Token) : Prop :=
  (lexemes text.toList).map (fun l => l.result.map Prod.snd) = tokens.map Except.ok

/-- The tokens of some characters without faults: each is what stands at the front of them behind blanks and
comments, and what follows it are the tokens of the characters behind it. -/
inductive HasTokens : List Char → List Token → Prop where
  | endOfInput {text : List Char} : text.drop (blankLength false text) = [] →
    HasTokens text [.endOfInput]
  | token {text : List Char} {n : Nat} {t : Token} {tokens : List Token} :
    Scan.ofText (text.drop (blankLength false text)) = .token n t → t ≠ .endOfInput →
    HasTokens ((text.drop (blankLength false text)).drop n) tokens → HasTokens text (t :: tokens)

/-- Blanks and comments in front make no difference. -/
theorem HasTokens.of_drop {text other : List Char} {tokens : List Token} (h : HasTokens text tokens)
    (hdrop : other.drop (blankLength false other) = text.drop (blankLength false text)) :
    HasTokens other tokens := by
  cases h with
  | endOfInput hend => exact .endOfInput (hdrop.trans hend)
  | token hscan hne hrest =>
    rw [← hdrop] at hscan hrest
    exact .token hscan hne hrest

theorem Cursor.map_result_read {k : Cursor} {t : Token} : k.read.result.map Prod.snd = .ok t ↔
    (Scan.ofText (k.rest.drop (blankLength false k.rest))).result = .ok t := by
  have h := k.result_read
  generalize k.read.result = read at h ⊢
  generalize (Scan.ofText _).result = scan at h ⊢
  cases read with
  | error e =>
    cases scan with
    | error e' => exact ⟨nofun, nofun⟩
    | ok t' => cases h
  | ok found =>
    cases scan with
    | error e' => cases h
    | ok t' =>
      obtain rfl : found.2 = t' := Option.some.inj h
      exact ⟨fun h => congrArg _ (Except.ok.inj h), fun h => congrArg _ (Except.ok.inj h)⟩

/-- The end of the text is read where nothing but blanks and comments is left. -/
theorem Cursor.isEnd_read {k : Cursor} :
    k.read.isEnd = true ↔ k.rest.drop (blankLength false k.rest) = [] := by
  have hend : k.read.isEnd = true ↔ k.read.result.map Prod.snd = .ok .endOfInput := by
    unfold Lexeme.isEnd
    generalize k.read.result = read
    rcases read with e | ⟨position, t⟩
    · exact ⟨nofun, nofun⟩
    · cases t <;> simp [Except.map]
  rw [hend, Cursor.map_result_read]
  constructor
  · intro h
    refine Decidable.byContradiction fun hne => ?_
    exact (Scan.ofText_ne_end hne h).2 rfl
  · intro h
    rw [h]
    rfl

theorem Scan.eq_token_iff {scan : Scan} {t : Token} :
    scan.result = .ok t ↔ scan = .token scan.length t := by
  obtain ⟨n, result⟩ := scan
  simp [token]

theorem Cursor.readAll_iff {steps : Nat} {k : Cursor} {tokens : List Token}
    (hsteps : k.rest.length < steps) :
    (readAll steps k).map (fun l => l.result.map Prod.snd) = tokens.map Except.ok ↔
      HasTokens k.rest tokens := by
  induction steps generalizing k tokens with
  | zero => exact absurd hsteps (Nat.not_lt_zero _)
  | succ steps ih =>
    simp only [readAll]
    cases hend : k.read.isEnd with
    | true =>
      have hnone := isEnd_read.1 hend
      have hresult : k.read.result.map Prod.snd = .ok .endOfInput := by
        rw [map_result_read, hnone]
        rfl
      rw [if_pos rfl, List.map_singleton, hresult]
      constructor
      · intro h
        obtain rfl : tokens = [.endOfInput] := by
          cases tokens with
          | nil => cases h
          | cons t tokens =>
            obtain ⟨ht, hrest⟩ := List.cons.inj h
            rw [← Except.ok.inj ht, List.map_eq_nil_iff.1 hrest.symm]
        exact .endOfInput hnone
      · intro h
        cases h with
        | endOfInput => rfl
        | token hscan hne _ =>
          rw [hnone] at hscan
          cases hscan
          exact absurd rfl hne
    | false =>
      have hsome : k.rest.drop (blankLength false k.rest) ≠ [] := fun hnone => by
        rw [isEnd_read.2 hnone] at hend
        cases hend
      have hshort := length_read_lt hend
      have hleft : k.read.next.rest.length < steps := by omega
      rw [if_neg Bool.false_ne_true, List.map_cons]
      constructor
      · intro h
        cases tokens with
        | nil => cases h
        | cons t tokens =>
          obtain ⟨ht, hrest⟩ := List.cons.inj h
          have hscan := map_result_read.1 ht
          refine .token (Scan.eq_token_iff.1 hscan) (Scan.ofText_ne_end hsome hscan).2 ?_
          rw [← rest_read]
          exact (ih hleft).1 hrest
      · intro h
        cases h with
        | endOfInput hnone => exact absurd hnone hsome
        | @token _ n t tokens hscan _ hrest =>
          have hrest' : HasTokens k.read.next.rest tokens := by
            rw [rest_read, hscan]
            exact hrest
          have hresult : k.read.result.map Prod.snd = .ok t := by
            rw [map_result_read, hscan]
            rfl
          rw [(ih hleft).2 hrest', hresult]
          rfl

/-- **What the reader finds in a text without faults are the tokens of its characters.** -/
theorem lexed_iff {text : String} {tokens : List Token} :
    Lexed text tokens ↔ HasTokens text.toList tokens :=
  Cursor.readAll_iff (Nat.lt_succ_self _)

/-! ## The tokens that are left -/

namespace Parser

/-- The tokens at the front of the lexemes, up to the first fault. -/
def readable : List Lexeme → List Token
  | [] => []
  | l :: rest =>
    match l.result with
    | .ok (_, token) => token :: readable rest
    | .error _ => []

theorem length_readable_le (lexemes : List Lexeme) : (readable lexemes).length ≤ lexemes.length := by
  induction lexemes with
  | nil => exact Nat.le_refl _
  | cons l rest ih =>
    simp only [readable]
    split
    · exact Nat.succ_le_succ ih
    · exact Nat.zero_le _

theorem readable_of_map_eq {lexemes : List Lexeme} {tokens : List Token}
    (h : lexemes.map (fun l => l.result.map Prod.snd) = tokens.map Except.ok) :
    readable lexemes = tokens := by
  induction lexemes generalizing tokens with
  | nil =>
    cases tokens with
    | nil => rfl
    | cons t tokens => cases h
  | cons l rest ih =>
    cases tokens with
    | nil => cases h
    | cons t tokens =>
      obtain ⟨hl, hrest⟩ := List.cons.inj h
      simp only at hl
      unfold readable
      cases hresult : l.result with
      | error e =>
        rw [hresult] at hl
        cases hl
      | ok x =>
        rw [hresult] at hl
        rw [ih hrest, ← Except.ok.inj hl]

/-- The current token and those after it, up to the first fault. -/
def State.tokens (s : State) : List Token := s.current :: readable s.rest

theorem State.current_of_tokens {s : State} {t : Token} {rest : List Token}
    (h : s.tokens = t :: rest) : s.current = t := (List.cons.inj h).1

theorem State.length_tokens_le (s : State) : s.tokens.length ≤ s.rest.length + 1 :=
  Nat.succ_le_succ (length_readable_le _)

/-- Going on to the next token takes the current one off. -/
theorem advance_of_tokens {s : State} {t u : Token} {rest : List Token}
    (h : s.tokens = t :: u :: rest) :
    ∃ s', advance s = .ok () s' ∧ s'.tokens = u :: rest ∧ s'.checks = s.checks := by
  obtain ⟨current, position, lexemes, checks⟩ := s
  have hrest := (List.cons.inj h).2
  cases lexemes with
  | nil => cases hrest
  | cons l lexemes =>
    obtain ⟨result, next⟩ := l
    cases result with
    | error e => cases hrest
    | ok found => exact ⟨⟨found.2, found.1, lexemes, checks⟩, rfl, hrest, rfl⟩

/-! ## What holds of every state -/

/-- The end of the text is the last thing that is read, and the current token where nothing is left. All
tokens are as the text can have them. -/
structure State.Proper (s : State) : Prop where
  lexical : s.current.Lexical
  rest_lexical : ∀ l ∈ s.rest, ∀ x, l.result = .ok x → x.2.Lexical
  ended : s.rest = [] ↔ s.current = .endOfInput
  rest_ends : s.rest ≠ [] → EndsOnce s.rest

theorem State.Proper.lexical_tokens {s : State} (h : s.Proper) : ∀ t ∈ s.tokens, t.Lexical := by
  have hreadable : ∀ lexemes : List Lexeme, (∀ l ∈ lexemes, ∀ x, l.result = .ok x → x.2.Lexical) →
      ∀ t ∈ readable lexemes, t.Lexical := by
    intro lexemes hall
    induction lexemes with
    | nil => simp [readable]
    | cons l rest ih =>
      simp only [readable]
      split
      · rename_i position token hl
        refine List.forall_mem_cons.2 ⟨hall l List.mem_cons_self _ hl, ih fun m hm => ?_⟩
        exact hall m (List.mem_cons_of_mem _ hm)
      · simp
  exact List.forall_mem_cons.2 ⟨h.lexical, hreadable s.rest h.rest_lexical⟩

/-- The state that a rule leaves behind, whether it succeeds or not. -/
def after {α : Type} (p : Parser α) (s : State) : State :=
  match p s with
  | .ok _ t => t
  | .error _ t => t

/-- The rule keeps a property of states, also where it fails. -/
def Keeps {α : Type} (I : State → Prop) (p : Parser α) : Prop := ∀ s, I s → I (p.after s)

theorem Keeps.of_ok {α : Type} {I : State → Prop} {p : Parser α} (h : Keeps I p) {s t : State} {a : α}
    (hs : I s) (hp : p s = .ok a t) : I t := by
  have := h s hs
  unfold after at this
  rwa [hp] at this

/-- A property of states that going on to the next token keeps and that does not depend on the checks. -/
structure Steady (I : State → Prop) : Prop where
  advance : Keeps I Parser.advance
  checks : ∀ s checks, I s → I { s with checks := checks }

end Parser

end Conformance
