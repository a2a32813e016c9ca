import Conformance.Proofs.Composition
import Conformance.Proofs.DrawnLines
import Conformance.Proofs.Located

/-!
# What errors underline

An error carries a place and a stretch of the text, and a report underlines the stretch. All positions in errors are
those of tokens or of faults in place of tokens, whichever rule fails and whichever check. Their stretches hold the
place that they name, on boundaries between characters, but for the end of the text: its stretch is the empty one at
the beginning.

* `Position.Underlines` — the stretch of a position holds its place.
* `Parser.State.Placed` — all positions in a state are those of tokens; `Parser.Places.composes` says that rules keep
  it and fail at such positions.
* `ParseError.IsFrom` — where the position of an error is from (`ParseError.IsFrom.of_schema`,
  `ParseError.IsFrom.of_suite`).
* `errors_underline` — what the errors of a text underline, and where reports say that they are.
-/

set_option autoImplicit false

namespace Conformance

/-! ## Stretches -/

/-- The number of bytes is on a boundary between characters of the text, or at one of its ends. -/
def OnBoundary (text : List Char) (byte : Nat) : Prop := ∃ n ≤ text.length, byte = byteCount (text.take n)

/-- The stretch of a position is within the text, between boundaries of characters, and holds the place. -/
structure Position.Underlines (text : List Char) (p : Position) : Prop where
  start_le : p.start ≤ p.index
  le_stop : p.index ≤ p.stop
  start_boundary : OnBoundary text p.start
  stop_boundary : OnBoundary text p.stop

theorem OnBoundary.of_append {before after : List Char} : OnBoundary (before ++ after) (byteCount before) :=
  ⟨before.length, by rw [List.length_append]; omega, by rw [List.take_left]⟩

theorem OnInterval.boundaries {text part after : List Char} {start stop : Nat}
    (h : OnInterval text start stop part after) : OnBoundary text start ∧ OnBoundary text stop := by
  obtain ⟨before, rfl, rfl, rfl⟩ := h
  refine ⟨?_, .of_append⟩
  rw [List.append_assoc]
  exact .of_append

/-! ## Faults show on the line of their token -/

namespace Scan

/-- No line ends with a line feed between the beginning of what is scanned and where a fault shows. -/
def OnOneLine {α : Type} (result : Except ScanFault α) (input : List Char) : Prop :=
  ∀ e, result = .error e → '\n' ∉ input.take e.offset

theorem name_onOneLine (input : List Char) : OnOneLine (name input).result input := by
  intro e he
  unfold name at he
  simp only at he
  split at he
  · cases he
  · cases he
    intro hmem
    have htake := List.prefix_iff_eq_take.1 (List.takeWhile_prefix (l := input) Name.isPart)
    rw [← htake] at hmem
    cases List.all_eq_true.1 List.all_takeWhile _ hmem
  · cases he

/-- Faults of numbers show at their first character. -/
theorem number_onOneLine (input : List Char) : OnOneLine (number input).result input := by
  intro e he
  unfold number at he
  simp only at he
  cases htoken : (NumberParts.ofText input).token with
  | ok t =>
    rw [htoken] at he
    cases he
  | error f =>
    rw [htoken] at he
    cases he
    exact List.not_mem_nil

theorem Quotation.onOneLine_after {q : Quotation} {body run : List Char} (c : Char) (hrun : '\n' ∉ run)
    (h : OnOneLine q.result body) : OnOneLine (q.after run.length c).result (run ++ body) := by
  intro e he
  obtain ⟨length, result⟩ := q
  cases result with
  | ok content => cases he
  | error e' =>
    cases he
    change '\n' ∉ (run ++ body).take (e'.offset + run.length)
    rw [Nat.add_comm, List.take_length_add_append, List.mem_append]
    exact fun hmem => hmem.elim hrun (h e' rfl)

/-- A text in quotes goes on as long as its line does, and no escape has a line feed in it. -/
theorem quotation_onOneLine (body : List Char) : OnOneLine (quotation body).result body := by
  induction body using quotation.induct with
  | case1 =>
    intro e he
    cases he
    exact List.not_mem_nil
  | case2 tail =>
    intro e he
    cases he
  | case3 =>
    intro e he
    cases he
    decide
  | case4 d tail c hd ih =>
    rw [quotation_escaped hd]
    refine Quotation.onOneLine_after c (?_ : '\n' ∉ ['\\', d]) ih
    intro hmem
    rcases List.mem_cons.1 hmem with hd' | hmem
    · cases hd'
    · rw [← List.mem_singleton.1 hmem] at hd
      cases hd
  | case5 d tail hnone =>
    rw [quotation, hnone]
    intro e he
    cases he
    intro hmem
    cases List.mem_singleton.1 hmem
  | case6 c tail hquote hback hback' hline =>
    rw [quotation_lineEnd hline]
    intro e he
    cases he
    exact List.not_mem_nil
  | case7 c tail hquote hback hback' hline ih =>
    rw [quotation_plain hquote (ne_backslash hback hback') hline]
    refine Quotation.onOneLine_after c (?_ : '\n' ∉ [c]) ih
    intro hmem
    exact hline (.inl (List.mem_singleton.1 hmem).symm)

theorem text_onOneLine (body : List Char) : OnOneLine (text body).result ('"' :: body) := by
  intro e he
  unfold text at he
  simp only at he
  split at he
  · cases he
  · rename_i e' hquotation
    cases he
    intro hmem
    rcases List.mem_cons.1 hmem with hquote | hmem
    · cases hquote
    · exact quotation_onOneLine body e' hquotation hmem

/-- **A fault shows on the line on which its token begins.** -/
theorem ofText_onOneLine (input : List Char) : OnOneLine (ofText input).result input := by
  cases hsymbol : symbol? input with
  | some s =>
    obtain ⟨tail, rfl⟩ := symbol?_eq_some hsymbol
    rw [ofText_symbol]
    intro e he
    cases he
  | none =>
    cases input with
    | nil =>
      intro e he
      cases he
    | cons c tail =>
      by_cases hquote : c = '"'
      · subst hquote
        exact text_onOneLine tail
      rw [ofText_cons hsymbol hquote]
      split
      · exact name_onOneLine _
      split
      · exact number_onOneLine _
      · intro e he
        cases he
        exact List.not_mem_nil

end Scan

/-! ## Positions of what is read -/

/-- The position is that of a token of the text. -/
def TokenAt (text : List Char) (p : Position) : Prop := ∃ l ∈ lexemes text, ∃ t, l.result = .ok (p, t)

/-- The position of an error is that of a token, or the error is the fault in place of one. -/
def ParseError.IsFrom (text : List Char) : ParseError → Prop
  | .lexical e => ∃ l ∈ lexemes text, l.result = .error e
  | .structural _ _ p => TokenAt text p

/-- The error is at the end of the text, where a token is missing. -/
def ParseError.AtEnd (text : List Char) : ParseError → Prop
  | .lexical _ => False
  | .structural _ _ p => p.index = byteCount text

section Read

variable {text : List Char} {p : Position}

theorem exists_lexemeAt {l : Lexeme} (h : l ∈ lexemes text) : ∃ n, l = lexemeAt text n := by
  obtain ⟨last, -, -, hlexemes⟩ := (readThrough text).ends
  rw [hlexemes] at h
  obtain ⟨n, -, rfl⟩ := List.mem_map.1 h
  exact ⟨n, rfl⟩

/-- The end of the text has the empty stretch at the beginning. -/
theorem Cursor.stretch_of_end {k : Cursor} (h : k.read.result = .ok (p, .endOfInput)) : p.start = 0 ∧ p.stop = 0 := by
  unfold read at h
  simp only at h
  split at h
  · cases h
    exact ⟨rfl, rfl⟩
  · rename_i token hne _
    cases h
    exact absurd rfl hne
  · cases h

/-- A token begins where its position says and has its characters for its stretch, unless it is the end of the
text. -/
theorem TokenAt.stretch (h : TokenAt text p) : p.toPlace.CountedIn text ∧
    (p.start = p.index ∧ p.start < p.stop ∧ (∃ part after, OnInterval text p.start p.stop part after) ∨
      p.start = 0 ∧ p.stop = 0 ∧ p.index = byteCount text) := by
  obtain ⟨l, hl, t, hresult⟩ := h
  obtain ⟨n, rfl⟩ := exists_lexemeAt hl
  refine ⟨(places_countedIn text n).2.2.1 p t hresult, ?_⟩
  by_cases ht : t = .endOfInput
  · subst ht
    obtain ⟨hstart, hstop⟩ := Cursor.stretch_of_end hresult
    exact .inr ⟨hstart, hstop, ((readThrough text).ended n p hresult).2⟩
  · exact .inl ((readThrough text).token n p t hresult ht)

/-- A fault has the characters that were taken for its stretch, and shows on the line where they begin. -/
theorem fault_stretch {l : Lexeme} {e : LexicalError} (hl : l ∈ lexemes text) (h : l.result = .error e) :
    e.position.toPlace.CountedIn text ∧ e.position.Underlines text ∧
      ∃ part after, OnInterval text e.position.start e.position.index part after ∧ '\n' ∉ part := by
  obtain ⟨n, rfl⟩ := exists_lexemeAt hl
  obtain ⟨⟨part, after, htaken⟩, hstart, hstop⟩ := (readThrough text).fault n e h
  refine ⟨(places_countedIn text n).2.2.2.1 e h, ?_, ?_⟩
  · have hle : e.position.index ≤ e.position.stop := hstop.elim Nat.le_of_lt fun heq => Nat.le_of_eq heq.1
    exact ⟨hstart, hle, htaken.boundaries.1, htaken.boundaries.2⟩
  · obtain ⟨fault, hfault, hposition⟩ := Cursor.position_of_fault h
    have hbefore := ((readThrough text).standsIn n).start.interval fault.offset
    rw [hposition]
    exact ⟨_, _, hbefore, Scan.ofText_onOneLine _ fault hfault⟩

variable {e : ParseError}

/-- **Just the errors at the end of a text with characters do not underline what they name.** -/
theorem ParseError.IsFrom.underlines_iff (h : e.IsFrom text) :
    e.position.Underlines text ↔ ¬ (e.AtEnd text ∧ text ≠ []) := by
  cases e with
  | lexical e =>
    obtain ⟨l, hl, hresult⟩ := h
    exact iff_of_true (fault_stretch hl hresult).2.1 fun hend => hend.1
  | structural fault detail? p =>
    change p.Underlines text ↔ ¬ (p.index = byteCount text ∧ text ≠ [])
    rcases (TokenAt.stretch h).2 with ⟨hstart, hlt, part, after, hpart⟩ | ⟨hstart, hstop, hindex⟩
    · refine iff_of_true ⟨Nat.le_of_eq hstart, by omega, hpart.boundaries.1, hpart.boundaries.2⟩ ?_
      rintro ⟨hend, -⟩
      -- The stretch goes on behind the place, which is not the end therefore.
      obtain ⟨before, htext, -, hstop⟩ := hpart
      rw [htext, byteCount_append] at hend
      omega
    · have hzero : OnBoundary text 0 := ⟨0, Nat.zero_le _, rfl⟩
      constructor
      · rintro hunder ⟨-, hne⟩
        have hpos := byteCount_pos hne
        have hle := hunder.le_stop
        omega
      · intro hnot
        have hnil : text = [] := Classical.not_not.1 fun hne => hnot ⟨hindex, hne⟩
        have hempty : byteCount text = 0 := by rw [hnil]; rfl
        exact ⟨by omega, by omega, hstart ▸ hzero, hstop ▸ hzero⟩

/-- The stretch of an error at the end of the text is the empty one at the beginning. -/
theorem ParseError.IsFrom.stretch_of_atEnd (h : e.IsFrom text) (hend : e.AtEnd text) :
    e.position.start = 0 ∧ e.position.stop = 0 := by
  cases e with
  | lexical e => exact hend.elim
  | structural fault detail? p =>
    rcases (TokenAt.stretch h).2 with ⟨hstart, hlt, part, after, hpart⟩ | ⟨hstart, hstop, -⟩
    · obtain ⟨before, htext, -, hstop⟩ := hpart
      change p.index = byteCount text at hend
      rw [htext, byteCount_append] at hend
      omega
    · exact ⟨hstart, hstop⟩

/-- Where an error underlines what it names, its stretch begins before that on the same line, and at it unless a token
has a fault. -/
theorem ParseError.IsFrom.on_one_line (h : e.IsFrom text) (hunder : e.position.Underlines text) :
    e.position.toPlace.CountedIn text ∧
      (∃ part after, OnInterval text e.position.start e.position.index part after ∧ '\n' ∉ part) ∧
      ((∃ cause, e = .lexical cause) ∨ e.position.start = e.position.index) := by
  cases e with
  | lexical e =>
    obtain ⟨l, hl, hresult⟩ := h
    obtain ⟨hcounted, -, hline⟩ := fault_stretch hl hresult
    exact ⟨hcounted, hline, .inl ⟨e, rfl⟩⟩
  | structural fault detail? p =>
    obtain ⟨hcounted, hstretch⟩ := TokenAt.stretch h
    have hstart : p.start = p.index := by
      rcases hstretch with ⟨hstart, -⟩ | ⟨hstart, hstop, -⟩
      · exact hstart
      · have hle : p.index ≤ p.stop := hunder.le_stop
        omega
    obtain ⟨n, hn, hindex⟩ := hcounted.boundary
    refine ⟨hcounted, ⟨[], text.drop n, ⟨text.take n, ?_, ?_, ?_⟩, List.not_mem_nil⟩, .inr hstart⟩
    · rw [List.append_nil, List.take_append_drop]
    · exact hstart.trans hindex
    · rw [List.append_nil]
      exact hindex

end Read

/-! ## Positions in errors of checks -/

section Checks

variable {P : Position → Prop} {definitions : Definitions} {maxDepth : Nat} {e : ParseError}

/-- A check finds fault at a position that it carries. -/
theorem Check.run_error_placed {check : Check} (hcheck : check.PlacedIn P)
    (h : check.run definitions maxDepth = .error e) : ∃ fault detail? p, e = .structural fault detail? p ∧ P p := by
  cases check with
  | reference name position => cases h
  | selector discriminant found =>
    obtain ⟨x, hx, herror⟩ := forM_error h
    have hplace : P x.1 := hcheck x hx
    unfold checkAlternative at herror
    split at herror
    · cases herror
      exact ⟨_, _, _, rfl, hplace⟩
    split at herror
    · cases herror
    split at herror
    · cases herror
      exact ⟨_, _, _, rfl, hplace⟩
    split at herror
    · cases herror
      exact ⟨_, _, _, rfl, hplace⟩
    · cases herror
  | default node v position =>
    rw [run, checkDefault] at h
    split at h
    · cases h
      exact ⟨_, _, _, rfl, hcheck⟩
    · cases h

/-- All that is reported at the end is reported at positions that checks and definitions carry. -/
theorem resolve_error_placed {positions : Entries Position} {checks : List Check} (hpositions : ∀ x ∈ positions, P x.2)
    (hchecks : ∀ check ∈ checks, check.PlacedIn P) (h : resolve definitions positions maxDepth checks = .error e) :
    ∃ fault detail? p, e = .structural fault detail? p ∧ P p := by
  unfold resolve at h
  cases hnames : checkNames definitions checks with
  | error e' =>
    rw [hnames] at h
    cases h
    unfold checkNames at hnames
    split at hnames
    · cases hnames
    · rename_i name position more hundefined
      cases hnames
      obtain ⟨check, hcheck, hname⟩ := List.mem_filterMap.1 (hundefined ▸ List.mem_cons_self)
      have hplace := hchecks check hcheck
      cases check with
      | reference used place =>
        simp only [Check.undefinedName?] at hname
        split at hname
        · cases hname
        · cases hname
          exact ⟨_, _, _, rfl, hplace⟩
      | selector discriminant found => cases hname
      | default node v place => cases hname
  | ok _ =>
    rw [hnames] at h
    cases hcycles : checkCycles definitions positions with
    | error e' =>
      change (checkCycles definitions positions >>= fun _ => checks.forM (Check.run definitions maxDepth)) = _ at h
      rw [hcycles] at h
      cases h
      unfold checkCycles at hcycles
      split at hcycles
      · cases hcycles
      · rename_i name position hfound
        cases hcycles
        exact ⟨_, _, _, rfl, hpositions _ (List.mem_of_find?_eq_some hfound)⟩
    | ok _ =>
      change (checkCycles definitions positions >>= fun _ => checks.forM (Check.run definitions maxDepth)) = _ at h
      rw [hcycles] at h
      obtain ⟨check, hcheck, herror⟩ := forM_error h
      exact Check.run_error_placed (hchecks check hcheck) herror

end Checks

/-! ## Positions in errors of rules -/

namespace Parser

variable {α : Type} {text : List Char}

/-- All positions in a state, also those of the checks that are noted down, are those of tokens of the text, and what
is left of the text was read from it. -/
structure State.Placed (text : List Char) (s : State) : Prop where
  position : TokenAt text s.position
  rest : ∀ l ∈ s.rest, l ∈ lexemes text
  checks : ∀ check ∈ s.checks, check.PlacedIn (TokenAt text)

/-- The rule leads to such a state with a result as required, or its error is from the text. -/
structure Places (text : List Char) (p : Parser α) (Q : α → Prop) : Prop where
  ok : ∀ s a t, s.Placed text → p s = .ok a t → t.Placed text ∧ Q a
  error : ∀ s e t, s.Placed text → p s = .error e t → e.IsFrom text

theorem advance_places : Places text advance fun _ => True := by
  constructor
  · intro s a t hs h
    obtain ⟨current, position, rest, checks⟩ := s
    cases rest with
    | nil =>
      cases h
      exact ⟨hs, trivial⟩
    | cons l rest =>
      obtain ⟨result, next⟩ := l
      cases result with
      | error e => cases h
      | ok found =>
        cases h
        have hposition : TokenAt text found.1 := ⟨_, hs.rest _ List.mem_cons_self, found.2, rfl⟩
        exact ⟨⟨hposition, fun m hm => hs.rest m (List.mem_cons_of_mem _ hm), hs.checks⟩, trivial⟩
  · intro s e t hs h
    obtain ⟨current, position, rest, checks⟩ := s
    cases rest with
    | nil => cases h
    | cons l rest =>
      obtain ⟨result, next⟩ := l
      cases result with
      | error e' =>
        cases h
        exact ⟨_, hs.rest _ List.mem_cons_self, rfl⟩
      | ok found => cases h

/-- Each step goes from tokens of the text to tokens of the text, and so do steps one after the other. -/
theorem Places.composes : Composes (TokenAt text) fun _ p Q => Places text p Q where
  pure a ha := by
    refine ⟨fun s b t hs h => ?_, fun s e t hs h => ?_⟩
    · cases h
      exact ⟨hs, ha⟩
    · cases h
  bind {_ _ p f _ _} hp hf := by
    constructor
    · intro s b u hs h
      obtain ⟨a, t, ha, hb⟩ := bind_ok h
      obtain ⟨ht, hQ⟩ := hp.ok s a t hs ha
      exact (hf a hQ).ok t b u ht hb
    · intro s e u hs h
      cases hfirst : p s with
      | error e' t =>
        rw [bind_of_error hfirst] at h
        cases h
        exact hp.error s e u hs hfirst
      | ok a t =>
        rw [bind_of_ok hfirst] at h
        obtain ⟨ht, hQ⟩ := hp.ok s a t hs hfirst
        exact (hf a hQ).error t e u ht h
  failAt fault detail? hplace := by
    refine ⟨fun s a t _ h => ?_, fun s e t _ h => ?_⟩
    · cases h
    · cases h
      exact hplace
  current := by
    refine ⟨fun s a t hs h => ?_, fun s e t _ h => ?_⟩ <;> cases h
    exact ⟨hs, trivial⟩
  position := by
    refine ⟨fun s a t hs h => ?_, fun s e t _ h => ?_⟩ <;> cases h
    exact ⟨hs, hs.position⟩
  listBound := by
    refine ⟨fun s a t hs h => ?_, fun s e t _ h => ?_⟩ <;> cases h
    exact ⟨hs, trivial⟩
  advance := advance_places
  note {check} hcheck := by
    refine ⟨fun s a t hs h => ?_, fun s e t _ h => ?_⟩ <;> cases h
    refine ⟨⟨hs.position, hs.rest, fun other hother => ?_⟩, trivial⟩
    rcases List.mem_append.1 hother with hother | hother
    · exact hs.checks other hother
    · exact List.mem_singleton.1 hother ▸ hcheck

theorem resolveAll_places {definitions : Definitions} {positions : Entries Position} {maxDepth : Nat}
    (hpositions : ∀ x ∈ positions, TokenAt text x.2) :
    Places text (resolveAll definitions positions maxDepth) fun _ => True := by
  constructor
  · intro s a t hs h
    rw [resolveAll_eq] at h
    split at h
    · cases h
      exact ⟨⟨hs.position, hs.rest, List.forall_mem_nil _⟩, trivial⟩
    · cases h
  · intro s e t hs h
    rw [resolveAll_eq] at h
    split at h
    · cases h
    · rename_i error herror
      cases h
      obtain ⟨fault, detail?, p, rfl, hplace⟩ := resolve_error_placed hpositions hs.checks herror
      exact hplace

/-- The first token is one of the text. -/
theorem start_placed {text : String} {s : State} (h : start text = .ok s) : s.Placed text.toList := by
  obtain ⟨next, hlexemes⟩ := lexemes_of_start h
  refine ⟨⟨_, hlexemes ▸ List.mem_cons_self, s.current, rfl⟩, fun l hl => ?_, ?_⟩
  · rw [hlexemes]
    exact List.mem_cons_of_mem _ hl
  · rw [start_checks h]
    exact List.forall_mem_nil _

/-- The error of a text that does not begin is from the text. -/
theorem start_error {text : String} {e : ParseError} (h : start text = .error e) : e.IsFrom text.toList := by
  unfold start at h
  split at h
  · cases h
  · rename_i e' t hadvance
    cases h
    cases hlexemes : lexemes text.toList with
    | nil =>
      rw [hlexemes] at hadvance
      cases hadvance
    | cons l rest =>
      obtain ⟨result, next⟩ := l
      rw [hlexemes] at hadvance
      cases result with
      | ok found => cases hadvance
      | error cause =>
        cases hadvance
        exact ⟨_, hlexemes ▸ List.mem_cons_self, rfl⟩

theorem run_error_isFrom {p : Parser α} {text : String} {e : ParseError} (hp : Places text.toList p fun _ => True)
    (h : p.run text = .error e) : e.IsFrom text.toList := by
  cases hstart : start text with
  | error e' =>
    unfold run at h
    rw [hstart] at h
    cases h
    exact start_error hstart
  | ok s =>
    rw [run_of_start hstart] at h
    cases hrun : p s with
    | ok a t =>
      rw [hrun] at h
      cases h
    | error e' t =>
      rw [hrun] at h
      cases h
      exact hp.error s e t (start_placed hstart) hrun

end Parser

namespace ParseError.IsFrom

variable {text : String} {maxDepth : Nat} {e : ParseError}

/-- Whatever goes wrong with a text as a schema is at one of its tokens or a fault in place of one. -/
theorem of_schema (h : Schema.ofText text maxDepth = .error e) : e.IsFrom text.toList :=
  Parser.run_error_isFrom (Parser.Places.composes.schema fun _ _ h => Parser.resolveAll_places h) h

/-- Whatever goes wrong with a text as a suite is at one of its tokens or a fault in place of one. -/
theorem of_suite (h : Suite.ofText text maxDepth = .error e) : e.IsFrom text.toList :=
  Parser.run_error_isFrom (Parser.Places.composes.suite fun _ _ h => Parser.resolveAll_places h) h

end ParseError.IsFrom

/-! ## Reports -/

/-- The report says that its stretch begins in a line and a column. -/
def PointsAt (report : String) (line column : Nat) : Prop :=
  ∃ before after, report.toList = before ++ " ┌─ input:".toList ++ Digits.ofNat line ++ ':' :: Digits.ofNat column ++
    '\n' :: after

/-- A report says where the stretch of the error begins, by the line that it draws first. -/
theorem ParseError.report_pointsAt (e : ParseError) (text : String) :
    PointsAt (e.report text) (lineAt text.toList e.position.start).number
      ((lineAt text.toList e.position.start).columnOf
        (e.position.start - (lineAt text.toList e.position.start).start)) := by
  have hrender : ∀ title label start stop,
      PointsAt (Report.render title label text.toList start stop) (lineAt text.toList start).number
        ((lineAt text.toList start).columnOf (start - (lineAt text.toList start).start)) := by
    intro title label start stop
    obtain ⟨width, rows, hreport⟩ : ∃ width rows, Report.render title label text.toList start stop =
        String.ofList ("error: ".toList ++ title.toList ++ '\n' :: List.replicate width ' ' ++
          " ┌─ input:".toList ++ (Digits.ofNat (lineAt text.toList start).number ++
            ':' :: Digits.ofNat ((lineAt text.toList start).columnOf (start - (lineAt text.toList start).start))) ++
          '\n' :: rows ++ ['\n']) :=
      ⟨_, _, rfl⟩
    refine ⟨"error: ".toList ++ title.toList ++ '\n' :: List.replicate width ' ', rows ++ ['\n'], ?_⟩
    rw [hreport, String.toList_ofList]
    simp only [List.append_assoc, List.cons_append]
  cases e with
  | lexical cause => exact hrender _ _ _ _
  | structural fault detail? p => exact hrender _ _ _ _

/-- **What errors underline.** Whatever goes wrong with a text as a schema or a suite, while reading tokens, in its
structure or in the checks at the end: the stretch of the error is within the text, between boundaries of characters,
and holds the place that the error names, just if the error is not at the end of a text that has characters. There
the stretch is the empty one at the beginning. Where it holds the place, and no line of the text ends with a carriage
return alone, the report draws the line that the error names, with the place in the column that it names, and says
that the stretch begins in that line and column, or before it where a token has a fault. -/
theorem errors_underline {text : String} {maxDepth : Nat} {e : ParseError}
    (h : Schema.ofText text maxDepth = .error e ∨ Suite.ofText text maxDepth = .error e) :
    (e.position.Underlines text.toList ↔ ¬ (e.AtEnd text.toList ∧ text.toList ≠ [])) ∧
    (e.AtEnd text.toList → e.position.start = 0 ∧ e.position.stop = 0) ∧
    (e.position.Underlines text.toList → ReturnsBeforeFeeds text.toList →
      ∃ line, lineAt text.toList e.position.start = line ∧ line.number = e.position.line ∧
        line.columnOf (e.position.index - line.start) = e.position.column ∧
        ∃ column, PointsAt (e.report text) e.position.line column ∧ column ≤ e.position.column ∧
          ((∃ cause, e = .lexical cause) ∨ column = e.position.column)) := by
  have hfrom : e.IsFrom text.toList := h.elim .of_schema .of_suite
  refine ⟨hfrom.underlines_iff, hfrom.stretch_of_atEnd, fun hunder hreturns => ?_⟩
  obtain ⟨hcounted, ⟨part, after, hpart, hline⟩, hbegins⟩ := hfrom.on_one_line hunder
  obtain ⟨hnumber, hcolumn, hfirst⟩ := hcounted.drawn hreturns hpart hline
  have hpoints := e.report_pointsAt text
  rw [hnumber] at hpoints
  refine ⟨_, rfl, hnumber, hcolumn, _, hpoints, Nat.le.intro hfirst, hbegins.imp id fun hstart => ?_⟩
  rw [hstart]
  rw [hstart] at hcolumn
  exact hcolumn

/-- Behind a carriage return alone, an error is in the second line, but on the first one that is drawn. -/
example : Schema.ofText "\rfoo" = .error (.structural .unknownType (some "foo") ⟨⟨2, 1, 1⟩, 1, 4⟩) ∧
    (lineAt "\rfoo".toList 1).number = 1 := ⟨rfl, rfl⟩

/-- A hyphen in a name on the second line: the stretch is the name with the hyphen, and the error names the hyphen. -/
theorem errors_underline_hyphen :
    let e : ParseError := .lexical ⟨.malformed .malformedName, ⟨⟨2, 2, 4⟩, 3, 5⟩⟩
    Schema.ofText "[\r\na-b]" = .error e ∧ e.position.Underlines "[\r\na-b]".toList ∧
      ∃ column, PointsAt (e.report "[\r\na-b]") 2 column ∧ column ≤ 2 := by
  intro e
  have herror : Schema.ofText "[\r\na-b]" = .error e := rfl
  obtain ⟨hunder, -, hdrawn⟩ := errors_underline (.inl herror)
  have hunderlines := hunder.2 fun hend => hend.1
  have hreturns : ReturnsBeforeFeeds "[\r\na-b]".toList := by
    intro i hi
    rcases i with _ | _ | _ | _ | _ | _ | _ | i <;> first | rfl | cases hi
  obtain ⟨line, -, -, -, column, hpoints, hle, -⟩ := hdrawn hunderlines hreturns
  exact ⟨herror, hunderlines, column, hpoints, hle⟩

/-- A bracket that is not closed: the error names the end of the text, but its stretch does not hold it, and the report
says that the error is at the beginning. -/
theorem unclosed_not_underlined :
    let e : ParseError := .structural .expectedCloseBracket none ⟨⟨1, 5, 4⟩, 0, 0⟩
    Schema.ofText "[int" = .error e ∧ ¬ e.position.Underlines "[int".toList ∧ PointsAt (e.report "[int") 1 1 := by
  intro e
  have herror : Schema.ofText "[int" = .error e := rfl
  refine ⟨herror, ?_, e.report_pointsAt "[int"⟩
  intro hunder
  have hle := hunder.le_stop
  exact absurd hle (by decide)

end Conformance
