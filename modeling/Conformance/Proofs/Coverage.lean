import Conformance.Proofs.Joining
import Conformance.Report

/-!
# Reads account for the whole text

Where the reads of a text go, in bytes. Each read passes over blanks and comments, takes the characters of one
token or of a fault, and says in its position which ones they are. Nothing is left out and nothing is taken twice,
whatever characters the text has and however many reads fail.

* `OnInterval` — the part of a text between two numbers of bytes, with what follows it.
* `Spacing` — blanks and comments, as they can stand between two tokens.
* `Scan.ofText_within` — a scan stays in its text, and a fault shows in what the scan takes or at the end of the
  text.
* `Cursor.StandsIn` — a cursor in a text; it stays there with each read (`Cursor.StandsIn.next`).
* `Cursor.StandsIn.spacing`, `Cursor.StandsIn.token`, `Cursor.StandsIn.fault` — what one read passes over, and the
  positions that it gives.
* `cursorAfter`, `lexemeAt` — the reads of a text in their order, as many as one likes.
* `ReadThrough`, `readThrough` — what all reads of a text do together.
-/

set_option autoImplicit false

namespace Conformance

/-! ## Bytes -/

theorem byteCount_eq (characters : List Char) :
    byteCount characters = (characters.map Char.utf8Size).sum := by
  rw [List.sum_eq_foldl, List.foldl_map]
  rfl

theorem byteCount_append (before after : List Char) :
    byteCount (before ++ after) = byteCount before + byteCount after := by
  simp only [byteCount_eq, List.map_append, List.sum_append]

theorem byteCount_cons (c : Char) (rest : List Char) :
    byteCount (c :: rest) = c.utf8Size + byteCount rest := by
  simp only [byteCount_eq, List.map_cons, List.sum_cons]

/-- No character is without bytes. -/
theorem byteCount_pos {characters : List Char} (h : characters ≠ []) : 0 < byteCount characters := by
  cases characters with
  | nil => exact absurd rfl h
  | cons c rest =>
    rw [byteCount_cons]
    exact Nat.add_pos_left c.utf8Size_pos _

/-- The two numbers of bytes are on boundaries between characters of the text. The part between them is given, and
what follows it. -/
def OnInterval (text : List Char) (start stop : Nat) (part after : List Char) : Prop :=
  ∃ before, text = before ++ part ++ after ∧ start = byteCount before ∧ stop = byteCount (before ++ part)

namespace OnInterval

variable {text part after : List Char} {start stop : Nat}

theorem stop_eq (h : OnInterval text start stop part after) : stop = start + byteCount part := by
  obtain ⟨before, -, rfl, rfl⟩ := h
  exact byteCount_append before part

theorem start_le (h : OnInterval text start stop part after) : start ≤ stop :=
  h.stop_eq ▸ Nat.le_add_right _ _

theorem start_lt (h : OnInterval text start stop part after) (hpart : part ≠ []) : start < stop :=
  h.stop_eq ▸ Nat.lt_add_of_pos_right (byteCount_pos hpart)

/-- Where nothing follows, the part goes on to the end of the text. -/
theorem stop_of_nil (h : OnInterval text start stop part []) : stop = byteCount text := by
  obtain ⟨before, rfl, -, rfl⟩ := h
  rw [List.append_nil]

end OnInterval

/-! ## Blanks and comments -/

/-- The character belongs to the line that it is on. -/
def isInner (c : Char) : Bool := c != '\n' && c != '\r'

/-- Blanks and comments in front of a text. A comment begins with a semicolon and goes on as far as the line
does. -/
inductive Spacing (after : List Char) : List Char → Prop where
  | nil : Spacing after []
  | blank {c : Char} {gap : List Char} : isBlank c = true → Spacing after gap → Spacing after (c :: gap)
  | comment {comment gap : List Char} : (∀ c ∈ comment, isInner c = true) → Stops isInner (gap ++ after) →
    Spacing after gap → Spacing after (';' :: comment ++ gap)

/-- The rest of a comment, with what stands between it and the next token. -/
def CommentSpacing (after text : List Char) : Prop :=
  ∃ comment gap, text = comment ++ gap ∧ (∀ c ∈ comment, isInner c = true) ∧
    Stops isInner (gap ++ after) ∧ Spacing after gap

theorem Spacing.semicolon {after text : List Char} (h : CommentSpacing after text) :
    Spacing after (';' :: text) := by
  obtain ⟨comment, gap, rfl, hinner, hstops, hgap⟩ := h
  exact .comment hinner hstops hgap

namespace CommentSpacing

variable {c : Char} {after text : List Char}

/-- A comment goes on with a character of its line. -/
theorem inner (hc : isInner c = true) (h : CommentSpacing after text) : CommentSpacing after (c :: text) := by
  obtain ⟨comment, gap, rfl, hinner, hstops, hgap⟩ := h
  exact ⟨c :: comment, gap, rfl, List.forall_mem_cons.2 ⟨hc, hinner⟩, hstops, hgap⟩

/-- A comment ends where its line does. -/
theorem lineEnd (hc : isInner c = false) (h : Spacing after text) : CommentSpacing after (c :: text) := by
  refine ⟨[], c :: text, rfl, by simp, .cons hc, .blank ?_ h⟩
  simp only [isInner, Bool.and_eq_false_iff, bne_eq_false_iff_eq] at hc
  rcases hc with rfl | rfl <;> decide

end CommentSpacing

/-- **What is passed over in front of a text are blanks and comments**, behind the rest of a comment if it is
passed over from within one. -/
theorem spacing_blankLength (text : List Char) :
    Spacing (text.drop (blankLength false text)) (text.take (blankLength false text)) ∧
      CommentSpacing (text.drop (blankLength true text)) (text.take (blankLength true text)) := by
  induction text with
  | nil => exact ⟨.nil, [], [], rfl, by simp, .nil, .nil⟩
  | cons c rest ih =>
    obtain ⟨hblanks, hcomment⟩ := ih
    constructor
    -- Outside of a comment the character may begin one, be a blank, or end what is passed over.
    · rw [blankLength, if_neg Bool.false_ne_true]
      split
      · rename_i hopens
        subst hopens
        exact .semicolon hcomment
      split
      · rename_i hblank
        exact .blank hblank hblanks
      · exact .nil
    -- Within a comment every character is passed over, and the end of the line counts among the blanks behind it.
    · rw [blankLength, if_pos rfl]
      cases hc : isInner c with
      | true =>
        rw [show (c != '\n' && c != '\r') = true from hc]
        exact hcomment.inner hc
      | false =>
        rw [show (c != '\n' && c != '\r') = false from hc]
        exact .lineEnd hc hblanks

/-! ## Scans -/

namespace Scan

/-- No more characters are taken than the text has. A fault shows in what is taken, or else at the end of the
text. -/
structure Within {α : Type} (length : Nat) (result : Except ScanFault α) (input : List Char) : Prop where
  length_le : length ≤ input.length
  fault : ∀ e, result = .error e → e.offset < length ∨ e.offset = length ∧ length = input.length

namespace Within

variable {α : Type} {n : Nat} {input : List Char}

theorem ok {a : α} (h : n ≤ input.length) : Within n (.ok a) input := ⟨h, nofun⟩

theorem error {e : ScanFault} (h : n ≤ input.length) (hoffset : e.offset < n) :
    Within (α := α) n (.error e) input := by
  refine ⟨h, fun e' he => .inl ?_⟩
  cases he
  exact hoffset

/-- A fault at the end of the text. -/
theorem atEnd {e : ScanFault} (h : n = input.length) (hoffset : e.offset = n) :
    Within (α := α) n (.error e) input := by
  refine ⟨Nat.le_of_eq h, fun e' he => .inr ?_⟩
  cases he
  exact ⟨hoffset, h⟩

end Within

variable {input : List Char}

theorem name_within (input : List Char) : Within (name input).length (name input).result input := by
  have hsplit := congrArg List.length (List.takeWhile_append_dropWhile (p := Name.isPart) (l := input))
  rw [List.length_append] at hsplit
  have hle : (input.takeWhile Name.isPart).length ≤ input.length := hsplit ▸ Nat.le_add_right _ _
  unfold name
  simp only
  split
  · exact .ok hle
  · rename_i htail
    rw [htail, List.length_cons] at hsplit
    have hle' : (input.takeWhile Name.isPart).length + 1 ≤ input.length := by omega
    exact .error hle' (Nat.lt_succ_self _)
  · exact .ok hle

theorem number_within (h : startsNumber input = true) :
    Within (number input).length (number input).result input := by
  have hle : (number input).length ≤ input.length := (NumberParts.characters_isPrefix input).length_le
  cases hresult : (number input).result with
  | ok t => exact .ok hle
  | error e =>
    refine .error hle ?_
    have hzero : e.offset = 0 := by
      change (NumberParts.ofText input).token.mapError _ = _ at hresult
      cases htoken : (NumberParts.ofText input).token with
      | error f =>
        rw [htoken] at hresult
        cases hresult
        rfl
      | ok t =>
        rw [htoken] at hresult
        cases hresult
    rw [hzero]
    exact number_length_pos h

/-- More characters before a quotation change nothing about where it shows its fault. -/
theorem Quotation.within_after {q : Quotation} {body : List Char} (run : List Char) (c : Char)
    (h : Within q.length q.result body) :
    Within (q.after run.length c).length (q.after run.length c).result (run ++ body) := by
  obtain ⟨hle, hoffset⟩ := h
  obtain ⟨length, result⟩ := q
  have hle' : length + run.length ≤ (run ++ body).length := by
    rw [List.length_append, Nat.add_comm]
    exact Nat.add_le_add_left hle _
  cases result with
  | ok content => exact .ok hle'
  | error e =>
    rcases hoffset e rfl with hlt | ⟨heq, hend⟩
    · exact .error hle' (Nat.add_lt_add_right hlt _)
    · have hall : length + run.length = (run ++ body).length := by
        rw [List.length_append, Nat.add_comm]
        exact congrArg (run.length + ·) hend
      exact .atEnd hall (congrArg (· + run.length) heq)

theorem quotation_within (body : List Char) :
    Within (quotation body).length (quotation body).result body := by
  induction body using quotation.induct with
  | case1 => exact .atEnd rfl rfl
  | case2 tail => exact .ok (Nat.succ_le_succ (Nat.zero_le _))
  | case3 => exact .atEnd rfl rfl
  | case4 d tail c hd ih =>
    rw [quotation_escaped hd]
    exact Quotation.within_after ['\\', d] c ih
  | case5 d tail hnone =>
    rw [quotation, hnone]
    exact .error (Nat.succ_le_succ (Nat.succ_le_succ (Nat.zero_le _))) (Nat.lt_succ_self 1)
  | case6 c tail hquote hback hback' hline =>
    rw [quotation_lineEnd hline]
    exact .error (Nat.succ_le_succ (Nat.zero_le _)) Nat.one_pos
  | case7 c tail hquote hback hback' hline ih =>
    rw [quotation_plain hquote (ne_backslash hback hback') hline]
    exact Quotation.within_after [c] c ih

theorem text_within (body : List Char) : Within (text body).length (text body).result ('"' :: body) := by
  obtain ⟨hle, hoffset⟩ := quotation_within body
  unfold text
  simp only
  split
  · exact .ok (Nat.succ_le_succ hle)
  · rename_i e he
    rcases hoffset e he with hlt | ⟨heq, hend⟩
    · exact .error (Nat.succ_le_succ hle) (Nat.succ_lt_succ hlt)
    · exact .atEnd (congrArg Nat.succ hend) (congrArg Nat.succ heq)

/-- **What stands at the front of a text is within the text**, also what makes up no token. -/
theorem ofText_within (input : List Char) :
    Within (ofText input).length (ofText input).result input := by
  cases hsymbol : symbol? input with
  | some s =>
    obtain ⟨tail, rfl⟩ := symbol?_eq_some hsymbol
    rw [ofText_symbol]
    refine .ok ?_
    rw [List.length_append, String.length_toList]
    exact Nat.le_add_right _ _
  | none =>
    cases input with
    | nil => exact .ok (Nat.le_refl _)
    | cons c tail =>
      by_cases hquote : c = '"'
      · subst hquote
        exact text_within tail
      rw [ofText_cons hsymbol hquote]
      split
      · exact name_within _
      split
      · exact number_within ‹_›
      · exact .error (Nat.succ_le_succ (Nat.zero_le _)) Nat.one_pos

end Scan

/-! ## One read -/

namespace Cursor

theorem index_advance (k : Cursor) (n : Nat) :
    (k.advance n).place.index = k.place.index + byteCount (k.rest.take n) := by
  induction n generalizing k with
  | zero => rw [List.take_zero]; rfl
  | succ n ih =>
    obtain ⟨place, rest⟩ := k
    cases rest with
    | nil => rfl
    | cons c rest =>
      have hafter : (place.after c rest.head?).index = place.index + c.utf8Size := by
        unfold Place.after
        split <;> rfl
      rw [advance, ih, List.take_succ_cons, byteCount_cons, hafter, Nat.add_assoc]

theorem advance_add (k : Cursor) (m n : Nat) : k.advance (m + n) = (k.advance m).advance n := by
  induction m generalizing k with
  | zero => rw [Nat.zero_add, advance]
  | succ m ih =>
    obtain ⟨place, rest⟩ := k
    rw [Nat.add_right_comm]
    cases rest with
    | nil =>
      rw [advance, advance]
      cases n <;> rfl
    | cons c rest => exact ih _

/-- Within the text, more characters are more bytes. -/
theorem index_advance_lt {k : Cursor} {m n : Nat} (hmn : m < n) (hn : n ≤ k.rest.length) :
    (k.advance m).place.index < (k.advance n).place.index := by
  obtain ⟨l, rfl⟩ := Nat.exists_eq_add_of_lt hmn
  rw [Nat.add_assoc, advance_add, index_advance (k.advance m), rest_advance]
  refine Nat.lt_add_of_pos_right (byteCount_pos fun hnil => ?_)
  have hlength := congrArg List.length hnil
  rw [List.length_take, List.length_drop, List.length_nil] at hlength
  omega

/-- The cursor stands in the text, behind as many bytes as its index says. -/
def StandsIn (k : Cursor) (text : List Char) : Prop :=
  ∃ before, text = before ++ k.rest ∧ k.place.index = byteCount before

namespace StandsIn

variable {k : Cursor} {text : List Char}

/-- What a cursor goes over is a part of the text between two boundaries. -/
theorem interval (h : k.StandsIn text) (n : Nat) :
    OnInterval text k.place.index (k.advance n).place.index (k.rest.take n) (k.advance n).rest := by
  obtain ⟨before, htext, hindex⟩ := h
  refine ⟨before, ?_, hindex, ?_⟩
  · rw [rest_advance, List.append_assoc, List.take_append_drop, htext]
  · rw [index_advance, hindex, byteCount_append]

theorem advance (h : k.StandsIn text) (n : Nat) : (k.advance n).StandsIn text := by
  obtain ⟨before, htext, -, hindex⟩ := h.interval n
  exact ⟨before ++ k.rest.take n, htext, hindex⟩

end StandsIn

/-- The cursor behind blanks and comments, where what is read begins. -/
def start (k : Cursor) : Cursor := k.advance (blankLength false k.rest)

theorem rest_start (k : Cursor) : k.start.rest = k.rest.drop (blankLength false k.rest) :=
  k.rest_advance _

theorem next_read (k : Cursor) : k.read.next = k.start.advance (Scan.ofText k.start.rest).length := by
  unfold read
  simp only
  split <;> rfl

/-- At the end of the text, and only there, a read takes nothing. -/
theorem take_eq_nil_iff {k : Cursor} :
    k.start.rest.take (Scan.ofText k.start.rest).length = [] ↔ k.read.isEnd = true := by
  rw [isEnd_read, ← rest_start]
  cases hrest : k.start.rest with
  | nil => simp
  | cons c rest =>
    have hpos := Scan.ofText_length_pos (List.cons_ne_nil c rest)
    simp [List.take_eq_nil_iff, Nat.ne_of_gt hpos]

variable {k : Cursor} {p : Position} {t : Token}

theorem isEnd_iff_of_token (h : k.read.result = .ok (p, t)) :
    k.read.isEnd = true ↔ t = .endOfInput := by
  unfold Lexeme.isEnd
  rw [h]
  cases t <;> simp

/-- A read that does not find the end of the text goes on behind some characters. -/
theorem exists_run (h : k.read.isEnd = false) : ∃ run, run ≠ [] ∧ k.rest = run ++ k.read.next.rest := by
  obtain ⟨run, hrun⟩ : k.read.next.rest <:+ k.rest := by
    rw [rest_read]
    exact (List.drop_suffix _ _).trans (List.drop_suffix _ _)
  refine ⟨run, ?_, hrun.symm⟩
  rintro rfl
  have hlt := length_read_lt h
  rw [← hrun, List.nil_append] at hlt
  exact absurd hlt (Nat.lt_irrefl _)

/-- A token is where blanks and comments end, and its position goes on to where the next read begins. -/
theorem position_of_token (h : k.read.result = .ok (p, t)) : p.index = k.start.place.index ∧
    (t ≠ .endOfInput → p.start = p.index ∧ p.stop = k.read.next.place.index) := by
  rw [next_read]
  unfold read at h
  simp only at h
  split at h
  · cases h
    exact ⟨rfl, fun hne => absurd rfl hne⟩
  · cases h
    exact ⟨rfl, fun _ => ⟨rfl, rfl⟩⟩
  · cases h

/-- The position of a fault begins where blanks and comments end and goes on to where the next read begins. -/
theorem position_of_fault {e : LexicalError} (h : k.read.result = .error e) :
    ∃ fault, (Scan.ofText k.start.rest).result = .error fault ∧ e.position =
      ⟨(k.start.advance fault.offset).place, k.start.place.index, k.read.next.place.index⟩ := by
  rw [next_read]
  unfold read at h
  simp only at h
  split at h
  · cases h
  · cases h
  · rename_i fault hfault
    cases h
    exact ⟨fault, hfault, rfl⟩

end Cursor

namespace Cursor.StandsIn

variable {k : Cursor} {text : List Char} {p : Position} {t : Token}

theorem start (h : k.StandsIn text) : k.start.StandsIn text := h.advance _

theorem next (h : k.StandsIn text) : k.read.next.StandsIn text := by
  rw [next_read]
  exact h.start.advance _

/-- What a read takes is a part of the text, and the next read begins behind it. -/
theorem taken (h : k.StandsIn text) : OnInterval text k.start.place.index k.read.next.place.index
    (k.start.rest.take (Scan.ofText k.start.rest).length) k.read.next.rest := by
  rw [next_read]
  exact h.start.interval _

/-- **A read goes on in the text, and all that it passes over are blanks and comments.** -/
theorem spacing (h : k.StandsIn text) : ∃ gap,
    OnInterval text k.place.index k.start.place.index gap k.start.rest ∧ Spacing k.start.rest gap := by
  refine ⟨_, h.interval _, ?_⟩
  rw [rest_start]
  exact (spacing_blankLength k.rest).1

/-- A read that does not find the end of the text takes a character. -/
theorem taken_pos (h : k.StandsIn text) (hmore : k.read.isEnd = false) :
    k.start.place.index < k.read.next.place.index :=
  h.taken.start_lt fun hnil => by
    rw [take_eq_nil_iff.1 hnil] at hmore
    cases hmore

theorem index_le (h : k.StandsIn text) : k.place.index ≤ k.read.next.place.index := by
  obtain ⟨gap, hgap, -⟩ := h.spacing
  exact Nat.le_trans hgap.start_le h.taken.start_le

/-- **The end of the text is found where all of it is read.** -/
theorem ended (h : k.StandsIn text) (hend : k.read.isEnd = true) :
    k.read.next.rest = [] ∧ k.start.place.index = byteCount text := by
  have hnone := isEnd_read.1 hend
  rw [← rest_start] at hnone
  refine ⟨by rw [next_read, rest_advance, hnone, List.drop_nil], ?_⟩
  have hstart := h.interval (blankLength false k.rest)
  rw [← Cursor.start, hnone] at hstart
  exact hstart.stop_of_nil

/-- **The position of a token holds its characters**, of which there is one at least. -/
theorem token (h : k.StandsIn text) (hresult : k.read.result = .ok (p, t)) (ht : t ≠ .endOfInput) :
    p.start = p.index ∧ p.start < p.stop ∧ ∃ part after, OnInterval text p.start p.stop part after := by
  obtain ⟨hindex, hposition⟩ := position_of_token hresult
  obtain ⟨hstart, hstop⟩ := hposition ht
  have hmore : k.read.isEnd = false := by
    rw [Bool.eq_false_iff, ne_eq, isEnd_iff_of_token hresult]
    exact ht
  rw [hstop, hstart, hindex]
  exact ⟨rfl, h.taken_pos hmore, _, _, h.taken⟩

/-- **A fault shows within its position**, or else at the end of the text, where its position ends, too. -/
theorem fault (h : k.StandsIn text) {e : LexicalError} (hresult : k.read.result = .error e) :
    (∃ part after, OnInterval text e.position.start e.position.stop part after) ∧
      e.position.start ≤ e.position.index ∧
      (e.position.index < e.position.stop ∨
        e.position.index = e.position.stop ∧ e.position.stop = byteCount text) := by
  obtain ⟨fault, hfault, hposition⟩ := position_of_fault hresult
  obtain ⟨hle, hoffset⟩ := Scan.ofText_within k.start.rest
  rw [hposition]
  refine ⟨⟨_, _, h.taken⟩, (h.start.interval fault.offset).start_le, ?_⟩
  -- Only a missing quote shows behind what was taken, and then all of the text was.
  rcases hoffset fault hfault with hlt | ⟨heq, hall⟩
  · rw [next_read]
    exact .inl (index_advance_lt hlt hle)
  · have hrest : k.read.next.rest = [] := by rw [next_read, rest_advance, hall, List.drop_length]
    have htaken := h.taken
    rw [hrest] at htaken
    rw [next_read, heq, ← next_read]
    exact .inr ⟨rfl, htaken.stop_of_nil⟩

end Cursor.StandsIn

/-! ## All reads -/

/-- Where the text is read on after some reads, also past faults and past the end of the text. -/
def cursorAfter (text : List Char) : Nat → Cursor
  | 0 => .ofText text
  | n + 1 => (cursorAfter text n).read.next

/-- What is read after so many other reads. -/
def lexemeAt (text : List Char) (n : Nat) : Lexeme := (cursorAfter text n).read

/-- Between two numbers of bytes the text has blanks and comments only. -/
def SpacedBetween (text : List Char) (start stop : Nat) : Prop :=
  ∃ gap after, OnInterval text start stop gap after ∧ Spacing after gap

/-- How the reads of a text, as many as one likes, go through it together. -/
structure ReadThrough (text : List Char) : Prop where
  /-- A read takes a character at least, unless it finds the end of the text. -/
  progress : ∀ n, (lexemeAt text n).isEnd = false →
    ∃ run, run ≠ [] ∧ (cursorAfter text n).rest = run ++ (cursorAfter text (n + 1)).rest
  standsIn : ∀ n, (cursorAfter text n).StandsIn text
  monotone : ∀ m n, m ≤ n → (cursorAfter text m).place.index ≤ (cursorAfter text n).place.index
  /-- The end of the text is found by one read for each of its characters and one more. -/
  ends : ∃ n ≤ text.length, (lexemeAt text n).isEnd = true ∧
    lexemes text = (List.range (n + 1)).map (lexemeAt text)
  ended : ∀ n p, (lexemeAt text n).result = .ok (p, .endOfInput) →
    (cursorAfter text (n + 1)).rest = [] ∧ p.index = byteCount text
  token : ∀ n p t, (lexemeAt text n).result = .ok (p, t) → t ≠ .endOfInput →
    p.start = p.index ∧ p.start < p.stop ∧ ∃ part after, OnInterval text p.start p.stop part after
  apart : ∀ m n p q s t, m < n → (lexemeAt text m).result = .ok (p, s) → s ≠ .endOfInput →
    (lexemeAt text n).result = .ok (q, t) → t ≠ .endOfInput → p.stop ≤ q.start
  before : ∀ q t, (lexemeAt text 0).result = .ok (q, t) → SpacedBetween text 0 q.index
  /-- Between a token and the next one, or the end of the text, where no read between them fails. -/
  between : ∀ n p q s t, (lexemeAt text n).result = .ok (p, s) → s ≠ .endOfInput →
    (lexemeAt text (n + 1)).result = .ok (q, t) → SpacedBetween text p.stop q.index
  /-- A fault shows where its position ends only if the text ends there. -/
  fault : ∀ n e, (lexemeAt text n).result = .error e →
    (∃ part after, OnInterval text e.position.start e.position.stop part after) ∧
      e.position.start ≤ e.position.index ∧
      (e.position.index < e.position.stop ∨
        e.position.index = e.position.stop ∧ e.position.stop = byteCount text)

section Run

variable {text : List Char}

/-- The text is read on within it, whatever was read before. -/
theorem cursorAfter_standsIn (text : List Char) (n : Nat) : (cursorAfter text n).StandsIn text := by
  induction n with
  | zero => exact ⟨[], rfl, rfl⟩
  | succ n ih => exact ih.next

theorem index_cursorAfter_mono {m n : Nat} (h : m ≤ n) :
    (cursorAfter text m).place.index ≤ (cursorAfter text n).place.index := by
  induction h with
  | refl => exact Nat.le_refl _
  | step _ ih => exact Nat.le_trans ih (cursorAfter_standsIn text _).index_le

/-- What is read up to the end of the text are the reads that follow one another. -/
theorem readAll_eq_range {steps n : Nat} (h : (cursorAfter text n).rest.length < steps) :
    ∃ m ≤ (cursorAfter text n).rest.length, (lexemeAt text (n + m)).isEnd = true ∧
      Cursor.readAll steps (cursorAfter text n) = (List.range' n (m + 1)).map (lexemeAt text) := by
  induction steps generalizing n with
  | zero => exact absurd h (Nat.not_lt_zero _)
  | succ steps ih =>
    rw [Cursor.readAll]
    cases hend : (cursorAfter text n).read.isEnd with
    | true => exact ⟨0, Nat.zero_le _, hend, rfl⟩
    | false =>
      have hlt : (cursorAfter text (n + 1)).rest.length < (cursorAfter text n).rest.length :=
        Cursor.length_read_lt hend
      obtain ⟨m, hm, hlast, hreads⟩ := ih (n := n + 1) (by omega)
      refine ⟨m + 1, by omega, by rwa [Nat.add_right_comm] at hlast, ?_⟩
      rw [if_neg Bool.false_ne_true, List.range'_succ, List.map_cons, ← hreads]
      rfl

/-- A read goes on where a token ended that was found just before. -/
theorem stop_eq_index {n : Nat} {p : Position} {t : Token}
    (h : (lexemeAt text n).result = .ok (p, t)) (ht : t ≠ .endOfInput) :
    p.stop = (cursorAfter text (n + 1)).place.index :=
  ((Cursor.position_of_token h).2 ht).2

/-- In front of a token there are blanks and comments only, from where the read begins. -/
theorem spacedBetween_index {n : Nat} {p : Position} {t : Token}
    (h : (lexemeAt text n).result = .ok (p, t)) :
    SpacedBetween text (cursorAfter text n).place.index p.index := by
  obtain ⟨gap, hgap, hspacing⟩ := (cursorAfter_standsIn text n).spacing
  rw [(Cursor.position_of_token h).1]
  exact ⟨gap, _, hgap, hspacing⟩

/-- **Reading accounts for the whole text.** Whatever the text is and however often it is read on, every read goes
on behind the one before, and comes to the end of the text by as many reads as it has characters and one more. Tokens
have positions that hold their characters, stand apart in their order, and have only blanks and comments between
them. Faults show within their positions. -/
theorem readThrough (text : List Char) : ReadThrough text where
  progress _ := Cursor.exists_run
  standsIn := cursorAfter_standsIn text
  monotone _ _ := index_cursorAfter_mono
  ends := by
    obtain ⟨m, hm, hend, hreads⟩ := readAll_eq_range (n := 0) (Nat.lt_succ_self text.length)
    rw [Nat.zero_add] at hend
    rw [← List.range_eq_range'] at hreads
    exact ⟨m, hm, hend, hreads⟩
  ended n p h := by
    have hend := (Cursor.isEnd_iff_of_token h).2 rfl
    rw [(Cursor.position_of_token h).1]
    exact (cursorAfter_standsIn text n).ended hend
  token n _ _ := (cursorAfter_standsIn text n).token
  apart m n p q s t hmn hp hs hq ht := by
    rw [stop_eq_index hp hs, ((Cursor.position_of_token hq).2 ht).1]
    obtain ⟨gap, after, hgap, -⟩ := spacedBetween_index hq
    exact Nat.le_trans (index_cursorAfter_mono hmn) hgap.start_le
  before _ _ := spacedBetween_index
  between n p q s t hp hs hq := by
    rw [stop_eq_index hp hs]
    exact spacedBetween_index hq
  fault n _ := (cursorAfter_standsIn text n).fault

/-- An arrow and a brace with a comment between them, and a text without its closing quote, which shows at the end of
the text behind a character of two bytes. -/
theorem readThrough_unclosed :
    let text := ['-', '>', ';', '-', '\n', ' ', '{', '"', 'ü']
    ∃ p q e, (lexemeAt text 0).result = .ok (p, .symbol .post) ∧
      (lexemeAt text 1).result = .ok (q, .symbol .openBrace) ∧ (lexemeAt text 2).result = .error e ∧
      (p.stop, q.start, q.stop, e.position.start, e.position.index, e.position.stop) = (2, 6, 7, 7, 10, 10) ∧
      SpacedBetween text p.stop q.index ∧ p.stop ≤ q.start ∧
      (∃ part after, OnInterval text e.position.start e.position.stop part after) ∧
      (lexemeAt text 3).isEnd = true := by
  intro text
  have hall := readThrough text
  refine ⟨⟨⟨1, 1, 0⟩, 0, 2⟩, ⟨⟨2, 2, 6⟩, 6, 7⟩, ⟨.malformed .expectedCloseQuote, ⟨⟨2, 5, 10⟩, 7, 10⟩⟩, ?_⟩
  have hpost : (lexemeAt text 0).result = .ok (⟨⟨1, 1, 0⟩, 0, 2⟩, .symbol .post) := by decide +kernel
  have hbrace : (lexemeAt text 1).result = .ok (⟨⟨2, 2, 6⟩, 6, 7⟩, .symbol .openBrace) := by decide +kernel
  have hquote : (lexemeAt text 2).result =
      .error ⟨.malformed .expectedCloseQuote, ⟨⟨2, 5, 10⟩, 7, 10⟩⟩ := by decide +kernel
  have hend : (lexemeAt text 3).isEnd = true := by decide
  have hspaced := hall.between 0 _ _ _ _ hpost (by decide) hbrace
  have hapart := hall.apart 0 1 _ _ _ _ Nat.one_pos hpost (by decide) hbrace (by decide)
  exact ⟨hpost, hbrace, hquote, rfl, hspaced, hapart, (hall.fault 2 _ hquote).1, hend⟩

end Run

end Conformance
