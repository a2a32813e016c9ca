import Conformance.Proofs.Lines
import Conformance.Proofs.Pointer

/-!
# Lines of a text in reports

A report draws the line of the text that a stretch begins on. It finds the line by the bytes before it, and the column
by the characters before it on its line. Where every carriage return is followed by a line feed, both are those that
are counted while reading.

* `BeginsLine` — a line begins behind some characters, as reports take lines.
* `lineAt_append` — the line that a byte is on; `Line.columnOf_append` — the column of a character on it.
* `ReturnsBeforeFeeds` — no line ends with a carriage return alone.
* `Place.CountedIn.drawn` — a place that is counted while reading, on the line that a report draws for it.
-/

set_option autoImplicit false

namespace Conformance

/-! ## Lines by their bytes -/

/-- The characters are none, or end with a line feed. -/
def BeginsLine (before : List Char) : Prop := ∀ c, before.getLast? = some c → c = '\n'

/-- The characters of a text up to the end of its first line. -/
def firstLine (text : List Char) : List Char := text.takeWhile (· != '\n')

theorem BeginsLine.of_cons {c : Char} {before : List Char} (h : BeginsLine (c :: before)) : BeginsLine before := by
  intro d hd
  apply h
  rw [List.getLast?_cons, hd]
  rfl

theorem BeginsLine.ne_nil {c : Char} {before : List Char} (h : BeginsLine (c :: before)) (hc : c ≠ '\n') :
    before ≠ [] := by
  rintro rfl
  exact hc (h c rfl)

/-- Any characters end with a part of a line, which begins behind those before it. -/
theorem exists_beginsLine (text : List Char) :
    ∃ before run, text = before ++ run ∧ '\n' ∉ run ∧ BeginsLine before := by
  induction text using List.reverseRecOn with
  | nil => exact ⟨[], [], rfl, List.not_mem_nil, fun c hc => by cases hc⟩
  | append_singleton text c ih =>
    by_cases hc : c = '\n'
    · refine ⟨text ++ [c], [], by rw [List.append_nil], List.not_mem_nil, fun d hd => ?_⟩
      rw [List.getLast?_append, List.getLast?_singleton] at hd
      cases hd
      exact hc
    · obtain ⟨before, run, rfl, hrun, hbefore⟩ := ih
      refine ⟨before, run ++ [c], by rw [List.append_assoc], ?_, hbefore⟩
      rw [List.mem_append, List.mem_singleton]
      rintro (hmem | rfl)
      · exact hrun hmem
      · exact hc rfl

theorem firstLine_append {run : List Char} (hrun : '\n' ∉ run) (after : List Char) :
    firstLine (run ++ after) = run ++ firstLine after := by
  apply List.takeWhile_append_of_pos
  intro c hc
  rw [bne_iff_ne]
  rintro rfl
  exact hrun hc

theorem splitOn_firstLine (text : List Char) : ∃ lines, splitOn '\n' text = firstLine text :: lines := by
  induction text with
  | nil => exact ⟨[], rfl⟩
  | cons c rest ih =>
    obtain ⟨lines, hlines⟩ := ih
    by_cases hc : c = '\n'
    · subst hc
      exact ⟨splitOn '\n' rest, rfl⟩
    · refine ⟨lines, ?_⟩
      have hfirst : firstLine ([c] ++ rest) = [c] ++ firstLine rest :=
        firstLine_append (by simpa using Ne.symm hc) rest
      rw [splitOn, if_neg hc, hlines]
      exact congrArg (· :: lines) hfirst.symm

/-- The last of the lines that begin up to a byte. -/
def lastUpTo (byte : Nat) (lines : List Line) : Option Line := (lines.filter fun line => line.start ≤ byte).getLast?

theorem lineAt_eq (text : List Char) (byte : Nat) :
    lineAt text byte = (lastUpTo byte (numberLines 1 0 (splitOn '\n' text))).getD ⟨1, 0, []⟩ := rfl

theorem lastUpTo_cons {byte : Nat} {first : Line} (h : first.start ≤ byte) (lines : List Line) :
    lastUpTo byte (first :: lines) = some ((lastUpTo byte lines).getD first) := by
  unfold lastUpTo
  rw [List.filter_cons_of_pos (by simpa using h), List.getLast?_cons]

theorem start_le_numberLines {number start : Nat} {parts : List (List Char)} {line : Line}
    (h : line ∈ numberLines number start parts) : start ≤ line.start := by
  induction parts generalizing number start with
  | nil => cases h
  | cons part parts ih =>
    rcases List.mem_cons.1 h with rfl | h
    · exact Nat.le_refl _
    · have hrest := ih h
      omega

theorem lastUpTo_eq_none {byte number start : Nat} (h : byte < start) (parts : List (List Char)) :
    lastUpTo byte (numberLines number start parts) = none := by
  have hnone : (numberLines number start parts).filter (fun line => line.start ≤ byte) = [] := by
    rw [List.filter_eq_nil_iff]
    intro line hline
    have hstart := start_le_numberLines hline
    rw [decide_eq_true_eq]
    omega
  rw [lastUpTo, hnone]
  rfl

/-- **The last of the lines that begin up to a byte** is the one behind the given characters, if the byte is on it. -/
theorem lastUpTo_numberLines {before rest : List Char} {byte : Nat} (number start : Nat) (hbefore : BeginsLine before)
    (hfrom : start + byteCount before ≤ byte) (hupto : byte ≤ start + byteCount before + byteCount (firstLine rest)) :
    lastUpTo byte (numberLines number start (splitOn '\n' (before ++ rest))) =
      some ⟨number + before.count '\n', start + byteCount before, firstLine rest⟩ := by
  induction before generalizing number start with
  | nil =>
    obtain ⟨lines, hlines⟩ := splitOn_firstLine rest
    have hzero : byteCount [] = 0 := rfl
    rw [hzero] at hfrom hupto
    rw [List.nil_append, hlines, numberLines, lastUpTo_cons hfrom, lastUpTo_eq_none (by omega)]
    rfl
  | cons c before ih =>
    rw [byteCount_cons] at hfrom hupto ⊢
    have hstart : start ≤ byte := by omega
    have hzero : byteCount [] = 0 := rfl
    obtain ⟨lines, hlines⟩ := splitOn_firstLine (before ++ rest)
    by_cases hc : c = '\n'
    · subst hc
      have hsize : Char.utf8Size '\n' = 1 := rfl
      have hlast := ih (number + 1) (start + 0 + 1) hbefore.of_cons (by omega) (by omega)
      rw [List.cons_append, splitOn, if_pos rfl, numberLines, lastUpTo_cons hstart, hzero, hlast,
        List.count_cons_self]
      simp only [Option.getD_some, Option.some.injEq, Line.mk.injEq, and_true]
      omega
    · have hlast := ih number (start + c.utf8Size) hbefore.of_cons (by omega) (by omega)
      have hpos := byteCount_pos (hbefore.ne_nil hc)
      have hsecond : start + c.utf8Size ≤ byte := by omega
      rw [hlines, numberLines, lastUpTo_cons hsecond] at hlast
      rw [List.cons_append, splitOn, if_neg hc, hlines]
      change lastUpTo byte (numberLines number start ((c :: firstLine (before ++ rest)) :: lines)) = _
      rw [numberLines, lastUpTo_cons hstart, byteCount_cons, ← Nat.add_assoc, ← Nat.add_assoc, List.count_cons_of_ne hc]
      -- The line begins behind the first one, so it is the last of those that follow.
      generalize lastUpTo byte (numberLines (number + 1) _ lines) = more at hlast ⊢
      cases more with
      | none =>
        simp only [Option.getD_none, Option.some.injEq, Line.mk.injEq] at hlast
        omega
      | some line => exact hlast

/-- The line that is drawn for a byte behind some characters of a line. -/
theorem lineAt_append {before run after : List Char} (hbefore : BeginsLine before) (hrun : '\n' ∉ run) :
    lineAt (before ++ run ++ after) (byteCount (before ++ run)) =
      ⟨before.count '\n' + 1, byteCount before, run ++ firstLine after⟩ := by
  have hupto : byteCount run ≤ byteCount (firstLine (run ++ after)) := by
    rw [firstLine_append hrun, byteCount_append]
    omega
  rw [List.append_assoc, lineAt_eq, byteCount_append, lastUpTo_numberLines 1 0 hbefore (by omega) (by omega),
    firstLine_append hrun, Option.getD_some, Nat.zero_add, Nat.add_comm 1]

/-! ## Columns -/

theorem offset_le_ofCharacters {offset column : Nat} {characters : List Char} {cell : Cell}
    (h : cell ∈ Cell.ofCharacters offset column characters) : offset ≤ cell.offset := by
  induction characters generalizing offset column with
  | nil => cases h
  | cons c rest ih =>
    rcases List.mem_cons.1 h with rfl | h
    · exact Nat.le_refl _
    · have hrest := ih h
      omega

/-- The cells before the place behind some characters are those of these characters. -/
theorem length_filter_ofCharacters (run after : List Char) (offset column : Nat) :
    ((Cell.ofCharacters offset column (run ++ after)).filter
      fun cell => cell.offset < offset + byteCount run).length = run.length := by
  induction run generalizing offset column with
  | nil =>
    rw [List.length_nil, List.length_eq_zero_iff, List.filter_eq_nil_iff]
    intro cell hcell
    have hoffset := offset_le_ofCharacters hcell
    have hzero : byteCount [] = 0 := rfl
    rw [decide_eq_true_eq, hzero]
    omega
  | cons c run ih =>
    have hpos := c.utf8Size_pos
    rw [List.cons_append, Cell.ofCharacters, byteCount_cons, List.filter_cons_of_pos (by simp; omega),
      List.length_cons, List.length_cons, ← Nat.add_assoc, ih]

/-- The column of the place behind some characters of a line. -/
theorem columnOf_append (number start : Nat) (run after : List Char) :
    Line.columnOf ⟨number, start, run ++ after⟩ (byteCount run) = run.length + 1 := by
  have hlength := length_filter_ofCharacters run after 0 0
  rw [Nat.zero_add] at hlength
  exact congrArg (· + 1) hlength

/-! ## Lines that are counted while reading -/

/-- Every carriage return is followed by a line feed, so that no line ends with a carriage return alone. -/
def ReturnsBeforeFeeds (text : List Char) : Prop := ∀ i : Nat, text[i]? = some '\r' → text[i + 1]? = some '\n'

section Counted

variable {text : List Char} (h : ReturnsBeforeFeeds text)

include h

theorem endsLine_iff_lineFeed (i : Nat) : EndsLine text i ↔ text[i]? = some '\n' := by
  unfold EndsLine
  constructor
  · rintro (hfeed | ⟨hreturn, hnot⟩)
    · exact hfeed
    · exact absurd (h i hreturn) hnot
  · exact Or.inl

/-- The lines that end before a place are the line feeds before it. -/
theorem count_endsLine (n : Nat) : Nat.count (EndsLine text) n = (text.take n).count '\n' := by
  induction n with
  | zero => rfl
  | succ n ih =>
    rw [Nat.count_succ, ih, List.take_add_one, List.count_append]
    congr 1
    cases hc : text[n]? with
    | none =>
      rw [if_neg (by rw [endsLine_iff_lineFeed h, hc]; simp)]
      rfl
    | some c =>
      rw [Option.toList_some, List.count_singleton]
      by_cases hfeed : c = '\n'
      · rw [if_pos (by rw [endsLine_iff_lineFeed h, hc, hfeed]), if_pos (by simpa using hfeed)]
      · rw [if_neg (by rw [endsLine_iff_lineFeed h, hc]; simpa using hfeed), if_neg (by simpa using hfeed)]

/-- The characters since a line began are those of the line. -/
theorem count_sameLine {before run after : List Char} (htext : text = before ++ run ++ after)
    (hbefore : BeginsLine before) (hrun : '\n' ∉ run) :
    Nat.count (SameLine text (before ++ run).length) (before ++ run).length = run.length := by
  -- With each character of the line there is one more, and behind the end of a line there is none.
  have hcount : ∀ k ≤ run.length, Nat.count (SameLine text (before.length + k)) (before.length + k) = k := by
    intro k
    induction k with
    | zero =>
      intro _
      rcases List.eq_nil_or_concat before with rfl | ⟨others, c, rfl⟩
      · rfl
      · have hends : EndsLine text others.length := by
          rw [endsLine_iff_lineFeed h, htext]
          have hc : c = '\n' := hbefore c (by simp)
          simp [hc]
        rw [Nat.add_zero, List.length_concat, count_sameLine_succ, if_pos hends]
    | succ k ih =>
      intro hk
      have hnot : ¬ EndsLine text (before.length + k) := by
        rw [endsLine_iff_lineFeed h, htext, List.append_assoc, List.getElem?_append_right (by omega),
          Nat.add_sub_cancel_left, List.getElem?_append_left (by omega)]
        intro hfeed
        exact hrun (List.mem_of_getElem? hfeed)
      rw [← Nat.add_assoc, count_sameLine_succ, if_neg hnot, ih (by omega)]
  rw [List.length_append]
  exact hcount run.length (Nat.le_refl _)

/-- **A place on the line that is drawn for a stretch before it**: the number of the line and the column of the place
on it are those that are counted while reading, and the stretch begins no further right. -/
theorem Place.CountedIn.drawn {p : Place} {start : Nat} {part after : List Char} (hp : p.CountedIn text)
    (hpart : OnInterval text start p.index part after) (hline : '\n' ∉ part) :
    (lineAt text start).number = p.line ∧
      (lineAt text start).columnOf (p.index - (lineAt text start).start) = p.column ∧
      (lineAt text start).columnOf (start - (lineAt text start).start) + part.length = p.column := by
  obtain ⟨front, htext, hstart, hindex⟩ := hpart
  obtain ⟨before, run, rfl, hrun, hbefore⟩ := exists_beginsLine front
  have hrun' : '\n' ∉ run ++ part := by
    rw [List.mem_append]
    exact fun hmem => hmem.elim hrun hline
  have htext' : text = before ++ (run ++ part) ++ after := by
    rw [htext]
    simp only [List.append_assoc]
  have hlineAt : lineAt text start = ⟨before.count '\n' + 1, byteCount before, run ++ (part ++ firstLine after)⟩ := by
    rw [hstart, htext, List.append_assoc (before ++ run), lineAt_append hbefore hrun, firstLine_append hline]
  -- what is counted before the place
  have hlength : (before ++ (run ++ part)).length ≤ text.length := by
    rw [htext']
    exact (List.prefix_append _ after).length_le
  have htake : text.take (before ++ (run ++ part)).length = before ++ (run ++ part) := by
    rw [htext', List.take_left]
  obtain ⟨hnumber, hcolumn⟩ := hp.counts _ hlength (by rw [htake, hindex, List.append_assoc])
  rw [count_endsLine h, htake, List.count_append, List.count_eq_zero_of_not_mem hrun'] at hnumber
  rw [count_sameLine h htext' hbefore hrun'] at hcolumn
  rw [hlineAt, hnumber, hcolumn, hstart, hindex]
  refine ⟨rfl, ?_, ?_⟩
  · rw [List.append_assoc before, byteCount_append before, Nat.add_sub_cancel_left, ← List.append_assoc run,
      columnOf_append]
  · rw [byteCount_append before, Nat.add_sub_cancel_left, columnOf_append, List.length_append]
    omega

end Counted

end Conformance
