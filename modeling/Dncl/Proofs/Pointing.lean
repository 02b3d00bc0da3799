/-
Dncl/Proofs/Pointing.lean

Carets under the right character.

An error is shown at a line and a column, with a row of carets below the
characters of its span (`Position.find`, `excerpt`).  For a span that starts
between two characters these are the line breaks before it and the characters
since the last of them; for any span at all the line is one of the text, and
the lines that lead to it are shown.

Design.  The lines of a text are what stands between its breaks
(`Text.split_eq_splitOn`), and a line and a column are read back into an offset
by adding up sizes (`Text.offsetAt`).  `Text.place?_split` computes the place of
every boundary, by induction on the text before it; `Text.place?_eq_some` and
`Text.place?_eq_none_iff` cover all other offsets.
-/
import Mathlib.Algebra.Ring.Nat
import Dncl.Proofs.Indentation
import Dncl.Proofs.Tandem
import Dncl.Report.Excerpt
import Mathlib.Data.List.DropRight

namespace Dncl

variable {after before : List Char}

namespace Text

variable {cs t : List Char} {pieces : List (List Char)}

/-! ### Lines -/

/-- The pieces of a text are what stands between its line breaks. -/
theorem split_eq_splitOn (cs : List Char) : split cs = cs.splitOn '\n' := by
  induction cs with
  | nil => rfl
  | cons c cs ih =>
    rw [List.splitOn, List.splitOnP_cons_eq_if_modifyHead, ← List.splitOn, ← ih]
    by_cases hc : c = '\n'
    · rw [split, if_pos hc, if_pos (by simpa using hc)]
    · obtain ⟨piece, pieces, hpieces⟩ := exists_split cs
      rw [split_cons hc hpieces, if_neg (by simpa using hc), hpieces, List.modifyHead_cons]

theorem exists_split_eq_takeWhile (cs : List Char) :
    ∃ pieces, split cs = cs.takeWhile (· ≠ '\n') :: pieces := by
  induction cs with
  | nil => exact ⟨[], rfl⟩
  | cons c cs ih =>
    by_cases hc : c = '\n'
    · exact ⟨split cs, by rw [split, if_pos hc, List.takeWhile_cons_of_neg (by simpa using hc)]⟩
    · obtain ⟨pieces, hpieces⟩ := ih
      exact ⟨pieces, by
        rw [split_cons hc hpieces, List.takeWhile_cons_of_pos (by simpa using hc)]⟩

/-- The characters of a text since its last line break. -/
def lastLine (text : List Char) : List Char :=
  text.rtakeWhile (· ≠ '\n')

theorem lastLine_cons (c : Char) (cs : List Char) :
    lastLine (c :: cs) =
      if '\n' ∈ cs then lastLine cs else if c = '\n' then cs else c :: cs := by
  have hall : (∀ d ∈ cs.reverse, decide (d ≠ '\n') = true) ↔ '\n' ∉ cs := by
    simp only [List.mem_reverse, decide_eq_true_eq]
    exact ⟨fun h hmem => h _ hmem rfl, fun h d hd heq => h (heq ▸ hd)⟩
  rw [lastLine, List.rtakeWhile, List.reverse_cons]
  by_cases hcs : '\n' ∈ cs
  · rw [if_pos hcs, List.takeWhile_append, if_neg]
    · rfl
    · intro hlength
      refine hall.1 (fun d hd => ?_) hcs
      rw [← (List.takeWhile_prefix _).eq_of_length hlength] at hd
      simpa using List.mem_takeWhile_imp hd
  · rw [if_neg hcs, List.takeWhile_append_of_pos (hall.2 hcs)]
    by_cases hc : c = '\n'
    · rw [if_pos hc, List.takeWhile_cons_of_neg (by simpa using hc), List.append_nil,
        List.reverse_reverse]
    · rw [if_neg hc, List.takeWhile_cons_of_pos (by simpa using hc), List.takeWhile_nil,
        List.reverse_append, List.reverse_reverse]
      rfl

theorem lastLine_of_notMem (h : '\n' ∉ cs) : lastLine cs = cs := by
  cases cs with
  | nil => rfl
  | cons c cs =>
    rw [List.mem_cons, not_or] at h
    rw [lastLine_cons, if_neg h.2, if_neg (Ne.symm h.1)]

/-- The bytes before a line: the lines above it, each with its break. -/
def lineStart (lines : List (List Char)) (n : Nat) : Nat :=
  ((lines.take n).map fun line => byteSize line + 1).sum

/-- The offset of a line and a column. -/
def offsetAt (text : List Char) (line column : Nat) : Nat :=
  lineStart (text.splitOn '\n') line + byteSize (((text.splitOn '\n').getD line []).take column)

theorem lineStart_cons_succ (line : List Char) (lines : List (List Char)) (n : Nat) :
    lineStart (line :: lines) (n + 1) = byteSize line + 1 + lineStart lines n :=
  rfl

/-- All lines with their breaks are the text and one more break. -/
theorem lineStart_split (cs : List Char) :
    lineStart (split cs) (split cs).length = byteSize cs + 1 := by
  induction cs with
  | nil => rfl
  | cons c cs ih =>
    obtain ⟨piece, pieces, hpieces⟩ := exists_split cs
    by_cases hc : c = '\n'
    · subst hc
      rw [split, if_pos rfl, List.length_cons, lineStart_cons_succ, ih, byteSize_cons]
      show 0 + 1 + (byteSize cs + 1) = 1 + byteSize cs + 1
      omega
    · rw [hpieces, List.length_cons, lineStart_cons_succ] at ih
      rw [split_cons hc hpieces, List.length_cons, lineStart_cons_succ, byteSize_cons,
        byteSize_cons]
      omega

/-! ### Places -/

/-- An offset is the start of the line on which it falls and the bytes of that
line before it: nothing is cut off where sizes are subtracted. -/
theorem place?_eq_some {offset : Nat} {p : Place} (h : place? offset pieces = some p) :
    pieces[p.line]? = some p.text ∧ lineStart pieces p.line + p.offset = offset ∧
      p.offset ≤ byteSize p.text := by
  induction pieces generalizing offset p with
  | nil => cases h
  | cons piece pieces ih =>
    rw [place?] at h
    split at h
    · rename_i hle
      cases h
      exact ⟨rfl, Nat.zero_add _, hle⟩
    · rename_i hlt
      obtain ⟨q, hq, rfl⟩ := Option.map_eq_some_iff.1 h
      obtain ⟨hline, hstart, hle⟩ := ih hq
      refine ⟨hline, ?_, hle⟩
      show lineStart (piece :: pieces) (q.line + 1) + q.offset = offset
      rw [lineStart_cons_succ]
      omega

theorem place?_eq_none_iff (offset : Nat) (pieces : List (List Char)) :
    place? offset pieces = none ↔ lineStart pieces pieces.length ≤ offset := by
  induction pieces generalizing offset with
  | nil => simp [place?, lineStart]
  | cons piece pieces ih =>
    rw [place?, List.length_cons, lineStart_cons_succ]
    split
    · rename_i hle
      exact iff_of_false (by simp) (by omega)
    · rename_i hlt
      rw [Option.map_eq_none_iff, ih]
      omega

/-- The place of the end of `before` in a text that begins with it. -/
theorem place?_split (before after : List Char) :
    place? (byteSize before) (split (before ++ after)) =
      some ⟨before.count '\n', byteSize (lastLine before),
        lastLine before ++ after.takeWhile (· ≠ '\n')⟩ := by
  induction before with
  | nil =>
    obtain ⟨pieces, hpieces⟩ := exists_split_eq_takeWhile after
    rw [List.nil_append, hpieces, place?]
    exact if_pos (Nat.zero_le _)
  | cons c before ih =>
    rw [List.cons_append, byteSize_cons]
    by_cases hc : c = '\n'
    · subst hc
      have hone : ('\n').utf8Size + byteSize before - byteSize [] - 1 = byteSize before :=
        Nat.add_sub_cancel_left 1 _
      have hline : lastLine ('\n' :: before) = lastLine before := by
        rw [lastLine_cons, if_pos rfl]
        split
        · rfl
        · exact (lastLine_of_notMem ‹_›).symm
      rw [split, if_pos rfl, place?, if_neg (by show ¬ 1 + byteSize before ≤ 0; omega), hone, ih,
        hline, List.count_cons_self]
      rfl
    · obtain ⟨piece, pieces, hpieces⟩ := exists_split (before ++ after)
      rw [hpieces, place?] at ih
      rw [split_cons hc hpieces, place?, byteSize_cons, List.count_cons_of_ne hc, lastLine_cons]
      -- the first line of the text is the line of the place exactly if there is no break before
      split at ih
      · rename_i hle
        obtain ⟨hcount, -, htext⟩ := Place.mk.inj (Option.some.inj ih)
        have hbreak : '\n' ∉ before := List.count_eq_zero.1 hcount.symm
        rw [lastLine_of_notMem hbreak] at htext
        rw [if_pos (Nat.add_le_add_left hle _), if_neg hbreak, if_neg hc, ← hcount, htext]
        rfl
      · rename_i hlt
        obtain ⟨q, hq, hplace⟩ := Option.map_eq_some_iff.1 ih
        have hbreak : '\n' ∈ before := by
          by_contra hbreak
          have := congrArg Place.line hplace
          rw [List.count_eq_zero.2 hbreak] at this
          simp at this
        rw [if_neg (by omega), if_pos hbreak, ← hplace,
          show c.utf8Size + byteSize before - (c.utf8Size + byteSize piece) - 1 =
            byteSize before - byteSize piece - 1 by omega, hq]
        rfl

/-! ### Slices -/

theorem eq_append_of_takeBytes? {n : Nat} (h : takeBytes? n cs = some t) :
    ∃ rest, cs = t ++ rest ∧ byteSize t = n := by
  induction cs generalizing n t with
  | nil =>
    rw [takeBytes?] at h
    split at h
    · cases h
      exact ⟨[], rfl, Eq.symm ‹_›⟩
    · cases h
  | cons c cs ih =>
    rw [takeBytes?] at h
    split at h
    · cases h
      exact ⟨c :: cs, rfl, Eq.symm ‹_›⟩
    · split at h
      · obtain ⟨u, hu, rfl⟩ := Option.map_eq_some_iff.1 h
        obtain ⟨rest, rfl, hsize⟩ := ih hu
        exact ⟨rest, rfl, by rw [byteSize_cons]; omega⟩
      · cases h

theorem eq_append_of_dropBytes? {n : Nat} (h : dropBytes? n cs = some t) :
    ∃ before, cs = before ++ t ∧ byteSize before = n := by
  induction cs generalizing n with
  | nil =>
    rw [dropBytes?] at h
    split at h
    · cases h
      exact ⟨[], rfl, Eq.symm ‹_›⟩
    · cases h
  | cons c cs ih =>
    rw [dropBytes?] at h
    split at h
    · cases h
      exact ⟨[], rfl, Eq.symm ‹_›⟩
    · split at h
      · obtain ⟨before, rfl, hsize⟩ := ih h
        exact ⟨c :: before, rfl, by rw [byteSize_cons]; omega⟩
      · cases h

/-- A slice stands in the text between its two offsets. -/
theorem eq_append_of_slice? {start stop : Nat} (h : slice? cs start stop = some t) :
    ∃ before after, cs = before ++ (t ++ after) ∧ start = byteSize before ∧
      stop = byteSize before + byteSize t := by
  rw [slice?] at h
  split at h
  · rename_i hle
    obtain ⟨rest, hdrop, htake⟩ := Option.bind_eq_some_iff.1 h
    obtain ⟨before, rfl, rfl⟩ := eq_append_of_dropBytes? hdrop
    obtain ⟨after, rfl, hsize⟩ := eq_append_of_takeBytes? htake
    exact ⟨before, after, rfl, rfl, by omega⟩
  · cases h

/-! ### What stands left of a caret -/

/-- The characters that are counted before an offset: those since the last
break, but for a carriage return directly before the offset. -/
def leading (before : List Char) : List Char :=
  if before.getLast? = some '\r' then (lastLine before).dropLast else lastLine before

/-- The cells that one character takes in an excerpt. -/
def cellsOf (c : Char) : Nat :=
  if (0x20 ≤ c.toNat ∧ c.toNat ≤ 0x7e) ∨ (0xff61 ≤ c.toNat ∧ c.toNat ≤ 0xff9f) then 1 else 2

theorem roughCells_eq_sum (cs : List Char) : roughCells cs = (cs.map cellsOf).sum := by
  have hcells : (fun c => if isHalfWidth c then 1 else 2) = cellsOf := by
    funext c
    simp [isHalfWidth, cellsOf]
  rw [roughCells, hcells]
  rfl

/-- A carriage return before an offset is the last character of its line. -/
theorem getLast?_lastLine_eq_return (before : List Char) :
    (lastLine before).getLast? = some '\r' ↔ before.getLast? = some '\r' := by
  induction before using List.reverseRecOn with
  | nil => rfl
  | append_singleton before c =>
    rw [lastLine, List.rtakeWhile_concat, List.getLast?_concat]
    split
    · rw [List.getLast?_concat]
    · rename_i hc
      rw [decide_eq_true_eq, not_not] at hc
      subst hc
      exact iff_of_false (by simp) (by simp)

theorem dropReturn_lastLine (before : List Char) :
    dropReturn (lastLine before) = leading before := by
  simp only [dropReturn, leading, getLast?_lastLine_eq_return]

theorem lastLine_eq_leading_append (before : List Char) :
    lastLine before =
      leading before ++ if before.getLast? = some '\r' then ['\r'] else [] := by
  rw [leading]
  split
  · rename_i hreturn
    exact (List.dropLast_append_getLast? _
      ((getLast?_lastLine_eq_return before).2 hreturn)).symm
  · rw [List.append_nil]

/-- An offset that is a boundary is found again from the line breaks before it
and the characters counted since the last of them. -/
theorem offsetAt_boundary (before after : List Char) :
    byteSize before = offsetAt (before ++ after) (before.count '\n') (leading before).length +
      if before.getLast? = some '\r' then 1 else 0 := by
  obtain ⟨hline, hstart, -⟩ := place?_eq_some (place?_split before after)
  rw [split_eq_splitOn] at hline hstart
  rw [offsetAt, List.getD_eq_getElem?_getD, hline, Option.getD_some, ← hstart]
  rw [lastLine_eq_leading_append before, List.append_assoc, List.take_left, Cut.byteSize_append,
    Nat.add_assoc]
  split <;> rfl

end Text

/-! ### Positions -/

namespace Position

open Text

/-- What it means that a position shows a span of a text. -/
structure Shows (p : Position) (src : List Char) (span : Span) : Prop where
  /-- The line is one of the text. -/
  line_lt : p.line < (src.splitOn '\n').length
  /-- The line and the column of a span that starts at a boundary, from which
  its start is found again. -/
  boundary : ∀ before after, src = before ++ after → span.start = byteSize before →
    p.line = before.count '\n' ∧ p.column = (leading before).length ∧
      p.cells = ((leading before).map cellsOf).sum ∧
      span.start = offsetAt src p.line p.column + if before.getLast? = some '\r' then 1 else 0
  /-- A caret for each character of the span but carriage returns, and at least one. -/
  carets : ∀ before text after, src = before ++ text ++ after →
    span = ⟨byteSize before, byteSize (before ++ text)⟩ →
      p.width = max 1 (text.countP (· ≠ '\r'))
  /-- One caret if the span is no piece of the text. -/
  caret : (¬ ∃ before text after, src = before ++ text ++ after ∧
    span = ⟨byteSize before, byteSize (before ++ text)⟩) → p.width = 1
  /-- A span that starts in the text starts on the line of the position. -/
  within : span.start ≤ byteSize src → ∃ line bytes, (src.splitOn '\n')[p.line]? = some line ∧
    bytes ≤ byteSize line ∧ span.start = lineStart (src.splitOn '\n') p.line + bytes
  /-- A span that starts behind the text is shown at the beginning. -/
  behind : byteSize src < span.start → p = ⟨0, 0, 0, 1⟩

variable {src : List Char} {span : Span}

theorem find_eq (hsrc : src = before ++ after) (hstart : span.start = byteSize before) :
    find src span = ⟨before.count '\n', (leading before).length,
      ((leading before).map cellsOf).sum, caretWidth src span⟩ := by
  subst hsrc
  have hbefore : Position.before ⟨before.count '\n', byteSize (lastLine before),
      lastLine before ++ after.takeWhile (· ≠ '\n')⟩ = leading before := by
    rw [Position.before, takeBytes?_byteSize, Option.getD_some, dropReturn_lastLine]
  simp only [find, hstart, place?_split, hbefore, roughCells_eq_sum]

theorem find_width (src : List Char) (span : Span) :
    (find src span).width = caretWidth src span := by
  rw [find]
  split <;> rfl

theorem caretWidth_eq {text : List Char} (hsrc : src = before ++ text ++ after)
    (hspan : span = ⟨byteSize before, byteSize (before ++ text)⟩) :
    caretWidth src span = max 1 (text.countP (· ≠ '\r')) := by
  subst hsrc hspan
  rw [caretWidth, Cut.byteSize_append, List.append_assoc, slice?_byteSize,
    List.countP_eq_length_filter]

theorem caretWidth_eq_one (h : ¬ ∃ before text after, src = before ++ text ++ after ∧
    span = ⟨byteSize before, byteSize (before ++ text)⟩) : caretWidth src span = 1 := by
  rw [caretWidth]
  split
  · rename_i text htext
    obtain ⟨before, after, hsrc, hstart, hstop⟩ := eq_append_of_slice? htext
    refine absurd ⟨before, text, after, by rw [hsrc, List.append_assoc], ?_⟩ h
    rw [Cut.byteSize_append, ← hstop, ← hstart]
  · rfl

theorem find_line_of_place {p : Text.Place} (h : place? span.start (split src) = some p) :
    (find src span).line = p.line := by
  rw [find, h]

theorem find_of_behind (h : byteSize src < span.start) : find src span = ⟨0, 0, 0, 1⟩ := by
  have hplace : place? span.start (split src) = none := by
    rw [place?_eq_none_iff, lineStart_split]
    exact h
  have hwidth : caretWidth src span = 1 := by
    refine caretWidth_eq_one ?_
    rintro ⟨before, text, after, rfl, rfl⟩
    simp only [Cut.byteSize_append] at h
    omega
  simp only [find, hplace, hwidth]

theorem exists_line_of_start_le (h : span.start ≤ byteSize src) :
    ∃ line bytes, (src.splitOn '\n')[(find src span).line]? = some line ∧ bytes ≤ byteSize line ∧
      span.start = lineStart (src.splitOn '\n') (find src span).line + bytes := by
  rcases hplace : place? span.start (split src) with _ | p
  · rw [place?_eq_none_iff, lineStart_split] at hplace
    omega
  · obtain ⟨hline, hstart, hle⟩ := place?_eq_some hplace
    rw [split_eq_splitOn] at hline hstart
    rw [find_line_of_place hplace]
    exact ⟨p.text, p.offset, hline, hle, hstart.symm⟩

theorem find_line_lt (src : List Char) (span : Span) :
    (find src span).line < (src.splitOn '\n').length := by
  rcases Nat.lt_or_ge (byteSize src) span.start with h | h
  · obtain ⟨piece, pieces, hpieces⟩ := exists_split src
    rw [find_of_behind h, ← split_eq_splitOn, hpieces]
    exact Nat.succ_pos _
  · obtain ⟨line, bytes, hline, -⟩ := exists_line_of_start_le h
    exact (List.getElem?_eq_some_iff.1 hline).1

/-- The position that is found for a span shows it. -/
theorem find_shows (src : List Char) (span : Span) : (find src span).Shows src span where
  line_lt := find_line_lt src span
  boundary before after hsrc hstart := by
    have hoffset := offsetAt_boundary before after
    rw [find_eq hsrc hstart, hsrc, hstart]
    exact ⟨rfl, rfl, rfl, hoffset⟩
  carets before text after hsrc hspan := by rw [find_width, caretWidth_eq hsrc hspan]
  caret h := by rw [find_width, caretWidth_eq_one h]
  within := exists_line_of_start_le
  behind := find_of_behind

/-- The lines shown above the carets stand together in the text: they begin
five lines before the last of them, or at the beginning. -/
theorem exists_leadingLines {line : Nat} (h : line < (src.splitOn '\n').length) :
    ∃ above shown below, src.splitOn '\n' = above ++ shown ++ below ∧
      above.length = line - 5 ∧ above.length + shown.length = line + 1 ∧
      leadingLines src line = shown.map fun piece => String.ofList (dropReturn piece) := by
  refine ⟨(src.splitOn '\n').take (line - 5),
    ((src.splitOn '\n').drop (line - 5)).take (line + 1 - (line - 5)),
    ((src.splitOn '\n').drop (line - 5)).drop (line + 1 - (line - 5)), ?_, ?_, ?_, ?_⟩
  · rw [List.append_assoc, List.take_append_drop, List.take_append_drop]
  · rw [List.length_take]
    omega
  · rw [List.length_take, List.length_take, List.length_drop]
    omega
  · rw [leadingLines, split_eq_splitOn]
    rfl

end Position

open Text in
/-- Every span of every text is shown where it is.  The excerpt has the place in
numbers, the message, the line of the span with the lines up to five before it,
each without its carriage return, and the carets. -/
theorem excerpt_shows (src : List Char) (span : Span) :
    (Position.find src span).Shows src span ∧
      ∃ above shown below, src.splitOn '\n' = above ++ shown ++ below ∧
        above.length = (Position.find src span).line - 5 ∧
        above.length + shown.length = (Position.find src span).line + 1 ∧
        ∀ message, excerpt src message span =
          "line: " ++ toString (Position.find src span).line ++
            ", column: " ++ toString (Position.find src span).column ++ "\n" ++ message ++ "\n" ++
            joinWith "\n" (shown.map fun line => String.ofList (dropReturn line)) ++ "\n" ++
            String.ofList (List.replicate (Position.find src span).cells ' ' ++
              List.replicate (Position.find src span).width '^') := by
  have hshows := Position.find_shows src span
  obtain ⟨above, shown, below, hlines, habove, hlength, hshown⟩ :=
    Position.exists_leadingLines hshows.line_lt
  refine ⟨hshows, above, shown, below, hlines, habove, hlength, fun message => ?_⟩
  rw [excerpt, hshown]

example : Position.find "x = 1\r\ny = あ\r\n".toList ⟨14, 15⟩ = ⟨1, 5, 6, 1⟩ := by decide +kernel

end Dncl
