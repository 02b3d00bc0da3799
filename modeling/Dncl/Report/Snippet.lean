/-
Dncl/Report/Snippet.lean

Snippets: labels drawn onto the lines of a source text.

A label within one line is drawn as a row of carets under the line.  A label
over several lines is drawn as a bracket in a lane of its own, left of the
text:

    2 │   a = [1,
      │ ╭─────^
    3 │ │      2
      │ ╰───────^ message

Where the text before the label is blank, the bracket opens on the line
itself.  Of the lines inside a bracket only the first three and the last one
are shown.  Between the lines that are shown, one missing line is shown
after all, and more of them become a gap.

Labels are expected to begin and end on lines that no other label shares.
-/
import Dncl.Span
import Dncl.Text.Blank
import Dncl.Text.Cells
import Dncl.Text.Place

namespace Dncl

/-- A message about a part of the source. -/
structure Label where
  text : String
  span : Span
  deriving DecidableEq

namespace Report

/-! ### Columns of a line -/

/-- A character of a line with the bytes before it and the cells it takes. -/
structure Glyph where
  char : Char
  offset : Nat
  cells : Nat

/-- The columns between two tab stops. -/
def tabWidth : Nat :=
  4

/-- The cells of a character that stands in a column; a tab goes on to the next
tab stop. -/
def cellsAt (column : Nat) (c : Char) : Nat :=
  if c = '\t' then tabWidth - column % tabWidth else Text.cells c

/-- The characters of a line with their sizes. -/
def glyphsFrom (offset column : Nat) : List Char → List Glyph
  | [] => []
  | c :: cs =>
    let cells := cellsAt column c
    ⟨c, offset, cells⟩ :: glyphsFrom (offset + c.utf8Size) (column + cells) cs

/-- The characters of a whole line with their sizes. -/
def glyphs (line : List Char) : List Glyph :=
  glyphsFrom 0 0 line

/-- A character, `n` times. -/
def times (n : Nat) (c : Char) : String :=
  String.ofList (List.replicate n c)

/-- The line as it is shown, with blanks for tabs. -/
def shown (line : List Char) : String :=
  String.join ((glyphs line).map fun g =>
    if g.char = '\t' then times g.cells ' ' else String.singleton g.char)

/-- The cells of all characters that begin before an offset. -/
def cellsBefore (line : List Char) (offset : Nat) : Nat :=
  (((glyphs line).filter fun g => g.offset < offset).map Glyph.cells).foldr (· + ·) 0

/-- The bytes of the blanks at the start of a line. -/
def margin (line : List Char) : Nat :=
  Text.byteSize (line.takeWhile Text.isBlank)

/-- The line without breaks, returns and nulls at its end. -/
def bare (line : List Char) : List Char :=
  Text.dropEndWhile (fun c => c == '\n' || c == '\r' || c == '\x00') line

/-! ### Labels on lines -/

/-- A label with the places where it begins and ends. -/
structure Tag where
  isPrimary : Bool
  text : String
  first : Text.Place
  last : Text.Place

namespace Tag

/-- Whether the label lies within one line. -/
def isFlat (t : Tag) : Bool :=
  t.first.line == t.last.line

/-- Whether a line lies strictly inside the label. -/
def surrounds (t : Tag) (line : Nat) : Bool :=
  t.first.line < line && line < t.last.line

/-- Whether a line is shown because of the label. -/
def shows (t : Tag) (line : Nat) : Bool :=
  t.first.line == line || t.last.line == line
    || t.surrounds line && (line ≤ t.first.line + 3 || t.last.line ≤ line + 1)

end Tag

/-- How a label of several lines meets one line. -/
inductive Meeting where
  /-- It begins at an offset. -/
  | top (offset : Nat)
  /-- It goes past. -/
  | side
  /-- It ends at an offset. -/
  | bottom (offset : Nat)
  | none

/-- How a label of several lines meets one line. -/
def Tag.meets (t : Tag) (line : Nat) : Meeting :=
  if t.first.line = line then .top t.first.offset
  else if t.last.line = line then .bottom t.last.offset
  else if t.surrounds line then .side
  else .none

/-! ### Rows -/

/-- A source text with labels. -/
structure Canvas where
  lines : List (List Char)
  /-- The labels within one line. -/
  flat : List Tag
  /-- The labels over several lines, from the leftmost lane on. -/
  tall : List Tag

namespace Canvas

/-- A line as it is shown; there are none past the end. -/
def line (c : Canvas) (i : Nat) : List Char :=
  bare (c.lines.getD i [])

/-- The digits that the largest line number of a label needs. -/
def numberWidth (c : Canvas) : Nat :=
  ((c.flat ++ c.tall).map fun t =>
    (toString (max t.first.line t.last.line + 1)).length).foldl max 0

/-- A row without a line number. -/
def plainRow (c : Canvas) (rest : String) : String :=
  times c.numberWidth ' ' ++ " " ++ rest ++ "\n"

/-- A row with a line number. -/
def numberedRow (c : Canvas) (i : Nat) (rest : String) : String :=
  let number := toString (i + 1)
  times (c.numberWidth - number.length) ' ' ++ number ++ " " ++ rest ++ "\n"

/-- What stands in a lane beside the text of a line. -/
def besideText (text : List Char) : Meeting → String
  | .top offset => if offset ≤ margin text then " ╭" else "  "
  | .side | .bottom _ => " │"
  | .none => "  "

/-- What stands in a lane beside the carets of a line, or beside a gap. -/
def besideCarets : Meeting → String
  | .side | .bottom _ => " │"
  | .top _ | .none => "  "

/-- What stands in a lane to the left of an arm. -/
def leftOfArm : Meeting → String
  | .top _ | .side => " │"
  | .bottom _ | .none => "  "

/-- What stands in a lane that an arm crosses. -/
def acrossArm : Meeting → String
  | .side | .bottom _ => "─│"
  | .top _ | .none => "──"

/-- A line of the source. -/
def sourceRow (c : Canvas) (i : Nat) : String :=
  let text := c.line i
  let lanes := String.join (c.tall.map fun t => besideText text (t.meets i))
  c.numberedRow i ("│" ++ lanes ++ " " ++ shown text)

/-- One column for each character, and one for the end of the line. -/
def stops (text : List Char) : List (Nat × Nat × Nat) :=
  (glyphs text).map (fun g => (g.offset, g.offset + g.char.utf8Size, g.cells))
    ++ [(Text.byteSize text, Text.byteSize text + 1, 1)]

/-- The carets under a label of one line; it covers at least one byte. -/
def carets (text : List Char) (t : Tag) : String :=
  let start := t.first.offset
  let stop := max t.last.offset (start + 1)
  let mark := if t.isPrimary then '^' else '-'
  String.join ((stops text).map fun (low, high, cells) =>
    if max start low < min stop high then times cells mark
    else if low < stop then times cells ' '
    else "")

/-- A message behind a caret. -/
def message (text : String) : String :=
  if text.isEmpty then "" else " " ++ text

/-- The row under a line for a label of one line. -/
def caretRow (c : Canvas) (i : Nat) (t : Tag) : String :=
  let lanes := String.join (c.tall.map fun t => besideCarets (t.meets i))
  c.plainRow ("│" ++ lanes ++ " " ++ carets (c.line i) t ++ message t.text)

/-- The row under a line where the arm of a bracket leads to the text. -/
def armRow (c : Canvas) (i lane : Nat) (corner : String) (t : Tag) (cells : Nat)
    (text : String) : String :=
  let left := String.join ((c.tall.take lane).map fun t => leftOfArm (t.meets i))
  let right := String.join ((c.tall.drop (lane + 1)).map fun t => acrossArm (t.meets i))
  let tip := if t.isPrimary then "^" else "'"
  c.plainRow ("│" ++ left ++ corner ++ right ++ times cells '─' ++ tip ++ message text)

/-- The row that a label of several lines adds under a line, if any. -/
def armRow? (c : Canvas) (i lane : Nat) (t : Tag) : Option String :=
  let text := c.line i
  match t.meets i with
  | .top offset =>
    if offset ≤ margin text then none
    else some (c.armRow i lane " ╭" t (cellsBefore text (offset + 1)) "")
  | .bottom offset => some (c.armRow i lane " ╰" t (cellsBefore text offset) t.text)
  | .side | .none => none

/-- A line of the source with all rows under it. -/
def lineRows (c : Canvas) (i : Nat) : List String :=
  c.sourceRow i
    :: (c.flat.filter fun t => t.first.line == i).map (c.caretRow i)
    ++ c.tall.zipIdx.filterMap fun (t, lane) => c.armRow? i lane t

/-- The row for lines that are left out after line `i`.  The brackets beside
that line go on beside the gap, also one that ends there. -/
def gapRow (c : Canvas) (i : Nat) : String :=
  c.plainRow ("·" ++ String.join (c.tall.map fun t => besideCarets (t.meets i)))

/-- The rows for lines with given numbers, and for what lies between them. -/
def body (c : Canvas) : List Nat → List String
  | [] => []
  | [i] => c.lineRows i
  | i :: j :: rest =>
    let between :=
      if j = i + 1 then []
      else if j = i + 2 then [c.sourceRow (i + 1)]
      else [c.gapRow i]
    c.lineRows i ++ between ++ c.body (j :: rest)

/-- The numbers of the lines that are shown. -/
def shownLines (c : Canvas) : List Nat :=
  (List.range c.lines.length).filter fun i => (c.flat ++ c.tall).any fun t => t.shows i

/-- The row above the first line. -/
def emptyRow (c : Canvas) : String :=
  c.plainRow ("│" ++ String.join (c.tall.map fun _ => "  "))

end Canvas

/-! ### Snippets -/

/-- The characters of a line that end by an offset. -/
def charsBefore (offset : Nat) (line : List Char) : Nat :=
  ((glyphs line).filter fun g => g.offset + g.char.utf8Size ≤ offset).length

/-- The places of a label; offsets past the end of the source stand for the
end. -/
def tag? (pieces : List (List Char)) (size : Nat) (isPrimary : Bool) (l : Label) : Option Tag :=
  match Text.place? (min l.span.start size) pieces, Text.place? (min l.span.stop size) pieces with
  | some first, some last => some ⟨isPrimary, l.text, first, last⟩
  | _, _ => none

/-- The snippet of a source text with a primary label and others, under a
title. -/
def snippet (title path : String) (src : List Char) (label : Label) (others : List Label) :
    String :=
  let pieces := Text.split src
  let size := Text.byteSize src
  let primary := tag? pieces size true label
  let tags := primary.toList ++ others.filterMap (tag? pieces size false)
  let canvas : Canvas :=
    ⟨pieces, tags.filter Tag.isFlat, tags.filter fun t => !t.isFlat⟩
  let locus := match primary with
    | some t =>
      path ++ ":" ++ toString (t.first.line + 1) ++ ":"
        ++ toString (charsBefore t.first.offset t.first.text + 1)
    | none => path
  "error: " ++ title ++ "\n" ++ canvas.plainRow ("┌─ " ++ locus) ++ canvas.emptyRow
    ++ String.join (canvas.body canvas.shownLines) ++ "\n"

end Report

end Dncl
