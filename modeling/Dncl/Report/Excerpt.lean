/-
Dncl/Report/Excerpt.lean

Excerpts: a runtime error shown under the lines that lead to it.

An excerpt gives the place in numbers, the message, the line of the error
with up to five lines before it, and a row of carets.  The carets start
below the first character of the span, measured in rough cells, and there
are as many as the span has characters.
-/
import Dncl.Text.Cells
import Dncl.Text.Place
import Dncl.Value

namespace Dncl

/-- Where an error is shown. -/
structure Position where
  /-- The number of the line, from zero. -/
  line : Nat
  /-- The characters of the line before the span. -/
  column : Nat
  /-- The cells of the line before the span. -/
  cells : Nat
  /-- How many carets are shown. -/
  width : Nat
  deriving DecidableEq

namespace Position

/-- One caret for each character of a span, and at least one. -/
def caretWidth (src : List Char) (span : Span) : Nat :=
  match Text.slice? src span.start span.stop with
  | some text => max 1 (text.filter (· ≠ '\r')).length
  | none => 1

/-- The part of a line before a place; the whole line if the place is inside
a character. -/
def before (p : Text.Place) : List Char :=
  Text.dropReturn ((Text.takeBytes? p.offset p.text).getD p.text)

/-- Where an error at a span is shown.  A span behind the text is shown at its
beginning. -/
def find (src : List Char) (span : Span) : Position :=
  let width := caretWidth src span
  match Text.place? span.start (Text.split src) with
  | some p => ⟨p.line, (before p).length, Text.roughCells (before p), width⟩
  | none => ⟨0, 0, 0, width⟩

end Position

/-- How many lines are shown before the line of an error. -/
def contextLines : Nat :=
  5

/-- The line with a number and the lines that lead to it. -/
def leadingLines (src : List Char) (line : Nat) : List String :=
  let first := line - contextLines
  (((Text.split src).drop first).take (line + 1 - first)).map fun piece =>
    String.ofList (Text.dropReturn piece)

/-- The excerpt for a message about a span. -/
def excerpt (src : List Char) (message : String) (span : Span) : String :=
  let p := Position.find src span
  "line: " ++ toString p.line ++ ", column: " ++ toString p.column ++ "\n" ++ message ++ "\n"
    ++ Text.joinWith "\n" (leadingLines src p.line) ++ "\n"
    ++ String.ofList (List.replicate p.cells ' ' ++ List.replicate p.width '^')

/-- The excerpt for an error.  Other values have nothing to explain. -/
def explain? (src : List Char) : Value → Option String
  | .error message span => some (excerpt src message span)
  | .typeError message span => some (excerpt src message span)
  | _ => none

end Dncl
