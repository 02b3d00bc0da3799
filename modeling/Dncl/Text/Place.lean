/-
Dncl/Text/Place.lean

Places in a text: the line on which a byte offset falls.

A text is given by the pieces between its line breaks (`Text.split`).  The
break itself belongs to the line that it ends, and the offset behind it to
the next line.
-/
import Dncl.Text.Line
import Dncl.Text.Utf8

namespace Dncl.Text

/-- Where an offset falls. -/
structure Place where
  /-- The number of the line, from zero. -/
  line : Nat
  /-- The bytes of the line before the offset. -/
  offset : Nat
  /-- The line without its break. -/
  text : List Char
  deriving DecidableEq

/-- The place of an offset in a text, if the text is that long. -/
def place? (offset : Nat) : List (List Char) → Option Place
  | [] => none
  | piece :: rest =>
    if offset ≤ byteSize piece then some ⟨0, offset, piece⟩
    else (place? (offset - byteSize piece - 1) rest).map fun p => { p with line := p.line + 1 }

end Dncl.Text
