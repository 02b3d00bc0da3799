/-
Dncl/Text/Line.lean

Lines of a text: splitting, joining and indenting.

`split` cuts at every line break, so a text with `n` breaks has `n + 1`
pieces.  `lines` reads a break as the end of a line instead: a text that ends
with a break has no empty last line, and a carriage return directly before a
break belongs to the break.
-/

namespace Dncl.Text

/-- Joins texts, with `sep` between neighbours. -/
def joinWith (sep : String) : List String → String
  | [] => ""
  | [s] => s
  | s :: t :: rest => s ++ sep ++ joinWith sep (t :: rest)

/-- The pieces between line breaks; there is always at least one. -/
def split : List Char → List (List Char)
  | [] => [[]]
  | c :: cs =>
    if c = '\n' then [] :: split cs
    else match split cs with
      | [] => [[c]]
      | piece :: pieces => (c :: piece) :: pieces

/-- Removes one carriage return at the end. -/
def dropReturn (cs : List Char) : List Char :=
  if cs.getLast? = some '\r' then cs.dropLast else cs

/-- The lines of a text that was cut at its breaks: all pieces but the last
were ended by a break, and an empty last piece is no line. -/
def linesOfPieces : List (List Char) → List (List Char)
  | [] => []
  | [piece] => if piece.isEmpty then [] else [piece]
  | piece :: next :: rest => dropReturn piece :: linesOfPieces (next :: rest)

/-- The lines of a text. -/
def lines (cs : List Char) : List (List Char) :=
  linesOfPieces (split cs)

/-- The text with every line set in by four spaces. -/
def indent (s : String) : String :=
  joinWith "\n" ((lines s.toList).map fun line => "    " ++ String.ofList line)

end Dncl.Text
