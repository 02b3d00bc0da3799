/-
Dncl/Report/Diagnostic.lean

Diagnostics: a title, a text, and possibly a part of the source.

With a part of the source a diagnostic is a snippet, otherwise a title line
that may be coloured.  The text follows below.
-/
import Dncl.Report.Snippet

namespace Dncl

/-! ### Colours -/

/-- Whether output is coloured. -/
inductive Palette where
  | plain
  | coloured
  deriving DecidableEq

/-- The escape sequence for a graphic rendition of the terminal. -/
def Palette.escape (p : Palette) (rendition : String) : String :=
  match p with
  | .plain => ""
  | .coloured => "\x1b[" ++ rendition ++ "m"

/-- Ends all renditions. -/
def Palette.reset (p : Palette) : String :=
  p.escape "0"

/-- Starts a bold rendition. -/
def Palette.bold (p : Palette) : String :=
  p.reset ++ p.escape "1"

/-! ### Diagnostics -/

/-- A part of a source text, with labels. -/
structure Location where
  path : String
  src : List Char
  label : Label
  others : List Label

/-- A report to the author of a program. -/
structure Diagnostic where
  title : String
  text : String
  location : Option Location

namespace Diagnostic

/-- The title line of a diagnostic without source. -/
def heading (p : Palette) (title : String) : String :=
  p.bold ++ p.escape "31" ++ "error" ++ p.bold ++ ": " ++ title ++ "\n\n" ++ p.reset

/-- The diagnostic as it is written. -/
def render (p : Palette) (d : Diagnostic) : String :=
  let head := match d.location with
    | some l => Report.snippet d.title l.path l.src l.label l.others
    | none => heading p d.title
  head ++ if d.text.isEmpty then "" else d.text ++ "\n"

end Diagnostic

end Dncl
