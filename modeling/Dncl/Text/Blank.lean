/-
Dncl/Text/Blank.lean

Blanks: the characters with the Unicode property White_Space, and trimming.

Trimming removes blanks at the two ends of a text and keeps those inside.
-/
import Dncl.Text.CharSet

namespace Dncl.Text

/-- The code points with the property White_Space. -/
def blanks : CharSet := ⟨[
  ⟨0x9, 0x3000, [5, 18, 1, 100, 1, 26, 1, 5599, 1, 2431, 11, 29, 2, 5, 1, 47, 1, 4000, 1]⟩]⟩

/-- Whether `c` is a blank. -/
def isBlank (c : Char) : Bool :=
  blanks.contains c

/-- Drops from the end of a list all elements that satisfy `p`. -/
def dropEndWhile (p : Char → Bool) (cs : List Char) : List Char :=
  (cs.reverse.dropWhile p).reverse

/-- Removes the blanks at both ends. -/
def trim (cs : List Char) : List Char :=
  dropEndWhile isBlank (cs.dropWhile isBlank)

end Dncl.Text
