/-
Dncl/Token/Reading.lean

Readings: what a reader made of the start of a text.

A reader takes some characters off a text and makes a value of them.  Nothing
is lost: the characters taken, followed by the rest, are the text.
-/
import Dncl.Token

namespace Dncl

/-- The value that was read, the characters it was read from, and the text
that is left. -/
structure Reading (α : Type) where
  value : α
  taken : List Char
  rest : List Char

end Dncl
