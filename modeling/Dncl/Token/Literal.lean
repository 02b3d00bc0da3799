/-
Dncl/Token/Literal.lean

Literals: integers, strings and commands.

Digits may be ASCII or full-width, in any mix.  They are counted up one by one,
within the range of a program's integers; once a digit has no room, the integer
is too large, and the digits behind it are read all the same.  A string ends at
its closing quote and a command at `】`; neither crosses a line break.  Where the
end is missing, reading stops after the line break, or at the end of the text.
-/
import Dncl.Text.Decimal
import Dncl.Token.Reading

namespace Dncl

/-! ### Integers -/

/-- The value of a digit, ASCII or full-width. -/
def digitValue? (c : Char) : Option Nat :=
  if '0' ≤ c ∧ c ≤ '9' then some (c.toNat - '0'.toNat)
  else if '０' ≤ c ∧ c ≤ '９' then some (c.toNat - '０'.toNat)
  else none

/-- Whether `c` is a digit. -/
def isDigit (c : Char) : Bool :=
  (digitValue? c).isSome

/-- The digits of an integer that have been read: their value, and whether a digit
came that there was no room for. -/
structure Tally where
  value : Int := 0
  overflow : Bool := false

/-- One digit more.  A digit without room leaves the value as it is. -/
def Tally.push (t : Tally) (digit : Nat) : Tally :=
  match (Text.checked (t.value * 10)).bind fun tens => Text.checked (tens + digit) with
  | some value => { t with value := value }
  | none => { t with overflow := true }

/-- Counts up a run of digits. -/
def tally (cs : List Char) : Tally :=
  cs.foldl (fun t c => t.push ((digitValue? c).getD 0)) {}

/-- Reads the longest run of digits. -/
def readTally (cs : List Char) : Reading Tally :=
  ⟨tally (cs.takeWhile isDigit), cs.takeWhile isDigit, cs.dropWhile isDigit⟩

/-! ### Strings -/

/-- The character that a backslash and `c` stand for. -/
def unescape (c : Char) : Char :=
  if c = 'n' then '\n' else if c = 't' then '\t' else c

/-- Reads the rest of a string up to the quote `close`.  There is no value if
the closing quote is missing. -/
def readString (close : Char) : List Char → Reading (Option (List Char))
  | [] => ⟨none, [], []⟩
  | '\\' :: [] => ⟨none, ['\\'], []⟩
  | '\\' :: c :: cs =>
    let r := readString close cs
    ⟨r.value.map (unescape c :: ·), '\\' :: c :: r.taken, r.rest⟩
  | c :: cs =>
    if c = '\n' then ⟨none, [c], cs⟩
    else if c = close then ⟨some [], [c], cs⟩
    else
      let r := readString close cs
      ⟨r.value.map (c :: ·), c :: r.taken, r.rest⟩

/-! ### Commands -/

/-- Reads the rest of a command up to `】`.  There is no value if the end is
missing. -/
def readCommand : List Char → Reading (Option (List Char))
  | [] => ⟨none, [], []⟩
  | c :: cs =>
    if c = '\n' then ⟨none, [c], cs⟩
    else if c = '】' then ⟨some [], [c], cs⟩
    else
      let r := readCommand cs
      ⟨r.value.map (c :: ·), c :: r.taken, r.rest⟩

end Dncl
