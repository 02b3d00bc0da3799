/-
Dncl/Text/Decimal.lean

Integers of programs and their decimal texts.

Programs compute with integers of 64 bits: the least is `minInt`, the greatest
`maxInt`.  Arithmetic itself is exact, and a result outside the range is not
an integer of a program (`checked`).
-/

namespace Dncl.Text

/-- The least integer of a program. -/
def minInt : Int := -9223372036854775808

/-- The greatest integer of a program. -/
def maxInt : Int := 9223372036854775807

/-- Keeps a result that lies in the range of a program's integers. -/
def checked (n : Int) : Option Int :=
  if minInt ≤ n ∧ n ≤ maxInt then some n else none

/-- The value of an ASCII digit. -/
def digit? (c : Char) : Option Nat :=
  if '0' ≤ c ∧ c ≤ '9' then some (c.toNat - '0'.toNat) else none

/-- The number that a list of ASCII digits denotes after the number `acc`. -/
def digits? (acc : Nat) : List Char → Option Nat
  | [] => some acc
  | c :: cs => (digit? c).bind fun d => digits? (acc * 10 + d) cs

/-- The number that a nonempty list of ASCII digits denotes. -/
def natural? : List Char → Option Nat
  | [] => none
  | c :: cs => digits? 0 (c :: cs)

/-- The integer that a text denotes: at most one sign, then digits only, and
the value in range. -/
def integer? : List Char → Option Int
  | '+' :: cs => (natural? cs).bind fun n => checked n
  | '-' :: cs => (natural? cs).bind fun n => checked (-n)
  | cs => (natural? cs).bind fun n => checked n

end Dncl.Text
