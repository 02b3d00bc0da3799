/-
Dncl/Operation.lean

Operators on values.

Arithmetic is exact: a result that is no integer of a program is a fault.
Division goes toward zero, and the remainder has the sign of the dividend.
Integers are ordered by size and strings by code points.  Values of different
kinds are never equal.
-/
import Dncl.Fault
import Dncl.Store.Inspect
import Dncl.Text.Decimal

namespace Dncl

/-- The value of an exact result. -/
def exactly (n : Int) (span : Span) : Value :=
  match Text.checked n with
  | some n => .int n span
  | none => Fault.overflow.valueAt span

/-- The quotient and the remainder are refused together: by zero, and where
the quotient is no integer of a program. -/
def divided (a b result : Int) (span : Span) : Value :=
  if b = 0 then Fault.divisionByZero.valueAt span
  else if (Text.checked (a.tdiv b)).isSome then .int result span
  else Fault.overflow.valueAt span

/-- An operator on two integers, if it has a meaning there. -/
def intInfix? (op : Token) (a b : Int) (span : Span) : Option Value :=
  match op with
  | .symbol .plus => some (exactly (a + b) span)
  | .symbol .minus => some (exactly (a - b) span)
  | .symbol .times => some (exactly (a * b) span)
  | .symbol .slash | .symbol .intDiv => some (divided a b (a.tdiv b) span)
  | .symbol .percent => some (divided a b (a.tmod b) span)
  | .symbol .less => some (.bool (a < b) span)
  | .symbol .lessEqual => some (.bool (a ≤ b) span)
  | .symbol .greater => some (.bool (b < a) span)
  | .symbol .greaterEqual => some (.bool (b ≤ a) span)
  | .symbol .equal => some (.bool (a == b) span)
  | .symbol .notEqual => some (.bool (a != b) span)
  | _ => none

/-- An operator on two strings, if it has a meaning there. -/
def strInfix? (op : Token) (a b : String) (span : Span) : Option Value :=
  match op with
  | .symbol .plus => some (.str (a ++ b) span)
  | .symbol .less => some (.bool (a < b) span)
  | .symbol .lessEqual => some (.bool (!decide (b < a)) span)
  | .symbol .greater => some (.bool (b < a) span)
  | .symbol .greaterEqual => some (.bool (!decide (a < b)) span)
  | .symbol .equal => some (.bool (a == b) span)
  | .symbol .notEqual => some (.bool (a != b) span)
  | _ => none

/-- An operator on two truth values, if it has a meaning there. -/
def boolInfix? (op : Token) (a b : Bool) (span : Span) : Option Value :=
  match op with
  | .keyword .andWord => some (.bool (a && b) span)
  | .keyword .orWord => some (.bool (a || b) span)
  | .symbol .equal => some (.bool (a == b) span)
  | .symbol .notEqual => some (.bool (a != b) span)
  | _ => none

/-- An operator that has a meaning on values of any kinds. -/
def anyInfix? (st : Store) (op : Token) (a b : Value) (span : Span) : Option Value :=
  match op with
  | .symbol .equal => some (.bool (st.equal a b) span)
  | .symbol .notEqual => some (.bool (!st.equal a b) span)
  | _ => none

/-- An operator on two values, if it has a meaning there. -/
def combine? (st : Store) (op : Token) (left right : Value) (span : Span) : Option Value :=
  match left, right with
  | .int a _, .int b _ => intInfix? op a b span
  | .str a _, .str b _ => strInfix? op a b span
  | .str a _, .int b _ =>
    if op = .symbol .plus then some (.str (a ++ toString b) span)
    else anyInfix? st op left right span
  | .int a _, .str b _ =>
    if op = .symbol .plus then some (.str (toString a ++ b) span)
    else anyInfix? st op left right span
  | .bool a _, .bool b _ => boolInfix? op a b span
  | _, _ => anyInfix? st op left right span

/-- The value of an operator between two values. -/
def applyInfix (st : Store) (op : Token) (left right : Value) (span : Span) : Value :=
  (combine? st op left right span).getD ((Fault.operands op left.kind right.kind).valueAt span)

/-- The value of an operator with one operand. -/
def applyPrefix (op : Token) (operand : Value) (span : Span) : Value :=
  match op, operand with
  | .symbol .minus, .int n _ => exactly (-n) span
  | .symbol .plus, .int n _ => .int n span
  | .keyword .notWord, .bool b _ => .bool (!b) span
  | _, _ => (Fault.operand op operand.kind).valueAt span

end Dncl
