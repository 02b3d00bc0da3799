/-
Dncl/Host.lean

The host: the world in which a program runs.

A program reaches the world through built-in functions and commands.  A host
answers both.  It may keep a state of its own, and it may make arrays in the
store of the program.
-/
import Dncl.Store

namespace Dncl

/-- Answers to built-in functions and commands, with a state of type `σ`. -/
structure Host (σ : Type) where
  /-- The value of a built-in function at its arguments. -/
  builtin : Builtin → List Value → Span → Store → σ → Value × Store × σ
  /-- The value of a command. -/
  command : Command → Span → Store → σ → Value × Store × σ

/-- The index of the first element of an array. -/
inductive Origin where
  | zero
  | one
  deriving DecidableEq

/-- The origin as a number. -/
def Origin.offset : Origin → Int
  | zero => 0
  | one => 1

/-- Failures that end the evaluation itself, and are no values. -/
inductive Fatal where
  | invalidOrigin (origin : Int)
  /-- A built-in function other than `戻り値` gave back a value. -/
  | unexpectedReturn (function : Builtin) (span : Span)
  deriving DecidableEq

/-- The message of a failure. -/
def Fatal.message : Fatal → String
  | invalidOrigin origin => "array origin must be 0 or 1, got " ++ toString origin
  | unexpectedReturn function span =>
    "built-in `" ++ function.name ++ "` produced a return value at " ++ span.text

/-- The origin with a given number. -/
def Origin.ofInt (n : Int) : Except Fatal Origin :=
  if n = 0 then .ok .zero else if n = 1 then .ok .one else .error (.invalidOrigin n)

/-- What a run of a program is bound to. -/
structure Settings where
  origin : Origin := .one
  /-- How many functions may be active at once. -/
  maxDepth : Nat := 10000

end Dncl
