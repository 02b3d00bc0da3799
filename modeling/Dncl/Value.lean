/-
Dncl/Value.lean

Values: what expressions and statements come to.

Every value carries the span of the phrase that produced it.  Arrays and
functions are references into a store, so that they can be shared.  Three
kinds of values are signals: an error and a type error end the program, and a
value that is given back ends the function.
-/
import Dncl.Span

namespace Dncl

/-- The place of an array in a store. -/
structure ArrayRef where
  index : Nat
  deriving DecidableEq

/-- The place of a function in a store. -/
structure ClosureRef where
  index : Nat
  deriving DecidableEq

/-- A value of a running program. -/
inductive Value where
  | int (value : Int) (span : Span)
  | str (text : String) (span : Span)
  | bool (value : Bool) (span : Span)
  | array (ref : ArrayRef) (span : Span)
  | null (span : Span)
  | function (ref : ClosureRef) (span : Span)
  | error (message : String) (span : Span)
  | typeError (message : String) (span : Span)
  /-- A value on its way out of a function. -/
  | returned (value : Value) (span : Span)

instance : Inhabited Value := ⟨.null default⟩

/-- The kinds of values. -/
inductive Kind where
  | int | str | bool | array | null | function | error | typeError | returned
  deriving DecidableEq

/-- The name of a kind, for a reader. -/
def Kind.name : Kind → String
  | int => "整数"
  | str => "文字列"
  | bool => "真偽値"
  | array => "配列"
  | null => "null"
  | function => "関数"
  | error => "エラー"
  | typeError => "型エラー"
  | returned => "戻り値"

namespace Value

/-- The kind of a value. -/
def kind : Value → Kind
  | int _ _ => .int
  | str _ _ => .str
  | bool _ _ => .bool
  | array _ _ => .array
  | null _ => .null
  | function _ _ => .function
  | error _ _ => .error
  | typeError _ _ => .typeError
  | returned _ _ => .returned

/-- The span of the phrase that produced the value. -/
def span : Value → Span
  | int _ s => s
  | str _ s => s
  | bool _ s => s
  | array _ s => s
  | null s => s
  | function _ s => s
  | error _ s => s
  | typeError _ s => s
  | returned _ s => s

/-- Errors and type errors. -/
def isError (v : Value) : Bool :=
  v.kind == .error || v.kind == .typeError

/-- The values that end what encloses them: errors, and values that are given
back. -/
def isSignal (v : Value) : Bool :=
  v.isError || v.kind == .returned

/-- Whether the value is null. -/
def isNull (v : Value) : Bool :=
  v.kind == .null

/-- The value inside a value that is given back; one layer is removed. -/
def unwrap : Value → Value
  | returned v _ => v
  | v => v

end Value

end Dncl
