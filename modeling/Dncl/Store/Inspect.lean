/-
Dncl/Store/Inspect.lean

Looking at values in a store: their text, their equality, and whether an
array lies inside another; and a description of an environment.

Each function is given in two halves.  The half on values follows arrays by
a function that it is handed; the half on arrays unfolds that a number of
times.  No array of a store can lie deeper than the number of its arrays,
unless one lies inside itself, so `Store.depth` unfoldings are enough.
-/
import Dncl.Store
import Dncl.Text.Line
import Dncl.Text.Quoted

namespace Dncl

/-- How deep arrays can lie in each other. -/
def Store.depth (st : Store) : Nat :=
  st.arrays.size + 1

/-! ### Text -/

/-- The text of a function: its name and its parameters. -/
def Closure.text (c : Closure) : String :=
  "関数 " ++ c.name.getD "" ++ "(" ++ Text.joinWith ", " (c.literal.params.map Ident.name) ++ ")"

/-- The text of a value, if `array` gives that of an array. -/
def Value.textWith (st : Store) (array : ArrayRef → String) : Value → String
  | .int value _ => toString value
  | .str text _ => text
  | .bool value _ => if value then "true" else "false"
  | .array ref _ => array ref
  | .null _ => "null"
  | .function ref _ => (st.closure ref).text
  | .error message _ => "Error: " ++ message
  | .typeError message _ => "TypeError: " ++ message
  | .returned value _ => value.textWith st array

namespace Store

/-- The text of an array, down to a number of layers. -/
def arrayText (st : Store) : Nat → ArrayRef → String
  | 0, _ => ""
  | n + 1, ref =>
    "[" ++ Text.joinWith ", " ((st.elements ref).toList.map (Value.textWith st (st.arrayText n)))
      ++ "]"

/-- The text of a value. -/
def text (st : Store) (v : Value) : String :=
  v.textWith st (st.arrayText st.depth)

end Store

/-! ### Equality -/

/-- Equality of values, if `same` compares the elements of arrays.  Where the
values were produced does not matter, and a function equals only itself. -/
def Value.equalWith (same : ArrayRef → ArrayRef → Bool) : Value → Value → Bool
  | .int a _, .int b _ => a == b
  | .str a _, .str b _ => a == b
  | .bool a _, .bool b _ => a == b
  | .array a _, .array b _ => a == b || same a b
  | .null _, .null _ => true
  | .function a _, .function b _ => a == b
  | .error a _, .error b _ => a == b
  | .typeError a _, .typeError b _ => a == b
  | .returned a _, .returned b _ => a.equalWith same b
  | _, _ => false

/-- Whether two lists have the same length and agree place by place. -/
def pairwise (same : Value → Value → Bool) : List Value → List Value → Bool
  | [], [] => true
  | a :: as, b :: bs => same a b && pairwise same as bs
  | _, _ => false

namespace Store

/-- Whether two arrays have equal elements, down to a number of layers. -/
def sameElements (st : Store) : Nat → ArrayRef → ArrayRef → Bool
  | 0, _, _ => false
  | n + 1, a, b =>
    pairwise (Value.equalWith (st.sameElements n)) (st.elements a).toList (st.elements b).toList

/-- Equality of values. -/
def equal (st : Store) (a b : Value) : Bool :=
  a.equalWith (st.sameElements st.depth) b

end Store

/-! ### Containment -/

/-- Whether a value is an array that satisfies `p`. -/
def Value.isArrayWith (p : ArrayRef → Bool) : Value → Bool
  | .array ref _ => p ref
  | _ => false

namespace Store

/-- Whether `inner` is the array `outer` or lies inside it, down to a number
of layers. -/
def reaches (st : Store) (inner : ArrayRef) : Nat → ArrayRef → Bool
  | 0, _ => false
  | n + 1, outer =>
    outer == inner || (st.elements outer).toList.any (Value.isArrayWith (st.reaches inner n))

/-- Whether a value is the array `inner` or has it anywhere inside. -/
def contains (st : Store) (v : Value) (inner : ArrayRef) : Bool :=
  v.isArrayWith (st.reaches inner st.depth)

/-! ### Environments -/

/-- The names that the innermost scope of an environment binds, in order. -/
def names (st : Store) (env : Env) : List String :=
  ((st.scope env.here).map Prod.fst).mergeSort fun a b => !decide (b < a)

/-- An environment in one line, for someone who looks for a mistake. -/
def describe (st : Store) (env : Env) : String :=
  "Environment \x7b names: [" ++ Text.joinWith ", " ((st.names env).map Text.quote)
    ++ "], has_outer: " ++ (if env.outer.isEmpty then "false" else "true") ++ " \x7d"

end Store

end Dncl
