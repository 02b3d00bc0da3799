/-
Dncl/Syntax.lean

Syntax trees of programs.

Expressions, statements and blocks are defined together, because a function
literal is an expression with a block in it.  Every node carries the span of
the text that it was read from; an expression used as a statement has the
span of the expression.
-/
import Dncl.Token

namespace Dncl

/-! ### Leaves -/

/-- A name, where it stands. -/
structure Ident where
  name : String
  span : Span
  deriving DecidableEq, Inhabited

/-- The functions that the language itself provides. -/
inductive Builtin where
  | print
  | length
  | diff
  | giveBack
  deriving DecidableEq

/-- The name by which a program calls a built-in function. -/
def Builtin.name : Builtin → String
  | print => "表示する"
  | length => "要素数"
  | diff => "差分"
  | giveBack => "戻り値"

/-- The built-in function of a given name. -/
def Builtin.ofName? (name : String) : Option Builtin :=
  [print, length, diff, giveBack].find? fun f => f.name == name

/-- A request to the world outside the program. -/
inductive Command where
  /-- Reads a line of input. -/
  | input
  | other (text : String)
  deriving DecidableEq

/-- The text of the command that reads input. -/
def Command.inputText : String :=
  "外部からの入力"

/-- Whether `part` stands anywhere in a text. -/
def mentions (part : List Char) : List Char → Bool
  | [] => part.isEmpty
  | c :: cs => part.isPrefixOf (c :: cs) || mentions part cs

/-- The command of a given text: it reads input if it mentions so. -/
def Command.ofText (text : String) : Command :=
  if mentions inputText.toList text.toList then .input else .other text

/-- The command as it is written. -/
def Command.text : Command → String
  | input => "【" ++ inputText ++ "】"
  | other text => "【" ++ text ++ "】"

/-- Which way a variable is counted or changed. -/
inductive Direction where
  | increasing
  | decreasing
  deriving DecidableEq

/-! ### Trees -/

mutual

/-- An expression.  An operator is kept as the token it was written with. -/
inductive Expr where
  | ident (id : Ident)
  | int (value : Int) (span : Span)
  | str (text : String) (span : Span)
  /-- The value that is given back where none is written. -/
  | absent (span : Span)
  | array (elements : List Expr) (span : Span)
  /-- A sign before its operand, or a negation after it. -/
  | prefixOp (op : Token) (operand : Expr) (span : Span)
  | infixOp (op : Token) (left right : Expr) (span : Span)
  | index (container position : Expr) (span : Span)
  | call (callee : Expr) (arguments : List Expr) (span : Span)
  | builtin (function : Builtin) (arguments : List Expr) (span : Span)
  | function (literal : FunctionLit)
  | command (command : Command) (span : Span)
  | nested (inner : Expr) (span : Span)

/-- The parameters and the body of a function. -/
structure FunctionLit where
  params : List Ident
  body : Block
  span : Span

/-- The statements that belong to a head, from its colon on. -/
structure Block where
  statements : List Stmt
  span : Span

/-- A statement. -/
inductive Stmt where
  | expr (e : Expr)
  | assign (target value : Expr) (span : Span)
  | conditional (c : Conditional)
  /-- Counts a variable from `first` to `last` by `step`. -/
  | counted (counter : Ident) (first last step : Expr) (direction : Direction) (body : Block)
      (span : Span)
  /-- Tests first. -/
  | whileLoop (condition : Expr) (body : Block) (span : Span)
  /-- Tests last. -/
  | untilLoop (body : Block) (condition : Expr) (span : Span)
  /-- Adds to a variable, or subtracts from it. -/
  | change (target amount : Expr) (direction : Direction) (span : Span)
  | define (name : Ident) (function : FunctionLit) (span : Span)
  | giveBack (value : Expr) (span : Span)

/-- A condition, what is done if it holds, and what else. -/
structure Conditional where
  condition : Expr
  consequence : Block
  alternative : ElseBranch
  span : Span

/-- What a conditional does if its condition does not hold. -/
inductive ElseBranch where
  | missing
  | elseIf (c : Conditional)
  | otherwise (b : Block)

end

/-- A whole program. -/
structure Program where
  statements : List Stmt
  span : Span

instance : Inhabited Expr := ⟨.absent default⟩

instance : Inhabited Block := ⟨⟨[], default⟩⟩

instance : Inhabited FunctionLit := ⟨⟨[], default, default⟩⟩

/-! ### Places -/

/-- The span of an expression. -/
def Expr.span : Expr → Span
  | ident id => id.span
  | int _ span | str _ span | absent span => span
  | array _ span => span
  | prefixOp _ _ span => span
  | infixOp _ _ _ span => span
  | index _ _ span => span
  | call _ _ span => span
  | builtin _ _ span => span
  | function literal => literal.span
  | command _ span => span
  | nested _ span => span

/-- The span of a statement. -/
def Stmt.span : Stmt → Span
  | expr e => e.span
  | assign _ _ span => span
  | conditional c => c.span
  | counted _ _ _ _ _ _ span => span
  | whileLoop _ _ span => span
  | untilLoop _ _ span => span
  | change _ _ _ span => span
  | define _ _ span => span
  | giveBack _ span => span

/-- Whether a value can be stored in an expression: a variable, or an element
of what can be stored in. -/
def Expr.isAssignable : Expr → Bool
  | ident _ => true
  | .index container _ _ => container.isAssignable
  | _ => false

end Dncl
