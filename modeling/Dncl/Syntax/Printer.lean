/-
Dncl/Syntax/Printer.lean

The normal form of a program, as text.

Every statement begins a line.  A block stands on lines of its own, set in by
four spaces below its head, also if it was written behind the colon.  Symbols
take their normal spelling and operators one blank on either side; brackets
stay where they were written, so no brackets are added or lost.
-/
import Dncl.Syntax
import Dncl.Text.Line

namespace Dncl

/-- One character of a string literal. -/
def escaped (c : Char) : List Char :=
  if c = '\\' then ['\\', '\\']
  else if c = '"' then ['\\', '"']
  else if c = '\n' then ['\\', 'n']
  else if c = '\t' then ['\\', 't']
  else [c]

/-- A string literal for `text`. -/
def strLiteral (text : String) : String :=
  "\"" ++ String.ofList (text.toList.flatMap escaped) ++ "\""

/-- The names of a list of parameters. -/
def paramList (params : List Ident) : String :=
  Text.joinWith ", " (params.map Ident.name)

namespace Direction

/-- The word for counting a variable. -/
def countingWord : Direction → String
  | increasing => "増やしながら"
  | decreasing => "減らしながら"

/-- The word for changing a variable. -/
def changingWord : Direction → String
  | increasing => "増やす"
  | decreasing => "減らす"

end Direction

mutual

/-- The text of an expression. -/
def Expr.text : Expr → String
  | .ident id => id.name
  | .int value _ => toString value
  | .str text _ => strLiteral text
  | .absent _ => ""
  | .array elements _ => "[" ++ Text.joinWith ", " (Expr.texts elements) ++ "]"
  | .prefixOp op operand _ =>
    if op = .keyword .notWord then operand.text ++ " でない" else op.spelling ++ operand.text
  | .infixOp op left right _ => left.text ++ " " ++ op.spelling ++ " " ++ right.text
  | .index container position _ => container.text ++ "[" ++ position.text ++ "]"
  | .call callee arguments _ =>
    callee.text ++ "(" ++ Text.joinWith ", " (Expr.texts arguments) ++ ")"
  | .builtin function arguments _ =>
    function.name ++ "(" ++ Text.joinWith ", " (Expr.texts arguments) ++ ")"
  | .function literal => literal.text
  | .command command _ => command.text
  | .nested inner _ => "(" ++ inner.text ++ ")"

/-- The texts of the expressions of a list. -/
def Expr.texts : List Expr → List String
  | [] => []
  | e :: es => e.text :: Expr.texts es

/-- The text of a function without a name. -/
def FunctionLit.text : FunctionLit → String
  | ⟨params, body, _⟩ => "関数(" ++ paramList params ++ ") を:\n" ++ body.text ++ "\nと定義する"

/-- The lines of a block, set in. -/
def Block.text : Block → String
  | ⟨statements, _⟩ => Text.joinWith "\n" ((Stmt.texts statements).map Text.indent)

/-- The text of a statement. -/
def Stmt.text : Stmt → String
  | .expr e => e.text
  | .assign target value _ => target.text ++ " = " ++ value.text
  | .conditional c => c.text
  | .counted counter first last step direction body _ =>
    counter.name ++ " を " ++ first.text ++ " から " ++ last.text ++ " まで " ++ step.text
      ++ " ずつ" ++ direction.countingWord ++ "繰り返す:\n" ++ body.text
  | .whileLoop condition body _ => condition.text ++ " の間繰り返す:\n" ++ body.text
  | .untilLoop body condition _ =>
    "繰り返し:\n" ++ body.text ++ "\nを, " ++ condition.text ++ " になるまで実行する"
  | .change target amount direction _ =>
    target.text ++ " を " ++ amount.text ++ " " ++ direction.changingWord
  | .define name ⟨params, body, _⟩ _ =>
    "関数 " ++ name.name ++ "(" ++ paramList params ++ ") を:\n" ++ body.text ++ "\nと定義する"
  | .giveBack value _ => value.text ++ " を返す"

/-- The texts of the statements of a list. -/
def Stmt.texts : List Stmt → List String
  | [] => []
  | s :: ss => s.text :: Stmt.texts ss

/-- The text of a conditional with all its branches. -/
def Conditional.text : Conditional → String
  | ⟨condition, consequence, alternative, _⟩ =>
    "もし " ++ condition.text ++ " ならば:\n" ++ consequence.text ++ alternative.text

/-- The text of what follows a consequence. -/
def ElseBranch.text : ElseBranch → String
  | .missing => ""
  | .elseIf c => "\nそうでなく" ++ c.text
  | .otherwise b => "\nそうでなければ:\n" ++ b.text

end

/-- The text of a program. -/
def Program.text (p : Program) : String :=
  Text.joinWith "\n" (Stmt.texts p.statements)

end Dncl
