/-
Dncl/Syntax/Outline.lean

Outlines: a syntax tree written out node by node.

An outline is a tree of named records, named tuples and lists.  Each part of
a node stands on a line of its own, set in by four spaces and followed by a
comma.
-/
import Dncl.Syntax
import Dncl.Token.Listing

namespace Dncl

/-! ### Outlines and their layout -/

/-- A tree of named nodes. -/
inductive Outline where
  /-- A text on its own. -/
  | leaf (text : String)
  /-- A name with named parts. -/
  | record (name : String) (fields : List (String × Outline))
  /-- A name with parts in order. -/
  | tuple (name : String) (parts : List Outline)
  | list (items : List Outline)

namespace Outline

/-- The blanks before a line at a given level. -/
def margin (level : Nat) : String :=
  String.ofList (List.replicate (4 * level) ' ')

mutual

/-- The outline as text, when it begins in a line of the given level. -/
def render (level : Nat) : Outline → String
  | leaf text => text
  | record name fields =>
    name ++ " \x7b\n" ++ renderFields (level + 1) fields ++ margin level ++ "\x7d"
  | tuple name parts => name ++ "(\n" ++ renderParts (level + 1) parts ++ margin level ++ ")"
  | list [] => "[]"
  | list (item :: items) =>
    "[\n" ++ renderParts (level + 1) (item :: items) ++ margin level ++ "]"

/-- Named parts, one below the other. -/
def renderFields (level : Nat) : List (String × Outline) → String
  | [] => ""
  | (name, o) :: rest =>
    margin level ++ name ++ ": " ++ o.render level ++ ",\n" ++ renderFields level rest

/-- Parts, one below the other. -/
def renderParts (level : Nat) : List Outline → String
  | [] => ""
  | o :: rest => margin level ++ o.render level ++ ",\n" ++ renderParts level rest

end

end Outline

/-! ### Outlines of trees -/

/-- A span with its two offsets. -/
def Span.outline (s : Span) : Outline :=
  .record "SrcSpan" [("start", .leaf (toString s.start)), ("end", .leaf (toString s.stop))]

/-- A name and its place. -/
def Ident.outline (id : Ident) : Outline :=
  .record "Identifier" [("value", .leaf (Text.quote id.name)), ("location", id.span.outline)]

/-- The kind of a built-in function. -/
def Builtin.kind : Builtin → String
  | print => "Print"
  | length => "Length"
  | diff => "Diff"
  | giveBack => "Return"

/-- The kind of a direction. -/
def Direction.kind : Direction → String
  | increasing => "Increasing"
  | decreasing => "Decreasing"

/-- A command and its place. -/
def Command.outline (span : Span) : Command → Outline
  | input => .record "Input" [("location", span.outline)]
  | other text =>
    .record "Unknown" [("command", .leaf (Text.quote text)), ("location", span.outline)]

mutual

/-- The outline of an expression. -/
def Expr.outline : Expr → Outline
  | .ident id => .tuple "Identifier" [id.outline]
  | .int value span =>
    .tuple "Primitive" [.record "Int"
      [("value", .leaf (toString value)), ("location", span.outline)]]
  | .str text span =>
    .tuple "Primitive" [.record "Str"
      [("value", .leaf (Text.quote text)), ("location", span.outline)]]
  | .absent span => .tuple "Primitive" [.record "System" [("location", span.outline)]]
  | .array elements span =>
    .tuple "Array" [.record "ArrayLiteral"
      [("elements", .list (Expr.outlines elements)), ("location", span.outline)]]
  | .prefixOp op operand span =>
    .tuple "Prefix" [.record "Prefix"
      [("operator", .leaf op.listing), ("expression", operand.outline),
        ("location", span.outline)]]
  | .infixOp op left right span =>
    .tuple "Infix" [.record "Infix"
      [("left", left.outline), ("operator", .leaf op.listing), ("right", right.outline),
        ("location", span.outline)]]
  | .index container position span =>
    .tuple "Index" [.record "Index"
      [("array", container.outline), ("index", position.outline), ("location", span.outline)]]
  | .call callee arguments span =>
    .tuple "Call" [.record "Call"
      [("function", callee.outline), ("arguments", .list (Expr.outlines arguments)),
        ("location", span.outline)]]
  | .builtin function arguments span =>
    .tuple "BuiltinCall" [.record "BuiltinCall"
      [("function", .leaf function.kind), ("arguments", .list (Expr.outlines arguments)),
        ("location", span.outline)]]
  | .function literal => .tuple "Function" [literal.outline]
  | .command command span => .tuple "SystemCommand" [command.outline span]
  | .nested inner span =>
    .record "Nested" [("expression", inner.outline), ("location", span.outline)]

/-- The outlines of the expressions of a list. -/
def Expr.outlines : List Expr → List Outline
  | [] => []
  | e :: es => e.outline :: Expr.outlines es

/-- The outline of a function. -/
def FunctionLit.outline : FunctionLit → Outline
  | ⟨params, body, span⟩ =>
    .record "FunctionLiteral"
      [("parameters", .list (params.map Ident.outline)), ("body", body.outline),
        ("location", span.outline)]

/-- The outline of a block. -/
def Block.outline : Block → Outline
  | ⟨statements, span⟩ =>
    .record "Block" [("statements", .list (Stmt.outlines statements)), ("location", span.outline)]

/-- The outline of a statement. -/
def Stmt.outline : Stmt → Outline
  | .expr e => .tuple "Expression" [e.outline]
  | .assign target value span =>
    .tuple "Assignment" [.record "Assignment"
      [("target", target.outline), ("value", value.outline), ("location", span.outline)]]
  | .conditional c => .tuple "Conditional" [c.outline]
  | .counted counter first last step direction body span =>
    .tuple "CountedLoop" [.record "CountedLoop"
      [("variable", counter.outline), ("from", first.outline), ("to", last.outline),
        ("step", step.outline), ("direction", .leaf direction.kind), ("body", body.outline),
        ("location", span.outline)]]
  | .whileLoop condition body span =>
    .tuple "WhileLoop" [.record "WhileLoop"
      [("condition", condition.outline), ("body", body.outline), ("location", span.outline)]]
  | .untilLoop body condition span =>
    .tuple "DoUntilLoop" [.record "DoUntilLoop"
      [("body", body.outline), ("condition", condition.outline), ("location", span.outline)]]
  | .change target amount direction span =>
    .tuple "Increment" [.record "Increment"
      [("target", target.outline), ("amount", amount.outline),
        ("direction", .leaf direction.kind), ("location", span.outline)]]
  | .define name function span =>
    .tuple "FunctionDefinition" [.record "FunctionDefinition"
      [("name", name.outline), ("function", function.outline), ("location", span.outline)]]
  | .giveBack value span =>
    .tuple "Return" [.record "Return" [("value", value.outline), ("location", span.outline)]]

/-- The outlines of the statements of a list. -/
def Stmt.outlines : List Stmt → List Outline
  | [] => []
  | s :: ss => s.outline :: Stmt.outlines ss

/-- The outline of a conditional. -/
def Conditional.outline : Conditional → Outline
  | ⟨condition, consequence, alternative, span⟩ =>
    .record "Conditional"
      [("condition", condition.outline), ("consequence", consequence.outline),
        ("alternative", alternative.outline), ("location", span.outline)]

/-- The outline of what follows a consequence. -/
def ElseBranch.outline : ElseBranch → Outline
  | .missing => .leaf "None"
  | .elseIf c => .tuple "Some" [.tuple "ElseIf" [c.outline]]
  | .otherwise b => .tuple "Some" [.tuple "Else" [b.outline]]

end

/-- The outline of a program. -/
def Program.outline (p : Program) : Outline :=
  .record "Program"
    [("statements", .list (Stmt.outlines p.statements)), ("location", p.span.outline)]

end Dncl
