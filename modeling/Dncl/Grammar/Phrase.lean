/-
Dncl/Grammar/Phrase.lean

The grammar: one rule for each kind of phrase.

Design.  `Phrase` names the kinds of phrases and `Phrase.Tree` the trees that
they are read as.  A rule says how a phrase is read when parsers for all
phrases are given (`Rules`); so no rule is recursive, and each can be read,
and reasoned about, on its own.  `rule` collects them.

* An expression is an operand followed by operators, as long as they bind
  more tightly than what stands before the expression.
* A statement is told by its first token; one that opens with an expression
  is told by what follows the expression.
* A block follows a colon: statements in the same line, with commas between
  them, or lines that are set in.
-/
import Dncl.Grammar.Window

namespace Dncl

/-- The kinds of phrases. -/
inductive Phrase where
  /-- An expression whose operators bind more tightly than `above`. -/
  | expression (above : Precedence)
  /-- What may follow the expression `left`. -/
  | operators (above : Precedence) (left : Expr)
  /-- Expressions with commas between them, at least one. -/
  | expressions
  /-- Names with commas between them, at least one. -/
  | params
  | block
  /-- Statements in one line with commas between them, at least one. -/
  | sameLine
  /-- Statements up to one of the given tokens. -/
  | statements (stops : List Token)
  | statement
  | conditional
  /-- Line breaks, any number. -/
  | lineBreaks

/-- What a phrase is read as. -/
abbrev Phrase.Tree : Phrase → Type
  | .expression _ => Expr
  | .operators _ _ => Expr
  | .expressions => List Expr
  | .params => List Ident
  | .block => Block
  | .sameLine => List Stmt
  | .statements _ => List Stmt
  | .statement => Stmt
  | .conditional => Conditional
  | .lineBreaks => Unit

/-- Parsers for all phrases. -/
abbrev Rules : Type :=
  (p : Phrase) → Parse p.Tree

namespace Rules

variable (rules : Rules)

/-- Reads an expression. -/
def expression (above : Precedence) : Parse Expr :=
  rules (.expression above)

/-- Reads a whole expression. -/
def wholeExpression : Parse Expr :=
  rules (.expression .lowest)

/-- Reads a block. -/
def block : Parse Block :=
  rules .block

/-- Reads statements up to one of the given tokens. -/
def statements (stops : List Token) : Parse (List Stmt) :=
  rules (.statements stops)

open Parse

/-! ### Operands -/

/-- An integer or a string. -/
def literal : Parse Expr := do
  let lexeme ← advance
  match lexeme.token with
  | .int value => return .int value lexeme.span
  | .str text => return .str text lexeme.span
  | token => fail (.unexpected token ["整数", "文字列"]) lexeme.span

/-- The closing bracket behind the expressions of a list, and its end. -/
def listEnd (closing : Token) (items : List Expr) : Parse (List Expr × Nat) := do
  if (← current) = closing then
    return (items, (← expect closing).stop)
  else unexpected [Symbol.comma.spelling, closing.spelling]

/-- The expressions of a list up to its closing bracket, and the end of the
bracket. -/
def items (closing : Token) : Parse (List Expr × Nat) := do
  if (← current) = closing then listEnd closing []
  else listEnd closing (← rules .expressions)

/-- A list of expressions between brackets, and the end of its closing
bracket. -/
def bracketed (opening closing : Token) : Parse (List Expr × Nat) := do
  discard (expect opening)
  items rules closing

/-- An array. -/
def array : Parse Expr := do
  let start := (← currentSpan).start
  let (elements, stop) ← bracketed rules (.symbol .leftBracket) (.symbol .rightBracket)
  return .array elements ⟨start, stop⟩

/-- An operator and the operand that follows it. -/
def signed : Parse Expr := do
  let op ← advance
  let operand ← expression rules .sign
  return .prefixOp op.token operand ⟨op.span.start, operand.span.stop⟩

/-- An expression in brackets. -/
def nested : Parse Expr := do
  let opening ← expect (.symbol .leftParen)
  let inner ← wholeExpression rules
  let closing ← expect (.symbol .rightParen)
  return .nested inner ⟨opening.start, closing.stop⟩

/-- The call of a built-in function.  Without an argument `戻り値` gives back
no value. -/
def builtinCall (function : Builtin) : Parse Expr := do
  let name ← expectIdent
  let (arguments, stop) ← bracketed rules (.symbol .leftParen) (.symbol .rightParen)
  let span : Span := ⟨name.span.start, stop⟩
  if function = .giveBack && arguments.isEmpty then
    return .builtin function [.absent span] span
  else return .builtin function arguments span

/-- The parameters of a function up to their closing bracket. -/
def paramItems : Parse (List Ident) := do
  let params ← if (← current) = .symbol .rightParen then pure [] else rules .params
  discard (expect (.symbol .rightParen))
  return params

/-- What follows `関数` and a name: parameters, body and end. -/
def functionFrom (start : Nat) : Parse FunctionLit := do
  discard (expect (.symbol .leftParen))
  let params ← paramItems rules
  discard (expect (.keyword .wo))
  let body ← block rules
  skipNewlineIf (· = .keyword .endFunction)
  let closing ← expect (.keyword .endFunction)
  setClosed false
  return ⟨params, body, ⟨start, closing.stop⟩⟩

/-- What an expression begins with. -/
def operand : Parse Expr := do
  match ← current with
  | .int _ | .str _ => literal
  | .command text => return .command (Command.ofText text) (← advance).span
  | .ident name =>
    match Builtin.ofName? name with
    | some function =>
      if (← peek) = .symbol .leftParen then builtinCall rules function
      else return .ident (← expectIdent)
    | none => return .ident (← expectIdent)
  | .symbol .minus | .symbol .plus => signed rules
  | .symbol .leftParen => nested rules
  | .symbol .leftBracket => array rules
  | .keyword .function =>
    let opening ← expect (.keyword .function)
    return .function (← functionFrom rules opening.start)
  | _ => unexpected ["名前", "整数", "文字列", "`(`", "`[`"]

/-! ### Operators -/

/-- An operator after `left`, and its right operand. -/
def joined (left : Expr) : Parse Expr := do
  let op ← advance
  let right ← expression rules op.token.precedence
  return .infixOp op.token left right ⟨left.span.start, right.span.stop⟩

/-- A call of `left`. -/
def called (left : Expr) : Parse Expr := do
  let (arguments, stop) ← bracketed rules (.symbol .leftParen) (.symbol .rightParen)
  return .call left arguments ⟨left.span.start, stop⟩

/-- An element of `left`. -/
def indexed (left : Expr) : Parse Expr := do
  discard (expect (.symbol .leftBracket))
  let position ← wholeExpression rules
  let closing ← expect (.symbol .rightBracket)
  return .index left position ⟨left.span.start, closing.stop⟩

/-- The negation of `left`. -/
def negated (left : Expr) : Parse Expr := do
  let word ← expect (.keyword .notWord)
  return .prefixOp (.keyword .notWord) left ⟨left.span.start, word.stop⟩

/-- Goes on with `left` while operators bind more tightly than `above`. -/
def operators (above : Precedence) (left : Expr) : Parse Expr := do
  let token ← current
  if above.level < token.precedence.level then
    match token with
    | .symbol .leftParen => rules (.operators above (← called rules left))
    | .symbol .leftBracket => rules (.operators above (← indexed rules left))
    | .keyword .notWord => rules (.operators above (← negated left))
    | _ =>
      if token.isOperator then rules (.operators above (← joined rules left))
      else return left
  else return left

/-! ### Lists -/

/-- Expressions with commas between them. -/
def expressions : Parse (List Expr) := do
  let item ← wholeExpression rules
  if (← current) = .symbol .comma then
    discard advance
    return item :: (← rules .expressions)
  else return [item]

/-- Names with commas between them. -/
def params : Parse (List Ident) := do
  let item ← expectIdent
  if (← current) = .symbol .comma then
    discard advance
    return item :: (← rules .params)
  else return [item]

/-- Statements in one line with commas between them. -/
def sameLine : Parse (List Stmt) := do
  let item ← rules .statement
  if (← current) = .symbol .comma then
    discard advance
    return item :: (← rules .sameLine)
  else return [item]

/-- Line breaks, as many as there are. -/
def lineBreaks : Parse Unit := do
  if (← current) = .newline then
    discard advance
    rules .lineBreaks

/-- Statements, each with its end, up to one of the tokens `stops`. -/
def statementsUpTo (stops : List Token) : Parse (List Stmt) := do
  rules .lineBreaks
  if (← current) ∈ stops then return []
  else
    let first ← rules .statement
    expectStatementEnd
    return first :: (← rules (.statements stops))

/-! ### Blocks -/

/-- The end of a block whose colon ends at `stop`. -/
def blockEnd (stop : Nat) (statements : List Stmt) : Nat :=
  (statements.getLast?.map fun s => s.span.stop).getD stop

/-- A colon, and the statements that belong to it. -/
def colonBlock : Parse Block := do
  match ← current with
  | .symbol .colon =>
    let colon ← expect (.symbol .colon)
    if (← current) = .newline then
      discard advance
      if (← current) = .indent then
        discard advance
        let body ← statements rules [.dedent, .eof]
        discard (expect .dedent)
        setClosed true
        return ⟨body, ⟨colon.start, blockEnd colon.stop body⟩⟩
      else fail .blockNeeded (← currentSpan)
    else
      let body ← rules .sameLine
      setClosed false
      return ⟨body, ⟨colon.start, blockEnd colon.stop body⟩⟩
  | .eof => fail .endOfProgram (← currentSpan)
  | _ => fail .blockNeeded (← currentSpan)

/-! ### Statements -/

/-- Refuses an expression in which nothing can be stored. -/
def ensureAssignable (target : Expr) : Parse Unit :=
  if target.isAssignable then pure () else fail .notAssignable target.span

/-- The word that says which way a counted loop runs. -/
def countingWord : Parse Direction := do
  match ← current with
  | .keyword .increasing =>
    discard advance
    return .increasing
  | .keyword .decreasing =>
    discard advance
    return .decreasing
  | _ => unexpected [Keyword.increasing.spelling, Keyword.decreasing.spelling]

/-- The body of a loop, with the word that may stand before it. -/
def loopBody : Parse Block := do
  skipToken (.keyword .repeated)
  block rules

/-- What follows a variable and the first value of a counted loop. -/
def countedFrom (counter first : Expr) : Parse Stmt := do
  match counter with
  | .ident counter =>
    discard (expect (.keyword .startAt))
    let last ← wholeExpression rules
    discard (expect (.keyword .upTo))
    let step ← wholeExpression rules
    discard (expect (.keyword .stepBy))
    let direction ← countingWord
    let body ← loopBody rules
    return .counted counter first last step direction body (counter.span.cover body.span)
  | other => fail .notAssignable other.span

/-- What follows a target and the amount by which it is changed. -/
def changedBy (target amount : Expr) (direction : Direction) : Parse Stmt := do
  ensureAssignable target
  let word ← advance
  return .change target amount direction ⟨target.span.start, word.span.stop⟩

/-- What follows an expression and `を`. -/
def actedOn (object : Expr) : Parse Stmt := do
  discard advance
  let operand ← wholeExpression rules
  match ← current with
  | .keyword .startAt => countedFrom rules object operand
  | .keyword .increase => changedBy object operand .increasing
  | .keyword .decrease => changedBy object operand .decreasing
  | _ =>
    unexpected
      [Keyword.startAt.spelling, Keyword.increase.spelling, Keyword.decrease.spelling]

/-- What makes a statement of the expression `e` before it. -/
def continued (e : Expr) : Parse Stmt := do
  match ← current with
  | .symbol .assign =>
    ensureAssignable e
    discard advance
    let value ← wholeExpression rules
    return .assign e value (e.span.cover value.span)
  | .keyword .wo => actedOn rules e
  | .keyword .whileWord =>
    discard advance
    let body ← loopBody rules
    return .whileLoop e body (e.span.cover body.span)
  | .keyword .giveBack =>
    let word ← expect (.keyword .giveBack)
    return .giveBack e ⟨e.span.start, word.stop⟩
  | _ => return .expr e

/-- A statement that opens with an expression. -/
def expressionStatement : Parse Stmt := do
  continued rules (← wholeExpression rules)

/-- What a conditional does otherwise, and where it ends then. -/
def elseBranch (stop : Nat) : Parse (ElseBranch × Nat) := do
  match ← current with
  | .keyword .elseIf =>
    let c ← rules .conditional
    return (.elseIf c, c.span.stop)
  | .keyword .otherwise =>
    discard advance
    let b ← block rules
    return (.otherwise b, b.span.stop)
  | _ => return (.missing, stop)

/-- What follows the first word of a conditional. -/
def conditionalFrom (start : Nat) : Parse Conditional := do
  let condition ← wholeExpression rules
  discard (expect (.keyword .thenWord))
  let consequence ← block rules
  skipNewlineIf fun t => t = .keyword .elseIf || t = .keyword .otherwise
  let (alternative, stop) ← elseBranch rules consequence.span.stop
  return ⟨condition, consequence, alternative, ⟨start, stop⟩⟩

/-- A conditional, or a further branch of one. -/
def conditional : Parse Conditional := do
  if (← current) = .keyword .elseIf then
    conditionalFrom rules (← expect (.keyword .elseIf)).start
  else conditionalFrom rules (← expect (.keyword .ifWord)).start

/-- A loop that tests last. -/
def untilLoop : Parse Stmt := do
  let word ← expect (.keyword .loop)
  let body ← block rules
  skipNewlineIf (· = .keyword .wo)
  discard (expect (.keyword .wo))
  skipToken (.symbol .comma)
  let condition ← wholeExpression rules
  let closing ← expect (.keyword .untilWord)
  setClosed false
  return .untilLoop body condition ⟨word.start, closing.stop⟩

/-- The definition of a function with a name. -/
def definition : Parse Stmt := do
  let word ← expect (.keyword .function)
  let name ← expectIdent
  let function ← functionFrom rules word.start
  return .define name function ⟨word.start, function.span.stop⟩

/-- Whether the token is a name. -/
def isIdent : Token → Bool
  | .ident _ => true
  | _ => false

/-- A statement. -/
def statement : Parse Stmt := do
  setClosed false
  match ← current with
  | .keyword .function =>
    if isIdent (← peek) then definition rules else expressionStatement rules
  | .keyword .ifWord => return .conditional (← conditional rules)
  | .keyword .loop => untilLoop rules
  | .indent => fail .indented (← currentSpan)
  | _ => expressionStatement rules

/-- A whole program. -/
def program : Parse Program := do
  let body ← statements rules [.eof, .dedent]
  if (← current) = .dedent then unexpected ["文"]
  else
    match body.head?, body.getLast? with
    | some first, some last => return ⟨body, first.span.cover last.span⟩
    | _, _ => return ⟨body, default⟩

end Rules

/-- The rule for each phrase. -/
def rule (rules : Rules) : Rules
  | .expression above => do rules (.operators above (← rules.operand))
  | .operators above left => rules.operators above left
  | .expressions => rules.expressions
  | .params => rules.params
  | .block => rules.colonBlock
  | .sameLine => rules.sameLine
  | .statements stops => rules.statementsUpTo stops
  | .statement => rules.statement
  | .conditional => rules.conditional
  | .lineBreaks => rules.lineBreaks

end Dncl
