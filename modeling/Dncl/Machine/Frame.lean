/-
Dncl/Machine/Frame.lean

States of the machine that runs programs.

Design.  The machine has a control, which says what is done now, and a stack
of frames, which say what is done with the value after that.  So the state
of a run is plain data: no step of the machine is nested in another.

A frame has a hole for one value.  Its comment writes the hole as `□`.
-/
import Dncl.Host

namespace Dncl

/-- What is made of the values of a list of expressions. -/
inductive Purpose where
  /-- An array. -/
  | array (span : Span)
  /-- A call of a function. -/
  | call (callee : Value) (span : Span)
  /-- A call of a built-in function. -/
  | builtin (function : Builtin) (span : Span)

/-- A counted loop whose bounds are known. -/
structure Counting where
  counter : Ident
  last : Int
  step : Int
  direction : Direction
  body : Block
  span : Span
  env : Env

/-- What is done with the next value. -/
inductive Frame where
  /-- `[v, □, e]`, or a call with such arguments; `done` is in reverse. -/
  | collect (purpose : Purpose) (done : List Value) (rest : List Expr) (env : Env)
  /-- `-□` -/
  | prefixOp (op : Token) (span : Span)
  /-- `□ + e` -/
  | infixLeft (op : Token) (right : Expr) (env : Env) (span : Span)
  /-- `v + □` -/
  | infixRight (op : Token) (left : Value) (span : Span)
  /-- `□[e]` -/
  | indexLeft (position : Expr) (env : Env) (span : Span)
  /-- `v[□]` -/
  | indexRight (container : Value) (span : Span)
  /-- `□(e)` -/
  | callee (arguments : List Expr) (env : Env) (span : Span)
  /-- The body of a function that was called, `□`. -/
  | call (span : Span)
  /-- `□` and further statements of a block. -/
  | sequence (rest : List Stmt) (span : Span) (env : Env)
  /-- `□` and further statements of a program. -/
  | program (rest : List Stmt) (env : Env)
  /-- `target = □` -/
  | assign (target : Expr) (env : Env) (span : Span)
  /-- `□[e] = v`; `slot` is the span of the element. -/
  | storeLeft (position : Expr) (value : Value) (env : Env) (slot span : Span)
  /-- `v[□] = w`; `slot` is the span of the element. -/
  | storeRight (container value : Value) (slot span : Span)
  /-- The condition `□` of a conditional. -/
  | branch (conditional : Conditional) (env : Env)
  /-- A statement whose value `□` is dropped. -/
  | settle (span : Span)
  /-- The first value `□` of a counted loop. -/
  | countFirst (counter : Ident) (last step : Expr) (direction : Direction) (body : Block)
      (span : Span) (env : Env)
  /-- The last value `□` of a counted loop. -/
  | countLast (counter : Ident) (first : Value) (step : Expr) (direction : Direction)
      (body : Block) (span : Span) (env : Env)
  /-- The step `□` of a counted loop. -/
  | countStep (counter : Ident) (first last : Value) (stepSpan : Span) (direction : Direction)
      (body : Block) (span : Span) (env : Env)
  /-- The body `□` of a counted loop, when the variable was `current`. -/
  | countBody (loop : Counting) (current : Int)
  /-- The condition `□` of a loop that tests first. -/
  | whileTest (condition : Expr) (body : Block) (span : Span) (env : Env)
  /-- The body `□` of a loop that tests first. -/
  | whileBody (condition : Expr) (body : Block) (span : Span) (env : Env)
  /-- The body `□` of a loop that tests last. -/
  | untilBody (body : Block) (condition : Expr) (span : Span) (env : Env)
  /-- The condition `□` of a loop that tests last. -/
  | untilTest (body : Block) (condition : Expr) (span : Span) (env : Env)
  /-- `□ を e 増やす` -/
  | changeTarget (target amount : Expr) (direction : Direction) (span : Span) (env : Env)
  /-- `v を □ 増やす` -/
  | changeAmount (target : Expr) (current : Value) (direction : Direction) (span : Span)
      (env : Env)
  /-- `□ を返す` -/
  | giveBack (span : Span)

/-- What the machine does now. -/
inductive Control where
  /-- Evaluates an expression. -/
  | expr (e : Expr) (env : Env)
  /-- Runs a statement. -/
  | stmt (s : Stmt) (env : Env)
  /-- Runs the statements of a block that are left. -/
  | statements (rest : List Stmt) (span : Span) (env : Env)
  /-- Tests the condition of a conditional. -/
  | conditional (c : Conditional) (env : Env)
  /-- Tests whether a counted loop goes on. -/
  | count (loop : Counting)
  /-- Hands a value to the topmost frame. -/
  | value (v : Value)
  /-- Leaves all frames because of a failure. -/
  | abort (failure : Fatal)

/-- A state of the machine, with a host whose state is of type `σ`. -/
structure Machine (σ : Type) where
  control : Control
  frames : List Frame
  store : Store
  /-- How many functions are active. -/
  depth : Nat
  world : σ

end Dncl
