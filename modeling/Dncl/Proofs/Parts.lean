/-
Dncl/Proofs/Parts.lean

What a machine has of a program.

A program is a tree of nodes.  While it runs, the machine has only some parts
of the tree: what its control is about to run, and what its frames have kept for
later.  A *part* is a node that may be run, a place that may be blamed, or an
expression that may be stored in.

Design.  `Part.parts` says what a part is made of.  It goes one level down, so
that it follows the machine, which takes a phrase apart by one level in a step.
-/
import Mathlib.Logic.Relation
import Dncl.Machine.Frame

namespace Dncl

/-! ### Nodes -/

/-- A node of a syntax tree. -/
inductive Node where
  | program (p : Program)
  | stmt (s : Stmt)
  | conditional (c : Conditional)
  | block (b : Block)
  | expr (e : Expr)
  | function (f : FunctionLit)
  | ident (id : Ident)

/-- The nodes of what follows a consequence. -/
@[simp] def ElseBranch.nodes : ElseBranch → List Node
  | .missing => []
  | .elseIf c => [.conditional c]
  | .otherwise b => [.block b]

/-- The nodes right below a statement. -/
@[simp] def Stmt.nodes : Stmt → List Node
  | .expr e => [.expr e]
  | .assign target value _ => [.expr target, .expr value]
  | .conditional c => [.conditional c]
  | .counted counter first last step _ body _ =>
    [.ident counter, .expr first, .expr last, .expr step, .block body]
  | .whileLoop condition body _ => [.expr condition, .block body]
  | .untilLoop body condition _ => [.block body, .expr condition]
  | .change target amount _ _ => [.expr target, .expr amount]
  | .define name function _ => [.ident name, .function function]
  | .giveBack value _ => [.expr value]

/-- The nodes right below an expression. -/
@[simp] def Expr.nodes : Expr → List Node
  | .ident _ | .int _ _ | .str _ _ | .absent _ | .command _ _ => []
  | .array elements _ => elements.map .expr
  | .prefixOp _ operand _ => [.expr operand]
  | .infixOp _ left right _ => [.expr left, .expr right]
  | .index container position _ => [.expr container, .expr position]
  | .call callee arguments _ => .expr callee :: arguments.map .expr
  | .builtin _ arguments _ => arguments.map .expr
  | .function literal => [.function literal]
  | .nested inner _ => [.expr inner]

namespace Node

/-- The span of a node. -/
def span : Node → Span
  | program p => p.span
  | stmt s => s.span
  | conditional c => c.span
  | block b => b.span
  | expr e => e.span
  | function f => f.span
  | ident id => id.span

/-- The nodes right below a node. -/
@[simp] def children : Node → List Node
  | program p => p.statements.map stmt
  | stmt s => s.nodes
  | conditional c => .expr c.condition :: .block c.consequence :: c.alternative.nodes
  | block b => b.statements.map stmt
  | expr e => e.nodes
  | function f => f.params.map ident ++ [.block f.body]
  | ident _ => []

/-- The statements of a program or of a block. -/
def statements : Node → List Stmt
  | program p => p.statements
  | block b => b.statements
  | _ => []

/-- One node is below another, or is the same. -/
def IsIn (n root : Node) : Prop :=
  Relation.ReflTransGen (fun a b => b ∈ a.children) root n

end Node

/-! ### Parts -/

/-- What a machine may use of a program: a place that it may blame, an
expression that it may store in, or a node that it may run. -/
inductive Part where
  | place (span : Span)
  | target (e : Expr)
  | node (n : Node)

/-- The expression that a statement stores in. -/
@[simp] def Stmt.target? : Stmt → Option Expr
  | .assign target _ _ => some target
  | .change target _ _ _ => some target
  | _ => none

theorem Stmt.target_mem_nodes {s : Stmt} {e : Expr} (h : s.target? = some e) :
    .expr e ∈ s.nodes := by
  cases s <;> cases h <;> exact List.mem_cons_self

/-- What a node has apart from the nodes below it. -/
@[simp] def Node.own : Node → List Part
  | .stmt s => .place s.span :: s.target?.toList.map .target
  | .expr e => [.place e.span]
  | .ident id => [.place id.span]
  | _ => []

theorem Stmt.target_mem_own {s : Stmt} {e : Expr} (h : s.target? = some e) :
    .target e ∈ Node.own (.stmt s) :=
  List.mem_cons_of_mem _ (List.mem_map_of_mem (Option.mem_toList.2 h))

/-- The parts that a part is made of. -/
@[simp] def Part.parts : Part → List Part
  | .place _ | .target _ => []
  | .node n => n.own ++ n.children.map .node

@[simp] def Purpose.parts : Purpose → List Part
  | .array _ => []
  | .call _ span => [.place span]
  | .builtin _ span => [.place span]

@[simp] def Counting.parts (loop : Counting) : List Part :=
  [.node (.ident loop.counter), .node (.block loop.body)]

/-- What a frame has kept of the program. -/
@[simp] def Frame.parts : Frame → List Part
  | collect purpose _ rest _ => purpose.parts ++ (rest.map .expr).map .node
  | prefixOp _ span => [.place span]
  | infixLeft _ right _ span => [.place span, .node (.expr right)]
  | infixRight _ _ span => [.place span]
  | indexLeft position _ span => [.place span, .node (.expr position)]
  | indexRight _ span => [.place span]
  | callee arguments _ span => .place span :: (arguments.map .expr).map .node
  | sequence rest _ _ => (rest.map .stmt).map .node
  | program rest _ => (rest.map .stmt).map .node
  | assign target _ _ => [.target target, .node (.expr target)]
  | storeLeft position _ _ slot _ => [.place slot, .node (.expr position)]
  | storeRight _ _ slot _ => [.place slot]
  | branch c _ => [.node (.conditional c)]
  | countFirst counter last step _ body span _ =>
    [.place span, .node (.ident counter), .node (.expr last), .node (.expr step),
      .node (.block body)]
  | countLast counter _ step _ body span _ =>
    [.place span, .node (.ident counter), .node (.expr step), .node (.block body)]
  | countStep counter _ _ stepSpan _ body span _ =>
    [.place span, .node (.ident counter), .place stepSpan, .node (.block body)]
  | countBody loop _ => loop.parts
  | whileTest condition body _ _ => [.node (.expr condition), .node (.block body)]
  | whileBody condition body _ _ => [.node (.expr condition), .node (.block body)]
  | untilBody body condition _ _ => [.node (.expr condition), .node (.block body)]
  | untilTest body condition _ _ => [.node (.expr condition), .node (.block body)]
  | changeTarget target amount _ span _ =>
    [.place span, .target target, .node (.expr target), .node (.expr amount)]
  | changeAmount target _ _ span _ => [.place span, .target target, .node (.expr target)]
  | call _ | settle _ | giveBack _ => []

/-- What a control is about to run. -/
@[simp] def Control.parts : Control → List Part
  | expr e _ => [.node (.expr e)]
  | stmt s _ => [.node (.stmt s)]
  | statements rest _ _ => (rest.map .stmt).map .node
  | conditional c _ => [.node (.conditional c)]
  | count loop => loop.parts
  | value _ | abort _ => []

/-- What the machine can come to of the program before it calls a function. -/
inductive Machine.Reaches {σ : Type} (m : Machine σ) : Part → Prop
  | control {p : Part} : p ∈ m.control.parts → m.Reaches p
  | frame {f : Frame} {p : Part} : f ∈ m.frames → p ∈ f.parts → m.Reaches p
  | part {p q : Part} : m.Reaches p → q ∈ p.parts → m.Reaches q

end Dncl
