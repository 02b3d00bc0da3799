/-
Dncl/Proofs/Erase.lean

Trees up to the places of their nodes.

`erase` sets all spans of a tree to the same one.  Two trees with the same
erasure are equal but for the places where they were read; they have the same
text (`Program.text_erase`), and a value can be stored in one if it can be
stored in the other.
-/
import Mathlib.Logic.Basic
import Dncl.Syntax.Printer

namespace Dncl

/-! ### Erasing -/

/-- The name without its place. -/
def Ident.erase (id : Ident) : Ident :=
  ⟨id.name, default⟩

mutual

/-- The expression without places. -/
def Expr.erase : Expr → Expr
  | .ident id => .ident id.erase
  | .int value _ => .int value default
  | .str text _ => .str text default
  | .absent _ => .absent default
  | .array elements _ => .array (Expr.eraseAll elements) default
  | .prefixOp op operand _ => .prefixOp op operand.erase default
  | .infixOp op left right _ => .infixOp op left.erase right.erase default
  | .index container position _ => .index container.erase position.erase default
  | .call callee arguments _ => .call callee.erase (Expr.eraseAll arguments) default
  | .builtin function arguments _ => .builtin function (Expr.eraseAll arguments) default
  | .function literal => .function literal.erase
  | .command command _ => .command command default
  | .nested inner _ => .nested inner.erase default

/-- The expressions of a list without places. -/
def Expr.eraseAll : List Expr → List Expr
  | [] => []
  | e :: es => e.erase :: Expr.eraseAll es

/-- The function without places. -/
def FunctionLit.erase : FunctionLit → FunctionLit
  | ⟨params, body, _⟩ => ⟨params.map Ident.erase, body.erase, default⟩

/-- The block without places. -/
def Block.erase : Block → Block
  | ⟨statements, _⟩ => ⟨Stmt.eraseAll statements, default⟩

/-- The statement without places. -/
def Stmt.erase : Stmt → Stmt
  | .expr e => .expr e.erase
  | .assign target value _ => .assign target.erase value.erase default
  | .conditional c => .conditional c.erase
  | .counted counter first last step direction body _ =>
    .counted counter.erase first.erase last.erase step.erase direction body.erase default
  | .whileLoop condition body _ => .whileLoop condition.erase body.erase default
  | .untilLoop body condition _ => .untilLoop body.erase condition.erase default
  | .change target amount direction _ => .change target.erase amount.erase direction default
  | .define name function _ => .define name.erase function.erase default
  | .giveBack value _ => .giveBack value.erase default

/-- The statements of a list without places. -/
def Stmt.eraseAll : List Stmt → List Stmt
  | [] => []
  | s :: ss => s.erase :: Stmt.eraseAll ss

/-- The conditional without places. -/
def Conditional.erase : Conditional → Conditional
  | ⟨condition, consequence, alternative, _⟩ =>
    ⟨condition.erase, consequence.erase, alternative.erase, default⟩

/-- The branch without places. -/
def ElseBranch.erase : ElseBranch → ElseBranch
  | .missing => .missing
  | .elseIf c => .elseIf c.erase
  | .otherwise b => .otherwise b.erase

end

/-- The program without places. -/
def Program.erase (p : Program) : Program :=
  ⟨Stmt.eraseAll p.statements, default⟩

/-! ### What does not depend on places -/

theorem paramList_erase (params : List Ident) :
    paramList (params.map Ident.erase) = paramList params := by
  rw [paramList, paramList, List.map_map]
  rfl

mutual

/-- The text of a tree does not show its places. -/
theorem Expr.text_erase : ∀ e : Expr, e.erase.text = e.text
  | .ident _ | .int _ _ | .str _ _ | .absent _ | .command _ _ => rfl
  | .array elements _ => congrArg (fun ts => "[" ++ Text.joinWith ", " ts ++ "]")
    (Expr.texts_eraseAll elements)
  | .prefixOp op operand _ => congrArg
    (fun t => if op = .keyword .notWord then t ++ " でない" else op.spelling ++ t) operand.text_erase
  | .infixOp op left right _ => congrArg₂ (fun l r => l ++ " " ++ op.spelling ++ " " ++ r)
    left.text_erase right.text_erase
  | .index container position _ => congrArg₂ (fun c p => c ++ "[" ++ p ++ "]")
    container.text_erase position.text_erase
  | .call callee arguments _ => congrArg₂ (fun c as => c ++ "(" ++ Text.joinWith ", " as ++ ")")
    callee.text_erase (Expr.texts_eraseAll arguments)
  | .builtin function arguments _ => congrArg
    (fun as => function.name ++ "(" ++ Text.joinWith ", " as ++ ")") (Expr.texts_eraseAll arguments)
  | .function literal => literal.text_erase
  | .nested inner _ => congrArg (fun t => "(" ++ t ++ ")") inner.text_erase

theorem Expr.texts_eraseAll : ∀ es : List Expr, Expr.texts (Expr.eraseAll es) = Expr.texts es
  | [] => rfl
  | e :: es => congrArg₂ List.cons e.text_erase (Expr.texts_eraseAll es)

theorem FunctionLit.text_erase : ∀ f : FunctionLit, f.erase.text = f.text
  | ⟨params, body, _⟩ => congrArg₂ (fun ps b => "関数(" ++ ps ++ ") を:\n" ++ b ++ "\nと定義する")
    (paramList_erase params) body.text_erase

theorem Block.text_erase : ∀ b : Block, b.erase.text = b.text
  | ⟨statements, _⟩ => congrArg (fun ts : List String => Text.joinWith "\n" (ts.map Text.indent))
    (Stmt.texts_eraseAll statements)

theorem Stmt.text_erase : ∀ s : Stmt, s.erase.text = s.text
  | .expr e => e.text_erase
  | .assign target value _ => congrArg₂ (fun t v => t ++ " = " ++ v) target.text_erase
    value.text_erase
  | .conditional c => c.text_erase
  | .counted counter first last step direction body _ => by
    show counter.name ++ " を " ++ first.erase.text ++ " から " ++ last.erase.text ++ " まで "
      ++ step.erase.text ++ " ずつ" ++ direction.countingWord ++ "繰り返す:\n" ++ body.erase.text = _
    rw [first.text_erase, last.text_erase, step.text_erase, body.text_erase]
    rfl
  | .whileLoop condition body _ => congrArg₂ (fun c b => c ++ " の間繰り返す:\n" ++ b)
    condition.text_erase body.text_erase
  | .untilLoop body condition _ => congrArg₂
    (fun b c => "繰り返し:\n" ++ b ++ "\nを, " ++ c ++ " になるまで実行する") body.text_erase
    condition.text_erase
  | .change target amount direction _ => congrArg₂
    (fun t a => t ++ " を " ++ a ++ " " ++ direction.changingWord) target.text_erase
    amount.text_erase
  | .define name ⟨params, body, _⟩ _ => congrArg₂
    (fun ps b => "関数 " ++ name.name ++ "(" ++ ps ++ ") を:\n" ++ b ++ "\nと定義する")
    (paramList_erase params) body.text_erase
  | .giveBack value _ => congrArg (fun v => v ++ " を返す") value.text_erase

theorem Stmt.texts_eraseAll : ∀ ss : List Stmt, Stmt.texts (Stmt.eraseAll ss) = Stmt.texts ss
  | [] => rfl
  | s :: ss => congrArg₂ List.cons s.text_erase (Stmt.texts_eraseAll ss)

theorem Conditional.text_erase : ∀ c : Conditional, c.erase.text = c.text
  | ⟨condition, consequence, alternative, _⟩ => by
    show "もし " ++ condition.erase.text ++ " ならば:\n" ++ consequence.erase.text
      ++ alternative.erase.text = _
    rw [condition.text_erase, consequence.text_erase, alternative.text_erase]
    rfl

theorem ElseBranch.text_erase : ∀ a : ElseBranch, a.erase.text = a.text
  | .missing => rfl
  | .elseIf c => congrArg (fun t => "\nそうでなく" ++ t) c.text_erase
  | .otherwise b => congrArg (fun t => "\nそうでなければ:\n" ++ t) b.text_erase

end

/-- The text of a program does not depend on places. -/
theorem Program.text_erase (p : Program) : p.erase.text = p.text := by
  rw [Program.text, Program.text, Program.erase, Stmt.texts_eraseAll]

theorem Expr.isAssignable_erase : ∀ e : Expr, e.erase.isAssignable = e.isAssignable
  | .ident _ | .int _ _ | .str _ _ | .absent _ | .command _ _ => rfl
  | .index container _ _ => container.isAssignable_erase
  | .array _ _ | .prefixOp _ _ _ | .infixOp _ _ _ _ | .call _ _ _ | .builtin _ _ _ => rfl
  | .function _ | .nested _ _ => rfl

end Dncl
