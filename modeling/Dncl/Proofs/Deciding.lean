/-
Dncl/Proofs/Deciding.lean

Results of the parser can be compared.

A syntax tree holds lists of trees, so its equality is not derived.  `same` goes
through two trees side by side, and it tells true exactly for equal trees: the
induction follows its own recursion (`Stmt.sameAll_iff`).  With it a program that
was read from a text can be compared with the one that should have been read.
-/
import Mathlib.Data.List.Basic
import Dncl.Grammar

namespace Dncl

/-! ### Trees -/

mutual

/-- Whether two expressions are the same. -/
def Expr.same : Expr → Expr → Bool
  | .ident a, .ident b => a = b
  | .int a s, .int b t => a = b ∧ s = t
  | .str a s, .str b t => a = b ∧ s = t
  | .absent s, .absent t => s = t
  | .array as s, .array bs t => s = t && Expr.sameAll as bs
  | .prefixOp o a s, .prefixOp p b t => decide (o = p ∧ s = t) && a.same b
  | .infixOp o a a' s, .infixOp p b b' t => decide (o = p ∧ s = t) && a.same b && a'.same b'
  | .index a a' s, .index b b' t => s = t && a.same b && a'.same b'
  | .call a as s, .call b bs t => s = t && a.same b && Expr.sameAll as bs
  | .builtin f as s, .builtin g bs t => decide (f = g ∧ s = t) && Expr.sameAll as bs
  | .function f, .function g => f.same g
  | .command c s, .command d t => c = d ∧ s = t
  | .nested a s, .nested b t => s = t && a.same b
  | _, _ => false
termination_by structural a => a

/-- Whether two lists of expressions are the same. -/
def Expr.sameAll : List Expr → List Expr → Bool
  | [], [] => true
  | a :: as, b :: bs => a.same b && Expr.sameAll as bs
  | _, _ => false
termination_by structural a => a

/-- Whether two functions are the same. -/
def FunctionLit.same : FunctionLit → FunctionLit → Bool
  | ⟨ps, a, s⟩, ⟨qs, b, t⟩ => decide (ps = qs ∧ s = t) && a.same b
termination_by structural a => a

/-- Whether two blocks are the same. -/
def Block.same : Block → Block → Bool
  | ⟨as, s⟩, ⟨bs, t⟩ => s = t && Stmt.sameAll as bs
termination_by structural a => a

/-- Whether two statements are the same. -/
def Stmt.same : Stmt → Stmt → Bool
  | .expr a, .expr b => a.same b
  | .assign a a' s, .assign b b' t => s = t && a.same b && a'.same b'
  | .conditional a, .conditional b => a.same b
  | .counted i a a' a'' d x s, .counted j b b' b'' e y t =>
    decide (i = j ∧ d = e ∧ s = t) && a.same b && a'.same b' && a''.same b'' && x.same y
  | .whileLoop a x s, .whileLoop b y t => s = t && a.same b && x.same y
  | .untilLoop x a s, .untilLoop y b t => s = t && x.same y && a.same b
  | .change a a' d s, .change b b' e t => decide (d = e ∧ s = t) && a.same b && a'.same b'
  | .define i f s, .define j g t => decide (i = j ∧ s = t) && f.same g
  | .giveBack a s, .giveBack b t => s = t && a.same b
  | _, _ => false
termination_by structural a => a

/-- Whether two lists of statements are the same. -/
def Stmt.sameAll : List Stmt → List Stmt → Bool
  | [], [] => true
  | a :: as, b :: bs => a.same b && Stmt.sameAll as bs
  | _, _ => false
termination_by structural a => a

/-- Whether two conditionals are the same. -/
def Conditional.same : Conditional → Conditional → Bool
  | ⟨a, x, c, s⟩, ⟨b, y, d, t⟩ => s = t && a.same b && x.same y && c.same d
termination_by structural a => a

/-- Whether two alternatives are the same. -/
def ElseBranch.same : ElseBranch → ElseBranch → Bool
  | .missing, .missing => true
  | .elseIf a, .elseIf b => a.same b
  | .otherwise a, .otherwise b => a.same b
  | _, _ => false
termination_by structural a => a

end

/-- Lists of statements are the same exactly if they are equal. -/
theorem Stmt.sameAll_iff (as bs : List Stmt) : Stmt.sameAll as bs = true ↔ as = bs := by
  revert as bs
  apply Stmt.sameAll.induct_unfolding (fun a b r => r = true ↔ a = b)
    (fun a b r => r = true ↔ a = b) (fun a b r => r = true ↔ a = b)
    (fun a b r => r = true ↔ a = b) (fun a b r => r = true ↔ a = b)
    (fun a b r => r = true ↔ a = b) (fun a b r => r = true ↔ a = b)
    (fun a b r => r = true ↔ a = b)
  all_goals try grind
  -- what is left are trees that differ at their root
  all_goals
    intro t u
    intros
    refine iff_of_false Bool.false_ne_true ?_
    rintro rfl
    cases t <;> grind

instance : DecidableEq (List Stmt) :=
  fun as bs => decidable_of_iff _ (Stmt.sameAll_iff as bs)

deriving instance DecidableEq for Program

/-! ### Windows -/

deriving instance DecidableEq for Scanner
deriving instance DecidableEq for Feed
deriving instance DecidableEq for Window

/-- What an action comes to is compared with the window that it leaves. -/
instance decideResult {ε σ α : Type} [DecidableEq ε] [DecidableEq σ] [DecidableEq α] :
    DecidableEq (EStateM.Result ε σ α)
  | .ok a s, .ok b t => decidable_of_iff (a = b ∧ s = t) (by simp)
  | .error e s, .error f t => decidable_of_iff (e = f ∧ s = t) (by simp)
  | .ok _ _, .error _ _ => isFalse (by simp)
  | .error _ _, .ok _ _ => isFalse (by simp)

end Dncl
