/-
Dncl/Proofs/Placing.lean

The places of a tree are those of its words.

`place` gives a tree places: it takes the places of the words with which the
tree is written off a list, in their order, and looks at no place that the tree
has already.  So the places of a tree are known from its shape and from the
places of its words:

    (Stmt.placeAll ss).Gives ss' ys  says that from the list `ys`, and whatever
    follows it, `ss` gets the places of `ss'`, and that `ys` is used up.

Layout, commas and `繰り返す` are no words: no place of a tree comes from them.
-/
import Dncl.Grammar.Phrase
import Dncl.Proofs.Derivation
import Dncl.Proofs.Erase

namespace Dncl

/-! ### Taking places off a list -/

/-- An action that takes places off a list. -/
abbrev Placing : Type → Type :=
  StateT (List Span) Option

namespace Placing

variable {α β : Type}

/-- The place of the next word. -/
def word : Placing Span
  | [] => none
  | s :: rest => some (s, rest)

/-- The action takes `ys` off every list that begins with them, and gives `a`. -/
def Gives (x : Placing α) (a : α) (ys : List Span) : Prop :=
  ∀ rest, x (ys ++ rest) = some (a, rest)

variable {x : Placing α} {f : α → Placing β} {a : α} {b : β} {ys zs : List Span}

theorem gives_pure (a : α) : Gives (pure a) a [] :=
  fun _ => rfl

theorem gives_word (s : Span) : Gives word s [s] :=
  fun _ => rfl

/-- Places are taken off one after the other. -/
theorem Gives.bind (hx : x.Gives a ys) (hf : (f a).Gives b zs) :
    Gives (x >>= f) b (ys ++ zs) := by
  intro rest
  show (x (ys ++ zs ++ rest)).bind (fun p => f p.1 p.2) = some (b, rest)
  rw [List.append_assoc, hx]
  exact hf rest

/-- The action takes one word first. -/
theorem Gives.afterWord {f : Span → Placing β} {s : Span} (hf : (f s).Gives b zs) :
    Gives (word >>= f) b (s :: zs) :=
  (gives_word s).bind hf

/-- The action ends with a result that is known. -/
theorem Gives.map {g : α → β} (hx : x.Gives a ys) :
    Gives (x >>= fun a => pure (g a)) (g a) ys := by
  have h := hx.bind (f := fun a => pure (g a)) (gives_pure (g a))
  rwa [List.append_nil] at h

end Placing

open Placing (word)

/-! ### Placing trees -/

/-- Where a conditional ends whose consequence ends at `stop`. -/
def ElseBranch.stop (stop : Nat) : ElseBranch → Nat
  | .missing => stop
  | .elseIf c => c.span.stop
  | .otherwise b => b.span.stop

/-- Whether the expression is not written. -/
def Expr.isAbsent : Expr → Bool
  | .absent _ => true
  | _ => false

/-- Gives names places. -/
def placeNames : List Ident → Placing (List Ident)
  | [] => pure []
  | id :: ids => do
    let span ← word
    let ids ← placeNames ids
    return ⟨id.name, span⟩ :: ids

mutual

/-- Gives an expression places.  What is not written has no place of its own. -/
def Expr.place : Expr → Placing Expr
  | .ident id => do return .ident ⟨id.name, ← word⟩
  | .int value _ => do return .int value (← word)
  | .str text _ => do return .str text (← word)
  | .absent _ => failure
  | .array elements _ => do
    let opening ← word
    let elements ← Expr.placeAll elements
    let closing ← word
    return .array elements ⟨opening.start, closing.stop⟩
  | .prefixOp op operand _ =>
    if op = .keyword .notWord then do
      let operand ← operand.place
      let closing ← word
      return .prefixOp op operand ⟨operand.span.start, closing.stop⟩
    else do
      let opening ← word
      let operand ← operand.place
      return .prefixOp op operand ⟨opening.start, operand.span.stop⟩
  | .infixOp op left right _ => do
    let left ← left.place
    let _ ← word
    let right ← right.place
    return .infixOp op left right ⟨left.span.start, right.span.stop⟩
  | .index container position _ => do
    let container ← container.place
    let _ ← word
    let position ← position.place
    let closing ← word
    return .index container position ⟨container.span.start, closing.stop⟩
  | .call callee arguments _ => do
    let callee ← callee.place
    let _ ← word
    let arguments ← Expr.placeAll arguments
    let closing ← word
    return .call callee arguments ⟨callee.span.start, closing.stop⟩
  | .builtin function arguments _ => do
    let opening ← word
    let _ ← word
    let arguments ← Expr.placeAll arguments
    let closing ← word
    return .builtin function (function.arguments arguments ⟨opening.start, closing.stop⟩)
      ⟨opening.start, closing.stop⟩
  | .function literal => do
    let opening ← word
    return .function (← literal.place opening)
  | .command command _ => do return .command command (← word)
  | .nested inner _ => do
    let opening ← word
    let inner ← inner.place
    let closing ← word
    return .nested inner ⟨opening.start, closing.stop⟩

/-- Gives the expressions of a list places, those that are written. -/
def Expr.placeAll : List Expr → Placing (List Expr)
  | [] => pure []
  | e :: es =>
    if e.isAbsent then Expr.placeAll es
    else do
      let e ← e.place
      let es ← Expr.placeAll es
      return e :: es

/-- Gives a function places, from its opening bracket on; `opening` is the place
of its first word. -/
def FunctionLit.place (opening : Span) : FunctionLit → Placing FunctionLit
  | ⟨params, body, _⟩ => do
    let _ ← word
    let params ← placeNames params
    let _ ← word
    let _ ← word
    let body ← body.place
    let closing ← word
    return ⟨params, body, ⟨opening.start, closing.stop⟩⟩

/-- Gives a block places, its colon included. -/
def Block.place : Block → Placing Block
  | ⟨statements, _⟩ => do
    let colon ← word
    let statements ← Stmt.placeAll statements
    return ⟨statements, ⟨colon.start, Rules.blockEnd colon.stop statements⟩⟩

/-- Gives a statement places. -/
def Stmt.place : Stmt → Placing Stmt
  | .expr e => do return .expr (← e.place)
  | .assign target value _ => do
    let target ← target.place
    let _ ← word
    let value ← value.place
    return .assign target value (target.span.cover value.span)
  | .conditional c => do return .conditional (← c.place)
  | .counted counter first last step direction body _ => do
    let counterSpan ← word
    let _ ← word
    let first ← first.place
    let _ ← word
    let last ← last.place
    let _ ← word
    let step ← step.place
    let _ ← word
    let _ ← word
    let body ← body.place
    return .counted ⟨counter.name, counterSpan⟩ first last step direction body
      (counterSpan.cover body.span)
  | .whileLoop condition body _ => do
    let condition ← condition.place
    let _ ← word
    let body ← body.place
    return .whileLoop condition body (condition.span.cover body.span)
  | .untilLoop body condition _ => do
    let opening ← word
    let body ← body.place
    let _ ← word
    let condition ← condition.place
    let closing ← word
    return .untilLoop body condition ⟨opening.start, closing.stop⟩
  | .change target amount direction _ => do
    let target ← target.place
    let _ ← word
    let amount ← amount.place
    let closing ← word
    return .change target amount direction ⟨target.span.start, closing.stop⟩
  | .define name function _ => do
    let opening ← word
    let nameSpan ← word
    let function ← function.place opening
    return .define ⟨name.name, nameSpan⟩ function ⟨opening.start, function.span.stop⟩
  | .giveBack value _ => do
    let value ← value.place
    let closing ← word
    return .giveBack value ⟨value.span.start, closing.stop⟩

/-- Gives the statements of a list places. -/
def Stmt.placeAll : List Stmt → Placing (List Stmt)
  | [] => pure []
  | s :: ss => do
    let s ← s.place
    let ss ← Stmt.placeAll ss
    return s :: ss

/-- Gives a conditional places, its first word included. -/
def Conditional.place : Conditional → Placing Conditional
  | ⟨condition, consequence, alternative, _⟩ => do
    let opening ← word
    let condition ← condition.place
    let _ ← word
    let consequence ← consequence.place
    let alternative ← alternative.place
    return ⟨condition, consequence, alternative,
      ⟨opening.start, alternative.stop consequence.span.stop⟩⟩

/-- Gives what follows a consequence places. -/
def ElseBranch.place : ElseBranch → Placing ElseBranch
  | .missing => pure .missing
  | .elseIf c => do return .elseIf (← c.place)
  | .otherwise b => do
    let _ ← word
    return .otherwise (← b.place)

end

/-- The place of a program: from its first statement to its last. -/
def coverAll (ss : List Stmt) : Span :=
  match ss.head?, ss.getLast? with
  | some first, some last => first.span.cover last.span
  | _, _ => default

/-- Gives a program places. -/
def Program.place (p : Program) : Placing Program := do
  let body ← Stmt.placeAll p.statements
  return ⟨body, coverAll body⟩

/-! ### Places that a tree has already -/

theorem Expr.isAbsent_erase (e : Expr) : e.erase.isAbsent = e.isAbsent := by
  cases e <;> rfl

theorem placeNames_erase (ids : List Ident) :
    placeNames (ids.map Ident.erase) = placeNames ids := by
  induction ids with
  | nil => rfl
  | cons id ids ih =>
    rw [List.map_cons, placeNames, placeNames, ih]
    rfl

mutual

/-- Placing looks at no place of the tree. -/
theorem Expr.place_erase : ∀ e : Expr, e.erase.place = e.place
  | .ident _ | .int _ _ | .str _ _ | .absent _ | .command _ _ => rfl
  | .array elements _ => by
    simp only [Expr.erase, Expr.place, Expr.placeAll_erase elements]
  | .prefixOp _ operand _ => by
    simp only [Expr.erase, Expr.place, operand.place_erase]
  | .infixOp _ left right _ => by
    simp only [Expr.erase, Expr.place, left.place_erase, right.place_erase]
  | .index container position _ => by
    simp only [Expr.erase, Expr.place, container.place_erase, position.place_erase]
  | .call callee arguments _ => by
    simp only [Expr.erase, Expr.place, callee.place_erase, Expr.placeAll_erase arguments]
  | .builtin _ arguments _ => by
    simp only [Expr.erase, Expr.place, Expr.placeAll_erase arguments]
  | .function literal => by
    simp only [Expr.erase, Expr.place, literal.place_erase]
  | .nested inner _ => by
    simp only [Expr.erase, Expr.place, inner.place_erase]

theorem Expr.placeAll_erase : ∀ es : List Expr, Expr.placeAll (Expr.eraseAll es) = Expr.placeAll es
  | [] => rfl
  | e :: es => by
    simp only [Expr.eraseAll, Expr.placeAll, e.isAbsent_erase, e.place_erase,
      Expr.placeAll_erase es]

theorem FunctionLit.place_erase (opening : Span) :
    ∀ f : FunctionLit, f.erase.place opening = f.place opening
  | ⟨params, body, _⟩ => by
    simp only [FunctionLit.erase, FunctionLit.place, placeNames_erase, body.place_erase]

theorem Block.place_erase : ∀ b : Block, b.erase.place = b.place
  | ⟨statements, _⟩ => by
    simp only [Block.erase, Block.place, Stmt.placeAll_erase statements]

theorem Stmt.place_erase : ∀ s : Stmt, s.erase.place = s.place
  | .expr e => by
    simp only [Stmt.erase, Stmt.place, e.place_erase]
  | .assign target value _ => by
    simp only [Stmt.erase, Stmt.place, target.place_erase, value.place_erase]
  | .conditional c => by
    simp only [Stmt.erase, Stmt.place, c.place_erase]
  | .counted _ first last step _ body _ => by
    simp only [Stmt.erase, Stmt.place, Ident.erase, first.place_erase, last.place_erase,
      step.place_erase, body.place_erase]
  | .whileLoop condition body _ => by
    simp only [Stmt.erase, Stmt.place, condition.place_erase, body.place_erase]
  | .untilLoop body condition _ => by
    simp only [Stmt.erase, Stmt.place, body.place_erase, condition.place_erase]
  | .change target amount _ _ => by
    simp only [Stmt.erase, Stmt.place, target.place_erase, amount.place_erase]
  | .define _ function _ => by
    simp only [Stmt.erase, Stmt.place, Ident.erase, function.place_erase]
  | .giveBack value _ => by
    simp only [Stmt.erase, Stmt.place, value.place_erase]

theorem Stmt.placeAll_erase : ∀ ss : List Stmt, Stmt.placeAll (Stmt.eraseAll ss) = Stmt.placeAll ss
  | [] => rfl
  | s :: ss => by
    simp only [Stmt.eraseAll, Stmt.placeAll, s.place_erase, Stmt.placeAll_erase ss]

theorem Conditional.place_erase : ∀ c : Conditional, c.erase.place = c.place
  | ⟨condition, consequence, alternative, _⟩ => by
    simp only [Conditional.erase, Conditional.place, condition.place_erase,
      consequence.place_erase, alternative.place_erase]

theorem ElseBranch.place_erase : ∀ b : ElseBranch, b.erase.place = b.place
  | .missing => rfl
  | .elseIf c => by
    simp only [ElseBranch.erase, ElseBranch.place, c.place_erase]
  | .otherwise b => by
    simp only [ElseBranch.erase, ElseBranch.place, b.place_erase]

end

/-! ### Moving -/

/-- The span, `k` bytes further on. -/
def Span.moved (k : Nat) (s : Span) : Span :=
  ⟨s.start + k, s.stop + k⟩

/-- The name, `k` bytes further on. -/
def Ident.moved (k : Nat) (id : Ident) : Ident :=
  ⟨id.name, id.span.moved k⟩

mutual

/-- The expression, `k` bytes further on. -/
def Expr.moved (k : Nat) : Expr → Expr
  | .ident id => .ident (id.moved k)
  | .int value span => .int value (span.moved k)
  | .str text span => .str text (span.moved k)
  | .absent span => .absent (span.moved k)
  | .array elements span => .array (Expr.movedAll k elements) (span.moved k)
  | .prefixOp op operand span => .prefixOp op (operand.moved k) (span.moved k)
  | .infixOp op left right span => .infixOp op (left.moved k) (right.moved k) (span.moved k)
  | .index container position span =>
    .index (container.moved k) (position.moved k) (span.moved k)
  | .call callee arguments span =>
    .call (callee.moved k) (Expr.movedAll k arguments) (span.moved k)
  | .builtin function arguments span =>
    .builtin function (Expr.movedAll k arguments) (span.moved k)
  | .function literal => .function (literal.moved k)
  | .command command span => .command command (span.moved k)
  | .nested inner span => .nested (inner.moved k) (span.moved k)

/-- The expressions of a list, `k` bytes further on. -/
def Expr.movedAll (k : Nat) : List Expr → List Expr
  | [] => []
  | e :: es => e.moved k :: Expr.movedAll k es

/-- The function, `k` bytes further on. -/
def FunctionLit.moved (k : Nat) : FunctionLit → FunctionLit
  | ⟨params, body, span⟩ => ⟨params.map (Ident.moved k), body.moved k, span.moved k⟩

/-- The block, `k` bytes further on. -/
def Block.moved (k : Nat) : Block → Block
  | ⟨statements, span⟩ => ⟨Stmt.movedAll k statements, span.moved k⟩

/-- The statement, `k` bytes further on. -/
def Stmt.moved (k : Nat) : Stmt → Stmt
  | .expr e => .expr (e.moved k)
  | .assign target value span => .assign (target.moved k) (value.moved k) (span.moved k)
  | .conditional c => .conditional (c.moved k)
  | .counted counter first last step direction body span =>
    .counted (counter.moved k) (first.moved k) (last.moved k) (step.moved k) direction
      (body.moved k) (span.moved k)
  | .whileLoop condition body span => .whileLoop (condition.moved k) (body.moved k) (span.moved k)
  | .untilLoop body condition span => .untilLoop (body.moved k) (condition.moved k) (span.moved k)
  | .change target amount direction span =>
    .change (target.moved k) (amount.moved k) direction (span.moved k)
  | .define name function span => .define (name.moved k) (function.moved k) (span.moved k)
  | .giveBack value span => .giveBack (value.moved k) (span.moved k)

/-- The statements of a list, `k` bytes further on. -/
def Stmt.movedAll (k : Nat) : List Stmt → List Stmt
  | [] => []
  | s :: ss => s.moved k :: Stmt.movedAll k ss

/-- The conditional, `k` bytes further on. -/
def Conditional.moved (k : Nat) : Conditional → Conditional
  | ⟨condition, consequence, alternative, span⟩ =>
    ⟨condition.moved k, consequence.moved k, alternative.moved k, span.moved k⟩

/-- The branch, `k` bytes further on. -/
def ElseBranch.moved (k : Nat) : ElseBranch → ElseBranch
  | .missing => .missing
  | .elseIf c => .elseIf (c.moved k)
  | .otherwise b => .otherwise (b.moved k)

end

@[simp] theorem Expr.span_moved (k : Nat) (e : Expr) : (e.moved k).span = e.span.moved k := by
  cases e with
  | function literal =>
    obtain ⟨params, body, span⟩ := literal
    rfl
  | _ => rfl

@[simp] theorem Stmt.span_moved (k : Nat) (s : Stmt) : (s.moved k).span = s.span.moved k := by
  cases s with
  | expr e => exact e.span_moved k
  | conditional c =>
    obtain ⟨condition, consequence, alternative, span⟩ := c
    rfl
  | _ => rfl

@[simp] theorem Block.span_moved (k : Nat) (b : Block) : (b.moved k).span = b.span.moved k := by
  obtain ⟨statements, span⟩ := b
  rfl

@[simp] theorem FunctionLit.span_moved (k : Nat) (f : FunctionLit) :
    (f.moved k).span = f.span.moved k := by
  obtain ⟨params, body, span⟩ := f
  rfl

@[simp] theorem Conditional.span_moved (k : Nat) (c : Conditional) :
    (c.moved k).span = c.span.moved k := by
  obtain ⟨condition, consequence, alternative, span⟩ := c
  rfl

@[simp] theorem Span.cover_moved (k : Nat) (a b : Span) :
    (a.moved k).cover (b.moved k) = (a.cover b).moved k := by
  simp only [Span.moved, Span.cover, Nat.add_min_add_right, Nat.add_max_add_right]

theorem Stmt.movedAll_eq_map (k : Nat) (ss : List Stmt) :
    Stmt.movedAll k ss = ss.map (Stmt.moved k) := by
  induction ss with
  | nil => rfl
  | cons s ss ih => rw [Stmt.movedAll, ih, List.map_cons]

/-- The end of a block moves with it. -/
theorem Rules.blockEnd_moved (k stop : Nat) (ss : List Stmt) :
    Rules.blockEnd (stop + k) (Stmt.movedAll k ss) = Rules.blockEnd stop ss + k := by
  rw [Rules.blockEnd, Rules.blockEnd, Stmt.movedAll_eq_map, List.getLast?_map]
  cases ss.getLast? with
  | none => rfl
  | some s =>
    simp only [Option.map_some, Option.getD_some, Stmt.span_moved]
    rfl

theorem ElseBranch.stop_moved (k stop : Nat) (b : ElseBranch) :
    (b.moved k).stop (stop + k) = b.stop stop + k := by
  cases b with
  | missing => rfl
  | elseIf c =>
    simp only [ElseBranch.moved, ElseBranch.stop, Conditional.span_moved]
    rfl
  | otherwise b =>
    simp only [ElseBranch.moved, ElseBranch.stop, Block.span_moved]
    rfl

theorem Builtin.movedAll_arguments (k : Nat) (function : Builtin) (es : List Expr) (span : Span) :
    Expr.movedAll k (function.arguments es span) =
      function.arguments (Expr.movedAll k es) (span.moved k) := by
  rw [Builtin.arguments, Builtin.arguments]
  cases es with
  | nil =>
    by_cases h : function = .giveBack
    · subst h
      rfl
    · simp only [h, decide_false, Bool.false_and]
      rfl
  | cons e es =>
    rw [Expr.movedAll, List.isEmpty_cons, List.isEmpty_cons, Bool.and_false]
    rfl

namespace Placing

variable {α β : Type} {k : Nat}

/-- From places that are `k` bytes further on, `y` gives what `x` gives, moved
by `g`. -/
def Moves (k : Nat) (g : α → α) (x y : Placing α) : Prop :=
  ∀ xs, y (xs.map (Span.moved k)) =
    (x xs).map fun r => (g r.1, r.2.map (Span.moved k))

/-- Actions that move with their places, one after the other. -/
theorem Moves.bind {g : α → α} {h : β → β} {x y : Placing α} {f f' : α → Placing β}
    (hx : Moves k g x y) (hf : ∀ a, Moves k h (f a) (f' (g a))) :
    Moves k h (x >>= f) (y >>= f') := by
  intro xs
  show (y (xs.map (Span.moved k))).bind (fun r => f' r.1 r.2) =
    ((x xs).bind fun r => f r.1 r.2).map _
  rw [hx]
  cases x xs with
  | none => rfl
  | some r => exact hf r.1 r.2

theorem moves_word : Moves k (Span.moved k) word word := by
  intro xs
  cases xs <;> rfl

theorem moves_pure {g : α → α} {a b : α} (h : b = g a) : Moves k g (pure a) (pure b) := by
  intro xs
  rw [h]
  rfl

/-- Places that are moved give a tree that is moved. -/
theorem Moves.gives {g : α → α} {x y : Placing α} {a : α} {ys : List Span}
    (h : Moves k g x y) (hx : x.Gives a ys) : y (ys.map (Span.moved k)) = some (g a, []) := by
  have hx₀ := hx []
  rw [List.append_nil] at hx₀
  rw [h, hx₀]
  rfl

end Placing

open Placing

theorem placeNames_moves (k : Nat) (ids : List Ident) :
    Moves k (List.map (Ident.moved k)) (placeNames ids) (placeNames ids) := by
  induction ids with
  | nil => exact moves_pure rfl
  | cons id ids ih =>
    rw [placeNames]
    exact moves_word.bind fun span => ih.bind fun ids => moves_pure rfl

mutual

/-- The places of a tree move with those of its words. -/
theorem Expr.place_moves (k : Nat) : ∀ e : Expr, Moves k (Expr.moved k) e.place e.place
  | .ident _ | .int _ _ | .str _ _ | .command _ _ => moves_word.bind fun _ => moves_pure rfl
  | .absent _ => fun _ => rfl
  | .array elements _ => by
    rw [Expr.place]
    exact moves_word.bind fun opening => (Expr.placeAll_moves k elements).bind fun elements =>
      moves_word.bind fun closing => moves_pure rfl
  | .prefixOp op operand _ => by
    rw [Expr.place]
    split
    · exact (operand.place_moves k).bind fun operand => moves_word.bind fun closing =>
        moves_pure (by rw [Expr.moved, Expr.span_moved]; rfl)
    · exact moves_word.bind fun opening => (operand.place_moves k).bind fun operand =>
        moves_pure (by rw [Expr.moved, Expr.span_moved]; rfl)
  | .infixOp _ left right _ => by
    rw [Expr.place]
    exact (left.place_moves k).bind fun left => moves_word.bind fun _ =>
      (right.place_moves k).bind fun right =>
        moves_pure (by rw [Expr.moved, Expr.span_moved, Expr.span_moved]; rfl)
  | .index container position _ => by
    rw [Expr.place]
    exact (container.place_moves k).bind fun container => moves_word.bind fun _ =>
      (position.place_moves k).bind fun position => moves_word.bind fun closing =>
        moves_pure (by rw [Expr.moved, Expr.span_moved]; rfl)
  | .call callee arguments _ => by
    rw [Expr.place]
    exact (callee.place_moves k).bind fun callee => moves_word.bind fun _ =>
      (Expr.placeAll_moves k arguments).bind fun arguments => moves_word.bind fun closing =>
        moves_pure (by rw [Expr.moved, Expr.span_moved]; rfl)
  | .builtin function arguments _ => by
    rw [Expr.place]
    exact moves_word.bind fun opening => moves_word.bind fun _ =>
      (Expr.placeAll_moves k arguments).bind fun arguments => moves_word.bind fun closing =>
        moves_pure (by rw [Expr.moved, Builtin.movedAll_arguments]; rfl)
  | .function literal => by
    rw [Expr.place]
    exact moves_word.bind fun opening => (literal.place_moves k opening).bind fun literal =>
      moves_pure rfl
  | .nested inner _ => by
    rw [Expr.place]
    exact moves_word.bind fun opening => (inner.place_moves k).bind fun inner =>
      moves_word.bind fun closing => moves_pure rfl

theorem Expr.placeAll_moves (k : Nat) :
    ∀ es : List Expr, Moves k (Expr.movedAll k) (Expr.placeAll es) (Expr.placeAll es)
  | [] => moves_pure rfl
  | e :: es => by
    rw [Expr.placeAll]
    split
    · exact Expr.placeAll_moves k es
    · exact (e.place_moves k).bind fun e => (Expr.placeAll_moves k es).bind fun es =>
        moves_pure rfl

theorem FunctionLit.place_moves (k : Nat) (opening : Span) : ∀ f : FunctionLit,
    Moves k (FunctionLit.moved k) (f.place opening) (f.place (opening.moved k))
  | ⟨params, body, _⟩ => by
    rw [FunctionLit.place, FunctionLit.place]
    exact moves_word.bind fun _ => (placeNames_moves k params).bind fun params =>
      moves_word.bind fun _ => moves_word.bind fun _ => (body.place_moves k).bind fun body =>
        moves_word.bind fun closing => moves_pure rfl

theorem Block.place_moves (k : Nat) : ∀ b : Block, Moves k (Block.moved k) b.place b.place
  | ⟨statements, _⟩ => by
    rw [Block.place]
    exact moves_word.bind fun colon => (Stmt.placeAll_moves k statements).bind fun statements =>
      moves_pure (by
        simp only [Block.moved, Span.moved, Rules.blockEnd_moved])

theorem Stmt.place_moves (k : Nat) : ∀ s : Stmt, Moves k (Stmt.moved k) s.place s.place
  | .expr e => by
    rw [Stmt.place]
    exact (e.place_moves k).bind fun e => moves_pure rfl
  | .assign target value _ => by
    rw [Stmt.place]
    exact (target.place_moves k).bind fun target => moves_word.bind fun _ =>
      (value.place_moves k).bind fun value => moves_pure (by simp [Stmt.moved])
  | .conditional c => by
    rw [Stmt.place]
    exact (c.place_moves k).bind fun c => moves_pure rfl
  | .counted _ first last step _ body _ => by
    rw [Stmt.place]
    exact moves_word.bind fun counter => moves_word.bind fun _ =>
      (first.place_moves k).bind fun first => moves_word.bind fun _ =>
        (last.place_moves k).bind fun last => moves_word.bind fun _ =>
          (step.place_moves k).bind fun step => moves_word.bind fun _ => moves_word.bind fun _ =>
            (body.place_moves k).bind fun body => moves_pure (by simp [Stmt.moved, Ident.moved])
  | .whileLoop condition body _ => by
    rw [Stmt.place]
    exact (condition.place_moves k).bind fun condition => moves_word.bind fun _ =>
      (body.place_moves k).bind fun body => moves_pure (by simp [Stmt.moved])
  | .untilLoop body condition _ => by
    rw [Stmt.place]
    exact moves_word.bind fun opening => (body.place_moves k).bind fun body =>
      moves_word.bind fun _ => (condition.place_moves k).bind fun condition =>
        moves_word.bind fun closing => moves_pure rfl
  | .change target amount _ _ => by
    rw [Stmt.place]
    exact (target.place_moves k).bind fun target => moves_word.bind fun _ =>
      (amount.place_moves k).bind fun amount => moves_word.bind fun closing =>
        moves_pure (by rw [Stmt.moved, Expr.span_moved]; rfl)
  | .define name function _ => by
    rw [Stmt.place]
    exact moves_word.bind fun opening => moves_word.bind fun nameSpan =>
      (function.place_moves k opening).bind fun function =>
        moves_pure (by rw [Stmt.moved, FunctionLit.span_moved]; rfl)
  | .giveBack value _ => by
    rw [Stmt.place]
    exact (value.place_moves k).bind fun value => moves_word.bind fun closing =>
      moves_pure (by rw [Stmt.moved, Expr.span_moved]; rfl)

theorem Stmt.placeAll_moves (k : Nat) :
    ∀ ss : List Stmt, Moves k (Stmt.movedAll k) (Stmt.placeAll ss) (Stmt.placeAll ss)
  | [] => moves_pure rfl
  | s :: ss => by
    rw [Stmt.placeAll]
    exact (s.place_moves k).bind fun s => (Stmt.placeAll_moves k ss).bind fun ss => moves_pure rfl

theorem Conditional.place_moves (k : Nat) :
    ∀ c : Conditional, Moves k (Conditional.moved k) c.place c.place
  | ⟨condition, consequence, alternative, _⟩ => by
    rw [Conditional.place]
    exact moves_word.bind fun opening => (condition.place_moves k).bind fun condition =>
      moves_word.bind fun _ => (consequence.place_moves k).bind fun consequence =>
        (alternative.place_moves k).bind fun alternative => moves_pure (by
          simp only [Conditional.moved, Block.span_moved, Span.moved, ElseBranch.stop_moved])

theorem ElseBranch.place_moves (k : Nat) :
    ∀ b : ElseBranch, Moves k (ElseBranch.moved k) b.place b.place
  | .missing => moves_pure rfl
  | .elseIf c => by
    rw [ElseBranch.place]
    exact (c.place_moves k).bind fun c => moves_pure rfl
  | .otherwise b => by
    rw [ElseBranch.place]
    exact moves_word.bind fun _ => (b.place_moves k).bind fun b => moves_pure rfl

end

end Dncl
