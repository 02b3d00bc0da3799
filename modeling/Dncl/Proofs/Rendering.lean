/-
Dncl/Proofs/Rendering.lean

The tokens of a tree, and how they are read back.

`tokens` writes a tree as tokens in the way its text does: outside brackets a
block stands on lines of its own, between an indent and a dedent; inside
brackets there is no layout and the statement of a block follows its colon.

    Reads f c ts t c' ts'  →  Reads f c (t.tokens b ++ us) t c' us

says that a tree that was read from some tokens `ts` is read from its own
tokens too, whatever `us` comes after them.

Design.  Not every tree can be read back inside brackets: a conditional in the
consequence of another one takes its alternative away, and two statements need
a comma between them.  The first cannot come from a text, which is why the
proof follows the derivation of the tree and not the tree; for the second there
is `Fits`.  What is looked at after a phrase decides how it is read, so `us` has
to begin like what came after the phrase in `ts`, or with a line break where
the line ends.
-/
import Dncl.Proofs.Layout

namespace Dncl

variable {ts ts' ts₀ : List Token} {c c' : Bool}

/-! ### Blocks inside brackets -/

mutual

/-- Every block of the expression that lies inside brackets has exactly one
statement; `inside` says whether the expression itself lies inside brackets. -/
def Expr.Fits (inside : Bool) : Expr → Prop
  | .ident _ | .int _ _ | .str _ _ | .absent _ | .command _ _ => True
  | .array elements _ => Expr.FitAll elements
  | .prefixOp _ operand _ => operand.Fits inside
  | .infixOp _ left right _ => left.Fits inside ∧ right.Fits inside
  | .index container position _ => container.Fits inside ∧ position.Fits true
  | .call callee arguments _ => callee.Fits inside ∧ Expr.FitAll arguments
  | .builtin _ arguments _ => Expr.FitAll arguments
  | .function literal => literal.Fits inside
  | .nested inner _ => inner.Fits true

/-- The same for expressions that lie inside brackets. -/
def Expr.FitAll : List Expr → Prop
  | [] => True
  | e :: es => e.Fits true ∧ Expr.FitAll es

/-- The same for functions. -/
def FunctionLit.Fits (inside : Bool) : FunctionLit → Prop
  | ⟨_, body, _⟩ => body.Fits inside

/-- The same for blocks. -/
def Block.Fits (inside : Bool) : Block → Prop
  | ⟨statements, _⟩ => (inside = true → statements.length = 1) ∧ Stmt.FitAll inside statements

/-- The same for statements. -/
def Stmt.Fits (inside : Bool) : Stmt → Prop
  | .expr e => e.Fits inside
  | .assign target value _ => target.Fits inside ∧ value.Fits inside
  | .conditional c => c.Fits inside
  | .counted _ first last step _ body _ =>
    first.Fits inside ∧ last.Fits inside ∧ step.Fits inside ∧ body.Fits inside
  | .whileLoop condition body _ => condition.Fits inside ∧ body.Fits inside
  | .untilLoop body condition _ => body.Fits inside ∧ condition.Fits inside
  | .change target amount _ _ => target.Fits inside ∧ amount.Fits inside
  | .define _ function _ => function.Fits inside
  | .giveBack value _ => value.Fits inside

/-- The same for the statements of a list. -/
def Stmt.FitAll (inside : Bool) : List Stmt → Prop
  | [] => True
  | s :: ss => s.Fits inside ∧ Stmt.FitAll inside ss

/-- The same for conditionals. -/
def Conditional.Fits (inside : Bool) : Conditional → Prop
  | ⟨condition, consequence, alternative, _⟩ =>
    condition.Fits inside ∧ consequence.Fits inside ∧ alternative.Fits inside

/-- The same for what follows a consequence. -/
def ElseBranch.Fits (inside : Bool) : ElseBranch → Prop
  | .missing => True
  | .elseIf c => c.Fits inside
  | .otherwise b => b.Fits inside

end

/-- Every block of the program that lies inside brackets has exactly one
statement. -/
def Program.Fits (p : Program) : Prop :=
  Stmt.FitAll false p.statements

/-! ### The tokens of a tree -/

/-- The text of a command between its brackets. -/
def Command.inner : Command → String
  | .input => inputText
  | .other text => text

/-- Whether the text of a statement ends with that of a block. -/
def Stmt.endsWithBlock : Stmt → Bool
  | .conditional _ | .counted .. | .whileLoop .. => true
  | _ => false

/-- What ends the line of a statement: nothing inside brackets, nor after a
block, which has ended the line already. -/
def Stmt.lineEnd (inside : Bool) (s : Stmt) : List Token :=
  if inside || s.endsWithBlock then [] else [.newline]

/-- The names of further parameters, each behind a comma. -/
def laterParamTokens : List Ident → List Token
  | [] => []
  | id :: ids => .symbol .comma :: .ident id.name :: laterParamTokens ids

/-- The names of parameters with commas between them. -/
def paramTokens : List Ident → List Token
  | [] => []
  | id :: ids => .ident id.name :: laterParamTokens ids

mutual

/-- The tokens of an expression; `inside` says whether it lies inside
brackets. -/
def Expr.tokens (inside : Bool) : Expr → List Token
  | .ident id => [.ident id.name]
  | .int value _ => [.int value]
  | .str text _ => [.str text]
  | .absent _ => []
  | .array elements _ =>
    .symbol .leftBracket :: (Expr.listTokens elements ++ [.symbol .rightBracket])
  | .prefixOp op operand _ =>
    if op = .keyword .notWord then operand.tokens inside ++ [op] else op :: operand.tokens inside
  | .infixOp op left right _ => left.tokens inside ++ op :: right.tokens inside
  | .index container position _ =>
    container.tokens inside ++
      .symbol .leftBracket :: (position.tokens true ++ [.symbol .rightBracket])
  | .call callee arguments _ =>
    callee.tokens inside ++
      .symbol .leftParen :: (Expr.listTokens arguments ++ [.symbol .rightParen])
  | .builtin function arguments _ =>
    .ident function.name :: .symbol .leftParen ::
      (Expr.listTokens arguments ++ [.symbol .rightParen])
  | .function literal => .keyword .function :: literal.tokens inside
  | .command command _ => [.command command.inner]
  | .nested inner _ => .symbol .leftParen :: (inner.tokens true ++ [.symbol .rightParen])

/-- The tokens of expressions in brackets, with commas between them. -/
def Expr.listTokens : List Expr → List Token
  | [] => []
  | e :: es => e.tokens true ++ Expr.laterTokens es

/-- The tokens of further expressions, each behind a comma. -/
def Expr.laterTokens : List Expr → List Token
  | [] => []
  | e :: es => .symbol .comma :: (e.tokens true ++ Expr.laterTokens es)

/-- The tokens of a function from its opening bracket on. -/
def FunctionLit.tokens (inside : Bool) : FunctionLit → List Token
  | ⟨params, body, _⟩ =>
    .symbol .leftParen :: (paramTokens params ++ .symbol .rightParen :: .keyword .wo ::
      (body.tokens inside ++ [.keyword .endFunction]))

/-- The tokens of a block, its colon included. -/
def Block.tokens (inside : Bool) : Block → List Token
  | ⟨statements, _⟩ =>
    if inside then .symbol .colon :: Stmt.lines true statements
    else .symbol .colon :: .newline :: .indent :: (Stmt.lines false statements ++ [.dedent])

/-- The tokens of a statement, without the end of its line. -/
def Stmt.tokens (inside : Bool) : Stmt → List Token
  | .expr e => e.tokens inside
  | .assign target value _ => target.tokens inside ++ .symbol .assign :: value.tokens inside
  | .conditional c => .keyword .ifWord :: c.tokens inside
  | .counted counter first last step direction body _ =>
    .ident counter.name :: .keyword .wo :: (first.tokens inside ++ .keyword .startAt ::
      (last.tokens inside ++ .keyword .upTo :: (step.tokens inside ++ .keyword .stepBy ::
        direction.countingToken :: .keyword .repeated :: body.tokens inside)))
  | .whileLoop condition body _ =>
    condition.tokens inside ++ .keyword .whileWord :: .keyword .repeated :: body.tokens inside
  | .untilLoop body condition _ =>
    .keyword .loop :: (body.tokens inside ++ .keyword .wo :: .symbol .comma ::
      (condition.tokens inside ++ [.keyword .untilWord]))
  | .change target amount direction _ =>
    target.tokens inside ++ .keyword .wo :: (amount.tokens inside ++ [direction.changingToken])
  | .define name function _ =>
    .keyword .function :: .ident name.name :: function.tokens inside
  | .giveBack value _ => value.tokens inside ++ [.keyword .giveBack]

/-- The tokens of statements, each with the end of its line. -/
def Stmt.lines (inside : Bool) : List Stmt → List Token
  | [] => []
  | s :: ss => s.tokens inside ++ (s.lineEnd inside ++ Stmt.lines inside ss)

/-- The tokens of a conditional behind its first word. -/
def Conditional.tokens (inside : Bool) : Conditional → List Token
  | ⟨condition, consequence, alternative, _⟩ =>
    condition.tokens inside ++ .keyword .thenWord ::
      (consequence.tokens inside ++ alternative.tokens inside)

/-- The tokens of what follows a consequence. -/
def ElseBranch.tokens (inside : Bool) : ElseBranch → List Token
  | .missing => []
  | .elseIf c => .keyword .elseIf :: c.tokens inside
  | .otherwise b => .keyword .otherwise :: b.tokens inside

end

/-- The tokens of a program. -/
def Program.tokens (p : Program) : List Token :=
  Stmt.lines false p.statements

/-! ### What comes after a phrase -/

/-- An expression that ends before `ts` ends before `us`. -/
def Ends (ts us : List Token) : Prop :=
  inView us = inView ts ∨ inView us = .newline

/-- The tokens `us` begin like `ts`, in the same line as what is before them. -/
def Alike (ts us : List Token) : Prop :=
  inView us = inView ts ∧ inView ts ≠ .newline

/-- The tokens `us` go on neither with the statement before them nor with its
line. -/
def Fresh (us : List Token) : Prop :=
  inView us ≠ .newline ∧ inView us ≠ .symbol .comma ∧ continuesConditional (inView us) = false

/-- A block that ends before `ts` ends before `us`, inside brackets or not. -/
def Closes : Bool → List Token → List Token → Prop
  | true, ts, us => Alike ts us
  | false, _, us => Fresh us

/-- A statement that ends before `ts` ends before `us`. -/
def Stmt.Closes (s : Stmt) : Bool → List Token → List Token → Prop
  | true, ts, us => Alike ts us
  | false, _, us => if s.endsWithBlock then Fresh us else inView us = .newline

section After

variable {b : Bool} {ts us : List Token} {s : Stmt}

theorem Ends.ne_comma (h : Ends ts us) (hts : inView ts ≠ .symbol .comma) :
    inView us ≠ .symbol .comma := by
  rcases h with h | h
  · rw [h]
    exact hts
  · rw [h]
    nofun

theorem Alike.ends (h : Alike ts us) : Ends ts us :=
  .inl h.1

/-- A statement without a block at its end ends like its last expression. -/
theorem Stmt.Closes.ends (h : s.Closes b ts us) (hs : s.endsWithBlock = false) : Ends ts us := by
  cases b with
  | true => exact h.ends
  | false =>
    rw [Stmt.Closes, hs] at h
    exact .inr h

/-- A statement with a block at its end ends like that block. -/
theorem Stmt.Closes.closes (h : s.Closes b ts us) (hs : s.endsWithBlock = true) :
    Dncl.Closes b ts us := by
  cases b with
  | true => exact h
  | false =>
    rw [Stmt.Closes, hs] at h
    exact h

/-- After a block, fresh tokens need no end of a statement before them. -/
theorem passEnd_fresh (h : Fresh us) : passEnd true us = some us :=
  passEnd_eq_some.2 (.inr ⟨rfl, h.1, h.2.1, .inr (.inr rfl)⟩)

theorem passBreak_of_ne (continues : Token → Bool) (h : inView us ≠ .newline) :
    passBreak continues us = us :=
  if_neg fun hbreak => h hbreak.1

theorem dropBreaks_of_ne (h : inView us ≠ .newline) : us.dropWhile (· = .newline) = us := by
  cases us with
  | nil => rfl
  | cons t us => exact List.dropWhile_cons_of_neg (by simpa using h)

end After

/-! ### What a phrase begins with -/

/-- Whether an expression can begin with the token. -/
def Token.startsExpression : Token → Bool
  | .int _ | .str _ | .command _ | .ident _ | .keyword .function => true
  | .symbol .minus | .symbol .plus | .symbol .leftParen | .symbol .leftBracket => true
  | _ => false

/-- Whether a statement can begin with the token. -/
def Token.startsStatement : Token → Bool
  | .keyword .ifWord | .keyword .loop => true
  | t => t.startsExpression

section Begins

variable {above : Precedence} {c c' : Bool} {ts ts' : List Token} {e : Expr} {s : Stmt}
  {es : List Expr} {ss : List Stmt} {literal : FunctionLit}

theorem Token.startsStatement_of_startsExpression {t : Token} (h : t.startsExpression = true) :
    t.startsStatement = true := by
  rw [Token.startsStatement.eq_def]
  split
  · rfl
  · rfl
  · exact h

/-- An operand opens an expression, and not a statement of another kind. -/
theorem Reads.begins_operand (h : Reads .operand c ts e c' ts') :
    (inView ts).startsExpression = true ∧ opensExpression ts = true := by
  cases h with
  | int | str | command | ident | builtin | nested | array => exact ⟨rfl, rfl⟩
  | signed _ _ sign _ => rcases sign with rfl | rfl <;> exact ⟨rfl, rfl⟩
  | literal h =>
    -- the bracket tells a function from the definition of one
    cases h
    exact ⟨rfl, rfl⟩

theorem Reads.begins_expression : Reads (.expression above) c ts e c' ts' →
    (inView ts).startsExpression = true ∧ opensExpression ts = true
  | .expression operand _ => operand.begins_operand

theorem Reads.begins_expressions : Reads .expressions c ts es c' ts' →
    (inView ts).startsExpression = true
  | .lastExpr _ h => h.begins_expression.1
  | .moreExprs h _ => h.begins_expression.1

theorem Reads.begins_statement (h : Reads .statement c ts s c' ts') :
    (inView ts).startsStatement = true := by
  cases h with
  | define | conditional | untilLoop => rfl
  | opened _ h _ => exact Token.startsStatement_of_startsExpression h.begins_expression.1

theorem Reads.begins_sameLine : Reads .sameLine c ts ss c' ts' →
    (inView ts).startsStatement = true
  | .lastHere _ h => h.begins_statement
  | .moreHere h _ => h.begins_statement

/-- The first token of a statement goes on with nothing before it. -/
theorem fresh_of_startsStatement (h : (inView ts).startsStatement = true) : Fresh ts := by
  refine ⟨?_, ?_, ?_⟩
  · intro hnow
    rw [hnow] at h
    cases h
  · intro hnow
    rw [hnow] at h
    cases h
  · cases hgoes : continuesConditional (inView ts) with
    | false => rfl
    | true =>
      have hword : inView ts = .keyword .elseIf ∨ inView ts = .keyword .otherwise := by
        simpa [continuesConditional] using hgoes
      rcases hword with hnow | hnow
      · rw [hnow] at h
        cases h
      · rw [hnow] at h
        cases h

end Begins

/-! ### Reading back -/

/-- The lines of the statements are read as these statements, up to a token
that closes a block or the program. -/
def Lined (ss : List Stmt) : Prop :=
  ∀ stops us, (∀ t ∈ stops, t = .dedent ∨ t = .eof) → inView us ∈ stops →
    Fresh (Stmt.lines false ss ++ us) ∧
    ∀ c, ∃ c', Reads (.statements stops) c (Stmt.lines false ss ++ us) ss c' us

/-- A phrase that was read as the tree from `ts`, up to `ts'`, is read as the
same tree from the tokens of the tree; `b` says whether the phrase lies inside
brackets. -/
def Form.Renders (b : Bool) : (f : Form) → List Token → f.Tree → List Token → Prop
  | .operand, _, e, ts' => ∀ us c, Ends ts' us →
    ∃ c', Reads .operand c (e.tokens b ++ us) e c' us
  | .expression above, _, e, ts' => ∀ us c, Ends ts' us →
    ∃ c', Reads (.expression above) c (e.tokens b ++ us) e c' us
  | .operators above left, ts, e, ts' => ∃ xs, e.tokens b = left.tokens b ++ xs ∧
    ∀ us, Ends ts' us → Ends ts (xs ++ us) ∧
      ∀ c, ∃ c', Reads (.operators above left) c (xs ++ us) e c' us
  | .items closing, _, es, _ => b = true → closing = .rightParen ∨ closing = .rightBracket →
    ∀ us c, ∃ c', Reads (.items closing) c (Expr.listTokens es ++ .symbol closing :: us) es c' us
  | .expressions, _, es, ts' => b = true → ∀ us c, Ends ts' us →
    ∃ c', Reads .expressions c (Expr.listTokens es ++ us) es c' us
  | .paramItems, _, ids, _ => ∀ us c,
    ∃ c', Reads .paramItems c (paramTokens ids ++ .symbol .rightParen :: us) ids c' us
  | .params, _, ids, _ => ∀ us c, inView us ≠ .symbol .comma →
    ∃ c', Reads .params c (paramTokens ids ++ us) ids c' us
  | .function, _, literal, _ => ∀ us c,
    ∃ c', Reads .function c (literal.tokens b ++ us) literal c' us
  | .block, _, body, ts' => ∀ us c, (b = true → Alike ts' us) →
    ∃ c', (b = false → c' = true) ∧ Reads .block c (body.tokens b ++ us) body c' us
  | .sameLine, _, ss, ts' => (b = false → Lined ss) ∧
    (b = true → ss.length = 1 → ∀ us c, Alike ts' us →
      ∃ c', Reads .sameLine c (Stmt.lines true ss ++ us) ss c' us)
  | .statements _, _, ss, _ => b = false → Lined ss
  | .statement, _, s, ts' => ∀ us c, s.Closes b ts' us →
    ∃ c', (b = false → s.endsWithBlock = true → c' = true) ∧
      Reads .statement c (s.tokens b ++ us) s c' us
  | .continued e, ts, s, ts' => ∃ xs, s.tokens b = e.tokens b ++ xs ∧
    ∀ us, s.Closes b ts' us → Ends ts (xs ++ us) ∧
      ∀ c, ∃ c', (b = false → s.endsWithBlock = true → c' = true) ∧
        Reads (.continued e) c (xs ++ us) s c' us
  | .conditional, _, k, ts' => ∀ us c, Closes b ts' us →
    ∃ c', (b = false → c' = true) ∧ Reads .conditional c (k.tokens b ++ us) k c' us
  | .elseBranch, ts, a, ts' => ∀ us, Closes b ts' us →
    inView (a.tokens b ++ us) ≠ .newline ∧ (b = true → Alike ts (a.tokens b ++ us)) ∧
      ∀ c, (b = false → c = true) →
        ∃ c', (b = false → c' = true) ∧ Reads .elseBranch c (a.tokens b ++ us) a c' us

section Expressions

variable {b : Bool} {ts ts' ts₁ : List Token} {above : Precedence} {left right inner e : Expr}
  {es : List Expr}

/-- The operand is followed by what its operators begin with. -/
theorem renders_expression (h₁ : Form.operand.Renders b ts left ts₁)
    (h₂ : (Form.operators above left).Renders b ts₁ e ts') :
    (Form.expression above).Renders b ts e ts' := by
  intro us c hus
  obtain ⟨xs, hxs, hread⟩ := h₂
  obtain ⟨hends, hread⟩ := hread us hus
  obtain ⟨c₁, hoperand⟩ := h₁ (xs ++ us) c hends
  obtain ⟨c', hoperators⟩ := hread c₁
  refine ⟨c', ?_⟩
  rw [hxs, List.append_assoc]
  exact .expression hoperand hoperators

theorem Builtin.ofName?_name (function : Builtin) :
    Builtin.ofName? function.name = some function := by
  cases function <;> rfl

theorem Builtin.eq_name {name : String} {function : Builtin}
    (h : Builtin.ofName? name = some function) : name = function.name := by
  have hfound := List.find?_some h
  exact (beq_iff_eq.1 hfound).symm

/-- An absent argument has no tokens. -/
theorem Builtin.listTokens_arguments (function : Builtin) (arguments : List Expr) (place : Span) :
    Expr.listTokens (function.arguments arguments place) = Expr.listTokens arguments := by
  rcases function.arguments_cases arguments place with h | ⟨-, rfl, h⟩ <;> rw [h]
  rfl

theorem renders_builtin {function : Builtin} (place span : Span)
    (h : (Form.items .rightParen).Renders true ts es ts') {name : String} :
    Form.operand.Renders b (.ident name :: ts₀)
      (.builtin function (function.arguments es place) span) ts' := by
  intro us c _
  obtain ⟨c', hread⟩ := h rfl (.inl rfl) us c
  refine ⟨c', ?_⟩
  show Reads .operand c (.ident function.name :: .symbol .leftParen ::
    (Expr.listTokens (function.arguments es place) ++ [Token.symbol .rightParen]) ++ us) _ c' us
  rw [function.listTokens_arguments]
  simpa using Reads.builtin function.name place span function.ofName?_name hread

theorem renders_signed (op : Symbol) (span : Span) (sign : op = .minus ∨ op = .plus)
    (h : (Form.expression .sign).Renders b ts inner ts') :
    Form.operand.Renders b (.symbol op :: ts) (.prefixOp (.symbol op) inner span) ts' := by
  intro us c hus
  obtain ⟨c', hread⟩ := h us c hus
  exact ⟨c', .signed op span sign hread⟩

theorem renders_nested (span : Span)
    (h : (Form.expression .lowest).Renders true ts inner (.symbol .rightParen :: ts')) :
    Form.operand.Renders b (.symbol .leftParen :: ts) (.nested inner span) ts' := by
  intro us c _
  obtain ⟨c', hread⟩ := h (.symbol .rightParen :: us) c (.inl rfl)
  refine ⟨c', ?_⟩
  show Reads .operand c (.symbol .leftParen ::
    (inner.tokens true ++ [Token.symbol .rightParen]) ++ us) _ c' us
  simpa using Reads.nested span hread

theorem renders_array (span : Span) (h : (Form.items .rightBracket).Renders true ts es ts') :
    Form.operand.Renders b (.symbol .leftBracket :: ts) (.array es span) ts' := by
  intro us c _
  obtain ⟨c', hread⟩ := h rfl (.inr rfl) us c
  refine ⟨c', ?_⟩
  show Reads .operand c (.symbol .leftBracket ::
    (Expr.listTokens es ++ [Token.symbol .rightBracket]) ++ us) _ c' us
  simpa using Reads.array span hread

/-- Operators that end before `ts` end before a line break too. -/
theorem renders_stop (weak : (inView ts).precedence.level ≤ above.level) :
    (Form.operators above left).Renders b ts left ts := by
  refine ⟨[], (List.append_nil _).symm, fun us hus => ⟨hus, fun c => ⟨c, .stop ?_⟩⟩⟩
  rcases hus with hus | hus
  · rw [List.nil_append, hus]
    exact weak
  · rw [List.nil_append, hus]
    exact Nat.zero_le _

/-- The tokens of a call are those of the callee, and then the brackets. -/
theorem renders_called (span : Span) (tight : above.level < Precedence.application.level)
    (h₁ : (Form.items .rightParen).Renders true ts es ts₁)
    (h₂ : (Form.operators above (.call left es span)).Renders b ts₁ e ts') :
    (Form.operators above left).Renders b (.symbol .leftParen :: ts) e ts' := by
  obtain ⟨xs, hxs, hread⟩ := h₂
  refine ⟨.symbol .leftParen :: (Expr.listTokens es ++ .symbol .rightParen :: xs), ?_,
    fun us hus => ⟨.inl rfl, fun c => ?_⟩⟩
  · rw [hxs]
    show (left.tokens b ++ .symbol .leftParen ::
      (Expr.listTokens es ++ [Token.symbol .rightParen])) ++ xs = _
    simp
  · obtain ⟨c₁, hitems⟩ := h₁ rfl (.inl rfl) (xs ++ us) c
    obtain ⟨c', hmore⟩ := (hread us hus).2 c₁
    refine ⟨c', ?_⟩
    simpa using Reads.called span tight hitems hmore

theorem renders_indexed (span : Span) (tight : above.level < Precedence.application.level)
    (h₁ : (Form.expression .lowest).Renders true ts inner (.symbol .rightBracket :: ts₁))
    (h₂ : (Form.operators above (.index left inner span)).Renders b ts₁ e ts') :
    (Form.operators above left).Renders b (.symbol .leftBracket :: ts) e ts' := by
  obtain ⟨xs, hxs, hread⟩ := h₂
  refine ⟨.symbol .leftBracket :: (inner.tokens true ++ .symbol .rightBracket :: xs), ?_,
    fun us hus => ⟨.inl rfl, fun c => ?_⟩⟩
  · rw [hxs]
    show (left.tokens b ++ .symbol .leftBracket ::
      (inner.tokens true ++ [Token.symbol .rightBracket])) ++ xs = _
    simp
  · obtain ⟨c₁, hposition⟩ := h₁ (.symbol .rightBracket :: (xs ++ us)) c (.inl rfl)
    obtain ⟨c', hmore⟩ := (hread us hus).2 c₁
    refine ⟨c', ?_⟩
    simpa using Reads.indexed span tight hposition hmore

theorem renders_negated (span : Span) (tight : above.level < Precedence.negation.level)
    (h : (Form.operators above (.prefixOp (.keyword .notWord) left span)).Renders b ts e ts') :
    (Form.operators above left).Renders b (.keyword .notWord :: ts) e ts' := by
  obtain ⟨xs, hxs, hread⟩ := h
  refine ⟨.keyword .notWord :: xs, ?_, fun us hus => ⟨.inl rfl, fun c => ?_⟩⟩
  · rw [hxs]
    show (left.tokens b ++ [Token.keyword .notWord]) ++ xs = _
    simp
  · obtain ⟨c', hmore⟩ := (hread us hus).2 c
    exact ⟨c', .negated span tight hmore⟩

theorem renders_joined (op : Token) (span : Span) (operator : op.isOperator = true)
    (tight : above.level < op.precedence.level)
    (h₁ : (Form.expression op.precedence).Renders b ts right ts₁)
    (h₂ : (Form.operators above (.infixOp op left right span)).Renders b ts₁ e ts') :
    (Form.operators above left).Renders b (op :: ts) e ts' := by
  obtain ⟨xs, hxs, hread⟩ := h₂
  refine ⟨op :: (right.tokens b ++ xs), ?_, fun us hus => ⟨.inl rfl, fun c => ?_⟩⟩
  · rw [hxs]
    show (left.tokens b ++ op :: right.tokens b) ++ xs = _
    simp
  · obtain ⟨hends, hread⟩ := hread us hus
    obtain ⟨c₁, hright⟩ := h₁ (xs ++ us) c hends
    obtain ⟨c', hmore⟩ := hread c₁
    refine ⟨c', ?_⟩
    simpa using Reads.joined op span operator tight hright hmore

theorem renders_noItems {closing : Symbol} :
    (Form.items closing).Renders b (.symbol closing :: ts) [] ts :=
  fun _ _ _ c => ⟨c, .noItems⟩

/-- No expression begins with a closing bracket. -/
theorem renders_someItems {closing : Symbol}
    (h : Form.expressions.Renders b ts es (.symbol closing :: ts')) :
    (Form.items closing).Renders b ts es ts' := by
  intro hb hclosing us c
  obtain ⟨c', hread⟩ := h hb (.symbol closing :: us) c (.inl rfl)
  refine ⟨c', .someItems ?_ hread⟩
  intro hnow
  have hstart := hread.begins_expressions
  rw [hnow] at hstart
  rcases hclosing with rfl | rfl
  · cases hstart
  · cases hstart

theorem renders_lastExpr (last : inView ts' ≠ .symbol .comma)
    (h : (Form.expression .lowest).Renders b ts e ts') : Form.expressions.Renders b ts [e] ts' := by
  rintro rfl us c hus
  obtain ⟨c', hread⟩ := h us c hus
  refine ⟨c', ?_⟩
  show Reads .expressions c ((e.tokens true ++ []) ++ us) [e] c' us
  rw [List.append_nil]
  exact .lastExpr (hus.ne_comma last) hread

theorem Reads.expressions_ne_nil {c c' : Bool} : Reads .expressions c ts es c' ts' → es ≠ []
  | .lastExpr .. | .moreExprs .. => nofun

theorem Expr.laterTokens_eq (h : es ≠ []) :
    Expr.laterTokens es = .symbol .comma :: Expr.listTokens es := by
  cases es with
  | nil => exact absurd rfl h
  | cons e es => rfl

theorem renders_moreExprs
    (h₁ : (Form.expression .lowest).Renders b ts e (.symbol .comma :: ts₁))
    (h₂ : Form.expressions.Renders b ts₁ es ts') (hes : es ≠ []) :
    Form.expressions.Renders b ts (e :: es) ts' := by
  rintro rfl us c hus
  obtain ⟨c₁, hfirst⟩ := h₁ (.symbol .comma :: (Expr.listTokens es ++ us)) c (.inl rfl)
  obtain ⟨c', hothers⟩ := h₂ rfl us c₁ hus
  refine ⟨c', ?_⟩
  show Reads .expressions c ((e.tokens true ++ Expr.laterTokens es) ++ us) (e :: es) c' us
  rw [Expr.laterTokens_eq hes]
  simpa using Reads.moreExprs hfirst hothers

end Expressions

section Functions

variable {b : Bool} {ts ts' ts₁ ts₂ : List Token} {name : String} {span : Span}
  {params : List Ident} {body : Block} {s : Stmt} {ss : List Stmt}

theorem renders_noParams : Form.paramItems.Renders b (.symbol .rightParen :: ts) [] ts :=
  fun _ c => ⟨c, .noParams⟩

theorem Reads.inView_params {c c' : Bool} : Reads .params c ts params c' ts' →
    ∃ name, inView ts = .ident name
  | .lastParam name _ _ | .moreParams name _ _ => ⟨name, rfl⟩

theorem renders_someParams (h : Form.params.Renders b ts params (.symbol .rightParen :: ts')) :
    Form.paramItems.Renders b ts params ts' := by
  intro us c
  obtain ⟨c', hread⟩ := h (.symbol .rightParen :: us) c nofun
  refine ⟨c', .someParams ?_ hread⟩
  obtain ⟨name, hname⟩ := hread.inView_params
  rw [hname]
  nofun

theorem renders_lastParam : Form.params.Renders b (.ident name :: ts) [⟨name, span⟩] ts :=
  fun _ c hus => ⟨c, .lastParam name span hus⟩

theorem Reads.params_ne_nil {c c' : Bool} : Reads .params c ts params c' ts' → params ≠ []
  | .lastParam .. | .moreParams .. => nofun

theorem laterParamTokens_eq (h : params ≠ []) :
    laterParamTokens params = .symbol .comma :: paramTokens params := by
  cases params with
  | nil => exact absurd rfl h
  | cons id ids => rfl

theorem renders_moreParams (h : Form.params.Renders b ts params ts') (hparams : params ≠ []) :
    Form.params.Renders b (.ident name :: .symbol .comma :: ts) (⟨name, span⟩ :: params) ts' := by
  intro us c hus
  obtain ⟨c', hread⟩ := h us c hus
  refine ⟨c', ?_⟩
  show Reads .params c (.ident name :: laterParamTokens params ++ us) _ c' us
  rw [laterParamTokens_eq hparams]
  exact .moreParams name span hread

/-- The word that closes a function comes right after its body. -/
theorem renders_function (hbreak : b = true → inView ts₂ = .keyword .endFunction)
    (h₁ : Form.paramItems.Renders true ts params (.keyword .wo :: ts₁))
    (h₂ : Form.block.Renders b ts₁ body ts₂) :
    Form.function.Renders b (.symbol .leftParen :: ts) ⟨params, body, span⟩ ts' := by
  intro us c
  obtain ⟨c₁, hparams⟩ := h₁ (.keyword .wo :: (body.tokens b ++ .keyword .endFunction :: us)) c
  -- inside brackets the block has to end as it did, before the same word
  have hafter : b = true → Alike ts₂ (.keyword .endFunction :: us) := by
    intro hb
    rw [Alike, hbreak hb]
    exact ⟨rfl, nofun⟩
  obtain ⟨c₂, -, hbody⟩ := h₂ (.keyword .endFunction :: us) c₁ hafter
  refine ⟨false, ?_⟩
  show Reads .function c (.symbol .leftParen :: (paramTokens params ++ .symbol .rightParen ::
    .keyword .wo :: (body.tokens b ++ [Token.keyword .endFunction])) ++ us) _ false us
  simpa using Reads.function span (passBreak_of_ne _ nofun) hparams hbody

theorem Stmt.lines_singleton_true (s : Stmt) : Stmt.lines true [s] = s.tokens true := by
  show s.tokens true ++ ([] ++ []) = s.tokens true
  simp

/-- Lines make a block between an indent and a dedent. -/
theorem Lined.block (h : Lined ss) (us : List Token) (c : Bool) :
    Reads .block c (Block.tokens false ⟨ss, span⟩ ++ us) ⟨ss, span⟩ true us := by
  have hstops : ∀ t ∈ [Token.dedent, Token.eof], t = .dedent ∨ t = .eof := by simp
  obtain ⟨-, hread⟩ := h [.dedent, .eof] (.dedent :: us) hstops List.mem_cons_self
  obtain ⟨c', hread⟩ := hread c
  show Reads .block c (.symbol .colon :: .newline :: .indent ::
    (Stmt.lines false ss ++ [Token.dedent]) ++ us) _ true us
  simpa using Reads.lines span hread

theorem renders_lines (h : Lined ss) : Form.block.Renders false ts₀ ⟨ss, span⟩ ts' :=
  fun us c _ => ⟨true, fun _ => rfl, h.block us c⟩

/-- A block on one line gets lines of its own outside brackets. -/
theorem renders_oneLine (hfit : b = true → ss.length = 1) (h : Form.sameLine.Renders b ts ss ts') :
    Form.block.Renders b (.symbol .colon :: ts) ⟨ss, span⟩ ts' := by
  cases b with
  | false => exact renders_lines (h.1 rfl)
  | true =>
    intro us c hus
    obtain ⟨c', hread⟩ := h.2 rfl (hfit rfl) us c (hus rfl)
    have hhere : inView (Stmt.lines true ss ++ us) ≠ .newline :=
      (fresh_of_startsStatement hread.begins_sameLine).1
    exact ⟨false, nofun, .oneLine span hhere hread⟩

theorem lined_nil : Lined [] := by
  intro stops us hstops hus
  have hend := hstops _ hus
  have hfresh : Fresh us := by
    rcases hend with hend | hend
    · rw [Fresh, hend]
      exact ⟨nofun, nofun, rfl⟩
    · rw [Fresh, hend]
      exact ⟨nofun, nofun, rfl⟩
  exact ⟨hfresh, fun c => ⟨c, .noStatements (dropBreaks_of_ne hfresh.1) hus⟩⟩

/-- One line, and then more lines. -/
theorem lined_cons (h : Form.statement.Renders false ts s ts') (hss : Lined ss) :
    Lined (s :: ss) := by
  intro stops us hstops hus
  obtain ⟨hfresh, hothers⟩ := hss stops us hstops hus
  -- the statement ends its line, or a block has ended it
  have hclose : s.Closes false ts' (s.lineEnd false ++ (Stmt.lines false ss ++ us)) := by
    rw [Stmt.Closes, Stmt.lineEnd]
    split
    · rename_i hblock
      rw [hblock]
      exact hfresh
    · rename_i hblock
      rw [Bool.eq_false_iff.2 hblock]
      rfl
  have hend {c' : Bool} (hflag : s.endsWithBlock = true → c' = true) :
      passEnd c' (s.lineEnd false ++ (Stmt.lines false ss ++ us)) =
        some (Stmt.lines false ss ++ us) := by
    rw [Stmt.lineEnd]
    cases hblock : s.endsWithBlock with
    | true =>
      rw [hflag hblock]
      exact passEnd_fresh hfresh
    | false => rfl
  have hread (c : Bool) := h (s.lineEnd false ++ (Stmt.lines false ss ++ us)) c hclose
  have hlines : Stmt.lines false (s :: ss) ++ us =
      s.tokens false ++ (s.lineEnd false ++ (Stmt.lines false ss ++ us)) := by
    show (s.tokens false ++ (s.lineEnd false ++ Stmt.lines false ss)) ++ us = _
    simp
  rw [hlines]
  -- the statement begins with a token that closes no block
  have hstart : (inView (s.tokens false ++ (s.lineEnd false ++
      (Stmt.lines false ss ++ us)))).startsStatement = true := by
    obtain ⟨c', -, hstatement⟩ := hread false
    exact hstatement.begins_statement
  have hfirst := fresh_of_startsStatement hstart
  refine ⟨hfirst, fun c => ?_⟩
  obtain ⟨c₂, hflag, hstatement⟩ := hread c
  obtain ⟨c', hothers⟩ := hothers c₂
  refine ⟨c', .someStatements (dropBreaks_of_ne hfirst.1) ?_ (hend (hflag rfl)) hstatement hothers⟩
  intro hmem
  rcases hstops _ hmem with hnow | hnow
  · rw [hnow] at hstart
    cases hstart
  · rw [hnow] at hstart
    cases hstart

theorem renders_lastHere (last : inView ts' ≠ .symbol .comma)
    (h : Form.statement.Renders b ts s ts') : Form.sameLine.Renders b ts [s] ts' := by
  refine ⟨?_, ?_⟩
  · rintro rfl
    exact lined_cons h lined_nil
  · rintro rfl - us c hus
    obtain ⟨c', -, hread⟩ := h us c hus
    refine ⟨c', ?_⟩
    rw [Stmt.lines_singleton_true]
    exact .lastHere (hus.ends.ne_comma last) hread

theorem Reads.sameLine_ne_nil {c c' : Bool} : Reads .sameLine c ts ss c' ts' → ss ≠ []
  | .lastHere .. | .moreHere .. => nofun

/-- Two statements stand on one line outside brackets only. -/
theorem renders_moreHere (h₁ : Form.statement.Renders b ts s (.symbol .comma :: ts₁))
    (h₂ : Form.sameLine.Renders b ts₁ ss ts') (hss : ss ≠ []) :
    Form.sameLine.Renders b ts (s :: ss) ts' := by
  refine ⟨?_, ?_⟩
  · rintro rfl
    exact lined_cons h₁ (h₂.1 rfl)
  · intro _ hlength
    rw [List.length_cons] at hlength
    exact absurd (List.eq_nil_of_length_eq_zero (Nat.succ.inj hlength)) hss

end Functions

section Statements

variable {b : Bool} {ts ts' ts₁ ts₂ ts₃ : List Token} {name : String} {span place : Span}
  {e value amount condition : Expr} {body : Block} {s : Stmt} {literal : FunctionLit}
  {k : Conditional} {direction : Direction}

theorem renders_define (h : Form.function.Renders b ts literal ts') :
    Form.statement.Renders b (.keyword .function :: .ident name :: ts)
      (.define ⟨name, place⟩ literal span) ts' := by
  intro us c _
  obtain ⟨c', hread⟩ := h us false
  exact ⟨c', nofun, .define name place span hread⟩

theorem renders_conditional (h : Form.conditional.Renders b ts k ts') :
    Form.statement.Renders b (.keyword .ifWord :: ts) (.conditional k) ts' := by
  intro us c hus
  obtain ⟨c', hflag, hread⟩ := h us false (hus.closes rfl)
  exact ⟨c', fun hb _ => hflag hb, .conditional hread⟩

/-- The word and the comma after the body of a loop that tests last. -/
theorem renders_untilLoop (hbreak : b = true → inView ts₁ = .keyword .wo)
    (h₁ : Form.block.Renders b ts body ts₁)
    (h₂ : (Form.expression .lowest).Renders b ts₂ condition (.keyword .untilWord :: ts')) :
    Form.statement.Renders b (.keyword .loop :: ts) (.untilLoop body condition span) ts' := by
  intro us c _
  have hafter : b = true → Alike ts₁ (.keyword .wo :: .symbol .comma ::
      (condition.tokens b ++ .keyword .untilWord :: us)) := by
    intro hb
    rw [Alike, hbreak hb]
    exact ⟨rfl, nofun⟩
  obtain ⟨c₁, -, hbody⟩ := h₁ _ false hafter
  obtain ⟨c₂, hcondition⟩ := h₂ (.keyword .untilWord :: us) c₁ (.inl rfl)
  refine ⟨false, nofun, ?_⟩
  show Reads .statement c (.keyword .loop :: (body.tokens b ++ .keyword .wo :: .symbol .comma ::
    (condition.tokens b ++ [Token.keyword .untilWord])) ++ us) _ false us
  simpa using Reads.untilLoop span (passBreak_of_ne _ nofun) hbody hcondition

theorem renders_opened (h₁ : (Form.expression .lowest).Renders b ts e ts₁)
    (h₂ : (Form.continued e).Renders b ts₁ s ts') : Form.statement.Renders b ts s ts' := by
  intro us c hus
  obtain ⟨xs, hxs, hread⟩ := h₂
  obtain ⟨hends, hread⟩ := hread us hus
  obtain ⟨c₁, hexpression⟩ := h₁ (xs ++ us) false hends
  obtain ⟨c', hflag, hcontinued⟩ := hread c₁
  refine ⟨c', hflag, ?_⟩
  rw [hxs, List.append_assoc]
  exact .opened hexpression.begins_expression.2 hexpression hcontinued

/-- A line break ends an expression that is a statement. -/
theorem renders_plain (ends : endsExpression (inView ts) = true) :
    (Form.continued e).Renders b ts (.expr e) ts := by
  refine ⟨[], (List.append_nil _).symm, fun us hus => ?_⟩
  have hends := hus.ends rfl
  refine ⟨hends, fun c => ⟨c, nofun, .plain ?_⟩⟩
  rcases hends with hus | hus
  · rw [List.nil_append, hus]
    exact ends
  · rw [List.nil_append, hus]
    rfl

theorem renders_assign (assignable : e.isAssignable = true)
    (h : (Form.expression .lowest).Renders b ts value ts') :
    (Form.continued e).Renders b (.symbol .assign :: ts) (.assign e value span) ts' := by
  refine ⟨.symbol .assign :: value.tokens b, rfl, fun us hus => ⟨.inl rfl, fun c => ?_⟩⟩
  obtain ⟨c', hread⟩ := h us c (hus.ends rfl)
  exact ⟨c', nofun, .assign span assignable hread⟩

/-- A block that a statement ends with is followed by what follows the
statement. -/
theorem Stmt.Closes.alike {us : List Token} (h : s.Closes b ts us) (hb : b = true) :
    Alike ts us := by
  subst hb
  exact h

/-- The word that may be left out before the body is written. -/
theorem renders_counted {first last step : Expr} (counter : Ident)
    (h₁ : (Form.expression .lowest).Renders b ts first (.keyword .startAt :: ts₁))
    (h₂ : (Form.expression .lowest).Renders b ts₁ last (.keyword .upTo :: ts₂))
    (h₃ : (Form.expression .lowest).Renders b ts₂ step
      (.keyword .stepBy :: direction.countingToken :: ts₃)) {ts₄ : List Token}
    (h₄ : Form.block.Renders b ts₄ body ts') :
    (Form.continued (.ident counter)).Renders b (.keyword .wo :: ts)
      (.counted counter first last step direction body span) ts' := by
  refine ⟨.keyword .wo :: (first.tokens b ++ .keyword .startAt :: (last.tokens b ++
    .keyword .upTo :: (step.tokens b ++ .keyword .stepBy :: direction.countingToken ::
      .keyword .repeated :: body.tokens b))), rfl, fun us hus => ⟨.inl rfl, fun c => ?_⟩⟩
  obtain ⟨c₁, hfirst⟩ := h₁ (.keyword .startAt :: (last.tokens b ++ .keyword .upTo ::
    (step.tokens b ++ .keyword .stepBy :: direction.countingToken :: .keyword .repeated ::
      (body.tokens b ++ us)))) c (.inl rfl)
  obtain ⟨c₂, hlast⟩ := h₂ (.keyword .upTo :: (step.tokens b ++ .keyword .stepBy ::
    direction.countingToken :: .keyword .repeated :: (body.tokens b ++ us))) c₁ (.inl rfl)
  obtain ⟨c₃, hstep⟩ := h₃ (.keyword .stepBy :: direction.countingToken :: .keyword .repeated ::
    (body.tokens b ++ us)) c₂ (.inl rfl)
  obtain ⟨c', hflag, hbody⟩ := h₄ us c₃ hus.alike
  refine ⟨c', fun hb _ => hflag hb, ?_⟩
  simpa using Reads.counted counter direction span hfirst hlast hstep hbody

theorem renders_change (assignable : e.isAssignable = true)
    (h : (Form.expression .lowest).Renders b ts amount (direction.changingToken :: ts')) :
    (Form.continued e).Renders b (.keyword .wo :: ts) (.change e amount direction span) ts' := by
  refine ⟨.keyword .wo :: (amount.tokens b ++ [direction.changingToken]), rfl,
    fun us _ => ⟨.inl rfl, fun c => ?_⟩⟩
  obtain ⟨c', hread⟩ := h (direction.changingToken :: us) c (.inl rfl)
  refine ⟨c', nofun, ?_⟩
  simpa using Reads.change direction span assignable hread

theorem renders_whileLoop (h : Form.block.Renders b ts₀ body ts') :
    (Form.continued e).Renders b (.keyword .whileWord :: ts) (.whileLoop e body span) ts' := by
  refine ⟨.keyword .whileWord :: .keyword .repeated :: body.tokens b, rfl,
    fun us hus => ⟨.inl rfl, fun c => ?_⟩⟩
  obtain ⟨c', hflag, hbody⟩ := h us c hus.alike
  exact ⟨c', fun hb _ => hflag hb, .whileLoop span hbody⟩

theorem renders_giveBack :
    (Form.continued e).Renders b (.keyword .giveBack :: ts) (.giveBack e span) ts :=
  ⟨[.keyword .giveBack], rfl, fun _ _ => ⟨.inl rfl, fun c => ⟨c, nofun, .giveBack span⟩⟩⟩

/-- The alternative follows its consequence without a line break. -/
theorem renders_branches {consequence : Block} {alternative : ElseBranch}
    (hbreak : b = true → passBreak continuesConditional ts₂ = ts₂)
    (h₁ : (Form.expression .lowest).Renders b ts condition (.keyword .thenWord :: ts₁))
    (h₂ : Form.block.Renders b ts₁ consequence ts₂)
    (h₃ : Form.elseBranch.Renders b (passBreak continuesConditional ts₂) alternative ts') :
    Form.conditional.Renders b ts ⟨condition, consequence, alternative, span⟩ ts' := by
  intro us c hus
  obtain ⟨hline, halike, hread⟩ := h₃ us hus
  obtain ⟨c₁, hcondition⟩ := h₁ (.keyword .thenWord ::
    (consequence.tokens b ++ (alternative.tokens b ++ us))) c (.inl rfl)
  have hafter : b = true → Alike ts₂ (alternative.tokens b ++ us) :=
    fun hb => hbreak hb ▸ halike hb
  obtain ⟨c₂, hflag, hconsequence⟩ := h₂ (alternative.tokens b ++ us) c₁ hafter
  obtain ⟨c', hflag', halternative⟩ := hread c₂ hflag
  refine ⟨c', hflag', ?_⟩
  show Reads .conditional c ((condition.tokens b ++ .keyword .thenWord ::
    (consequence.tokens b ++ alternative.tokens b)) ++ us) _ c' us
  rw [← passBreak_of_ne continuesConditional hline] at halternative
  simpa using Reads.branches span hcondition hconsequence halternative

theorem renders_elseIf (h : Form.conditional.Renders b ts k ts') :
    Form.elseBranch.Renders b (.keyword .elseIf :: ts) (.elseIf k) ts' := by
  refine fun us hus => ⟨nofun, fun _ => ⟨rfl, nofun⟩, fun c _ => ?_⟩
  obtain ⟨c', hflag, hread⟩ := h us c hus
  exact ⟨c', hflag, .elseIf hread⟩

theorem renders_otherwise (h : Form.block.Renders b ts body ts') :
    Form.elseBranch.Renders b (.keyword .otherwise :: ts) (.otherwise body) ts' := by
  refine fun us hus => ⟨nofun, fun _ => ⟨rfl, nofun⟩, fun c _ => ?_⟩
  have hafter : b = true → Alike ts' us := by
    rintro rfl
    exact hus
  obtain ⟨c', hflag, hread⟩ := h us c hafter
  exact ⟨c', hflag, .otherwise hread⟩

/-- What follows must not be taken for an alternative. -/
theorem renders_missing (ends : continuesConditional (inView ts) = false) :
    Form.elseBranch.Renders b ts .missing ts := by
  intro us hus
  cases b with
  | true =>
    have hnow : inView us = inView ts := hus.1
    refine ⟨hnow ▸ hus.2, fun _ => hus, fun c hc => ⟨c, hc, .missing ?_⟩⟩
    show continuesConditional (inView us) = false
    rw [hnow]
    exact ends
  | false => exact ⟨hus.1, nofun, fun c hc => ⟨c, hc, .missing hus.2.2⟩⟩

end Statements

/-! ### The induction -/

/-- Every block of the tree that lies inside brackets has exactly one
statement. -/
def Form.Fits (b : Bool) : (f : Form) → f.Tree → Prop
  | .operand, e | .expression _, e | .operators _ _, e => e.Fits b
  | .items _, es | .expressions, es => Expr.FitAll es
  | .paramItems, _ | .params, _ => True
  | .function, literal => literal.Fits b
  | .block, body => body.Fits b
  | .sameLine, ss | .statements _, ss => Stmt.FitAll b ss
  | .statement, s | .continued _, s => s.Fits b
  | .conditional, k => k.Fits b
  | .elseBranch, a => a.Fits b

/-- What a phrase goes on with fits if the whole does. -/
def Form.PartFits (b : Bool) : (f : Form) → f.Tree → Prop
  | .operators _ left, e => e.Fits b → left.Fits b
  | .continued e, s => s.Fits b → e.Fits b
  | _, _ => True

/-- The expression that a phrase goes on with is part of the tree. -/
theorem Reads.partFits {f : Form} {t : f.Tree} (b : Bool) (h : Reads f c ts t c' ts') :
    f.PartFits b t := by
  induction h with
  | stop | plain | giveBack => exact id
  | called _ _ _ _ _ ih | indexed _ _ _ _ _ ih | joined _ _ _ _ _ _ _ ih =>
    exact fun he => (ih he).1
  | negated _ _ _ ih => exact ih
  | assign | change | whileLoop => exact fun hs => hs.1
  | counted => exact fun _ => trivial
  | _ => trivial

theorem isSolid_of_continuesConditional (t : Token) (h : continuesConditional t = true) :
    t.isSolid = true := by
  have hword : t = .keyword .elseIf ∨ t = .keyword .otherwise := by
    simpa [continuesConditional] using h
  rcases hword with rfl | rfl <;> rfl

theorem isSolid_of_keyword {k : Keyword} (t : Token) (h : decide (t = .keyword k) = true) :
    t.isSolid = true := by
  rw [of_decide_eq_true h]
  rfl

theorem Builtin.fitAll_arguments {function : Builtin} {es : List Expr} {place : Span} :
    Expr.FitAll (function.arguments es place) ↔ Expr.FitAll es := by
  rcases function.arguments_cases es place with h | ⟨-, rfl, h⟩ <;> rw [h]
  exact ⟨fun _ => trivial, fun _ => ⟨trivial, trivial⟩⟩

/-- The text of a command is read as the same command. -/
theorem Command.ofText_inner (text : String) :
    Command.ofText (Command.ofText text).inner = Command.ofText text := by
  by_cases hinput : mentions inputText.toList text.toList = true
  · have htext : Command.ofText text = .input := if_pos hinput
    rw [htext]
    decide
  · have htext : Command.ofText text = .other text := if_neg hinput
    rw [htext]
    exact htext

/-- A tree that was read from tokens in order is read from its own tokens. -/
theorem Reads.renders {f : Form} {t : f.Tree} (h : Reads f c ts t c' ts') :
    ∀ d, Layout d ts → f.Fits (decide (0 < d)) t → f.Renders (decide (0 < d)) ts t ts' := by
  induction h with
  -- operands
  | int value span => exact fun _ _ _ us c _ => ⟨c, .int value span⟩
  | str text span => exact fun _ _ _ us c _ => ⟨c, .str text span⟩
  | command text span =>
    intro _ _ _ us c _
    have hread : Reads .operand c (.command (Command.ofText text).inner :: us) _ c us :=
      .command (Command.ofText text).inner span
    rw [Command.ofText_inner] at hread
    exact ⟨c, hread⟩
  | ident name span plain =>
    refine fun _ _ _ us c hus => ⟨c, .ident name span (plain.imp_right fun hplain => ?_)⟩
    rcases hus with hus | hus
    · exact hus ▸ hplain
    · show inView us ≠ _
      rw [hus]
      nofun
  | builtin name place span known _ ih =>
    exact fun d hd ht =>
      renders_builtin place span (ih (d + 1) hd.tail.tail (Builtin.fitAll_arguments.1 ht))
  | signed op span sign _ ih =>
    intro d hd ht
    -- only brackets change the depth
    have hop : (Token.symbol op).depthAfter d = d := by
      rcases sign with rfl | rfl <;> rfl
    exact renders_signed op span sign (ih d (hop ▸ hd.tail) ht)
  | nested span _ ih => exact fun d hd ht => renders_nested span (ih (d + 1) hd.tail ht)
  | array span _ ih => exact fun d hd ht => renders_array span (ih (d + 1) hd.tail ht)
  | literal _ ih =>
    intro d hd ht us c _
    obtain ⟨c', hread⟩ := ih d hd.tail ht us c
    exact ⟨c', .literal hread⟩
  -- expressions
  | expression h₁ h₂ ih₁ ih₂ =>
    exact fun d hd ht =>
      renders_expression (ih₁ d hd (h₂.partFits _ ht)) (ih₂ d (h₁.layout d hd) ht)
  | stop weak => exact fun _ _ _ => renders_stop weak
  | called span tight h₁ h₂ ih₁ ih₂ =>
    intro d hd ht
    have hcall := h₂.partFits _ ht
    exact renders_called span tight (ih₁ (d + 1) hd.tail hcall.2)
      (ih₂ d (h₁.layout (d + 1) hd.tail) ht)
  | indexed span tight h₁ h₂ ih₁ ih₂ =>
    intro d hd ht
    have helement := h₂.partFits _ ht
    exact renders_indexed span tight (ih₁ (d + 1) hd.tail helement.2)
      (ih₂ d (h₁.layout (d + 1) hd.tail).tail ht)
  | negated span tight _ ih => exact fun d hd ht => renders_negated span tight (ih d hd.tail ht)
  | joined op span operator tight h₁ h₂ ih₁ ih₂ =>
    intro d hd ht
    have hjoint := h₂.partFits _ ht
    have hright : Layout d _ := Token.depthAfter_operator operator d ▸ hd.tail
    exact renders_joined op span operator tight (ih₁ d hright hjoint.2)
      (ih₂ d (h₁.layout d hright) ht)
  -- lists
  | noItems => exact fun _ _ _ => renders_noItems
  | someItems _ _ ih => exact fun d hd ht => renders_someItems (ih d hd ht)
  | lastExpr last _ ih =>
    exact fun d hd ht hb => renders_lastExpr last (ih d hd (hb ▸ ht.1)) hb
  | moreExprs h₁ h₂ ih₁ ih₂ =>
    intro d hd ht hb
    have hfirst := ih₁ d hd (hb ▸ ht.1)
    have hothers := ih₂ d (h₁.layout d hd).tail ht.2
    exact renders_moreExprs hfirst hothers h₂.expressions_ne_nil hb
  | noParams => exact fun _ _ _ => renders_noParams
  | someParams _ _ ih => exact fun d hd _ => renders_someParams (ih d hd trivial)
  | lastParam => exact fun _ _ _ => renders_lastParam
  | moreParams _ _ h ih =>
    exact fun d hd _ => renders_moreParams (ih d hd.tail.tail trivial) h.params_ne_nil
  -- functions and blocks
  | function span closes h₁ h₂ ih₁ ih₂ =>
    intro d hd ht
    have hbody := (h₁.layout (d + 1) hd.tail).tail
    refine renders_function (fun hb => ?_) (ih₁ (d + 1) hd.tail trivial) (ih₂ d hbody ht)
    rw [← (h₂.layout d hbody).passBreak_eq (of_decide_eq_true hb) isSolid_of_keyword, closes]
    rfl
  | lines span _ ih =>
    intro d hd ht
    -- a block opens outside brackets only
    obtain ⟨rfl, -⟩ := hd.tail.tail.1 rfl
    exact renders_lines (ih 0 hd.tail.tail.tail ht.2 rfl)
  | oneLine span _ _ ih => exact fun d hd ht => renders_oneLine ht.1 (ih d hd.tail ht.2)
  | lastHere last _ ih => exact fun d hd ht => renders_lastHere last (ih d hd ht.1)
  | moreHere h₁ h₂ ih₁ ih₂ =>
    exact fun d hd ht => renders_moreHere (ih₁ d hd ht.1) (ih₂ d (h₁.layout d hd).tail ht.2)
      h₂.sameLine_ne_nil
  | noStatements => exact fun _ _ _ _ => lined_nil
  | someStatements breaks _ ended h₁ _ ih₁ ih₂ =>
    intro d hd ht hb
    have hfirst : Layout d _ := breaks ▸ hd.dropBreaks
    have hothers := (h₁.layout d hfirst).passEnd ended
    have hstatement := ih₁ d hfirst ht.1
    rw [hb] at hstatement
    exact lined_cons hstatement (ih₂ d hothers ht.2 hb)
  -- statements
  | define _ _ _ _ ih => exact fun d hd ht => renders_define (ih d hd.tail.tail ht)
  | conditional _ ih => exact fun d hd ht => renders_conditional (ih d hd.tail ht)
  | untilLoop _ closes h₁ _ ih₁ ih₂ =>
    intro d hd ht
    have hbody := h₁.layout d hd.tail
    -- inside brackets there is no line break to be passed before the word
    have hwo := (closes ▸ hbody.passBreak : Layout d _).tail
    refine renders_untilLoop (fun hb => ?_) (ih₁ d hd.tail ht.1) (ih₂ d (hwo.passToken rfl) ht.2)
    rw [← hbody.passBreak_eq (of_decide_eq_true hb) isSolid_of_keyword, closes]
    rfl
  | opened _ h₁ h₂ ih₁ ih₂ =>
    exact fun d hd ht => renders_opened (ih₁ d hd (h₂.partFits _ ht)) (ih₂ d (h₁.layout d hd) ht)
  | plain ends => exact fun _ _ _ => renders_plain ends
  | assign _ assignable _ ih =>
    exact fun d hd ht => renders_assign assignable (ih d hd.tail ht.2)
  | counted counter direction _ h₁ h₂ h₃ _ ih₁ ih₂ ih₃ ih₄ =>
    rintro d hd ⟨hfirst, hlast, hstep, hbody⟩
    have hd₁ := (h₁.layout d hd.tail).tail
    have hd₂ := (h₂.layout d hd₁).tail
    have hd₃ := (h₃.layout d hd₂).tail.tail
    rw [direction.depthAfter_countingToken] at hd₃
    exact renders_counted counter (ih₁ d hd.tail hfirst) (ih₂ d hd₁ hlast) (ih₃ d hd₂ hstep)
      (ih₄ d (hd₃.passToken rfl) hbody)
  | change _ _ assignable _ ih =>
    exact fun d hd ht => renders_change assignable (ih d hd.tail ht.2)
  | whileLoop _ _ ih =>
    exact fun d hd ht => renders_whileLoop (ih d (hd.tail.passToken rfl) ht.2)
  | giveBack => exact fun _ _ _ => renders_giveBack
  -- conditionals
  | branches _ h₁ h₂ _ ih₁ ih₂ ih₃ =>
    rintro d hd ⟨hcondition, hconsequence, halternative⟩
    have hd₁ := (h₁.layout d hd).tail
    have hd₂ := h₂.layout d hd₁
    refine renders_branches (fun hb => ?_) (ih₁ d hd hcondition) (ih₂ d hd₁ hconsequence)
      (ih₃ d hd₂.passBreak halternative)
    exact hd₂.passBreak_eq (of_decide_eq_true hb) isSolid_of_continuesConditional
  | elseIf _ ih => exact fun d hd ht => renders_elseIf (ih d hd.tail ht)
  | otherwise _ ih => exact fun d hd ht => renders_otherwise (ih d hd.tail ht)
  | missing ends => exact fun _ _ _ => renders_missing ends

/-- A program that was read from tokens in order is read from its own. -/
theorem Program.reads_tokens {p : Program} (hlayout : Layout 0 ts) (hfits : p.Fits)
    (h : Reads (.statements [.eof, .dedent]) false ts p.statements c []) :
    ∃ c', Reads (.statements [.eof, .dedent]) false p.tokens p.statements c' [] := by
  have hstops : ∀ t ∈ [Token.eof, Token.dedent], t = .dedent ∨ t = .eof := by simp
  obtain ⟨-, hread⟩ := h.renders 0 hlayout hfits rfl [.eof, .dedent] [] hstops List.mem_cons_self
  obtain ⟨c', hread⟩ := hread false
  rw [List.append_nil] at hread
  exact ⟨c', hread⟩

end Dncl
