/-
Dncl/Proofs/Precedence.lean

Expressions are parsed by precedence.

An expression is *in order* if every operator has the operands that precedence
gives it:

* on the left spine of its right operand there are tighter operators only, and
  on that of a signed operand only calls and indexes;
* it is not tighter than an operator whose right operand ends its left one.

With brackets written only where the tree has them, the parser reads from a
list of tokens exactly the expression in order that is spelled there:

    Reads (.expression above) c ts e c' rest  ↔  e.Phrased above ts rest

and there is only one, up to places.

Design.  The parser reads an operand and then goes on with what it has got so
far as the left operand of the next operator.  So soundness is about a phrase
that goes on with an expression (`Begins`), and completeness follows the tree
to its leftmost leaf with the rest of the operators to come (`Continues`).
Functions are spelled as the grammar of statements has it, and what is said of
every expression is said of those in their bodies too.
-/
import Dncl.Proofs.Rendering
import Dncl.Proofs.Completeness
import Dncl.Proofs.Soundness

namespace Dncl

variable {rest ts : List Token} {arguments es : List Expr} {callee : Builtin} {place : Span}

/-! ### Spines and edges -/

/-- The operators on the left spine of the expression, from the outermost one
on.  The spine goes through left operands, callees and containers; an operand
or a sign ends it. -/
def Expr.leftSpine : Expr → List Precedence
  | .infixOp op left _ _ => op.precedence :: left.leftSpine
  | .prefixOp op operand _ => if op = .keyword .notWord then .negation :: operand.leftSpine else []
  | .call callee _ _ => .application :: callee.leftSpine
  | .index container _ _ => .application :: container.leftSpine
  | _ => []

/-- The operators whose right operand ends the expression.  Negations, calls,
indexes and brackets close it. -/
def Expr.rightEdge : Expr → List Precedence
  | .infixOp op _ right _ => op.precedence :: right.rightEdge
  | .prefixOp op operand _ => if op = .keyword .notWord then [] else .sign :: operand.rightEdge
  | _ => []

/-- The precedence `q` is not tighter than an operator whose right operand ends
the expression. -/
def Expr.Yields (e : Expr) (q : Precedence) : Prop :=
  ∀ p ∈ e.rightEdge, q.level ≤ p.level

/-- Every operator on the left spine of the expression binds more tightly than
`p`. -/
def Expr.Above (e : Expr) (p : Precedence) : Prop :=
  ∀ q ∈ e.leftSpine, p.level < q.level

/-- The operator of the expression has the operands that precedence gives
it. -/
def Expr.IsOrdered : Expr → Prop
  | .infixOp op left right _ => left.Yields op.precedence ∧ right.Above op.precedence
  | .prefixOp op operand _ =>
    if op = .keyword .notWord then operand.Yields .negation
    else ∀ q ∈ operand.leftSpine, q = .application
  | .call callee _ _ => callee.Yields .application
  | .index container _ _ => container.Yields .application
  | _ => True

/-- The grammar has a name for the expression.  A built-in function is not
called like others, `戻り値` has an argument, a command that mentions input is
the one for input, and where no value is written there is no expression. -/
def Expr.IsNameable : Expr → Prop
  | .absent _ => False
  | .prefixOp op _ _ => op = .keyword .notWord ∨ op = .symbol .minus ∨ op = .symbol .plus
  | .infixOp op _ _ _ => op.isOperator = true
  | .call (.ident id) _ _ => Builtin.ofName? id.name = none
  | .builtin callee arguments _ => callee = .giveBack → arguments ≠ []
  | .command c _ => ∃ text, c = .ofText text
  | _ => True

/-- The arguments are what `戻り値` has where none are written. -/
def Builtin.IsBare (function : Builtin) (arguments : List Expr) : Prop :=
  function = .giveBack ∧ ∃ place, arguments = [.absent place]

mutual

/-- Every expression that is written in the expression, itself included, has
the property. -/
def Expr.Every (P : Expr → Prop) : Expr → Prop
  | .ident id => P (.ident id)
  | .int value span => P (.int value span)
  | .str text span => P (.str text span)
  | .absent span => P (.absent span)
  | .array elements span => P (.array elements span) ∧ Expr.EveryAll P elements
  | .prefixOp op operand span => P (.prefixOp op operand span) ∧ operand.Every P
  | .infixOp op left right span => P (.infixOp op left right span) ∧ left.Every P ∧ right.Every P
  | .index container position span =>
    P (.index container position span) ∧ container.Every P ∧ position.Every P
  | .call callee arguments span =>
    P (.call callee arguments span) ∧ callee.Every P ∧ Expr.EveryAll P arguments
  | .builtin function arguments span => P (.builtin function arguments span) ∧
    (function.IsBare arguments ∨ Expr.EveryAll P arguments)
  | .function literal => P (.function literal) ∧ literal.Every P
  | .command command span => P (.command command span)
  | .nested inner span => P (.nested inner span) ∧ inner.Every P

/-- The same for the expressions of a list. -/
def Expr.EveryAll (P : Expr → Prop) : List Expr → Prop
  | [] => True
  | e :: es => e.Every P ∧ Expr.EveryAll P es

/-- The same for functions. -/
def FunctionLit.Every (P : Expr → Prop) : FunctionLit → Prop
  | ⟨_, body, _⟩ => body.Every P

/-- The same for blocks. -/
def Block.Every (P : Expr → Prop) : Block → Prop
  | ⟨statements, _⟩ => Stmt.EveryAll P statements

/-- The same for statements. -/
def Stmt.Every (P : Expr → Prop) : Stmt → Prop
  | .expr e => e.Every P
  | .assign target value _ => target.Every P ∧ value.Every P
  | .conditional c => c.Every P
  | .counted _ first last step _ body _ =>
    first.Every P ∧ last.Every P ∧ step.Every P ∧ body.Every P
  | .whileLoop condition body _ => condition.Every P ∧ body.Every P
  | .untilLoop body condition _ => body.Every P ∧ condition.Every P
  | .change target amount _ _ => target.Every P ∧ amount.Every P
  | .define _ function _ => function.Every P
  | .giveBack value _ => value.Every P

/-- The same for the statements of a list. -/
def Stmt.EveryAll (P : Expr → Prop) : List Stmt → Prop
  | [] => True
  | s :: ss => s.Every P ∧ Stmt.EveryAll P ss

/-- The same for conditionals. -/
def Conditional.Every (P : Expr → Prop) : Conditional → Prop
  | ⟨condition, consequence, alternative, _⟩ =>
    condition.Every P ∧ consequence.Every P ∧ alternative.Every P

/-- The same for what follows a consequence. -/
def ElseBranch.Every (P : Expr → Prop) : ElseBranch → Prop
  | .missing => True
  | .elseIf c => c.Every P
  | .otherwise b => b.Every P

end

/-! ### Spellings -/

mutual

/-- The tokens `ts` are those of the expression and then `rest`.  Brackets are
written where the tree has them and nowhere else. -/
def Expr.Spells : Expr → List Token → List Token → Prop
  | .ident id, ts, rest => ts = .ident id.name :: rest
  | .int value _, ts, rest => ts = .int value :: rest
  | .str text _, ts, rest => ts = .str text :: rest
  | .absent _, ts, rest => ts = rest
  | .array elements _, ts, rest => ∃ us, ts = .symbol .leftBracket :: us ∧
    Expr.SpellsAll elements us (.symbol .rightBracket :: rest)
  | .prefixOp op operand _, ts, rest =>
    if op = .keyword .notWord then operand.Spells ts (op :: rest)
    else ∃ us, ts = op :: us ∧ operand.Spells us rest
  | .infixOp op left right _, ts, rest => ∃ us, left.Spells ts (op :: us) ∧ right.Spells us rest
  | .index container position _, ts, rest => ∃ us,
    container.Spells ts (.symbol .leftBracket :: us) ∧
      position.Spells us (.symbol .rightBracket :: rest)
  | .call callee arguments _, ts, rest => ∃ us, callee.Spells ts (.symbol .leftParen :: us) ∧
    Expr.SpellsAll arguments us (.symbol .rightParen :: rest)
  | .builtin callee arguments _, ts, rest => ∃ us,
    ts = .ident callee.name :: .symbol .leftParen :: us ∧
      Expr.SpellsAll arguments us (.symbol .rightParen :: rest)
  | .function literal, ts, rest => ∃ us, ts = .keyword .function :: us ∧
    Reads .function false us literal false rest
  | .command c _, ts, rest => ∃ text, ts = .command text :: rest ∧ .ofText text = c
  | .nested inner _, ts, rest => ∃ us, ts = .symbol .leftParen :: us ∧
    inner.Spells us (.symbol .rightParen :: rest)

/-- The same for expressions with commas between them. -/
def Expr.SpellsAll : List Expr → List Token → List Token → Prop
  | [], ts, rest => ts = rest
  | e :: es, ts, rest => ∃ us, e.Spells ts us ∧ Expr.SpellsLater es us rest

/-- The same for expressions behind a comma each. -/
def Expr.SpellsLater : List Expr → List Token → List Token → Prop
  | [], ts, rest => ts = rest
  | e :: es, ts, rest => ∃ us vs, ts = .symbol .comma :: us ∧ e.Spells us vs ∧
    Expr.SpellsLater es vs rest

end

/-- The expression is in order and has a name. -/
structure Expr.IsProper (e : Expr) : Prop where
  ordered : e.IsOrdered
  nameable : e.IsNameable

/-- The tokens `ts` begin with the expression, all operators of which are
tighter than `above`.  What is in view behind it belongs to no operand in it,
nor is it a bracket that would make a built-in call of a name. -/
structure Expr.Begins (e : Expr) (above : Precedence) (ts rest : List Token) : Prop where
  spells : e.Spells ts rest
  proper : e.Every Expr.IsProper
  tight : e.Above above
  yields : e.Yields (inView rest).precedence
  plain : ∀ id, e = .ident id → Builtin.ofName? id.name = none ∨ inView rest ≠ .symbol .leftParen

/-- The tokens `ts` begin with the expression, and no operator that is tighter
than `above` goes on with it. -/
structure Expr.Phrased (e : Expr) (above : Precedence) (ts rest : List Token) : Prop
    extends e.Begins above ts rest where
  ends : (inView rest).precedence.level ≤ above.level

/-- A function does not depend on what was before it, and forgets its last block. -/
theorem Reads.function_restart {c c' : Bool} {literal : FunctionLit} (d : Bool)
    (h : Reads .function c ts literal c' ts') : Reads .function d ts literal false ts' := by
  cases h with
  | function span closes h₁ h₂ =>
    obtain ⟨d₁, h₁⟩ := h₁.afresh rfl d
    exact .function span closes h₁ (h₂.block_restart d₁)

/-! ### What is read is in order -/

/-- What the precedence grammar says of a phrase that was read as the tree from
`ts`, up to `ts'`. -/
def Form.Orders : (f : Form) → List Token → f.Tree → List Token → Prop
  | .operand, ts, e, ts' => ∀ above, e.Begins above ts ts'
  | .expression above, ts, e, ts' => e.Phrased above ts ts'
  | .operators above left, ts, e, ts' => ∀ ts₀,
    left.Begins above ts₀ ts → e.Phrased above ts₀ ts'
  | .items closing, ts, es, ts' =>
    Expr.SpellsAll es ts (.symbol closing :: ts') ∧ Expr.EveryAll Expr.IsProper es
  | .expressions, ts, es, ts' => Expr.SpellsAll es ts ts' ∧ Expr.EveryAll Expr.IsProper es
  | .paramItems, _, _, _ | .params, _, _, _ => True
  | .function, _, literal, _ => literal.Every Expr.IsProper
  | .block, _, body, _ => body.Every Expr.IsProper
  | .sameLine, _, ss, _ | .statements _, _, ss, _ => Stmt.EveryAll Expr.IsProper ss
  | .statement, _, s, _ => s.Every Expr.IsProper
  | .continued e, _, s, _ => e.Every Expr.IsProper → s.Every Expr.IsProper
  | .conditional, _, k, _ => k.Every Expr.IsProper
  | .elseBranch, _, a, _ => a.Every Expr.IsProper

theorem Expr.spellsLater_of_spellsAll (h : Expr.SpellsAll es ts rest) (hes : es ≠ []) :
    Expr.SpellsLater es (.symbol .comma :: ts) rest := by
  cases es with
  | nil => exact absurd rfl hes
  | cons e es =>
    obtain ⟨us, he, hes⟩ := h
    exact ⟨ts, us, rfl, he, hes⟩

theorem Precedence.eq_application {q : Precedence} (h : Precedence.sign.level < q.level) :
    q = .application := by
  revert h
  cases q <;> decide

section Begins

variable {above : Precedence} {ts us rest : List Token} {left right inner : Expr}
  {arguments : List Expr} {span : Span}

theorem Expr.Begins.infixOp {op : Token} (h₁ : left.Begins above ts (op :: us))
    (h₂ : right.Phrased op.precedence us rest) (operator : op.isOperator = true)
    (tight : above.level < op.precedence.level) :
    (Expr.infixOp op left right span).Begins above ts rest where
  spells := ⟨us, h₁.spells, h₂.spells⟩
  proper := ⟨⟨⟨h₁.yields, h₂.tight⟩, operator⟩, h₁.proper, h₂.proper⟩
  tight := List.forall_mem_cons.2 ⟨tight, h₁.tight⟩
  yields := List.forall_mem_cons.2 ⟨h₂.ends, h₂.yields⟩
  plain := nofun

theorem Expr.Begins.negated (h : left.Begins above ts (.keyword .notWord :: rest))
    (tight : above.level < Precedence.negation.level) :
    (Expr.prefixOp (.keyword .notWord) left span).Begins above ts rest where
  spells := h.spells
  proper := ⟨⟨h.yields, .inl rfl⟩, h.proper⟩
  tight := List.forall_mem_cons.2 ⟨tight, h.tight⟩
  yields := nofun
  plain := nofun

theorem Expr.Begins.call (h : left.Begins above ts (.symbol .leftParen :: us))
    (hspells : Expr.SpellsAll arguments us (.symbol .rightParen :: rest))
    (hproper : Expr.EveryAll Expr.IsProper arguments)
    (tight : above.level < Precedence.application.level) :
    (Expr.call left arguments span).Begins above ts rest where
  spells := ⟨us, h.spells, hspells⟩
  proper := by
    refine ⟨⟨h.yields, ?_⟩, h.proper, hproper⟩
    cases left with
    | ident id => exact (h.plain id rfl).resolve_right fun hparen => hparen rfl
    | _ => trivial
  tight := List.forall_mem_cons.2 ⟨tight, h.tight⟩
  yields := nofun
  plain := nofun

theorem Expr.Begins.index (h₁ : left.Begins above ts (.symbol .leftBracket :: us))
    (h₂ : inner.Phrased .lowest us (.symbol .rightBracket :: rest))
    (tight : above.level < Precedence.application.level) :
    (Expr.index left inner span).Begins above ts rest where
  spells := ⟨us, h₁.spells, h₂.spells⟩
  proper := ⟨⟨h₁.yields, trivial⟩, h₁.proper, h₂.proper⟩
  tight := List.forall_mem_cons.2 ⟨tight, h₁.tight⟩
  yields := nofun
  plain := nofun

theorem Expr.Begins.signed {op : Symbol} (sign : op = .minus ∨ op = .plus)
    (h : inner.Phrased .sign us rest) :
    (Expr.prefixOp (.symbol op) inner span).Begins above (.symbol op :: us) rest where
  spells := ⟨us, rfl, h.spells⟩
  proper := by
    refine ⟨⟨fun q hq => Precedence.eq_application (h.tight q hq), ?_⟩, h.proper⟩
    exact .inr (sign.imp (congrArg Token.symbol) (congrArg Token.symbol))
  tight := nofun
  yields := List.forall_mem_cons.2 ⟨h.ends, h.yields⟩
  plain := nofun

end Begins

theorem Builtin.every_arguments {P : Expr → Prop} (h : Expr.EveryAll P arguments) :
    callee.IsBare (callee.arguments arguments place) ∨
      Expr.EveryAll P (callee.arguments arguments place) := by
  rcases callee.arguments_cases arguments place with heq | ⟨hcallee, -, heq⟩ <;> rw [heq]
  · exact .inr h
  · exact .inl ⟨hcallee, place, rfl⟩

theorem Builtin.spells_arguments (h : Expr.SpellsAll arguments ts rest) :
    Expr.SpellsAll (callee.arguments arguments place) ts rest := by
  rcases callee.arguments_cases arguments place with heq | ⟨-, rfl, heq⟩ <;> rw [heq]
  · exact h
  · exact ⟨ts, rfl, h⟩

theorem Builtin.arguments_ne_nil (h : callee = .giveBack) :
    callee.arguments arguments place ≠ [] := by
  rw [Builtin.arguments, h]
  split
  · simp
  · rename_i hsome
    simpa using hsome

theorem Builtin.arguments_eq (h : callee = .giveBack → arguments ≠ []) :
    callee.arguments arguments place = arguments := by
  rw [Builtin.arguments, if_neg]
  simpa using h

/-- What is read keeps to the precedence grammar. -/
theorem Reads.orders {f : Form} {c c' : Bool} {ts' : List Token} {t : f.Tree}
    (h : Reads f c ts t c' ts') : f.Orders ts t ts' := by
  induction h with
  -- operands
  | int | str => exact fun _ => ⟨rfl, ⟨trivial, trivial⟩, nofun, nofun, nofun⟩
  | command text => exact fun _ => ⟨⟨text, rfl, rfl⟩, ⟨trivial, text, rfl⟩, nofun, nofun, nofun⟩
  | ident name span plain =>
    refine fun _ => ⟨rfl, ⟨trivial, trivial⟩, nofun, nofun, ?_⟩
    rintro id ⟨⟩
    exact plain
  | builtin name place span known _ ih =>
    obtain rfl := Builtin.eq_name known
    exact fun _ => ⟨⟨_, rfl, Builtin.spells_arguments ih.1⟩,
      ⟨⟨trivial, Builtin.arguments_ne_nil⟩, Builtin.every_arguments ih.2⟩, nofun, nofun, nofun⟩
  | signed op span sign _ ih => exact fun _ => .signed sign ih
  | nested span _ ih =>
    exact fun _ => ⟨⟨_, rfl, ih.spells⟩, ⟨⟨trivial, trivial⟩, ih.proper⟩, nofun, nofun, nofun⟩
  | array span _ ih =>
    exact fun _ => ⟨⟨_, rfl, ih.1⟩, ⟨⟨trivial, trivial⟩, ih.2⟩, nofun, nofun, nofun⟩
  | literal h ih =>
    exact fun _ => ⟨⟨_, rfl, h.function_restart _⟩, ⟨⟨trivial, trivial⟩, ih⟩, nofun, nofun, nofun⟩
  -- expressions
  | expression _ _ ih₁ ih₂ => exact ih₂ _ (ih₁ _)
  | stop weak => exact fun _ hleft => ⟨hleft, weak⟩
  | called span tight _ _ ih₁ ih₂ => exact fun ts₀ hleft => ih₂ ts₀ (hleft.call ih₁.1 ih₁.2 tight)
  | indexed span tight _ _ ih₁ ih₂ => exact fun ts₀ hleft => ih₂ ts₀ (hleft.index ih₁ tight)
  | negated span tight _ ih => exact fun ts₀ hleft => ih ts₀ (hleft.negated tight)
  | joined op span operator tight _ _ ih₁ ih₂ =>
    exact fun ts₀ hleft => ih₂ ts₀ (hleft.infixOp ih₁ operator tight)
  -- lists
  | noItems => exact ⟨rfl, trivial⟩
  | someItems _ _ ih => exact ih
  | lastExpr _ _ ih => exact ⟨⟨_, ih.spells, rfl⟩, ih.proper, trivial⟩
  | moreExprs _ h₂ ih₁ ih₂ =>
    have hothers := Expr.spellsLater_of_spellsAll ih₂.1 h₂.expressions_ne_nil
    exact ⟨⟨_, ih₁.spells, hothers⟩, ih₁.proper, ih₂.2⟩
  | noParams | someParams | lastParam | moreParams => trivial
  -- functions and blocks
  | function _ _ _ _ _ ih => exact ih
  | lines _ _ ih | oneLine _ _ _ ih => exact ih
  | lastHere _ _ ih => exact ⟨ih, trivial⟩
  | moreHere _ _ ih₁ ih₂ | someStatements _ _ _ _ _ ih₁ ih₂ => exact ⟨ih₁, ih₂⟩
  | noStatements => trivial
  -- statements
  | define _ _ _ _ ih | conditional _ ih => exact ih
  | untilLoop _ _ _ _ ih₁ ih₂ => exact ⟨ih₁, ih₂.proper⟩
  | opened _ _ _ ih₁ ih₂ => exact ih₂ ih₁.proper
  | plain | giveBack => exact id
  | assign _ _ _ ih | change _ _ _ _ ih => exact fun he => ⟨he, ih.proper⟩
  | counted _ _ _ _ _ _ _ ih₁ ih₂ ih₃ ih₄ =>
    exact fun _ => ⟨ih₁.proper, ih₂.proper, ih₃.proper, ih₄⟩
  | whileLoop _ _ ih => exact fun he => ⟨he, ih⟩
  -- conditionals
  | branches _ _ _ _ ih₁ ih₂ ih₃ => exact ⟨ih₁.proper, ih₂, ih₃⟩
  | elseIf _ ih | otherwise _ ih => exact ih
  | missing => trivial

/-! ### What is in order is read -/

theorem Token.level_lt_application {op : Token} (h : op.isOperator = true) :
    op.precedence.level < Precedence.application.level := by
  cases op with
  | symbol s => cases s <;> first | decide | cases h
  | keyword k => cases k <;> decide
  | _ => cases h

/-- What is no tighter than an operator or a sign is no bracket. -/
theorem ne_leftParen_of_level {p : Precedence} (h : (inView ts).precedence.level ≤ p.level)
    (hp : p.level < Precedence.application.level) : inView ts ≠ .symbol .leftParen := by
  intro hparen
  rw [hparen] at h
  exact absurd hp (Nat.not_lt.2 h)

theorem Token.level_pos {op : Token} (h : op.isOperator = true) :
    Precedence.lowest.level < op.precedence.level := by
  cases op with
  | symbol s => cases s <;> first | decide | cases h
  | keyword k => cases k <;> first | decide | cases h
  | _ => cases h

/-- Every operator is tighter than none. -/
theorem Expr.above_lowest : ∀ e : Expr, e.Every Expr.IsProper → e.Above .lowest
  | .infixOp _ left _ _, h => List.forall_mem_cons.2
    ⟨Token.level_pos h.1.nameable, left.above_lowest h.2.1⟩
  | .prefixOp op operand _, h => by
    rw [Expr.Above, Expr.leftSpine]
    split
    · exact List.forall_mem_cons.2 ⟨by decide, operand.above_lowest h.2⟩
    · nofun
  | .call callee _ _, h => List.forall_mem_cons.2 ⟨by decide, callee.above_lowest h.2.1⟩
  | .index container _ _, h => List.forall_mem_cons.2 ⟨by decide, container.above_lowest h.2.1⟩
  | .ident _, _ | .int _ _, _ | .str _ _, _ | .absent _, _ | .array _ _, _ => nofun
  | .builtin _ _ _, _ | .function _, _ | .command _ _, _ | .nested _ _, _ => nofun

/-- Before a token that is no operator any expression ends. -/
theorem Expr.begins_lowest {e : Expr} (hspells : e.Spells ts rest) (hproper : e.Every Expr.IsProper)
    (hend : (inView rest).precedence = .lowest) :
    e.Begins .lowest ts rest where
  spells := hspells
  proper := hproper
  tight := e.above_lowest hproper
  yields _ _ := by
    rw [hend]
    exact Nat.zero_le _
  plain _ _ := .inr fun hparen => by
    rw [hparen] at hend
    cases hend

theorem Expr.spellsAll_of_spellsLater (h : Expr.SpellsLater es ts rest) (hes : es ≠ []) :
    ∃ us, ts = .symbol .comma :: us ∧ Expr.SpellsAll es us rest := by
  cases es with
  | nil => exact absurd rfl hes
  | cons e es =>
    obtain ⟨us, vs, rfl, he, hlater⟩ := h
    exact ⟨us, rfl, vs, he, hlater⟩

/-- The operators behind the expression are read up to `rest'`, which makes
`e'` of it. -/
def Continues (above : Precedence) (e : Expr) (rest : List Token) (e' : Expr)
    (rest' : List Token) : Prop :=
  ∀ c, ∃ c', Reads (.operators above e) c rest e' c' rest'

section Continues

variable {above : Precedence} {c : Bool} {ts rest rest' : List Token} {e e' : Expr}
  {es : List Expr} {closing : Symbol}

theorem continues_stop (h : (inView rest).precedence.level ≤ above.level) :
    Continues above e rest e rest :=
  fun c => ⟨c, .stop h⟩

theorem reads_of_operand {c₁ : Bool} (h : Reads .operand c ts e c₁ rest)
    (hgoes : Continues above e rest e' rest') :
    ∃ c', Reads (.expression above) c ts e' c' rest' := by
  obtain ⟨c', hgoes⟩ := hgoes c₁
  exact ⟨c', .expression h hgoes⟩

theorem reads_items (hclosing : closing = .rightParen ∨ closing = .rightBracket)
    (hspells : Expr.SpellsAll es ts (.symbol closing :: rest))
    (h : es ≠ [] → ∃ c', Reads .expressions c ts es c' (.symbol closing :: rest)) :
    ∃ c', Reads (.items closing) c ts es c' rest := by
  cases es with
  | nil => exact ⟨c, hspells ▸ .noItems⟩
  | cons e es =>
    obtain ⟨c', h⟩ := h nofun
    refine ⟨c', .someItems ?_ h⟩
    intro hnow
    have hbegins := h.begins_expressions
    rw [hnow] at hbegins
    rcases hclosing with rfl | rfl <;> cases hbegins

theorem precedence_closing (hclosing : closing = .rightParen ∨ closing = .rightBracket) :
    (Token.symbol closing).precedence = .lowest := by
  rcases hclosing with rfl | rfl <;> rfl

end Continues

mutual

/-- An expression in order is read, and after it what goes on with it. -/
theorem Expr.Begins.reads {above : Precedence} {ts rest rest' : List Token} {e' : Expr} (c : Bool) :
    ∀ e : Expr, e.Begins above ts rest → Continues above e rest e' rest' →
      ∃ c', Reads (.expression above) c ts e' c' rest'
  -- operands
  | .ident id, h, hgoes => by
    obtain rfl := h.spells
    exact reads_of_operand (.ident id.name id.span (h.plain id rfl)) hgoes
  | .int value span, h, hgoes => by
    obtain rfl := h.spells
    exact reads_of_operand (.int value span) hgoes
  | .str text span, h, hgoes => by
    obtain rfl := h.spells
    exact reads_of_operand (.str text span) hgoes
  | .absent span, h, _ => h.proper.nameable.elim
  | .command _ span, h, hgoes => by
    obtain ⟨text, rfl, rfl⟩ := h.spells
    exact reads_of_operand (.command text span) hgoes
  | .function literal, h, hgoes => by
    obtain ⟨us, rfl, hread⟩ := h.spells
    exact reads_of_operand (.literal (hread.function_restart _)) hgoes
  | .nested inner span, h, hgoes => by
    obtain ⟨us, rfl, hspells⟩ := h.spells
    obtain ⟨c₁, hinner⟩ := Expr.Begins.reads c inner
      (Expr.begins_lowest hspells h.proper.2 rfl) (continues_stop (Nat.le_refl _))
    exact reads_of_operand (.nested span hinner) hgoes
  | .array elements span, h, hgoes => by
    obtain ⟨us, rfl, hspells⟩ := h.spells
    obtain ⟨c₁, helements⟩ := reads_items (.inr rfl) hspells
      (Expr.reads_list c (.inr rfl) elements hspells h.proper.2)
    exact reads_of_operand (.array span helements) hgoes
  | .builtin callee arguments span, h, hgoes => by
    obtain ⟨us, rfl, hspells⟩ := h.spells
    obtain ⟨⟨-, hsome⟩, hbare | hproper⟩ := h.proper
    · obtain ⟨rfl, place, rfl⟩ := hbare
      obtain ⟨vs, rfl, rfl⟩ := hspells
      exact reads_of_operand (.builtin _ place span (Builtin.ofName?_name _) .noItems) hgoes
    · obtain ⟨c₁, harguments⟩ := reads_items (.inl rfl) hspells
        (Expr.reads_list c (.inl rfl) arguments hspells hproper)
      have hread := Reads.builtin _ default span (Builtin.ofName?_name callee) harguments
      rw [Builtin.arguments_eq hsome] at hread
      exact reads_of_operand hread hgoes
  -- expressions
  | .prefixOp op operand span, h, hgoes => by
    obtain ⟨⟨hordered, rfl | hsign⟩, hproper⟩ := h.proper
    · obtain ⟨tight, hspine⟩ := List.forall_mem_cons.1 h.tight
      refine Expr.Begins.reads c operand
        ⟨h.spells, hproper, hspine, hordered, fun _ _ => .inr nofun⟩ fun c₁ => ?_
      obtain ⟨c', hgoes⟩ := hgoes c₁
      exact ⟨c', .negated span tight hgoes⟩
    · obtain ⟨sign, rfl, hchoice⟩ : ∃ s, op = .symbol s ∧ (s = .minus ∨ s = .plus) := by
        rcases hsign with rfl | rfl
        · exact ⟨.minus, rfl, .inl rfl⟩
        · exact ⟨.plus, rfl, .inr rfl⟩
      obtain ⟨us, rfl, hspells⟩ := h.spells
      obtain ⟨hends, hedge⟩ := List.forall_mem_cons.1 h.yields
      have hoperand : operand.Begins .sign us rest :=
        ⟨hspells, hproper, fun q hq => hordered q hq ▸ by decide, hedge,
          fun _ _ => .inr (ne_leftParen_of_level hends (by decide))⟩
      obtain ⟨c₁, hoperand⟩ := Expr.Begins.reads c operand hoperand (continues_stop hends)
      exact reads_of_operand (.signed sign span hchoice hoperand) hgoes
  | .infixOp op left right span, h, hgoes => by
    obtain ⟨us, hleft, hright⟩ := h.spells
    obtain ⟨⟨⟨hyields, habove⟩, operator⟩, hpleft, hpright⟩ := h.proper
    obtain ⟨tight, hspine⟩ := List.forall_mem_cons.1 h.tight
    obtain ⟨hends, hedge⟩ := List.forall_mem_cons.1 h.yields
    have hlevel := Token.level_lt_application operator
    refine Expr.Begins.reads c left ⟨hleft, hpleft, hspine, hyields, fun _ _ => .inr ?_⟩
      fun c₁ => ?_
    · rintro (rfl : op = _)
      cases operator
    · have hr : right.Begins op.precedence us rest :=
        ⟨hright, hpright, habove, hedge, fun _ _ => .inr (ne_leftParen_of_level hends hlevel)⟩
      obtain ⟨c₂, hr⟩ := Expr.Begins.reads c₁ right hr (continues_stop hends)
      obtain ⟨c', hgoes⟩ := hgoes c₂
      exact ⟨c', .joined op span operator tight hr hgoes⟩
  | .index container position span, h, hgoes => by
    obtain ⟨us, hcontainer, hposition⟩ := h.spells
    obtain ⟨⟨hyields, -⟩, hpcontainer, hpposition⟩ := h.proper
    obtain ⟨tight, hspine⟩ := List.forall_mem_cons.1 h.tight
    refine Expr.Begins.reads c container
      ⟨hcontainer, hpcontainer, hspine, hyields, fun _ _ => .inr nofun⟩ fun c₁ => ?_
    obtain ⟨c₂, hr⟩ := Expr.Begins.reads c₁ position
      (Expr.begins_lowest hposition hpposition rfl) (continues_stop (Nat.le_refl _))
    obtain ⟨c', hgoes⟩ := hgoes c₂
    exact ⟨c', .indexed span tight hr hgoes⟩
  | .call callee arguments span, h, hgoes => by
    obtain ⟨us, hcallee, harguments⟩ := h.spells
    obtain ⟨⟨hyields, hname⟩, hpcallee, hparguments⟩ := h.proper
    obtain ⟨tight, hspine⟩ := List.forall_mem_cons.1 h.tight
    refine Expr.Begins.reads c callee ⟨hcallee, hpcallee, hspine, hyields, ?_⟩ fun c₁ => ?_
    · rintro id rfl
      exact .inl hname
    · obtain ⟨c₂, hr⟩ := reads_items (.inl rfl) harguments
        (Expr.reads_list c₁ (.inl rfl) arguments harguments hparguments)
      obtain ⟨c', hgoes⟩ := hgoes c₂
      exact ⟨c', .called span tight hr hgoes⟩

theorem Expr.reads_list {ts rest : List Token} {closing : Symbol} (c : Bool)
    (hclosing : closing = .rightParen ∨ closing = .rightBracket) : ∀ es : List Expr,
    Expr.SpellsAll es ts (.symbol closing :: rest) → Expr.EveryAll Expr.IsProper es → es ≠ [] →
      ∃ c', Reads .expressions c ts es c' (.symbol closing :: rest)
  | [], _, _, hes => absurd rfl hes
  | e :: es, ⟨us, he, hlater⟩, hproper, _ => by
    by_cases hes : es = []
    · subst hes
      obtain rfl := hlater
      obtain ⟨c', he⟩ := Expr.Begins.reads c e
        (Expr.begins_lowest he hproper.1 (precedence_closing hclosing))
        (continues_stop (precedence_closing hclosing ▸ Nat.le_refl _))
      refine ⟨c', .lastExpr ?_ he⟩
      rcases hclosing with rfl | rfl <;> nofun
    · obtain ⟨vs, rfl, hothers⟩ := Expr.spellsAll_of_spellsLater hlater hes
      obtain ⟨c₁, he⟩ := Expr.Begins.reads c e (Expr.begins_lowest he hproper.1 rfl)
        (continues_stop (Nat.le_refl _))
      obtain ⟨c', hothers⟩ := Expr.reads_list c₁ hclosing es hothers hproper.2 hes
      exact ⟨c', .moreExprs he hothers⟩

end

/-! ### Parsing by precedence -/

/-- The grammar reads an expression exactly if it is one by precedence. -/
theorem reads_iff_phrased {above : Precedence} {c : Bool} {e : Expr} :
    (∃ c', Reads (.expression above) c ts e c' rest) ↔ e.Phrased above ts rest := by
  constructor
  · rintro ⟨c', h⟩
    exact h.orders
  · exact fun h => Expr.Begins.reads c e h.toBegins (continues_stop h.ends)

theorem Window.feed_ofFeed {items : List (Except LexError Lexeme)} {w : Window}
    (h : Window.ofFeed (.items items) = .ok w) : w.feed = .items (items.drop 2) := by
  rcases items with - | ⟨first | first, - | ⟨second | second, items⟩⟩ <;> cases h <;> rfl

/-- The window on a list of tokens is unfolded often enough. -/
theorem Window.length_lt_fuel {items : List (Except LexError Lexeme)} {w : Window}
    (h : Window.ofFeed (.items items) = .ok w) : 8 * items.length + 1 < w.fuel := by
  have hbound : w.feed.bound = items.length - 2 := by
    rw [Window.feed_ofFeed h, Feed.bound, List.length_drop]
  rw [Window.fuel, hbound]
  omega

/-- **The parser is the precedence grammar.**  From any list of tokens the
parser of expressions that are tighter than `above` reads what is in order,
named and spelled there, and leaves what comes after it; whatever is in order,
named and spelled there it reads, up to places; and this is at most one
expression, of one length. -/
theorem precedence_grammar_exact (lexemes : List Lexeme) (above : Precedence) :
    ∃ w, Window.ofFeed (.items (lexemes.map .ok)) = .ok w ∧
      (∀ (e : Expr) w', Parse.phrase (.expression above) w = .ok e w' →
        ∃ rest, e.Phrased above (lexemes.map Lexeme.token) rest ∧
          w'.stream = .prepend rest .ended) ∧
      (∀ (e : Expr) rest, e.Phrased above (lexemes.map Lexeme.token) rest →
        ∃ (e' : Expr) (w' : Window), Parse.phrase (.expression above) w = .ok e' w' ∧
          e'.erase = e.erase ∧ w'.stream = .prepend rest .ended) ∧
      ∀ (e₁ : Expr) rest₁ (e₂ : Expr) rest₂, e₁.Phrased above (lexemes.map Lexeme.token) rest₁ →
        e₂.Phrased above (lexemes.map Lexeme.token) rest₂ →
          e₁.erase = e₂.erase ∧ rest₁ = rest₂ := by
  obtain ⟨w, hwindow, hw⟩ := Window.exists_ofFeed (Feed.stream_items lexemes)
  have hfuel := Window.length_lt_fuel hwindow
  rw [List.length_map] at hfuel
  obtain ⟨n, hn⟩ : ∃ n, w.fuel = n + 1 := ⟨w.fuel - 1, by omega⟩
  have hphrase : Parse.phrase (.expression above) w = parse (n + 1) (.expression above) w := by
    rw [← hn]
    rfl
  -- completeness first: that there is one phrase follows from running the parser twice
  have hcomplete : ∀ (e : Expr) rest, e.Phrased above (lexemes.map Lexeme.token) rest →
      ∃ (e' : Expr) (w' : Window), Parse.phrase (.expression above) w = .ok e' w' ∧
        e'.erase = e.erase ∧ w'.stream = .prepend rest .ended := by
    intro e rest h
    obtain ⟨c', hread⟩ := (reads_iff_phrased (c := false)).2 h
    have haccepted := hread.accepted n (by simp only [List.length_map, Form.rank]; omega)
    obtain ⟨e', w', hrun, herase, hw'⟩ := haccepted w hw
    exact ⟨e', w', hphrase.trans hrun, herase, hw'.stream⟩
  refine ⟨w, hwindow, ?_, hcomplete, ?_⟩
  · intro e w' hrun
    obtain ⟨c', rest, hw', hread⟩ := (parse_faithful (n + 1)).expression above hw
      (hphrase.symm.trans hrun)
    exact ⟨rest, hread.orders, hw'.stream⟩
  · intro e₁ rest₁ e₂ rest₂ h₁ h₂
    obtain ⟨e, w₁, hrun₁, herase₁, hrest₁⟩ := hcomplete e₁ rest₁ h₁
    obtain ⟨e', w₂, hrun₂, herase₂, hrest₂⟩ := hcomplete e₂ rest₂ h₂
    cases hrun₁.symm.trans hrun₂
    refine ⟨herase₁.symm.trans herase₂, Stream.prepend_inj (hrest₁.symm.trans hrest₂) ?_⟩
    -- both rests have the same end marks, so equal streams are equal lists
    obtain ⟨c₁, hread₁⟩ := (reads_iff_phrased (c := false)).2 h₁
    obtain ⟨c₂, hread₂⟩ := (reads_iff_phrased (c := false)).2 h₂
    exact hread₁.count_eof.trans hread₂.count_eof.symm

/-- A negation closes the sum before it, so the product takes them both. -/
theorem precedence_grammar_exact_negation :
    ∃ (lexemes : List Lexeme) (product : Expr),
      lexemes.map Lexeme.token = [.ident "a", .symbol .plus, .ident "b", .keyword .notWord,
        .symbol .times, .ident "c"] ∧
      product.text = "a + b でない * c" ∧ product.leftSpine = [.product, .negation, .sum] ∧
      product.Phrased .lowest (lexemes.map Lexeme.token) [] ∧
      ∃ (w : Window) (e : Expr) (w' : Window),
        Window.ofFeed (.items (lexemes.map .ok)) = .ok w ∧
        Parse.phrase (.expression .lowest) w = .ok e w' ∧ e.erase = product.erase := by
  let lexemes : List Lexeme := [⟨.ident "a", default⟩, ⟨.symbol .plus, default⟩,
    ⟨.ident "b", default⟩, ⟨.keyword .notWord, default⟩, ⟨.symbol .times, default⟩,
    ⟨.ident "c", default⟩]
  let sum : Expr := .infixOp (.symbol .plus) (.ident ⟨"a", default⟩) (.ident ⟨"b", default⟩) default
  let product : Expr := .infixOp (.symbol .times) (.prefixOp (.keyword .notWord) sum default)
    (.ident ⟨"c", default⟩) default
  have hname (name : String) (above : Precedence) (rest : List Token)
      (h : inView rest ≠ .symbol .leftParen) :
      (Expr.ident ⟨name, default⟩).Begins above (.ident name :: rest) rest :=
    ⟨rfl, ⟨trivial, trivial⟩, nofun, nofun, fun _ _ => .inr h⟩
  have hsum : sum.Begins .lowest (lexemes.map Lexeme.token)
      [.keyword .notWord, .symbol .times, .ident "c"] :=
    (hname "a" _ _ (by nofun)).infixOp ⟨hname "b" _ _ (by nofun), by decide⟩ rfl (by decide)
  have hproduct : product.Begins .lowest (lexemes.map Lexeme.token) [] :=
    (hsum.negated (by decide)).infixOp ⟨hname "c" _ _ (by nofun), by decide⟩ rfl (by decide)
  have hphrased : product.Phrased .lowest (lexemes.map Lexeme.token) [] :=
    ⟨hproduct, by decide⟩
  obtain ⟨w, hwindow, -, hcomplete, -⟩ := precedence_grammar_exact lexemes .lowest
  obtain ⟨e, w', hrun, herase, -⟩ := hcomplete product [] hphrased
  exact ⟨lexemes, product, rfl, by decide, rfl, hphrased, w, e, w', hwindow, hrun, herase⟩

end Dncl
