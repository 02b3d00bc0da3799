/-
Dncl/Proofs/Derivation.lean

The grammar as a relation between lists of tokens and trees.

    Reads f c ts t c' ts'

says that a phrase of the form `f` at the start of the tokens `ts` is read as
the tree `t` and leaves the tokens `ts'`.  After the last token there is only
the end mark.  The flag says whether the last block ended with its lines; it
was `c` before the phrase and is `c'` after it.

Design.  The forms are the phrases of the grammar and the parts of its rules
that are shared or told apart by a token.  Each constructor is one way through
a rule, with the tokens that decide for it as premises; so the relation says
the same as the rules, without windows, faults and unfoldings.  Spans are left
open: any will do.
-/
import Dncl.Grammar.Phrase

namespace Dncl

/-! ### Looking ahead -/

/-- The token in view, which is the end mark if no token is left. -/
def inView (ts : List Token) : Token :=
  ts.headD .eof

@[simp] theorem inView_nil : inView [] = .eof := rfl

@[simp] theorem inView_cons (t : Token) (ts : List Token) : inView (t :: ts) = t := rfl

theorem eq_cons_of_inView {ts : List Token} {t : Token} (h : inView ts = t) (ht : t ≠ .eof) :
    ∃ rest, ts = t :: rest := by
  cases ts with
  | nil => exact absurd h.symm ht
  | cons u rest =>
    obtain rfl : u = t := h
    exact ⟨rest, rfl⟩

/-- Passes a line break if the next line goes on with the statement. -/
def passBreak (continues : Token → Bool) (ts : List Token) : List Token :=
  if inView ts = .newline ∧ continues (inView ts.tail) = true then ts.tail else ts

/-- Passes one token if it is in view. -/
def passToken (token : Token) (ts : List Token) : List Token :=
  if inView ts = token then ts.tail else ts

/-- Whether a line goes on with a conditional. -/
def continuesConditional (t : Token) : Bool :=
  t = .keyword .elseIf || t = .keyword .otherwise

/-- The tokens that a conditional, or a further branch of one, begins with. -/
def opensConditional (t : Token) : Prop :=
  t = .keyword .elseIf ∨ t = .keyword .ifWord

/-- Passes the end of a statement; none is needed after a block that ended
with its lines. -/
def passEnd (closed : Bool) (ts : List Token) : Option (List Token) :=
  match inView ts with
  | .newline | .symbol .comma => some ts.tail
  | .dedent | .eof => some ts
  | _ => if closed then some ts else none

/-- Whether a statement that begins with these tokens begins with an
expression. -/
def opensExpression : List Token → Bool
  | .keyword .function :: t :: _ => !Rules.isIdent t
  | .keyword .ifWord :: _ | .keyword .loop :: _ | .indent :: _ => false
  | _ => true

/-- Whether an expression before the token is a statement by itself. -/
def endsExpression : Token → Bool
  | .symbol .assign | .keyword .wo | .keyword .whileWord | .keyword .giveBack => false
  | _ => true

/-- The word by which a variable is counted. -/
def Direction.countingToken : Direction → Token
  | .increasing => .keyword .increasing
  | .decreasing => .keyword .decreasing

/-- The word by which a variable is changed. -/
def Direction.changingToken : Direction → Token
  | .increasing => .keyword .increase
  | .decreasing => .keyword .decrease

/-- The arguments of a built-in function: `戻り値` without any gives back no
value. -/
def Builtin.arguments (function : Builtin) (written : List Expr) (span : Span) : List Expr :=
  if function = .giveBack && written.isEmpty then [.absent span] else written

/-- The arguments are those that are written, or one that is absent if none is. -/
theorem Builtin.arguments_cases (function : Builtin) (es : List Expr) (span : Span) :
    function.arguments es span = es ∨
      function = .giveBack ∧ es = [] ∧ function.arguments es span = [.absent span] := by
  rw [Builtin.arguments]
  split
  · rename_i hnone
    rw [Bool.and_eq_true, decide_eq_true_eq, List.isEmpty_iff] at hnone
    exact .inr ⟨hnone.1, hnone.2, rfl⟩
  · exact .inl rfl

/-! ### Forms -/

/-- The forms of phrases. -/
inductive Form where
  | operand
  | expression (above : Precedence)
  | operators (above : Precedence) (left : Expr)
  /-- Expressions behind an opening bracket, and the closing one. -/
  | items (closing : Symbol)
  | expressions
  /-- Names behind an opening bracket, and the closing one. -/
  | paramItems
  | params
  /-- A function from its opening bracket on. -/
  | function
  | block
  | sameLine
  | statements (stops : List Token)
  | statement
  /-- What makes a statement of the expression `e` before it. -/
  | continued (e : Expr)
  /-- A conditional behind its first word. -/
  | conditional
  | elseBranch

/-- What a phrase of the form is read as. -/
abbrev Form.Tree : Form → Type
  | .operand | .expression _ | .operators _ _ => Expr
  | .items _ | .expressions => List Expr
  | .paramItems | .params => List Ident
  | .function => FunctionLit
  | .block => Block
  | .sameLine | .statements _ => List Stmt
  | .statement | .continued _ => Stmt
  | .conditional => Conditional
  | .elseBranch => ElseBranch

/-! ### The relation -/

/-- A phrase at the start of a list of tokens, and what it leaves. -/
inductive Reads : (f : Form) → Bool → List Token → f.Tree → Bool → List Token → Prop
  -- operands
  | int {c ts} (value : Int) (span : Span) :
      Reads .operand c (.int value :: ts) (.int value span) c ts
  | str {c ts} (text : String) (span : Span) :
      Reads .operand c (.str text :: ts) (.str text span) c ts
  | command {c ts} (text : String) (span : Span) :
      Reads .operand c (.command text :: ts) (.command (.ofText text) span) c ts
  | ident {c ts} (name : String) (span : Span)
      (plain : Builtin.ofName? name = none ∨ inView ts ≠ .symbol .leftParen) :
      Reads .operand c (.ident name :: ts) (.ident ⟨name, span⟩) c ts
  | builtin {c ts arguments c' ts'} {function : Builtin} (name : String) (place span : Span)
      (known : Builtin.ofName? name = some function) :
      Reads (.items .rightParen) c ts arguments c' ts' →
      Reads .operand c (.ident name :: .symbol .leftParen :: ts)
        (.builtin function (function.arguments arguments place) span) c' ts'
  | signed {c ts operand c' ts'} (op : Symbol) (span : Span) (sign : op = .minus ∨ op = .plus) :
      Reads (.expression .sign) c ts operand c' ts' →
      Reads .operand c (.symbol op :: ts) (.prefixOp (.symbol op) operand span) c' ts'
  | nested {c ts inner c' ts'} (span : Span) :
      Reads (.expression .lowest) c ts inner c' (.symbol .rightParen :: ts') →
      Reads .operand c (.symbol .leftParen :: ts) (.nested inner span) c' ts'
  | array {c ts elements c' ts'} (span : Span) :
      Reads (.items .rightBracket) c ts elements c' ts' →
      Reads .operand c (.symbol .leftBracket :: ts) (.array elements span) c' ts'
  | literal {c ts literal c' ts'} :
      Reads .function c ts literal c' ts' →
      Reads .operand c (.keyword .function :: ts) (.function literal) c' ts'
  -- expressions
  | expression {above c ts e c₁ ts₁ e' c' ts'} :
      Reads .operand c ts e c₁ ts₁ → Reads (.operators above e) c₁ ts₁ e' c' ts' →
      Reads (.expression above) c ts e' c' ts'
  | stop {above left c ts} (weak : (inView ts).precedence.level ≤ above.level) :
      Reads (.operators above left) c ts left c ts
  | called {above left c ts arguments c₁ ts₁ e c' ts'} (span : Span)
      (tight : above.level < Precedence.application.level) :
      Reads (.items .rightParen) c ts arguments c₁ ts₁ →
      Reads (.operators above (.call left arguments span)) c₁ ts₁ e c' ts' →
      Reads (.operators above left) c (.symbol .leftParen :: ts) e c' ts'
  | indexed {above left c ts position c₁ ts₁ e c' ts'} (span : Span)
      (tight : above.level < Precedence.application.level) :
      Reads (.expression .lowest) c ts position c₁ (.symbol .rightBracket :: ts₁) →
      Reads (.operators above (.index left position span)) c₁ ts₁ e c' ts' →
      Reads (.operators above left) c (.symbol .leftBracket :: ts) e c' ts'
  | negated {above left c ts e c' ts'} (span : Span)
      (tight : above.level < Precedence.negation.level) :
      Reads (.operators above (.prefixOp (.keyword .notWord) left span)) c ts e c' ts' →
      Reads (.operators above left) c (.keyword .notWord :: ts) e c' ts'
  | joined {above left c ts right c₁ ts₁ e c' ts'} (op : Token) (span : Span)
      (operator : op.isOperator = true) (tight : above.level < op.precedence.level) :
      Reads (.expression op.precedence) c ts right c₁ ts₁ →
      Reads (.operators above (.infixOp op left right span)) c₁ ts₁ e c' ts' →
      Reads (.operators above left) c (op :: ts) e c' ts'
  -- lists
  | noItems {closing c ts} : Reads (.items closing) c (.symbol closing :: ts) [] c ts
  | someItems {closing c ts items c' ts'} (some : inView ts ≠ .symbol closing) :
      Reads .expressions c ts items c' (.symbol closing :: ts') →
      Reads (.items closing) c ts items c' ts'
  | lastExpr {c ts e c' ts'} (last : inView ts' ≠ .symbol .comma) :
      Reads (.expression .lowest) c ts e c' ts' → Reads .expressions c ts [e] c' ts'
  | moreExprs {c ts e c₁ ts₁ es c' ts'} :
      Reads (.expression .lowest) c ts e c₁ (.symbol .comma :: ts₁) →
      Reads .expressions c₁ ts₁ es c' ts' → Reads .expressions c ts (e :: es) c' ts'
  | noParams {c ts} : Reads .paramItems c (.symbol .rightParen :: ts) [] c ts
  | someParams {c ts params c' ts'} (some : inView ts ≠ .symbol .rightParen) :
      Reads .params c ts params c' (.symbol .rightParen :: ts') →
      Reads .paramItems c ts params c' ts'
  | lastParam {c ts} (name : String) (span : Span) (last : inView ts ≠ .symbol .comma) :
      Reads .params c (.ident name :: ts) [⟨name, span⟩] c ts
  | moreParams {c ts params c' ts'} (name : String) (span : Span) :
      Reads .params c ts params c' ts' →
      Reads .params c (.ident name :: .symbol .comma :: ts) (⟨name, span⟩ :: params) c' ts'
  -- functions and blocks
  | function {c ts params c₁ ts₁ body c₂ ts₂ ts'} (span : Span)
      (closes : passBreak (· = .keyword .endFunction) ts₂ = .keyword .endFunction :: ts') :
      Reads .paramItems c ts params c₁ (.keyword .wo :: ts₁) →
      Reads .block c₁ ts₁ body c₂ ts₂ →
      Reads .function c (.symbol .leftParen :: ts) ⟨params, body, span⟩ false ts'
  | lines {c ts statements c' ts'} (span : Span) :
      Reads (.statements [.dedent, .eof]) c ts statements c' (.dedent :: ts') →
      Reads .block c (.symbol .colon :: .newline :: .indent :: ts) ⟨statements, span⟩ true ts'
  | oneLine {c ts statements c' ts'} (span : Span) (here : inView ts ≠ .newline) :
      Reads .sameLine c ts statements c' ts' →
      Reads .block c (.symbol .colon :: ts) ⟨statements, span⟩ false ts'
  | lastHere {c ts s c' ts'} (last : inView ts' ≠ .symbol .comma) :
      Reads .statement c ts s c' ts' → Reads .sameLine c ts [s] c' ts'
  | moreHere {c ts s c₁ ts₁ ss c' ts'} :
      Reads .statement c ts s c₁ (.symbol .comma :: ts₁) → Reads .sameLine c₁ ts₁ ss c' ts' →
      Reads .sameLine c ts (s :: ss) c' ts'
  | noStatements {stops c ts ts'} (breaks : ts.dropWhile (· = .newline) = ts')
      (stop : inView ts' ∈ stops) : Reads (.statements stops) c ts [] c ts'
  | someStatements {stops c ts ts₁ s c₂ ts₂ ts₃ ss c' ts'}
      (breaks : ts.dropWhile (· = .newline) = ts₁) (goes : inView ts₁ ∉ stops)
      (ended : passEnd c₂ ts₂ = some ts₃) :
      Reads .statement c ts₁ s c₂ ts₂ → Reads (.statements stops) c₂ ts₃ ss c' ts' →
      Reads (.statements stops) c ts (s :: ss) c' ts'
  -- statements
  | define {c ts literal c' ts'} (name : String) (place span : Span) :
      Reads .function false ts literal c' ts' →
      Reads .statement c (.keyword .function :: .ident name :: ts)
        (.define ⟨name, place⟩ literal span) c' ts'
  | conditional {c ts conditional c' ts'} :
      Reads .conditional false ts conditional c' ts' →
      Reads .statement c (.keyword .ifWord :: ts) (.conditional conditional) c' ts'
  | untilLoop {c ts body c₁ ts₁ ts₂ condition c₂ ts'} (span : Span)
      (closes : passBreak (· = .keyword .wo) ts₁ = .keyword .wo :: ts₂) :
      Reads .block false ts body c₁ ts₁ →
      Reads (.expression .lowest) c₁ (passToken (.symbol .comma) ts₂) condition c₂
        (.keyword .untilWord :: ts') →
      Reads .statement c (.keyword .loop :: ts) (.untilLoop body condition span) false ts'
  | opened {c ts e c₁ ts₁ s c' ts'} (opens : opensExpression ts = true) :
      Reads (.expression .lowest) false ts e c₁ ts₁ → Reads (.continued e) c₁ ts₁ s c' ts' →
      Reads .statement c ts s c' ts'
  | plain {e c ts} (ends : endsExpression (inView ts) = true) :
      Reads (.continued e) c ts (.expr e) c ts
  | assign {e c ts value c' ts'} (span : Span) (assignable : e.isAssignable = true) :
      Reads (.expression .lowest) c ts value c' ts' →
      Reads (.continued e) c (.symbol .assign :: ts) (.assign e value span) c' ts'
  | counted {c ts first c₁ ts₁ last c₂ ts₂ step c₃ ts₃ body c' ts'} (counter : Ident)
      (direction : Direction) (span : Span) :
      Reads (.expression .lowest) c ts first c₁ (.keyword .startAt :: ts₁) →
      Reads (.expression .lowest) c₁ ts₁ last c₂ (.keyword .upTo :: ts₂) →
      Reads (.expression .lowest) c₂ ts₂ step c₃
        (.keyword .stepBy :: direction.countingToken :: ts₃) →
      Reads .block c₃ (passToken (.keyword .repeated) ts₃) body c' ts' →
      Reads (.continued (.ident counter)) c (.keyword .wo :: ts)
        (.counted counter first last step direction body span) c' ts'
  | change {e c ts amount c' ts'} (direction : Direction) (span : Span)
      (assignable : e.isAssignable = true) :
      Reads (.expression .lowest) c ts amount c' (direction.changingToken :: ts') →
      Reads (.continued e) c (.keyword .wo :: ts) (.change e amount direction span) c' ts'
  | whileLoop {e c ts body c' ts'} (span : Span) :
      Reads .block c (passToken (.keyword .repeated) ts) body c' ts' →
      Reads (.continued e) c (.keyword .whileWord :: ts) (.whileLoop e body span) c' ts'
  | giveBack {e c ts} (span : Span) :
      Reads (.continued e) c (.keyword .giveBack :: ts) (.giveBack e span) c ts
  -- conditionals
  | branches {c ts condition c₁ ts₁ consequence c₂ ts₂ alternative c' ts'} (span : Span) :
      Reads (.expression .lowest) c ts condition c₁ (.keyword .thenWord :: ts₁) →
      Reads .block c₁ ts₁ consequence c₂ ts₂ →
      Reads .elseBranch c₂ (passBreak continuesConditional ts₂) alternative c' ts' →
      Reads .conditional c ts ⟨condition, consequence, alternative, span⟩ c' ts'
  | elseIf {c ts conditional c' ts'} :
      Reads .conditional c ts conditional c' ts' →
      Reads .elseBranch c (.keyword .elseIf :: ts) (.elseIf conditional) c' ts'
  | otherwise {c ts body c' ts'} :
      Reads .block c ts body c' ts' →
      Reads .elseBranch c (.keyword .otherwise :: ts) (.otherwise body) c' ts'
  | missing {c ts} (ends : continuesConditional (inView ts) = false) :
      Reads .elseBranch c ts .missing c ts

/-! ### Progress -/

variable {rest ts ts' : List Token} {c c' closed : Bool}

theorem passBreak_suffix (continues : Token → Bool) (ts : List Token) :
    passBreak continues ts <:+ ts := by
  rw [passBreak]
  split
  · exact List.tail_suffix ts
  · exact List.suffix_refl ts

theorem length_of_passBreak {continues : Token → Bool} {t : Token}
    (h : passBreak continues ts = t :: rest) : rest.length < ts.length := by
  have hle := (passBreak_suffix continues ts).length_le
  rw [h] at hle
  exact hle

theorem passToken_suffix (token : Token) (ts : List Token) : passToken token ts <:+ ts := by
  rw [passToken]
  split
  · exact List.tail_suffix ts
  · exact List.suffix_refl ts

/-- A statement ends with a break or a comma, which is passed, or where none is
needed. -/
theorem passEnd_eq_some :
    passEnd closed ts = some rest ↔ (ts = .newline :: rest ∨ ts = .symbol .comma :: rest) ∨
      rest = ts ∧ inView ts ≠ .newline ∧ inView ts ≠ .symbol .comma ∧
        (inView ts = .dedent ∨ inView ts = .eof ∨ closed = true) := by
  constructor
  · intro h
    rw [passEnd.eq_def] at h
    split at h
    · rename_i hnow
      obtain ⟨rest, rfl⟩ := eq_cons_of_inView hnow nofun
      exact .inl (.inl (congrArg (.newline :: ·) (Option.some.inj h)))
    · rename_i hnow
      obtain ⟨rest, rfl⟩ := eq_cons_of_inView hnow nofun
      exact .inl (.inr (congrArg (.symbol .comma :: ·) (Option.some.inj h)))
    · rename_i hnow
      exact .inr ⟨(Option.some.inj h).symm, hnow ▸ nofun, hnow ▸ nofun, .inl hnow⟩
    · rename_i hnow
      exact .inr ⟨(Option.some.inj h).symm, hnow ▸ nofun, hnow ▸ nofun, .inr (.inl hnow)⟩
    · rename_i hbreak hcomma _ _
      split at h
      · rename_i hclosed
        exact .inr ⟨(Option.some.inj h).symm, hbreak, hcomma, .inr (.inr hclosed)⟩
      · cases h
  · rintro ((rfl | rfl) | ⟨rfl, hbreak, hcomma, hends⟩)
    · rfl
    · rfl
    · rw [passEnd.eq_def]
      split
      · rename_i hnow
        exact absurd hnow hbreak
      · rename_i hnow
        exact absurd hnow hcomma
      · rfl
      · rfl
      · rename_i hdedent heof
        exact if_pos ((hends.resolve_left hdedent).resolve_left heof)

theorem passEnd_suffix (h : passEnd closed ts = some rest) : rest <:+ ts := by
  rcases passEnd_eq_some.1 h with (rfl | rfl) | ⟨rfl, -⟩
  · exact List.suffix_cons _ _
  · exact List.suffix_cons _ _
  · exact List.suffix_refl _

/-- The forms of which no phrase is empty. -/
def Form.isSolid : Form → Bool
  | .operators _ _ | .statements _ | .continued _ | .elseBranch => false
  | _ => true

/-- A phrase takes tokens off the front, and nothing else. -/
theorem Reads.suffix {f : Form} {t : f.Tree} (h : Reads f c ts t c' ts') : ts' <:+ ts := by
  induction h <;>
    grind [List.IsSuffix.trans, List.suffix_cons, List.suffix_refl, List.dropWhile_suffix,
      passBreak_suffix, passToken_suffix, → passEnd_suffix]

theorem Reads.length_lt {f : Form} {t : f.Tree} (h : Reads f c ts t c' ts')
    (hf : f.isSolid = true) : ts'.length < ts.length := by
  induction h <;>
    grind [Form.isSolid, → Reads.suffix, → List.IsSuffix.length_le, List.dropWhile_suffix,
      passBreak_suffix, passToken_suffix, → passEnd_suffix]

/-! ### The flag before a phrase -/

section Flags

variable {c₁ : Bool} {ts₁ us stops : List Token}

/-- What a statement is does not depend on the block before it. -/
theorem Reads.restart {s : Stmt} (d : Bool) (h : Reads .statement c ts s c' ts') :
    Reads .statement d ts s c' ts' := by
  cases h with
  | define name place span h => exact .define name place span h
  | conditional h => exact .conditional h
  | untilLoop span closes h h' => exact .untilLoop span closes h h'
  | opened opens h h' => exact .opened opens h h'

/-- Statements are read in the same way behind line breaks, and after any
block. -/
theorem Reads.restartAll {ss : List Stmt} (d : Bool)
    (hbreaks : us.dropWhile (· = .newline) = ts.dropWhile (· = .newline))
    (h : Reads (.statements stops) c ts ss c' ts') :
    ∃ d', Reads (.statements stops) d us ss d' ts' := by
  cases h with
  | noStatements breaks stop => exact ⟨d, .noStatements (hbreaks.trans breaks) stop⟩
  | someStatements breaks goes ended h h' =>
    exact ⟨c', .someStatements (hbreaks.trans breaks) goes ended (h.restart d) h'⟩

theorem Reads.sameLine_restart {ss : List Stmt} (d : Bool) (h : Reads .sameLine c ts ss c₁ ts₁) :
    Reads .sameLine d ts ss c₁ ts₁ := by
  cases h with
  | lastHere last h => exact .lastHere last (h.restart d)
  | moreHere h h' => exact .moreHere (h.restart d) h'

/-- What a block is does not depend on the block before it. -/
theorem Reads.block_restart {b : Block} (d : Bool) (h : Reads .block c ts b c₁ ts₁) :
    Reads .block d ts b c₁ ts₁ := by
  cases h with
  | lines span h =>
    obtain ⟨d', h'⟩ := h.restartAll d rfl
    exact .lines span h'
  | oneLine span here h => exact .oneLine span here (h.sameLine_restart d)

/-- The forms whose phrases end with a word. -/
def Form.isFirm : Form → Bool
  | .operand | .expression _ | .operators _ _ | .items _ | .expressions | .paramItems | .params
  | .function => true
  | _ => false

/-- What an expression is does not depend on the block before it. -/
theorem Reads.afresh {t : f.Tree} (h : Reads f c ts t c₁ ts₁) (hf : f.isFirm = true) :
    ∀ d, ∃ d₁, Reads f d ts t d₁ ts₁ := by
  induction h with
  | int value span => exact fun d => ⟨d, .int value span⟩
  | str text span => exact fun d => ⟨d, .str text span⟩
  | command text span => exact fun d => ⟨d, .command text span⟩
  | ident name span plain => exact fun d => ⟨d, .ident name span plain⟩
  | builtin name place span known _ ih =>
    exact fun d => (ih rfl d).imp fun _ h => .builtin name place span known h
  | signed op span sign _ ih => exact fun d => (ih rfl d).imp fun _ h => .signed op span sign h
  | nested span _ ih => exact fun d => (ih rfl d).imp fun _ h => .nested span h
  | array span _ ih => exact fun d => (ih rfl d).imp fun _ h => .array span h
  | literal _ ih => exact fun d => (ih rfl d).imp fun _ h => .literal h
  | expression _ _ ih₁ ih₂ =>
    intro d
    obtain ⟨d₁, h₁⟩ := ih₁ rfl d
    exact (ih₂ rfl d₁).imp fun _ h₂ => .expression h₁ h₂
  | stop weak => exact fun d => ⟨d, .stop weak⟩
  | called span tight _ _ ih₁ ih₂ =>
    intro d
    obtain ⟨d₁, h₁⟩ := ih₁ rfl d
    exact (ih₂ rfl d₁).imp fun _ h₂ => .called span tight h₁ h₂
  | indexed span tight _ _ ih₁ ih₂ =>
    intro d
    obtain ⟨d₁, h₁⟩ := ih₁ rfl d
    exact (ih₂ rfl d₁).imp fun _ h₂ => .indexed span tight h₁ h₂
  | negated span tight _ ih => exact fun d => (ih rfl d).imp fun _ h => .negated span tight h
  | joined op span operator tight _ _ ih₁ ih₂ =>
    intro d
    obtain ⟨d₁, h₁⟩ := ih₁ rfl d
    exact (ih₂ rfl d₁).imp fun _ h₂ => .joined op span operator tight h₁ h₂
  | noItems => exact fun d => ⟨d, .noItems⟩
  | someItems some _ ih => exact fun d => (ih rfl d).imp fun _ h => .someItems some h
  | lastExpr last _ ih => exact fun d => (ih rfl d).imp fun _ h => .lastExpr last h
  | moreExprs _ _ ih₁ ih₂ =>
    intro d
    obtain ⟨d₁, h₁⟩ := ih₁ rfl d
    exact (ih₂ rfl d₁).imp fun _ h₂ => .moreExprs h₁ h₂
  | noParams => exact fun d => ⟨d, .noParams⟩
  | someParams some _ ih => exact fun d => (ih rfl d).imp fun _ h => .someParams some h
  | lastParam name span last => exact fun d => ⟨d, .lastParam name span last⟩
  | moreParams name span _ ih => exact fun d => (ih rfl d).imp fun _ h => .moreParams name span h
  | function span closes _ h₂ ih₁ _ =>
    intro d
    obtain ⟨d₁, h₁⟩ := ih₁ rfl d
    exact ⟨false, .function span closes h₁ (h₂.block_restart d₁)⟩
  | _ => cases hf

end Flags

/-! ### What passing does not change -/

section Passing

variable {α : Type} {g : List Token → α} {t : Token}

theorem apply_passToken (h : ∀ ts, g (t :: ts) = g ts) (ts : List Token) :
    g (passToken t ts) = g ts := by
  rw [passToken]
  split
  · rename_i hnow
    cases ts with
    | nil => rfl
    | cons u ts =>
      obtain rfl : u = t := hnow
      exact (h ts).symm
  · rfl

theorem apply_passBreak (h : ∀ ts, g (.newline :: ts) = g ts) (continues : Token → Bool)
    (ts : List Token) : g (passBreak continues ts) = g ts := by
  rw [passBreak]
  split
  · rename_i hbreak
    obtain ⟨rest, rfl⟩ := eq_cons_of_inView hbreak.1 nofun
    exact (h rest).symm
  · rfl

theorem apply_dropBreaks (h : ∀ ts, g (.newline :: ts) = g ts) (ts : List Token) :
    g (ts.dropWhile (· = .newline)) = g ts := by
  induction ts with
  | nil => rfl
  | cons t ts ih =>
    by_cases hbreak : t = .newline
    · subst hbreak
      rw [List.dropWhile_cons_of_pos (by simp), ih, h]
    · rw [List.dropWhile_cons_of_neg (by simpa using hbreak)]

end Passing

/-! ### End marks -/

section EndMarks

theorem count_passToken {t : Token} (ht : t ≠ .eof) :
    (passToken t ts).count .eof = ts.count .eof :=
  apply_passToken (fun _ => List.count_cons_of_ne ht) ts

theorem count_passBreak (continues : Token → Bool) :
    (passBreak continues ts).count .eof = ts.count .eof :=
  apply_passBreak (fun _ => List.count_cons_of_ne (by nofun)) continues ts

theorem count_dropBreaks : (ts.dropWhile (· = .newline)).count .eof = ts.count .eof :=
  apply_dropBreaks (fun _ => List.count_cons_of_ne (by nofun)) ts

theorem count_passEnd (h : passEnd closed ts = some rest) : rest.count .eof = ts.count .eof := by
  rcases passEnd_eq_some.1 h with (rfl | rfl) | ⟨rfl, -⟩ <;> simp

/-- No phrase takes an end mark. -/
theorem Reads.count_eof {f : Form} {t : f.Tree} (h : Reads f c ts t c' ts') :
    ts'.count .eof = ts.count .eof := by
  have hcounting (direction : Direction) : direction.countingToken ≠ .eof := by
    cases direction <;> nofun
  have hchanging (direction : Direction) : direction.changingToken ≠ .eof := by
    cases direction <;> nofun
  have hoperator {op : Token} (h : op.isOperator = true) : op ≠ .eof := by
    rintro rfl
    cases h
  induction h <;>
    grind [count_passBreak, count_passToken, count_dropBreaks, → count_passEnd]

end EndMarks

end Dncl
