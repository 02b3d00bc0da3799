/-
Dncl/Proofs/Completeness.lean

Every phrase of the grammar is read.

    Reads f c ts t c' ts'  →  (parse n p).Accepts erase c ts (erase t) c' ts'

if the grammar is unfolded often enough: eight times for each token of `ts`,
and a few times more that depend on the form only.

Design.  `x.Accepts view c ts b c' ts'` says that the action `x` succeeds on
every window that shows the tokens `ts` and then the end, gives a result that
looks like `b`, and leaves `ts'`.  It has one rule for each action and one for
sequences, so windows occur only in the first section.  As in the proof of
soundness, each rule of the grammar has its own lemma, and the induction, here
on the derivation, only counts unfoldings.
-/
import Dncl.Grammar
import Dncl.Proofs.Erase
import Dncl.Proofs.Stream

namespace Dncl

variable {stops ts : List Token} {c c' : Bool}

/-! ### Acceptance -/

namespace Parse

variable {α β γ δ : Type} {c c' c₁ : Bool} {ts ts' ts₁ : List Token}

/-- The action reads from `ts` what looks like `b`, and leaves `ts'`. -/
def Accepts (x : Parse α) (view : α → β) (c : Bool) (ts : List Token) (b : β) (c' : Bool)
    (ts' : List Token) : Prop :=
  ∀ w, Window.Shows w c ts .ended → ∃ a w', x w = .ok a w' ∧ view a = b ∧ w'.Shows c' ts' .ended

/-- The view in which all results look alike. -/
def blind (_ : α) : Unit :=
  ()

/-- The second action starts from what the first one leaves. -/
theorem Accepts.bind {x : Parse α} {f : α → Parse β} {view : α → γ} {view' : β → δ} {g : γ} {d : δ}
    (hx : x.Accepts view c ts g c₁ ts₁)
    (hf : ∀ a, view a = g → (f a).Accepts view' c₁ ts₁ d c' ts') :
    (x >>= f).Accepts view' c ts d c' ts' := by
  intro w hw
  obtain ⟨a, w₁, hrun, ha, hw₁⟩ := hx w hw
  obtain ⟨b, w', hrun', hb, hw'⟩ := hf a ha w₁ hw₁
  exact ⟨b, w', bind_eq_ok.2 ⟨a, w₁, hrun, hrun'⟩, hb, hw'⟩

theorem accepts_pure {a : α} {view : α → γ} {g : γ} (h : view a = g) :
    (pure a : Parse α).Accepts view c ts g c ts :=
  fun w hw => ⟨a, w, rfl, h, hw⟩

/-- An action that looks at the token in view is the one for that token. -/
theorem accepts_current {f : Token → Parse α} {view : α → γ} {g : γ}
    (h : (f (inView ts)).Accepts view c ts g c' ts') :
    (current >>= f).Accepts view c ts g c' ts' := by
  intro w hw
  obtain ⟨a, w', hrun, ha, hw'⟩ := h w hw
  rw [← hw.current] at hrun
  exact ⟨a, w', hrun, ha, hw'⟩

/-- Behind the token in view stands the next token, or the end. -/
theorem accepts_peek {f : Token → Parse α} {view : α → γ} {g : γ}
    (h : (f (inView ts.tail)).Accepts view c ts g c' ts') :
    (peek >>= f).Accepts view c ts g c' ts' := by
  intro w hw
  have hnext : w.next.token = inView ts.tail := by
    cases ts with
    | nil => exact Except.ok.inj (congrFun hw.stream 1)
    | cons t ts => exact hw.next
  obtain ⟨a, w', hrun, ha, hw'⟩ := h w hw
  rw [← hnext] at hrun
  exact ⟨a, w', hrun, ha, hw'⟩

/-- Places cannot be seen, so what follows has to do for all of them. -/
theorem accepts_currentSpan {f : Span → Parse α} {view : α → γ} {g : γ}
    (h : ∀ span, (f span).Accepts view c ts g c' ts') :
    (currentSpan >>= f).Accepts view c ts g c' ts' :=
  fun w hw => h w.current.span w hw

/-- A token can be passed, since no fault follows within two tokens. -/
theorem accepts_advance {t : Token} : advance.Accepts Lexeme.token c (t :: ts) t c ts := by
  intro w hw
  have hsecond : ∃ u, w.stream 2 = .ok u := by
    rw [hw.stream]
    -- the token two places on is one of `ts` or the end mark
    rcases ts with - | ⟨u, - | ⟨v, ts⟩⟩ <;> exact ⟨_, rfl⟩
  obtain ⟨u, hsecond⟩ := hsecond
  obtain ⟨lexeme, w', hrun⟩ := exists_advance hsecond
  obtain ⟨htoken, hw'⟩ := hw.advance hrun
  exact ⟨lexeme, w', hrun, htoken, hw'⟩

/-- What an action gives may be forgotten. -/
theorem Accepts.discard {x : Parse α} {view : α → γ} {g : γ} (h : x.Accepts view c ts g c' ts') :
    (Functor.discard x).Accepts blind c ts () c' ts' := by
  intro w hw
  obtain ⟨a, w', hrun, -, hw'⟩ := h w hw
  exact ⟨(), w', discard_eq_ok.2 ⟨a, hrun⟩, rfl, hw'⟩

theorem accepts_expect {t : Token} : (expect t).Accepts blind c (t :: ts) () c ts := by
  refine accepts_current ?_
  rw [inView_cons, if_pos rfl]
  exact accepts_advance.bind fun _ _ => accepts_pure rfl

theorem accepts_expectIdent {name : String} :
    expectIdent.Accepts Ident.name c (.ident name :: ts) name c ts :=
  accepts_current (accepts_advance.bind fun _ _ => accepts_pure rfl)

theorem accepts_setClosed : (setClosed c').Accepts blind c ts () c' ts :=
  fun _ hw => ⟨(), _, rfl, rfl, hw.isOver, rfl, hw.stream⟩

/-- A line break is passed if the next line goes on with the phrase. -/
theorem accepts_skipNewlineIf {continues : Token → Bool} :
    (skipNewlineIf continues).Accepts blind c ts () c (passBreak continues ts) := by
  refine accepts_current (accepts_peek ?_)
  rw [passBreak]
  by_cases hgoes : inView ts = .newline ∧ continues (inView ts.tail) = true
  · rw [if_pos (by simp [hgoes]), if_pos hgoes]
    obtain ⟨rest, rfl⟩ := eq_cons_of_inView hgoes.1 (by simp)
    exact accepts_advance.discard
  · rw [if_neg (by simpa using hgoes), if_neg hgoes]
    exact accepts_pure rfl

/-- An optional token is passed where it stands. -/
theorem accepts_skipToken (t : Token) (ht : t ≠ .eof) :
    (skipToken t).Accepts blind c ts () c (passToken t ts) := by
  refine accepts_current ?_
  rw [passToken]
  split
  · rename_i hnow
    obtain ⟨rest, rfl⟩ := eq_cons_of_inView hnow ht
    exact accepts_advance.discard
  · exact accepts_pure rfl

/-- The end of a statement is passed in each of the ways that `passEnd` lists. -/
theorem accepts_expectStatementEnd (h : passEnd c ts = some ts') :
    expectStatementEnd.Accepts blind c ts () c ts' := by
  refine accepts_current ?_
  rcases passEnd_eq_some.1 h with (rfl | rfl) | ⟨rfl, hbreak, hcomma, hends⟩
  · exact accepts_advance.discard
  · exact accepts_advance.discard
  · split
    · rename_i hnow
      exact absurd hnow hbreak
    · rename_i hnow
      exact absurd hnow hcomma
    · exact accepts_pure rfl
    · exact accepts_pure rfl
    · rename_i hdedent heof
      -- no token ends the statement, so it ended with its block
      have hclosed : c = true := (hends.resolve_left hdedent).resolve_left heof
      intro w hw
      have hflag : w.closedBlock = true := hw.flag.trans hclosed
      refine ⟨(), w, ?_, rfl, hw⟩
      show (if w.closedBlock then pure () else unexpected ["改行"] : Parse Unit) w = _
      rw [if_pos hflag]
      rfl

end Parse

/-! ### The rules -/

/-- The expressions of a list that was read, without their places. -/
def itemsView (r : List Expr × Nat) : List Expr :=
  Expr.eraseAll r.1

/-- The branch that was read, without its places. -/
def branchView (r : ElseBranch × Nat) : ElseBranch :=
  r.1.erase

namespace Rules

open Parse

variable {rules : Rules} {c c' c₁ c₂ c₃ : Bool} {ts ts' ts₁ ts₂ ts₃ : List Token}

-- the place at which the grammar writes the phrase; any will do
variable (span : Span)

section Lists

variable {closing opening : Symbol} {e : Expr} {es : List Expr}

/-- A list ends at its closing bracket. -/
theorem accepts_listEnd :
    (listEnd (.symbol closing) es).Accepts itemsView c (.symbol closing :: ts)
      (Expr.eraseAll es) c ts := by
  refine accepts_current ?_
  rw [inView_cons, if_pos rfl]
  exact accepts_expect.bind fun _ _ => accepts_pure rfl

theorem accepts_noItems :
    (rules.items (.symbol closing)).Accepts itemsView c (.symbol closing :: ts) [] c ts := by
  refine accepts_current ?_
  rw [inView_cons, if_pos rfl]
  exact accepts_listEnd

/-- The items of a list are read up to its bracket. -/
theorem accepts_someItems (some : inView ts ≠ .symbol closing)
    (h : (rules .expressions).Accepts Expr.eraseAll c ts (Expr.eraseAll es) c'
      (.symbol closing :: ts')) :
    (rules.items (.symbol closing)).Accepts itemsView c ts (Expr.eraseAll es) c' ts' := by
  refine accepts_current ?_
  rw [if_neg some]
  refine h.bind fun es' hes => ?_
  rw [← hes]
  exact accepts_listEnd

theorem accepts_bracketed
    (h : (rules.items (.symbol closing)).Accepts itemsView c ts (Expr.eraseAll es) c' ts') :
    (rules.bracketed (.symbol opening) (.symbol closing)).Accepts itemsView c
      (.symbol opening :: ts) (Expr.eraseAll es) c' ts' :=
  accepts_expect.discard.bind fun _ _ => h

theorem accepts_lastExpr (last : inView ts' ≠ .symbol .comma)
    (h : (rules (.expression .lowest)).Accepts Expr.erase c ts e.erase c' ts') :
    rules.expressions.Accepts Expr.eraseAll c ts (Expr.eraseAll [e]) c' ts' := by
  refine h.bind fun e' he => accepts_current ?_
  rw [if_neg last]
  exact accepts_pure (congrArg ([·]) he)

theorem accepts_moreExprs
    (h : (rules (.expression .lowest)).Accepts Expr.erase c ts e.erase c₁ (.symbol .comma :: ts₁))
    (hs : (rules .expressions).Accepts Expr.eraseAll c₁ ts₁ (Expr.eraseAll es) c' ts') :
    rules.expressions.Accepts Expr.eraseAll c ts (Expr.eraseAll (e :: es)) c' ts' := by
  refine h.bind fun e' he => accepts_current ?_
  rw [inView_cons, if_pos rfl]
  refine accepts_advance.discard.bind fun _ _ => hs.bind fun es' hes => ?_
  exact accepts_pure (congrArg₂ List.cons he hes)

end Lists

section Functions

variable {name : String} {params : List Ident} {body : Block} {s : Stmt} {ss : List Stmt}

theorem accepts_lastParam (last : inView ts ≠ .symbol .comma) :
    rules.params.Accepts (List.map Ident.erase) c (.ident name :: ts)
      ([⟨name, span⟩].map Ident.erase) c ts := by
  refine accepts_expectIdent.bind fun id hid => accepts_current ?_
  rw [if_neg last]
  exact accepts_pure (congrArg (fun n => [Ident.mk n default]) hid)

theorem accepts_moreParams
    (hs : (rules .params).Accepts (List.map Ident.erase) c ts (params.map Ident.erase) c' ts') :
    rules.params.Accepts (List.map Ident.erase) c (.ident name :: .symbol .comma :: ts)
      ((⟨name, span⟩ :: params).map Ident.erase) c' ts' := by
  refine accepts_expectIdent.bind fun id hid => accepts_current ?_
  rw [inView_cons, if_pos rfl]
  refine accepts_advance.discard.bind fun _ _ => hs.bind fun ids hids => ?_
  exact accepts_pure (congrArg₂ (fun n ns => Ident.mk n default :: ns) hid hids)

theorem accepts_noParams :
    rules.paramItems.Accepts (List.map Ident.erase) c (.symbol .rightParen :: ts) [] c ts := by
  refine accepts_current ?_
  dsimp only
  rw [inView_cons, if_pos rfl]
  refine (accepts_pure rfl : (pure [] : Parse (List Ident)).Accepts id _ _ [] _ _).bind ?_
  rintro params rfl
  exact accepts_expect.discard.bind fun _ _ => accepts_pure rfl

theorem accepts_someParams (some : inView ts ≠ .symbol .rightParen)
    (h : (rules .params).Accepts (List.map Ident.erase) c ts (params.map Ident.erase) c'
      (.symbol .rightParen :: ts')) :
    rules.paramItems.Accepts (List.map Ident.erase) c ts (params.map Ident.erase) c' ts' := by
  refine accepts_current ?_
  dsimp only
  rw [if_neg some]
  refine h.bind fun params' hparams => ?_
  exact accepts_expect.discard.bind fun _ _ => accepts_pure hparams

/-- A function is read up to the word that ends it, which may stand on a new line. -/
theorem accepts_functionFrom (start : Nat)
    (closes : passBreak (· = .keyword .endFunction) ts₂ = .keyword .endFunction :: ts')
    (hparams : rules.paramItems.Accepts (List.map Ident.erase) c ts (params.map Ident.erase) c₁
      (.keyword .wo :: ts₁)) (hbody : (rules .block).Accepts Block.erase c₁ ts₁ body.erase c₂ ts₂) :
    (rules.functionFrom start).Accepts FunctionLit.erase c (.symbol .leftParen :: ts)
      (FunctionLit.erase ⟨params, body, span⟩) false ts' := by
  refine accepts_expect.discard.bind fun _ _ => hparams.bind fun params' hparams => ?_
  refine accepts_expect.discard.bind fun _ _ => hbody.bind fun body' hbody => ?_
  refine accepts_skipNewlineIf.bind fun _ _ => ?_
  rw [closes]
  refine accepts_expect.bind fun _ _ => accepts_setClosed.bind fun _ _ => ?_
  exact accepts_pure (congrArg₂ (FunctionLit.mk · · default) hparams hbody)

/-- A block of lines is read up to its dedent, and ends the statement around it. -/
theorem accepts_lines
    (h : (rules (.statements [.dedent, .eof])).Accepts Stmt.eraseAll c ts (Stmt.eraseAll ss) c'
      (.dedent :: ts')) :
    rules.colonBlock.Accepts Block.erase c (.symbol .colon :: .newline :: .indent :: ts)
      (Block.erase ⟨ss, span⟩) true ts' := by
  refine accepts_current (accepts_expect.bind fun _ _ => accepts_current ?_)
  rw [inView_cons, if_pos rfl]
  refine accepts_advance.discard.bind fun _ _ => accepts_current ?_
  rw [inView_cons, if_pos rfl]
  refine accepts_advance.discard.bind fun _ _ => h.bind fun ss' hss => ?_
  refine accepts_expect.discard.bind fun _ _ => accepts_setClosed.bind fun _ _ => ?_
  exact accepts_pure (congrArg (Block.mk · default) hss)

/-- A block on the line of its colon leaves the statement around it open. -/
theorem accepts_oneLine (here : inView ts ≠ .newline)
    (h : (rules .sameLine).Accepts Stmt.eraseAll c ts (Stmt.eraseAll ss) c' ts') :
    rules.colonBlock.Accepts Block.erase c (.symbol .colon :: ts)
      (Block.erase ⟨ss, span⟩) false ts' := by
  refine accepts_current (accepts_expect.bind fun _ _ => accepts_current ?_)
  rw [if_neg here]
  refine h.bind fun ss' hss => accepts_setClosed.bind fun _ _ => ?_
  exact accepts_pure (congrArg (Block.mk · default) hss)

theorem accepts_lastHere (last : inView ts' ≠ .symbol .comma)
    (h : (rules .statement).Accepts Stmt.erase c ts s.erase c' ts') :
    rules.sameLine.Accepts Stmt.eraseAll c ts (Stmt.eraseAll [s]) c' ts' := by
  refine h.bind fun s' hs => accepts_current ?_
  rw [if_neg last]
  exact accepts_pure (congrArg ([·]) hs)

theorem accepts_moreHere
    (h : (rules .statement).Accepts Stmt.erase c ts s.erase c₁ (.symbol .comma :: ts₁))
    (hs : (rules .sameLine).Accepts Stmt.eraseAll c₁ ts₁ (Stmt.eraseAll ss) c' ts') :
    rules.sameLine.Accepts Stmt.eraseAll c ts (Stmt.eraseAll (s :: ss)) c' ts' := by
  refine h.bind fun s' hs' => accepts_current ?_
  rw [inView_cons, if_pos rfl]
  refine accepts_advance.discard.bind fun _ _ => hs.bind fun ss' hss => ?_
  exact accepts_pure (congrArg₂ List.cons hs' hss)

theorem accepts_noStatements (stop : inView ts' ∈ stops)
    (hbreaks : (rules .lineBreaks).Accepts blind c ts () c ts') :
    (rules.statementsUpTo stops).Accepts Stmt.eraseAll c ts (Stmt.eraseAll []) c ts' := by
  refine hbreaks.bind fun _ _ => accepts_current ?_
  rw [if_pos stop]
  exact accepts_pure rfl

/-- A statement, its end, and the statements behind it. -/
theorem accepts_someStatements (goes : inView ts₁ ∉ stops) (ended : passEnd c₂ ts₂ = some ts₃)
    (hbreaks : (rules .lineBreaks).Accepts blind c ts () c ts₁)
    (h : (rules .statement).Accepts Stmt.erase c ts₁ s.erase c₂ ts₂)
    (hs : (rules (.statements stops)).Accepts Stmt.eraseAll c₂ ts₃ (Stmt.eraseAll ss) c' ts') :
    (rules.statementsUpTo stops).Accepts Stmt.eraseAll c ts (Stmt.eraseAll (s :: ss)) c' ts' := by
  refine hbreaks.bind fun _ _ => accepts_current ?_
  rw [if_neg goes]
  refine h.bind fun s' hs' => (accepts_expectStatementEnd ended).bind fun _ _ => ?_
  exact hs.bind fun ss' hss => accepts_pure (congrArg₂ List.cons hs' hss)

end Functions

section Operands

variable {name : String} {inner operand : Expr} {arguments : List Expr}

theorem accepts_int (value : Int) :
    rules.operand.Accepts Expr.erase c (.int value :: ts) (Expr.int value span).erase c ts := by
  refine accepts_current (accepts_advance.bind ?_)
  rintro ⟨token, place⟩ rfl
  exact accepts_pure rfl

theorem accepts_str (text : String) :
    rules.operand.Accepts Expr.erase c (.str text :: ts) (Expr.str text span).erase c ts := by
  refine accepts_current (accepts_advance.bind ?_)
  rintro ⟨token, place⟩ rfl
  exact accepts_pure rfl

theorem accepts_command (text : String) :
    rules.operand.Accepts Expr.erase c (.command text :: ts)
      (Expr.command (.ofText text) span).erase c ts :=
  accepts_current (accepts_advance.bind fun _ _ => accepts_pure rfl)

/-- A name stands for itself unless it names a built-in function before a bracket. -/
theorem accepts_ident (plain : Builtin.ofName? name = none ∨ inView ts ≠ .symbol .leftParen) :
    rules.operand.Accepts Expr.erase c (.ident name :: ts) (Expr.ident ⟨name, span⟩).erase c
      ts := by
  have hident : (do return Expr.ident (← expectIdent) : Parse Expr).Accepts Expr.erase c
      (.ident name :: ts) (Expr.ident ⟨name, span⟩).erase c ts :=
    accepts_expectIdent.bind fun id hid =>
      accepts_pure (congrArg (fun n => Expr.ident (Ident.mk n default)) hid)
  refine accepts_current ?_
  dsimp only [inView_cons]
  split
  · rename_i function known
    refine accepts_peek ?_
    have hplain : inView ts ≠ .symbol .leftParen := plain.resolve_left (by simp [known])
    rw [List.tail_cons, if_neg hplain]
    exact hident
  · exact hident

/-- Where no argument is written, the function decides what it is applied to. -/
theorem accepts_builtin {function : Builtin} (place span : Span)
    (known : Builtin.ofName? name = some function)
    (h : (rules.items (.symbol .rightParen)).Accepts itemsView c ts (Expr.eraseAll arguments) c'
      ts') :
    rules.operand.Accepts Expr.erase c (.ident name :: .symbol .leftParen :: ts)
      (Expr.builtin function (function.arguments arguments place) span).erase c' ts' := by
  refine accepts_current ?_
  dsimp only [inView_cons]
  rw [known]
  refine accepts_peek ?_
  rw [List.tail_cons, inView_cons, if_pos rfl]
  refine accepts_expectIdent.bind fun id hid => (accepts_bracketed h).bind ?_
  rintro ⟨arguments', stop⟩ (harguments : Expr.eraseAll arguments' = Expr.eraseAll arguments)
  -- whether there are arguments can be seen without places
  have hempty : arguments'.isEmpty = arguments.isEmpty := by
    cases arguments' <;> cases arguments <;> first | rfl | cases harguments
  dsimp only
  rw [Builtin.arguments, hempty]
  split
  · exact accepts_pure rfl
  · exact accepts_pure (congrArg (Expr.builtin function · default) harguments)

/-- The operand of a sign binds at least as tightly as the sign. -/
theorem accepts_signed (op : Symbol) (sign : op = .minus ∨ op = .plus)
    (h : (rules (.expression .sign)).Accepts Expr.erase c ts operand.erase c' ts') :
    rules.operand.Accepts Expr.erase c (.symbol op :: ts)
      (Expr.prefixOp (.symbol op) operand span).erase c' ts' := by
  have hsigned : rules.signed.Accepts Expr.erase c (.symbol op :: ts)
      (Expr.prefixOp (.symbol op) operand span).erase c' ts' :=
    accepts_advance.bind fun _ hop => h.bind fun _ hoperand =>
      accepts_pure (congrArg₂ (Expr.prefixOp · · default) hop hoperand)
  -- the parser has a branch for each sign, and both do the same
  rcases sign with rfl | rfl
  · exact accepts_current hsigned
  · exact accepts_current hsigned

theorem accepts_nested
    (h : (rules (.expression .lowest)).Accepts Expr.erase c ts inner.erase c'
      (.symbol .rightParen :: ts')) :
    rules.operand.Accepts Expr.erase c (.symbol .leftParen :: ts) (Expr.nested inner span).erase c'
      ts' := by
  refine accepts_current (accepts_expect.bind fun _ _ => h.bind fun inner' hinner => ?_)
  exact accepts_expect.bind fun _ _ => accepts_pure (congrArg (Expr.nested · default) hinner)

theorem accepts_array
    (h : (rules.items (.symbol .rightBracket)).Accepts itemsView c ts (Expr.eraseAll arguments) c'
      ts') :
    rules.operand.Accepts Expr.erase c (.symbol .leftBracket :: ts)
      (Expr.array arguments span).erase c' ts' := by
  refine accepts_current (accepts_currentSpan fun _ => (accepts_bracketed h).bind ?_)
  intro elements helements
  exact accepts_pure (congrArg (Expr.array · default) helements)

theorem accepts_literal {literal : FunctionLit}
    (h : ∀ start, (rules.functionFrom start).Accepts FunctionLit.erase c ts literal.erase c' ts') :
    rules.operand.Accepts Expr.erase c (.keyword .function :: ts) (Expr.function literal).erase c'
      ts' := by
  refine accepts_current (accepts_expect.bind fun span _ => (h span.start).bind ?_)
  intro literal' hliteral
  exact accepts_pure (congrArg Expr.function hliteral)

end Operands

section Operators

variable {above : Precedence} {left left' right position e : Expr} {arguments : List Expr}
  (hleft : left'.erase = left.erase)

include hleft

/-- Operators are read up to the first that binds no tighter than `above`. -/
theorem accepts_stop (weak : (inView ts).precedence.level ≤ above.level) :
    (rules.operators above left').Accepts Expr.erase c ts left.erase c ts := by
  refine accepts_current ?_
  rw [if_neg (Nat.not_lt.2 weak)]
  exact accepts_pure hleft

/-- A call is read, and then the operators behind it. -/
theorem accepts_called (tight : above.level < Precedence.application.level)
    (hitems : (rules.items (.symbol .rightParen)).Accepts itemsView c ts (Expr.eraseAll arguments)
      c₁ ts₁) (h : ∀ call : Expr, call.erase = (Expr.call left arguments span).erase →
      (rules (.operators above call)).Accepts Expr.erase c₁ ts₁ e.erase c' ts') :
    (rules.operators above left').Accepts Expr.erase c (.symbol .leftParen :: ts) e.erase c'
      ts' := by
  have hcall : (rules.called left').Accepts Expr.erase c (.symbol .leftParen :: ts)
      (Expr.call left arguments span).erase c₁ ts₁ :=
    (accepts_bracketed hitems).bind fun _ harguments =>
      accepts_pure (congrArg₂ (Expr.call · · default) hleft harguments)
  refine accepts_current ?_
  dsimp only [inView_cons]
  rw [if_pos (show above.level < (Token.symbol .leftParen).precedence.level from tight)]
  exact hcall.bind h

/-- An element is read, and then the operators behind it. -/
theorem accepts_indexed (tight : above.level < Precedence.application.level)
    (hposition : (rules (.expression .lowest)).Accepts Expr.erase c ts position.erase c₁
      (.symbol .rightBracket :: ts₁))
    (h : ∀ element : Expr, element.erase = (Expr.index left position span).erase →
      (rules (.operators above element)).Accepts Expr.erase c₁ ts₁ e.erase c' ts') :
    (rules.operators above left').Accepts Expr.erase c (.symbol .leftBracket :: ts) e.erase c'
      ts' := by
  have helement : (rules.indexed left').Accepts Expr.erase c (.symbol .leftBracket :: ts)
      (Expr.index left position span).erase c₁ ts₁ :=
    accepts_expect.discard.bind fun _ _ => hposition.bind fun _ hposition =>
      accepts_expect.bind fun _ _ =>
        accepts_pure (congrArg₂ (Expr.index · · default) hleft hposition)
  refine accepts_current ?_
  dsimp only [inView_cons]
  rw [if_pos (show above.level < (Token.symbol .leftBracket).precedence.level from tight)]
  exact helement.bind h

/-- The negation stands behind its operand. -/
theorem accepts_negated (tight : above.level < Precedence.negation.level)
    (h : ∀ negation : Expr,
      negation.erase = (Expr.prefixOp (.keyword .notWord) left span).erase →
      (rules (.operators above negation)).Accepts Expr.erase c ts e.erase c' ts') :
    (rules.operators above left').Accepts Expr.erase c (.keyword .notWord :: ts) e.erase c'
      ts' := by
  have hnegation : (negated left').Accepts Expr.erase c (.keyword .notWord :: ts)
      (Expr.prefixOp (.keyword .notWord) left span).erase c ts :=
    accepts_expect.bind fun _ _ => accepts_pure (congrArg (Expr.prefixOp _ · default) hleft)
  refine accepts_current ?_
  dsimp only [inView_cons]
  rw [if_pos (show above.level < (Token.keyword .notWord).precedence.level from tight)]
  exact hnegation.bind h

/-- The right operand is read with the precedence of its operator. -/
theorem accepts_joined (op : Token) (operator : op.isOperator = true)
    (tight : above.level < op.precedence.level)
    (hright : (rules (.expression op.precedence)).Accepts Expr.erase c ts right.erase c₁ ts₁)
    (h : ∀ joint : Expr, joint.erase = (Expr.infixOp op left right span).erase →
      (rules (.operators above joint)).Accepts Expr.erase c₁ ts₁ e.erase c' ts') :
    (rules.operators above left').Accepts Expr.erase c (op :: ts) e.erase c' ts' := by
  have hjoint : (rules.joined left').Accepts Expr.erase c (op :: ts)
      (Expr.infixOp op left right span).erase c₁ ts₁ := by
    refine accepts_advance.bind ?_
    rintro ⟨op, place⟩ rfl
    refine hright.bind fun right' hright => ?_
    exact accepts_pure (congrArg₂ (Expr.infixOp op · · default) hleft hright)
  refine accepts_current ?_
  dsimp only [inView_cons]
  rw [if_pos tight]
  split
  · cases operator
  · cases operator
  · cases operator
  · rw [if_pos operator]
    exact hjoint.bind h

end Operators

section Statements

variable {e e' value amount condition : Expr} {body : Block} {st : Stmt}

/-- An expression that no statement goes on with is a statement. -/
theorem accepts_plain (ends : endsExpression (inView ts) = true) (he : e'.erase = e.erase) :
    (rules.continued e').Accepts Stmt.erase c ts (Stmt.expr e).erase c ts := by
  refine accepts_current ?_
  split
  all_goals first | exact accepts_pure (congrArg Stmt.expr he) | skip
  all_goals
    rename_i hnow
    rw [hnow] at ends
    cases ends

theorem accepts_ensureAssignable {target : Expr} (h : target.isAssignable = true) :
    (ensureAssignable target).Accepts blind c ts () c ts := by
  rw [ensureAssignable, if_pos h]
  exact accepts_pure rfl

/-- Whether an expression can be assigned to is seen without its places. -/
theorem assignable_of_erase (assignable : e.isAssignable = true) (he : e'.erase = e.erase) :
    e'.isAssignable = true := by
  rw [← e'.isAssignable_erase, he, e.isAssignable_erase]
  exact assignable

theorem accepts_assign (assignable : e.isAssignable = true) (he : e'.erase = e.erase)
    (h : (rules (.expression .lowest)).Accepts Expr.erase c ts value.erase c' ts') :
    (rules.continued e').Accepts Stmt.erase c (.symbol .assign :: ts)
      (Stmt.assign e value span).erase c' ts' := by
  have hassignable := assignable_of_erase assignable he
  refine accepts_current ((accepts_ensureAssignable hassignable).bind fun _ _ => ?_)
  refine accepts_advance.discard.bind fun _ _ => h.bind fun value' hvalue => ?_
  exact accepts_pure (congrArg₂ (Stmt.assign · · default) he hvalue)

theorem accepts_countingWord (direction : Direction) :
    countingWord.Accepts id c (direction.countingToken :: ts) direction c ts := by
  refine accepts_current ?_
  cases direction with
  | increasing => exact accepts_advance.discard.bind fun _ _ => accepts_pure rfl
  | decreasing => exact accepts_advance.discard.bind fun _ _ => accepts_pure rfl

theorem accepts_loopBody
    (h : (rules .block).Accepts Block.erase c (passToken (.keyword .repeated) ts) body.erase c'
      ts') :
    rules.loopBody.Accepts Block.erase c ts body.erase c' ts' :=
  (accepts_skipToken (.keyword .repeated) nofun).bind fun _ _ => h

/-- A counted loop, which begins like a change of its counter. -/
theorem accepts_counted {first last step : Expr} (counter : Ident) (direction : Direction)
    (he : e'.erase = (Expr.ident counter).erase)
    (hfirst : (rules (.expression .lowest)).Accepts Expr.erase c ts first.erase c₁
      (.keyword .startAt :: ts₁))
    (hlast : (rules (.expression .lowest)).Accepts Expr.erase c₁ ts₁ last.erase c₂
      (.keyword .upTo :: ts₂))
    (hstep : (rules (.expression .lowest)).Accepts Expr.erase c₂ ts₂ step.erase c₃
      (.keyword .stepBy :: direction.countingToken :: ts₃))
    (hbody : (rules .block).Accepts Block.erase c₃ (passToken (.keyword .repeated) ts₃) body.erase
      c' ts') :
    (rules.continued e').Accepts Stmt.erase c (.keyword .wo :: ts)
      (Stmt.counted counter first last step direction body span).erase c' ts' := by
  -- an expression that looks like a name is one
  obtain ⟨id, rfl, hid⟩ : ∃ id, e' = .ident id ∧ id.erase = counter.erase := by
    cases e' with
    | ident id => exact ⟨id, rfl, Expr.ident.inj he⟩
    | _ => cases he
  refine accepts_current (accepts_advance.discard.bind fun _ _ => ?_)
  refine hfirst.bind fun first' hfirst => accepts_current ?_
  refine accepts_expect.discard.bind fun _ _ => hlast.bind fun last' hlast => ?_
  refine accepts_expect.discard.bind fun _ _ => hstep.bind fun step' hstep => ?_
  refine accepts_expect.discard.bind fun _ _ => ?_
  refine (accepts_countingWord direction).bind fun direction' hdirection => ?_
  refine (accepts_loopBody hbody).bind fun body' hbody => accepts_pure ?_
  show Stmt.counted id.erase first'.erase last'.erase step'.erase direction' body'.erase default = _
  rw [hid, hfirst, hlast, hstep, hbody, show direction' = direction from hdirection]
  rfl

/-- The direction of a change stands behind the amount. -/
theorem accepts_change (direction : Direction) (assignable : e.isAssignable = true)
    (he : e'.erase = e.erase)
    (h : (rules (.expression .lowest)).Accepts Expr.erase c ts amount.erase c'
      (direction.changingToken :: ts')) :
    (rules.continued e').Accepts Stmt.erase c (.keyword .wo :: ts)
      (Stmt.change e amount direction span).erase c' ts' := by
  have hassignable := assignable_of_erase assignable he
  refine accepts_current (accepts_advance.discard.bind fun _ _ => ?_)
  refine h.bind fun amount' hamount => accepts_current ?_
  have hchange : (changedBy e' amount' direction).Accepts Stmt.erase c'
      (direction.changingToken :: ts') (Stmt.change e amount direction span).erase c' ts' :=
    (accepts_ensureAssignable hassignable).bind fun _ _ => accepts_advance.bind fun _ _ =>
      accepts_pure (congrArg₂ (Stmt.change · · direction default) he hamount)
  cases direction with
  | increasing => exact hchange
  | decreasing => exact hchange

theorem accepts_whileLoop (he : e'.erase = e.erase)
    (h : (rules .block).Accepts Block.erase c (passToken (.keyword .repeated) ts) body.erase c'
      ts') :
    (rules.continued e').Accepts Stmt.erase c (.keyword .whileWord :: ts)
      (Stmt.whileLoop e body span).erase c' ts' := by
  refine accepts_current (accepts_advance.discard.bind fun _ _ => ?_)
  refine (accepts_loopBody h).bind fun body' hbody => ?_
  exact accepts_pure (congrArg₂ (Stmt.whileLoop · · default) he hbody)

theorem accepts_giveBack (he : e'.erase = e.erase) :
    (rules.continued e').Accepts Stmt.erase c (.keyword .giveBack :: ts)
      (Stmt.giveBack e span).erase c ts := by
  refine accepts_current (accepts_expect.bind fun _ _ => ?_)
  exact accepts_pure (congrArg (Stmt.giveBack · default) he)

theorem accepts_define {name : String} {literal : FunctionLit} (place span : Span)
    (h : ∀ start, (rules.functionFrom start).Accepts FunctionLit.erase false ts literal.erase c'
      ts') :
    rules.statement.Accepts Stmt.erase c (.keyword .function :: .ident name :: ts)
      (Stmt.define ⟨name, place⟩ literal span).erase c' ts' := by
  refine accepts_setClosed.bind fun _ _ => accepts_current (accepts_peek ?_)
  rw [List.tail_cons, inView_cons, if_pos (show isIdent (.ident name) = true from rfl)]
  refine accepts_expect.bind fun word _ => accepts_expectIdent.bind fun id hid => ?_
  refine (h word.start).bind fun literal' hliteral => ?_
  exact accepts_pure (congrArg₂ (fun n f => Stmt.define ⟨n, default⟩ f default) hid hliteral)

theorem accepts_conditional {k : Conditional} {word : Token} (opens : opensConditional word)
    (h : ∀ start, (rules.conditionalFrom start).Accepts Conditional.erase c ts k.erase c' ts') :
    rules.conditional.Accepts Conditional.erase c (word :: ts) k.erase c' ts' := by
  refine accepts_current ?_
  rcases opens with rfl | rfl
  · exact accepts_expect.bind fun word _ => h word.start
  · exact accepts_expect.bind fun word _ => h word.start

theorem accepts_ifStatement {k : Conditional}
    (h : ∀ start, (rules.conditionalFrom start).Accepts Conditional.erase false ts k.erase c'
      ts') :
    rules.statement.Accepts Stmt.erase c (.keyword .ifWord :: ts) (Stmt.conditional k).erase c'
      ts' := by
  refine accepts_setClosed.bind fun _ _ => accepts_current ?_
  refine (accepts_conditional (.inr rfl) h).bind fun k' hk => ?_
  exact accepts_pure (congrArg Stmt.conditional hk)

/-- The condition of the loop stands behind its block, maybe on a new line. -/
theorem accepts_untilLoop (closes : passBreak (· = .keyword .wo) ts₁ = .keyword .wo :: ts₂)
    (hbody : (rules .block).Accepts Block.erase false ts body.erase c₁ ts₁)
    (hcondition : (rules (.expression .lowest)).Accepts Expr.erase c₁
      (passToken (.symbol .comma) ts₂) condition.erase c₂ (.keyword .untilWord :: ts')) :
    rules.statement.Accepts Stmt.erase c (.keyword .loop :: ts)
      (Stmt.untilLoop body condition span).erase false ts' := by
  refine accepts_setClosed.bind fun _ _ => accepts_current ?_
  refine accepts_expect.bind fun _ _ => hbody.bind fun body' hbody => ?_
  refine accepts_skipNewlineIf.bind fun _ _ => ?_
  rw [closes]
  refine accepts_expect.discard.bind fun _ _ => ?_
  refine (accepts_skipToken (.symbol .comma) nofun).bind fun _ _ => ?_
  refine hcondition.bind fun condition' hcondition => accepts_expect.bind fun _ _ => ?_
  refine accepts_setClosed.bind fun _ _ => ?_
  exact accepts_pure (congrArg₂ (Stmt.untilLoop · · default) hbody hcondition)

/-- A statement that begins with an expression. -/
theorem accepts_opened (opens : opensExpression ts = true)
    (h : (rules (.expression .lowest)).Accepts Expr.erase false ts e.erase c₁ ts₁)
    (hst : ∀ e' : Expr, e'.erase = e.erase →
      (rules.continued e').Accepts Stmt.erase c₁ ts₁ st.erase c' ts') :
    rules.statement.Accepts Stmt.erase c ts st.erase c' ts' := by
  have hexpression : rules.expressionStatement.Accepts Stmt.erase false ts st.erase c' ts' :=
    h.bind hst
  refine accepts_setClosed.bind fun _ _ => accepts_current ?_
  split
  · rename_i hnow
    obtain ⟨rest, rfl⟩ := eq_cons_of_inView hnow nofun
    refine accepts_peek ?_
    rw [List.tail_cons, if_neg]
    · exact hexpression
    -- a function literal begins an expression unless a name follows the word
    · cases rest with
      | nil => exact Bool.false_ne_true
      | cons t rest => simpa [opensExpression] using opens
  · rename_i hnow
    obtain ⟨rest, rfl⟩ := eq_cons_of_inView hnow nofun
    cases opens
  · rename_i hnow
    obtain ⟨rest, rfl⟩ := eq_cons_of_inView hnow nofun
    cases opens
  · rename_i hnow
    obtain ⟨rest, rfl⟩ := eq_cons_of_inView hnow nofun
    cases opens
  · exact hexpression

/-- A condition and its branches; the other branch may stand on a new line. -/
theorem accepts_branches {consequence : Block} {alternative : ElseBranch} (start : Nat)
    (hcondition : (rules (.expression .lowest)).Accepts Expr.erase c ts condition.erase c₁
      (.keyword .thenWord :: ts₁))
    (hconsequence : (rules .block).Accepts Block.erase c₁ ts₁ consequence.erase c₂ ts₂)
    (halternative : ∀ stop, (rules.elseBranch stop).Accepts branchView c₂
      (passBreak continuesConditional ts₂) alternative.erase c' ts') :
    (rules.conditionalFrom start).Accepts Conditional.erase c ts
      (Conditional.erase ⟨condition, consequence, alternative, span⟩) c' ts' := by
  refine hcondition.bind fun condition' hcondition => ?_
  refine accepts_expect.discard.bind fun _ _ => ?_
  refine hconsequence.bind fun consequence' hconsequence => ?_
  refine accepts_skipNewlineIf.bind fun _ _ => ?_
  refine (halternative _).bind ?_
  rintro ⟨alternative', stop⟩ (halternative : alternative'.erase = alternative.erase)
  refine accepts_pure ?_
  show Conditional.mk condition'.erase consequence'.erase alternative'.erase default = _
  rw [hcondition, hconsequence, halternative]
  rfl

theorem accepts_elseIf {k : Conditional} (stop : Nat)
    (h : (rules .conditional).Accepts Conditional.erase c (.keyword .elseIf :: ts) k.erase c'
      ts') :
    (rules.elseBranch stop).Accepts branchView c (.keyword .elseIf :: ts)
      (ElseBranch.elseIf k).erase c' ts' :=
  accepts_current (h.bind fun _ hk => accepts_pure (congrArg ElseBranch.elseIf hk))

theorem accepts_otherwise (stop : Nat)
    (h : (rules .block).Accepts Block.erase c ts body.erase c' ts') :
    (rules.elseBranch stop).Accepts branchView c (.keyword .otherwise :: ts)
      (ElseBranch.otherwise body).erase c' ts' :=
  accepts_current (accepts_advance.discard.bind fun _ _ =>
    h.bind fun _ hbody => accepts_pure (congrArg ElseBranch.otherwise hbody))

/-- There is no other branch before a token that does not begin one. -/
theorem accepts_missing (stop : Nat) (ends : continuesConditional (inView ts) = false) :
    (rules.elseBranch stop).Accepts branchView c ts ElseBranch.missing.erase c ts := by
  refine accepts_current ?_
  split
  · rename_i hnow
    rw [hnow] at ends
    cases ends
  · rename_i hnow
    rw [hnow] at ends
    cases ends
  · exact accepts_pure rfl

end Statements

end Rules

/-! ### The induction -/

/-- How often the grammar is unfolded for a phrase beyond eight times for each
token that is left. -/
def Form.rank : Form → Nat
  | .items _ | .sameLine | .statements _ => 3
  | .expressions | .paramItems | .statement | .conditional => 2
  | _ => 1

/-- The parsers `rules` read from `ts` what looks like `t`, a phrase of the
form, and leave `ts'`. -/
def Form.Accepted (rules : Rules) :
    (f : Form) → Bool → List Token → f.Tree → Bool → List Token → Prop
  | .operand, c, ts, t, c', ts' => rules.operand.Accepts Expr.erase c ts t.erase c' ts'
  | .expression above, c, ts, t, c', ts' =>
    (rule rules (.expression above)).Accepts Expr.erase c ts t.erase c' ts'
  | .operators above left, c, ts, t, c', ts' => ∀ left' : Expr, left'.erase = left.erase →
    (rules.operators above left').Accepts Expr.erase c ts t.erase c' ts'
  | .items closing, c, ts, t, c', ts' =>
    (rules.items (.symbol closing)).Accepts itemsView c ts (Expr.eraseAll t) c' ts'
  | .expressions, c, ts, t, c', ts' =>
    rules.expressions.Accepts Expr.eraseAll c ts (Expr.eraseAll t) c' ts'
  | .paramItems, c, ts, t, c', ts' =>
    rules.paramItems.Accepts (List.map Ident.erase) c ts (t.map Ident.erase) c' ts'
  | .params, c, ts, t, c', ts' =>
    rules.params.Accepts (List.map Ident.erase) c ts (t.map Ident.erase) c' ts'
  | .function, c, ts, t, c', ts' => ∀ start,
    (rules.functionFrom start).Accepts FunctionLit.erase c ts t.erase c' ts'
  | .block, c, ts, t, c', ts' => rules.colonBlock.Accepts Block.erase c ts t.erase c' ts'
  | .sameLine, c, ts, t, c', ts' =>
    rules.sameLine.Accepts Stmt.eraseAll c ts (Stmt.eraseAll t) c' ts'
  | .statements stops, c, ts, t, c', ts' =>
    (rules.statementsUpTo stops).Accepts Stmt.eraseAll c ts (Stmt.eraseAll t) c' ts'
  | .statement, c, ts, t, c', ts' => rules.statement.Accepts Stmt.erase c ts t.erase c' ts'
  | .continued e, c, ts, t, c', ts' => ∀ e' : Expr, e'.erase = e.erase →
    (rules.continued e').Accepts Stmt.erase c ts t.erase c' ts'
  | .conditional, c, ts, t, c', ts' => ∀ start,
    (rules.conditionalFrom start).Accepts Conditional.erase c ts t.erase c' ts'
  | .elseBranch, c, ts, t, c', ts' => ∀ stop,
    (rules.elseBranch stop).Accepts branchView c ts t.erase c' ts'

/-- Empty lines are passed by one unfolding for each of them. -/
theorem accepts_lineBreaks (ts : List Token) (n : Nat) (hn : ts.length < n) :
    (parse n .lineBreaks).Accepts Parse.blind c ts () c (ts.dropWhile (· = .newline)) := by
  obtain ⟨m, rfl⟩ : ∃ m, n = m + 1 := ⟨n - 1, by omega⟩
  induction ts generalizing m with
  | nil =>
    refine Parse.accepts_current ?_
    exact Parse.accepts_pure rfl
  | cons t ts ih =>
    refine Parse.accepts_current ?_
    by_cases hbreak : t = .newline
    · subst hbreak
      rw [List.dropWhile_cons_of_pos (by simp), inView_cons, if_pos rfl]
      rw [List.length_cons] at hn
      -- a line break takes one more unfolding
      obtain ⟨k, rfl⟩ : ∃ k, m = k + 1 := ⟨m - 1, by omega⟩
      exact Parse.accepts_advance.discard.bind fun _ _ => ih k (by omega)
    · rw [List.dropWhile_cons_of_neg (by simpa using hbreak), inView_cons, if_neg hbreak]
      exact Parse.accepts_pure rfl

open Rules in
/-- Every phrase is read, by enough unfoldings of the grammar. -/
theorem Reads.accepted {f : Form} {ts' : List Token} {t : f.Tree} (h : Reads f c ts t c' ts') :
    ∀ n, 8 * ts.length + f.rank ≤ n → f.Accepted (parse n) c ts t c' ts' := by
  induction h with
    -- in every case the grammar is unfolded at least once
    (intro n hn
     simp only [List.length_cons, Form.rank] at *
     obtain ⟨m, rfl⟩ : ∃ m, n = m + 1 := ⟨n - 1, by omega⟩)
  -- operands
  | int value span => exact accepts_int span value
  | str text span => exact accepts_str span text
  | command text span => exact accepts_command span text
  | ident name span plain => exact accepts_ident span plain
  | builtin name place span known h ih =>
    exact accepts_builtin place span known (ih (m + 1) (by omega))
  | signed op span sign h ih =>
    exact accepts_signed span op sign (ih m (by omega))
  | nested span h ih =>
    exact accepts_nested span (ih m (by omega))
  | array span h ih =>
    exact accepts_array span (ih (m + 1) (by omega))
  | literal h ih =>
    exact accepts_literal (ih (m + 1) (by omega))
  -- expressions
  | expression h₁ h₂ ih₁ ih₂ =>
    have hlt := h₁.length_lt rfl
    exact (ih₁ (m + 1) (by omega)).bind (ih₂ m (by omega))
  | stop weak => exact fun left' hleft => accepts_stop hleft weak
  | called span tight h₁ h₂ ih₁ ih₂ =>
    have hlt := h₁.length_lt rfl
    exact fun left' hleft =>
      accepts_called span hleft tight (ih₁ (m + 1) (by omega)) (ih₂ m (by omega))
  | indexed span tight h₁ h₂ ih₁ ih₂ =>
    have hlt := h₁.length_lt rfl
    rw [List.length_cons] at hlt
    exact fun left' hleft =>
      accepts_indexed span hleft tight (ih₁ m (by omega)) (ih₂ m (by omega))
  | negated span tight h ih =>
    exact fun left' hleft => accepts_negated span hleft tight (ih m (by omega))
  | joined op span operator tight h₁ h₂ ih₁ ih₂ =>
    have hlt := h₁.length_lt rfl
    exact fun left' hleft =>
      accepts_joined span hleft op operator tight (ih₁ m (by omega)) (ih₂ m (by omega))
  -- lists
  | noItems => exact accepts_noItems
  | someItems some h ih =>
    exact accepts_someItems some (ih m (by omega))
  | lastExpr last h ih =>
    exact accepts_lastExpr last (ih m (by omega))
  | moreExprs h₁ h₂ ih₁ ih₂ =>
    have hlt := h₁.length_lt rfl
    rw [List.length_cons] at hlt
    exact accepts_moreExprs (ih₁ m (by omega)) (ih₂ m (by omega))
  | noParams => exact accepts_noParams
  | someParams some h ih =>
    exact accepts_someParams some (ih m (by omega))
  | lastParam name span last => exact accepts_lastParam span last
  | moreParams name span h ih =>
    exact accepts_moreParams span (ih m (by omega))
  -- functions and blocks
  | function span closes h₁ h₂ ih₁ ih₂ =>
    have hlt := h₁.length_lt rfl
    rw [List.length_cons] at hlt
    exact fun start =>
      accepts_functionFrom span start closes (ih₁ (m + 1) (by omega)) (ih₂ m (by omega))
  | lines span h ih =>
    exact accepts_lines span (ih m (by omega))
  | oneLine span here h ih =>
    exact accepts_oneLine span here (ih m (by omega))
  | lastHere last h ih =>
    exact accepts_lastHere last (ih m (by omega))
  | moreHere h₁ h₂ ih₁ ih₂ =>
    have hlt := h₁.length_lt rfl
    rw [List.length_cons] at hlt
    exact accepts_moreHere (ih₁ m (by omega)) (ih₂ m (by omega))
  | @noStatements stops c ts ts' breaks stop =>
    subst breaks
    exact accepts_noStatements stop (accepts_lineBreaks _ (m + 1) (by omega))
  | @someStatements stops c ts ts₁ s c₂ ts₂ ts₃ ss c' ts' breaks goes ended h₁ h₂ ih₁ ih₂ =>
    subst breaks
    have hbreaks := (List.dropWhile_suffix (l := ts) (· = .newline)).length_le
    -- the second phrase begins further on: each part before it is a suffix
    have hend := (passEnd_suffix ended).length_le
    have hlt := h₁.length_lt rfl
    exact accepts_someStatements goes ended (accepts_lineBreaks _ (m + 1) (by omega))
      (ih₁ m (by omega)) (ih₂ m (by omega))
  -- statements
  | define name place span h ih =>
    exact accepts_define place span (ih (m + 1) (by omega))
  | conditional h ih =>
    exact accepts_ifStatement (ih (m + 1) (by omega))
  | @untilLoop c ts body c₁ ts₁ ts₂ condition c₂ ts' span closes h₁ h₂ ih₁ ih₂ =>
    have hlt := h₁.length_lt rfl
    have hclose := length_of_passBreak closes
    have hcomma := (passToken_suffix (.symbol .comma) ts₂).length_le
    exact accepts_untilLoop span closes (ih₁ m (by omega)) (ih₂ m (by omega))
  | opened opens h₁ h₂ ih₁ ih₂ =>
    have hlt := h₁.length_lt rfl
    exact accepts_opened opens (ih₁ m (by omega)) (ih₂ (m + 1) (by omega))
  | plain ends => exact fun e' he => accepts_plain ends he
  | assign span assignable h ih =>
    exact fun e' he => accepts_assign span assignable he (ih m (by omega))
  | @counted _ _ _ _ _ _ _ _ _ _ ts₃ _ _ _ counter direction span h₁ h₂ h₃ _ ih₁ ih₂ ih₃ ih₄ =>
    have hlt₁ := h₁.length_lt rfl
    have hlt₂ := h₂.length_lt rfl
    have hlt₃ := h₃.length_lt rfl
    have hskip := (passToken_suffix (.keyword .repeated) ts₃).length_le
    simp only [List.length_cons] at hlt₁ hlt₂ hlt₃
    exact fun e' he => accepts_counted span counter direction he (ih₁ m (by omega))
      (ih₂ m (by omega)) (ih₃ m (by omega)) (ih₄ m (by omega))
  | change direction span assignable h ih =>
    exact fun e' he => accepts_change span direction assignable he (ih m (by omega))
  | @whileLoop e c ts body c' ts' span h ih =>
    have hskip := (passToken_suffix (.keyword .repeated) ts).length_le
    exact fun e' he => accepts_whileLoop span he (ih m (by omega))
  | giveBack span => exact fun e' he => accepts_giveBack span he
  -- conditionals
  | @branches _ _ _ _ _ _ _ ts₂ _ _ _ span h₁ h₂ _ ih₁ ih₂ ih₃ =>
    have hlt₁ := h₁.length_lt rfl
    have hlt₂ := h₂.length_lt rfl
    have hskip := (passBreak_suffix continuesConditional ts₂).length_le
    rw [List.length_cons] at hlt₁
    exact fun start => accepts_branches span start (ih₁ m (by omega)) (ih₂ m (by omega))
      (ih₃ (m + 1) (by omega))
  | elseIf h ih =>
    exact fun stop => accepts_elseIf stop (accepts_conditional (.inl rfl) (ih m (by omega)))
  | otherwise h ih =>
    exact fun stop => accepts_otherwise stop (ih m (by omega))
  | missing ends => exact fun stop => accepts_missing stop ends

/-! ### Whole programs -/

/-- The statements of a program, without their places. -/
def programView (p : Program) : List Stmt :=
  Stmt.eraseAll p.statements

/-- The statements of a program are read up to the end of the text. -/
theorem Rules.accepts_program {rules : Rules} {ss : List Stmt}
    (h : (rules (.statements [.eof, .dedent])).Accepts Stmt.eraseAll c ts (Stmt.eraseAll ss) c'
      []) :
    rules.program.Accepts programView c ts (Stmt.eraseAll ss) c' [] := by
  refine h.bind fun ss' hss => Parse.accepts_current ?_
  rw [inView_nil, if_neg nofun]
  split
  · exact Parse.accepts_pure hss
  · exact Parse.accepts_pure hss

/-- A feed without faults has a window on its tokens. -/
theorem Window.exists_ofFeed {feed : Feed} (h : feed.stream = .prepend ts .ended) :
    ∃ w, Window.ofFeed feed = .ok w ∧ w.Shows false ts .ended := by
  let start : Lexeme := ⟨.eof, ⟨0, 0⟩⟩
  have hstart : Window.Shows ⟨start, start, false, feed, 0⟩ false (.eof :: .eof :: ts) .ended := by
    refine ⟨.inl rfl, rfl, ?_⟩
    rw [Window.stream, h]
    rfl
  have htwice : (do discard Parse.advance; discard Parse.advance : Parse Unit).Accepts Parse.blind
      false (.eof :: .eof :: ts) () false ts :=
    Parse.accepts_advance.discard.bind fun _ _ => Parse.accepts_advance.discard
  obtain ⟨u, w, hrun, -, hw⟩ := htwice _ hstart
  refine ⟨w, ?_, hw⟩
  rw [Window.ofFeed, EStateM.run, hrun]

/-- The window on a program is unfolded often enough. -/
theorem Window.Shows.length_lt_fuel {w : Window} (h : w.Shows c ts .ended) (hts : .eof ∉ ts) :
    8 * ts.length + 4 ≤ w.fuel := by
  have hfeed : w.feed.stream = .prepend ts.tail.tail .ended := by
    have htails := congrArg (fun s => s.tail.tail) h.stream
    rw [Stream.tail_prepend_ended, Stream.tail_prepend_ended] at htails
    exact htails
  have hle := Feed.length_le_bound hfeed fun hmem =>
    hts (List.mem_of_mem_tail (List.mem_of_mem_tail hmem))
  rw [List.length_tail, List.length_tail] at hle
  rw [Window.fuel]
  omega

/-- A program that is read from all the tokens of a feed is parsed, and the
window behind it says whether the last block ended with its lines. -/
theorem run_of_reads {feed : Feed} {ss : List Stmt} (hfeed : feed.stream = .prepend ts .ended)
    (hts : .eof ∉ ts) (h : Reads (.statements [.eof, .dedent]) false ts ss c []) :
    ∃ w p w', Window.ofFeed feed = .ok w ∧ (Parse.withRules Rules.program).run w = .ok p w' ∧
      Stmt.eraseAll p.statements = Stmt.eraseAll ss ∧ w'.Shows c [] .ended := by
  obtain ⟨w, hwindow, hw⟩ := Window.exists_ofFeed hfeed
  have hfuel := hw.length_lt_fuel hts
  obtain ⟨m, hm⟩ : ∃ m, w.fuel = m + 1 := ⟨w.fuel - 1, by omega⟩
  have hbody : (parse (m + 1) (.statements [.eof, .dedent])).Accepts Stmt.eraseAll false ts
      (Stmt.eraseAll ss) c [] :=
    h.accepted m (by simp only [Form.rank]; omega)
  obtain ⟨p, w', hrun, hp, hw'⟩ := Rules.accepts_program hbody w hw
  refine ⟨w, p, w', hwindow, ?_, hp, hw'⟩
  show (parse w.fuel).program w = .ok p w'
  rw [hm]
  exact hrun

/-- What is read from all the tokens of a feed is the program that is parsed. -/
theorem parseFeed_of_reads {feed : Feed} {ss : List Stmt} (hfeed : feed.stream = .prepend ts .ended)
    (hts : .eof ∉ ts) (h : Reads (.statements [.eof, .dedent]) false ts ss c []) :
    ∃ p, parseFeed feed = .ok p ∧ Stmt.eraseAll p.statements = Stmt.eraseAll ss := by
  obtain ⟨w, p, w', hwindow, hrun, hp, -⟩ := run_of_reads hfeed hts h
  refine ⟨p, ?_, hp⟩
  rw [parseFeed, hwindow]
  dsimp only
  rw [hrun]

end Dncl
