/-
Dncl/Proofs/Batch.lean

A text is parsed as the list of its tokens is.

While a text is parsed it is scanned on demand, two tokens ahead.  It may as well
be scanned first, and the list of its tokens be parsed then: the program or the
failure is the same, with all its places.

Design.  For each rule of the grammar there is a lemma that follows the rule
action by action, at two windows that move in step (`Parse.Agree`).  The grammar
is unfolded differently often for a text and for a list.  So the lemmas
compare two families of parsers, that agree where enough unfoldings are left: eight
for each item that is faced, and as many as there are phrases that may follow each
other before a token is passed (`Phrase.rank`).  Trees are compared with their places,
or without them (`Phrase.eraseTree`): the walk through the grammar is the same.
-/
import Dncl.Proofs.Facing

namespace Dncl

variable {k m start start' : Nat} {es es' : List Expr} {w w' : Window}

/-- How many phrases are unfolded at most, this one included, before a token is
passed. -/
def Phrase.rank : Phrase → Nat
  | .expressions | .statement => 2
  | .sameLine | .statements _ => 3
  | _ => 1

/-- Whether a phrase has at least one token. -/
def Phrase.passes : Phrase → Bool
  | .operators _ _ | .statements _ | .lineBreaks => false
  | _ => true

theorem Phrase.rank_pos (p : Phrase) : 0 < p.rank := by
  cases p <;> simp [rank]

theorem Phrase.rank_le (p : Phrase) : p.rank ≤ 3 := by
  cases p <;> simp [rank]

/-- A bound on what is faced after a phrase, if `k` items are faced before it. -/
def Phrase.rest (p : Phrase) (k : Nat) : Nat :=
  if p.passes then k else k + 1

/-- A tree without places. -/
def Phrase.eraseTree : (p : Phrase) → p.Tree → p.Tree
  | .expression _ => Expr.erase
  | .operators _ _ => Expr.erase
  | .expressions => Expr.eraseAll
  | .params => List.map Ident.erase
  | .block => Block.erase
  | .sameLine => Stmt.eraseAll
  | .statements _ => Stmt.eraseAll
  | .statement => Stmt.erase
  | .conditional => Conditional.erase
  | .lineBreaks => id

namespace Rules

/-- Where `n` unfoldings are enough, the parsers agree, also behind expressions that
look the same. -/
structure Agree (P : Pace) (n : Nat) (rules rules' : Rules) : Prop where
  phrase : ∀ p {k w w'}, P.Beside k w w' → 8 * k + p.rank ≤ n →
    Parse.Agree P p.eraseTree (p.rest k) w w' (rules p) (rules' p)
  operators : ∀ above {left left'}, SameUpTo P.Exact Expr.erase left left' → ∀ {k w w'},
    P.Beside k w w' → 8 * k + 1 ≤ n →
      Parse.Agree P Expr.erase (k + 1) w w' (rules (.operators above left))
        (rules' (.operators above left'))

namespace Agree

open Parse

variable {P : Pace} {n k : Nat} {rules rules' : Rules} {w w' : Window}

/-! ### Phrases -/

section Phrases

variable (hr : Rules.Agree P n rules rules') (hw : P.Beside k w w') (hn : 8 * k + 3 ≤ n)
include hr hw hn

/-- A phrase with at least one token, where there is room for any phrase. -/
theorem passing (p : Phrase) (hp : p.passes = true) :
    Parse.Agree P p.eraseTree k w w' (rules p) (rules' p) := by
  have hrank := p.rank_le
  have hagree := hr.phrase p hw (by omega)
  rwa [Phrase.rest, if_pos hp] at hagree

/-- A phrase that may be empty, where there is room for any phrase. -/
theorem staying (p : Phrase) (hp : p.passes = false) :
    Parse.Agree P p.eraseTree (k + 1) w w' (rules p) (rules' p) := by
  have hrank := p.rank_le
  have hagree := hr.phrase p hw (by omega)
  rwa [Phrase.rest, hp] at hagree

theorem expression (above : Precedence) :
    Parse.Agree P Expr.erase k w w' (rules.expression above) (rules'.expression above) :=
  hr.passing hw hn (.expression above) rfl

theorem wholeExpression :
    Parse.Agree P Expr.erase k w w' rules.wholeExpression rules'.wholeExpression :=
  hr.expression hw hn .lowest

theorem block : Parse.Agree P Block.erase k w w' rules.block rules'.block :=
  hr.passing hw hn .block rfl

theorem expressions :
    Parse.Agree P Expr.eraseAll k w w' (rules .expressions) (rules' .expressions) :=
  hr.passing hw hn .expressions rfl

theorem params :
    Parse.Agree P (List.map Ident.erase) k w w' (rules .params) (rules' .params) :=
  hr.passing hw hn .params rfl

theorem sameLine : Parse.Agree P Stmt.eraseAll k w w' (rules .sameLine) (rules' .sameLine) :=
  hr.passing hw hn .sameLine rfl

theorem conditional :
    Parse.Agree P Conditional.erase k w w' (rules .conditional) (rules' .conditional) :=
  hr.passing hw hn .conditional rfl

theorem statements (stops : List Token) :
    Parse.Agree P Stmt.eraseAll (k + 1) w w' (rules.statements stops) (rules'.statements stops) :=
  hr.staying hw hn (.statements stops) rfl

end Phrases

/-! ### Lists in brackets -/

/-- A list is looked at without places, and its end not at all. -/
def eraseItems (items : List Expr × Nat) : List Expr :=
  Expr.eraseAll items.1

/-- Erasing places leaves as many expressions. -/
theorem isEmpty_of_eraseAll (h : Expr.eraseAll es' = Expr.eraseAll es) :
    es'.isEmpty = es.isEmpty := by
  cases es <;> cases es' <;> first | rfl | cases h

theorem agree_listEnd {closing : Token} (hclosing : closing.IsMark) (hw : P.Beside k w w')
    (hes : SameUpTo P.Exact Expr.eraseAll es es') :
    Parse.Agree P eraseItems k w w' (listEnd closing es) (listEnd closing es') := by
  refine agree_current hw ?_
  split
  · exact agree_expect hw hclosing fun s s' hs j w₁ w₁' hw₁ hj =>
      agree_pure hw₁ hj (by grind [eraseItems])
  · exact agree_unexpected hw (by simp)

section Rules

variable (hr : Rules.Agree P n rules rules') (hw : P.Beside k w w')
include hr hw

/-- Arguments and elements: a list may be empty, then its bracket closes at once. -/
theorem agree_bracketed (hn : 8 * k ≤ n) {opening closing : Token} (hopening : opening.IsMark)
    (hclosing : closing.IsMark) :
    Parse.Agree P eraseItems k w w' (rules.bracketed opening closing)
      (rules'.bracketed opening closing) := by
  refine agree_expectThen hw hopening fun j w₁ w₁' hw₁ hj => agree_current hw₁ ?_
  split
  · exact (agree_listEnd hclosing hw₁ (.refl [])).mono (Nat.le_of_lt hj)
  · refine (hr.expressions hw₁ (by omega)).bind fun es es' hes i w₂ w₂' hw₂ hi => ?_
    exact (agree_listEnd hclosing hw₂ hes).mono (by omega)

/-- Parameters, one and then more behind a comma. -/
theorem agree_paramItems (hn : 8 * k + 3 ≤ n) :
    Parse.Agree P (List.map Ident.erase) k w w' rules.paramItems rules'.paramItems := by
  -- the closing bracket follows, whatever parameters were read
  have hend : ∀ {j : Nat} {w w' : Window} (ids ids' : List Ident),
      SameUpTo P.Exact (List.map Ident.erase) ids ids' → P.Beside j w w' → j ≤ k →
      Parse.Agree P (List.map Ident.erase) k w w'
        (discard (expect (.symbol .rightParen)) >>= fun _ => pure ids)
        (discard (expect (.symbol .rightParen)) >>= fun _ => pure ids') :=
    fun ids ids' hids hw hj => agree_expectThen hw (by decide) fun i w₁ w₁' hw₁ hi =>
      agree_pure hw₁ (by omega) hids
  refine agree_current hw ?_
  dsimp only
  split
  · exact hend [] [] (.refl []) hw (Nat.le_refl k)
  · exact (hr.params hw hn).bind fun ids ids' hids j w₁ w₁' hw₁ hj =>
      hend ids ids' hids hw₁ (Nat.le_of_lt hj)

theorem agree_expressions (hn : 8 * k + 1 ≤ n) :
    Parse.Agree P Expr.eraseAll k w w' rules.expressions rules'.expressions := by
  have hitem : Parse.Agree P Expr.erase k w w' rules.wholeExpression rules'.wholeExpression :=
    hr.phrase (.expression .lowest) hw hn
  refine hitem.bind fun e e' he j w₁ w₁' hw₁ hj => agree_current hw₁ ?_
  split
  · rename_i hnow
    refine agree_passThen hw₁ (by simp [hnow]) fun i w₂ w₂' hw₂ hi => ?_
    exact ((hr.expressions hw₂ (by omega)).mono (by omega)).map
      fun es es' hes => by grind [Expr.eraseAll]
  · exact agree_pure hw₁ hj (by grind [Expr.eraseAll])

theorem agree_params (hn : 8 * k ≤ n) :
    Parse.Agree P (List.map Ident.erase) k w w' rules.params rules'.params := by
  refine agree_expectIdent hw fun id id' hid j w₁ w₁' hw₁ hj => agree_current hw₁ ?_
  split
  · rename_i hnow
    refine agree_passThen hw₁ (by simp [hnow]) fun i w₂ w₂' hw₂ hi => ?_
    exact ((hr.params hw₂ (by omega)).mono (by omega)).map
      fun ids ids' hids => by grind
  · exact agree_pure hw₁ hj (by grind)

/-- Statements on the rest of the line. -/
theorem agree_sameLine (hn : 8 * k + 2 ≤ n) :
    Parse.Agree P Stmt.eraseAll k w w' rules.sameLine rules'.sameLine := by
  have hitem : Parse.Agree P Stmt.erase k w w' (rules .statement) (rules' .statement) :=
    hr.phrase .statement hw hn
  refine hitem.bind fun s s' hs j w₁ w₁' hw₁ hj => agree_current hw₁ ?_
  split
  · rename_i hnow
    refine agree_passThen hw₁ (by simp [hnow]) fun i w₂ w₂' hw₂ hi => ?_
    exact ((hr.sameLine hw₂ (by omega)).mono (by omega)).map
      fun ss ss' hss => by grind [Stmt.eraseAll]
  · exact agree_pure hw₁ hj (by grind [Stmt.eraseAll])

theorem agree_lineBreaks (hn : 8 * k ≤ n) :
    Parse.Agree P id (k + 1) w w' rules.lineBreaks rules'.lineBreaks := by
  refine agree_current hw ?_
  split
  · rename_i hnow
    refine agree_passThen hw (by simp [hnow]) fun j w₁ w₁' hw₁ hj => ?_
    exact (hr.staying hw₁ (by omega) .lineBreaks rfl).mono (by omega)
  · exact agree_pure hw (Nat.lt_succ_self k) (.refl _)

/-- Statements up to one of the stops. -/
theorem agree_statementsUpTo (hn : 8 * k + 2 ≤ n) (stops : List Token) :
    Parse.Agree P Stmt.eraseAll (k + 1) w w' (rules.statementsUpTo stops)
      (rules'.statementsUpTo stops) := by
  have hbreaks : Parse.Agree P id (k + 1) w w' (rules .lineBreaks) (rules' .lineBreaks) :=
    hr.phrase .lineBreaks hw (show 8 * k + 1 ≤ n by omega)
  refine hbreaks.bind fun _ _ _ j w₁ w₁' hw₁ hj => agree_current hw₁ ?_
  split
  · exact agree_pure hw₁ hj (.refl [])
  · have hfirst : Parse.Agree P Stmt.erase j w₁ w₁' (rules .statement) (rules' .statement) :=
      hr.phrase .statement hw₁ (show 8 * j + 2 ≤ n by omega)
    refine hfirst.bind fun s s' hs i w₂ w₂' hw₂ hi => ?_
    refine (agree_expectStatementEnd hw₂).bind fun _ _ _ l w₃ w₃' hw₃ hl => ?_
    exact ((hr.statements hw₃ (by omega) stops).mono (by omega)).map
      fun ss ss' hss => by grind [Stmt.eraseAll]

/-! ### Functions and blocks -/

/-- A function from its parameters on. -/
theorem agree_functionFrom (hn : 8 * k ≤ n) (hstart : P.Exact → start' = start) :
    Parse.Agree P FunctionLit.erase k w w' (rules.functionFrom start)
      (rules'.functionFrom start') := by
  refine agree_expectThen hw (by decide) fun k₁ w₁ w₁' hw₁ h₁ => ?_
  refine (hr.agree_paramItems hw₁ (by omega)).bind fun params params' hparams k₂ w₂ w₂' hw₂ h₂ => ?_
  refine agree_expectThen hw₂ (by decide) fun k₃ w₃ w₃' hw₃ h₃ => ?_
  refine (hr.block hw₃ (by omega)).bind fun body body' hbody k₄ w₄ w₄' hw₄ h₄ => ?_
  refine (agree_skipNewlineIf hw₄ _).bind fun _ _ _ k₅ w₅ w₅' hw₅ h₅ => ?_
  refine agree_expect hw₅ (by decide) fun s s' hs k₆ w₆ w₆' hw₆ h₆ => ?_
  exact agree_setClosed hw₆ _ fun w₇ w₇' hw₇ =>
    agree_pure hw₇ (by omega) (by grind [FunctionLit.erase])

/-- A block: on lines of its own, or on the rest of the line. -/
theorem agree_colonBlock (hn : 8 * k ≤ n) :
    Parse.Agree P Block.erase k w w' rules.colonBlock rules'.colonBlock := by
  refine agree_current hw ?_
  split
  · refine agree_expect hw (by decide) fun s s' hs k₁ w₁ w₁' hw₁ h₁ => agree_current hw₁ ?_
    split
    · rename_i hnow
      refine agree_passThen hw₁ (by simp [hnow]) fun k₂ w₂ w₂' hw₂ h₂ => agree_current hw₂ ?_
      split
      · rename_i hindent
        refine agree_passThen hw₂ (by simp [hindent]) fun k₃ w₃ w₃' hw₃ h₃ => ?_
        refine (hr.statements hw₃ (by omega) [.dedent, .eof]).bind
          fun body body' hbody k₄ w₄ w₄' hw₄ h₄ => ?_
        refine agree_expectThen hw₄ (by decide) fun k₅ w₅ w₅' hw₅ h₅ => ?_
        exact agree_setClosed hw₅ _ fun w₆ w₆' hw₆ =>
          agree_pure hw₆ (by omega) (by grind [Block.erase])
      · exact agree_failHere hw₂ (by simp)
    · refine (hr.sameLine hw₁ (by omega)).bind
        fun body body' hbody k₂ w₂ w₂' hw₂ h₂ => ?_
      exact agree_setClosed hw₂ _ fun w₃ w₃' hw₃ =>
        agree_pure hw₃ (by omega) (by grind [Block.erase])
  · exact agree_failHere hw (by simp)
  · exact agree_failHere hw (by simp)

/-! ### Expressions -/

omit hr in
theorem agree_literal (heof : w.current.token ≠ .eof) :
    Parse.Agree P Expr.erase k w w' literal literal := by
  refine agree_advance hw heof fun y y' hy j w₁ w₁' hw₁ hj => ?_
  rw [hy.2]
  split
  · exact agree_pure hw₁ hj (by grind [Expr.erase])
  · exact agree_pure hw₁ hj (by grind [Expr.erase])
  · exact agree_fail hw₁ (by simp) fun hexact => by rw [hy.1 hexact]

theorem agree_array (hn : 8 * k ≤ n) :
    Parse.Agree P Expr.erase k w w' rules.array rules'.array :=
  agree_currentSpan hw fun s s' hs => (hr.agree_bracketed hw hn (by decide) (by decide)).map
    fun r r' hitems => by grind [Expr.erase, eraseItems]

/-- A call of a builtin, whose arguments are counted. -/
theorem agree_builtinCall (hn : 8 * k ≤ n) (function : Builtin) :
    Parse.Agree P Expr.erase k w w' (rules.builtinCall function) (rules'.builtinCall function) := by
  refine agree_expectIdent hw fun name name' hname k₁ w₁ w₁' hw₁ h₁ => ?_
  refine (hr.agree_bracketed hw₁ (by omega) (by decide) (by decide)).bind
    fun items items' hitems k₂ w₂ w₂' hw₂ h₂ => ?_
  dsimp only
  rw [isEmpty_of_eraseAll hitems.2]
  split
  · exact agree_pure hw₂ (by omega) (by grind [Expr.erase, Expr.eraseAll])
  · exact agree_pure hw₂ (by omega) (by grind [Expr.erase, eraseItems])

theorem agree_signed (hn : 8 * k ≤ n) (heof : w.current.token ≠ .eof) :
    Parse.Agree P Expr.erase k w w' rules.signed rules'.signed := by
  refine agree_advance hw heof fun op op' hop j w₁ w₁' hw₁ hj => ?_
  exact ((hr.expression hw₁ (by omega) .sign).mono (Nat.le_of_lt hj)).map
    fun e e' he => by grind [Expr.erase]

theorem agree_nested (hn : 8 * k ≤ n) :
    Parse.Agree P Expr.erase k w w' rules.nested rules'.nested := by
  refine agree_expect hw (by decide) fun s s' hs k₁ w₁ w₁' hw₁ h₁ => ?_
  refine (hr.wholeExpression hw₁ (by omega)).bind fun inner inner' hinner k₂ w₂ w₂' hw₂ h₂ => ?_
  exact agree_expect hw₂ (by decide) fun t t' ht k₃ w₃ w₃' hw₃ h₃ =>
    agree_pure hw₃ (by omega) (by grind [Expr.erase])

/-- What an expression begins with. -/
theorem agree_operand (hn : 8 * k ≤ n) :
    Parse.Agree P Expr.erase k w w' rules.operand rules'.operand := by
  have hident : Parse.Agree P Expr.erase k w w' (expectIdent >>= fun id => pure (Expr.ident id))
      (expectIdent >>= fun id => pure (Expr.ident id)) :=
    agree_expectIdent hw fun id id' hid j w₁ w₁' hw₁ hj =>
      agree_pure hw₁ hj (by grind [Expr.erase])
  refine agree_current hw ?_
  split
  · rename_i hnow
    exact agree_literal hw (by simp [hnow])
  · rename_i hnow
    exact agree_literal hw (by simp [hnow])
  · rename_i hnow
    exact agree_advance hw (by simp [hnow]) fun y y' hy j w₁ w₁' hw₁ hj =>
      agree_pure hw₁ hj (by grind [Expr.erase])
  · rename_i name hnow
    split
    · refine agree_peek hw (by simp [hnow]) ?_
      split
      · exact hr.agree_builtinCall hw hn _
      · exact hident
    · exact hident
  · rename_i hnow
    exact hr.agree_signed hw hn (by simp [hnow])
  · rename_i hnow
    exact hr.agree_signed hw hn (by simp [hnow])
  · exact hr.agree_nested hw hn
  · exact hr.agree_array hw hn
  · refine agree_expect hw (by decide) fun s s' hs k₁ w₁ w₁' hw₁ h₁ => ?_
    exact ((hr.agree_functionFrom hw₁ (by omega) (by grind)).mono (Nat.le_of_lt h₁)).map
      fun f f' hf => by grind [Expr.erase]
  · exact agree_unexpected hw (by simp)

section Left

variable {left left' : Expr} (hleft : SameUpTo P.Exact Expr.erase left left')
include hleft

theorem agree_joined (hn : 8 * k ≤ n) (heof : w.current.token ≠ .eof) :
    Parse.Agree P Expr.erase k w w' (rules.joined left) (rules'.joined left') := by
  refine agree_advance hw heof fun op op' hop j w₁ w₁' hw₁ hj => ?_
  rw [hop.2]
  exact ((hr.expression hw₁ (by omega) _).mono (Nat.le_of_lt hj)).map
    fun right right' hright => by grind [Expr.erase]

theorem agree_indexed (hn : 8 * k ≤ n) :
    Parse.Agree P Expr.erase k w w' (rules.indexed left) (rules'.indexed left') := by
  refine agree_expectThen hw (by decide) fun k₁ w₁ w₁' hw₁ h₁ => ?_
  refine (hr.wholeExpression hw₁ (by omega)).bind fun e e' he k₂ w₂ w₂' hw₂ h₂ => ?_
  exact agree_expect hw₂ (by decide) fun s s' hs k₃ w₃ w₃' hw₃ h₃ =>
    agree_pure hw₃ (by omega) (by grind [Expr.erase])

/-- What goes on behind an operand: operators, calls and indices. -/
theorem agree_operators (hn : 8 * k ≤ n) (above : Precedence) :
    Parse.Agree P Expr.erase (k + 1) w w' (rules.operators above left)
      (rules'.operators above left') := by
  -- whatever was read behind the expression, operators may follow
  have hmore : ∀ {x x' : Parse Expr}, Parse.Agree P Expr.erase k w w' x x' →
      Parse.Agree P Expr.erase (k + 1) w w' (x >>= fun e => rules (.operators above e))
        (x' >>= fun e => rules' (.operators above e)) := by
    intro x x' hx
    refine hx.bind fun e e' he j w₁ w₁' hw₁ hj => ?_
    exact (hr.operators above he hw₁ (by omega)).mono (by omega)
  have hstay : Parse.Agree P Expr.erase (k + 1) w w' (pure left) (pure left') :=
    agree_pure hw (Nat.lt_succ_self k) hleft
  refine agree_current hw ?_
  split
  · split
    · exact hmore ((hr.agree_bracketed hw hn (by decide) (by decide)).map
        fun r r' hitems => by grind [Expr.erase, eraseItems])
    · exact hmore (hr.agree_indexed hw hleft hn)
    · exact hmore (agree_expect hw (by decide) fun s s' hs j w₁ w₁' hw₁ hj =>
        agree_pure hw₁ hj (by grind [Expr.erase]))
    · split
      · rename_i hop
        refine hmore (hr.agree_joined hw hleft hn fun heof => ?_)
        rw [heof] at hop
        cases hop
      · exact hstay
  · exact hstay

end Left

/-! ### Statements -/

omit hr in
/-- What can be assigned to does not depend on places. -/
theorem agree_ensureAssignable {target target' : Expr} {f f' : Unit → Parse Stmt}
    (htarget : SameUpTo P.Exact Expr.erase target target')
    (h : Parse.Agree P Stmt.erase m w w' (f ()) (f' ())) :
    Parse.Agree P Stmt.erase m w w' (ensureAssignable target >>= f)
      (ensureAssignable target' >>= f') := by
  have hsame : target'.isAssignable = target.isAssignable := by
    rw [← target'.isAssignable_erase, htarget.2, target.isAssignable_erase]
  rw [ensureAssignable, ensureAssignable, hsame]
  split
  · exact h
  · exact agree_fail hw (by simp) fun hexact => by rw [htarget.1 hexact]

omit hr in
theorem agree_countingWord : Parse.Agree P id k w w' countingWord countingWord := by
  refine agree_current hw ?_
  split
  · rename_i hnow
    exact agree_passThen hw (by simp [hnow]) fun j w₁ w₁' hw₁ hj => agree_pure hw₁ hj (.refl _)
  · rename_i hnow
    exact agree_passThen hw (by simp [hnow]) fun j w₁ w₁' hw₁ hj => agree_pure hw₁ hj (.refl _)
  · exact agree_unexpected hw (by simp)

theorem agree_loopBody (hn : 8 * k + 3 ≤ n) :
    Parse.Agree P Block.erase k w w' rules.loopBody rules'.loopBody := by
  refine (agree_skipToken hw (by simp)).bind fun _ _ _ j w₁ w₁' hw₁ hj => ?_
  exact (hr.block hw₁ (by omega)).mono (by omega)

omit hr hw in
/-- An expression that is a name but for its place is a name. -/
theorem exists_ident {e : Expr} {id : Ident} (h : e.erase = (Expr.ident id).erase) :
    ∃ id', e = .ident id' := by
  cases e with
  | ident id' => exact ⟨id', rfl⟩
  | _ => cases h

section Opening

variable {e e' : Expr} (he : SameUpTo P.Exact Expr.erase e e')
include he

/-- A counting loop, behind its first bound. -/
theorem agree_countedFrom (hn : 8 * k ≤ n) {first first' : Expr}
    (hfirst : SameUpTo P.Exact Expr.erase first first') :
    Parse.Agree P Stmt.erase k w w' (rules.countedFrom e first) (rules'.countedFrom e' first') := by
  rw [countedFrom.eq_def, countedFrom.eq_def]
  split
  · obtain ⟨id', rfl⟩ := exists_ident he.2
    refine agree_expectThen hw (by decide) fun k₁ w₁ w₁' hw₁ h₁ => ?_
    refine (hr.wholeExpression hw₁ (by omega)).bind fun last last' hlast k₂ w₂ w₂' hw₂ h₂ => ?_
    refine agree_expectThen hw₂ (by decide) fun k₃ w₃ w₃' hw₃ h₃ => ?_
    refine (hr.wholeExpression hw₃ (by omega)).bind fun step step' hstep k₄ w₄ w₄' hw₄ h₄ => ?_
    refine agree_expectThen hw₄ (by decide) fun k₅ w₅ w₅' hw₅ h₅ => ?_
    refine (agree_countingWord hw₅).bind fun direction direction' hdirection k₆ w₆ w₆' hw₆ h₆ => ?_
    obtain rfl : direction' = direction := hdirection.2
    exact ((hr.agree_loopBody hw₆ (by omega)).mono (by omega)).map
      fun body body' hbody => by grind [Stmt.erase, Expr.erase]
  · split
    · obtain ⟨id, rfl⟩ := exists_ident he.2.symm
      grind
    · exact agree_fail hw (by simp) fun hexact => by rw [he.1 hexact]

omit hr in
theorem agree_changedBy (heof : w.current.token ≠ .eof) {amount amount' : Expr}
    (hamount : SameUpTo P.Exact Expr.erase amount amount') (direction : Direction) :
    Parse.Agree P Stmt.erase k w w' (changedBy e amount direction)
      (changedBy e' amount' direction) :=
  agree_ensureAssignable hw he (agree_advance hw heof fun y y' hy _ _ _ hw₁ hj =>
    agree_pure hw₁ hj (by grind [Stmt.erase]))

/-- A statement that begins with an expression and goes on. -/
theorem agree_actedOn (hn : 8 * k ≤ n) (heof : w.current.token ≠ .eof) :
    Parse.Agree P Stmt.erase k w w' (rules.actedOn e) (rules'.actedOn e') := by
  refine agree_passThen hw heof fun k₁ w₁ w₁' hw₁ h₁ => ?_
  refine (hr.wholeExpression hw₁ (by omega)).bind
    fun operand operand' hoperand k₂ w₂ w₂' hw₂ h₂ => ?_
  have hle : k₂ ≤ k := by omega
  refine agree_current hw₂ ?_
  split
  · exact (hr.agree_countedFrom hw₂ he (by omega) hoperand).mono hle
  · rename_i hnow
    exact (agree_changedBy hw₂ he (by simp [hnow]) hoperand _).mono hle
  · rename_i hnow
    exact (agree_changedBy hw₂ he (by simp [hnow]) hoperand _).mono hle
  · exact agree_unexpected hw₂ (by simp)

/-- What follows an expression decides what statement it opens. -/
theorem agree_continued (hn : 8 * k ≤ n) :
    Parse.Agree P Stmt.erase (k + 1) w w' (rules.continued e) (rules'.continued e') := by
  refine agree_current hw ?_
  split
  · rename_i hnow
    refine agree_ensureAssignable hw he (agree_passThen hw (by simp [hnow])
      fun j w₁ w₁' hw₁ hj => ?_)
    exact ((hr.wholeExpression hw₁ (by omega)).mono (by omega)).map
      fun value value' hvalue => by grind [Stmt.erase]
  · rename_i hnow
    exact (hr.agree_actedOn hw he hn (by simp [hnow])).mono (Nat.le_succ k)
  · rename_i hnow
    refine agree_passThen hw (by simp [hnow]) fun j w₁ w₁' hw₁ hj => ?_
    exact ((hr.agree_loopBody hw₁ (by omega)).mono (by omega)).map
      fun body body' hbody => by grind [Stmt.erase]
  · exact agree_expect hw (by decide) fun s s' hs j w₁ w₁' hw₁ hj =>
      agree_pure hw₁ (by omega) (by grind [Stmt.erase])
  · exact agree_pure hw (Nat.lt_succ_self k) (by grind [Stmt.erase])

end Opening

theorem agree_expressionStatement (hn : 8 * k + 1 ≤ n) :
    Parse.Agree P Stmt.erase k w w' rules.expressionStatement rules'.expressionStatement := by
  have hopening : Parse.Agree P Expr.erase k w w' rules.wholeExpression rules'.wholeExpression :=
    hr.phrase (.expression .lowest) hw hn
  refine hopening.bind fun e e' he j w₁ w₁' hw₁ hj => ?_
  exact (hr.agree_continued hw₁ he (by omega)).mono hj

/-- What may follow the first block of a conditional. -/
theorem agree_elseBranch (hn : 8 * k + 3 ≤ n) {stop stop' : Nat} (hstop : P.Exact → stop' = stop) :
    Parse.Agree P (fun b : ElseBranch × Nat => b.1.erase) (k + 1) w w' (rules.elseBranch stop)
      (rules'.elseBranch stop') := by
  refine agree_current hw ?_
  split
  · exact ((hr.conditional hw hn).mono (Nat.le_succ k)).map
      fun c c' hc => by grind [ElseBranch.erase]
  · rename_i hnow
    refine agree_passThen hw (by simp [hnow]) fun j w₁ w₁' hw₁ hj => ?_
    exact ((hr.block hw₁ (by omega)).mono (by omega)).map
      fun b b' hb => by grind [ElseBranch.erase]
  · exact agree_pure hw (Nat.lt_succ_self k) (by grind)

theorem agree_conditionalFrom (hn : 8 * k + 3 ≤ n) (hstart : P.Exact → start' = start) :
    Parse.Agree P Conditional.erase k w w' (rules.conditionalFrom start)
      (rules'.conditionalFrom start') := by
  refine (hr.wholeExpression hw hn).bind fun condition condition' hcondition k₁ w₁ w₁' hw₁ h₁ => ?_
  refine agree_expectThen hw₁ (by decide) fun k₂ w₂ w₂' hw₂ h₂ => ?_
  refine (hr.block hw₂ (by omega)).bind fun body body' hbody k₃ w₃ w₃' hw₃ h₃ => ?_
  refine (agree_skipNewlineIf hw₃ _).bind fun _ _ _ k₄ w₄ w₄' hw₄ h₄ => ?_
  exact ((hr.agree_elseBranch hw₄ (by omega) (by grind)).mono (by omega)).map
    fun r r' hbranch => by grind [Conditional.erase]

theorem agree_conditional (hn : 8 * k ≤ n) :
    Parse.Agree P Conditional.erase k w w' rules.conditional rules'.conditional := by
  refine agree_current hw ?_
  split
  · refine agree_expect hw (by decide) fun s s' hs j w₁ w₁' hw₁ hj => ?_
    exact (hr.agree_conditionalFrom hw₁ (by omega) (by grind)).mono (Nat.le_of_lt hj)
  · refine agree_expect hw (by decide) fun s s' hs j w₁ w₁' hw₁ hj => ?_
    exact (hr.agree_conditionalFrom hw₁ (by omega) (by grind)).mono (Nat.le_of_lt hj)

/-- A loop whose condition stands behind its body. -/
theorem agree_untilLoop (hn : 8 * k ≤ n) :
    Parse.Agree P Stmt.erase k w w' rules.untilLoop rules'.untilLoop := by
  refine agree_expect hw (by decide) fun s s' hs k₁ w₁ w₁' hw₁ h₁ => ?_
  refine (hr.block hw₁ (by omega)).bind fun body body' hbody k₂ w₂ w₂' hw₂ h₂ => ?_
  refine (agree_skipNewlineIf hw₂ _).bind fun _ _ _ k₃ w₃ w₃' hw₃ h₃ => ?_
  refine agree_expectThen hw₃ (by decide) fun k₄ w₄ w₄' hw₄ h₄ => ?_
  refine (agree_skipToken hw₄ (by simp)).bind fun _ _ _ k₅ w₅ w₅' hw₅ h₅ => ?_
  refine (hr.wholeExpression hw₅ (by omega)).bind fun e e' he k₆ w₆ w₆' hw₆ h₆ => ?_
  refine agree_expect hw₆ (by decide) fun t t' ht k₇ w₇ w₇' hw₇ h₇ => ?_
  exact agree_setClosed hw₇ _ fun w₈ w₈' hw₈ =>
    agree_pure hw₈ (by omega) (by grind [Stmt.erase])

theorem agree_definition (hn : 8 * k ≤ n) :
    Parse.Agree P Stmt.erase k w w' rules.definition rules'.definition := by
  refine agree_expect hw (by decide) fun s s' hs k₁ w₁ w₁' hw₁ h₁ => ?_
  refine agree_expectIdent hw₁ fun name name' hname k₂ w₂ w₂' hw₂ h₂ => ?_
  exact ((hr.agree_functionFrom hw₂ (by omega) (by grind)).mono (by omega)).map
    fun f f' hf => by grind [Stmt.erase]

/-- A statement is known by its first token. -/
theorem agree_statement (hn : 8 * k + 1 ≤ n) :
    Parse.Agree P Stmt.erase k w w' rules.statement rules'.statement := by
  have hless : 8 * k ≤ n := Nat.le_of_succ_le hn
  refine agree_setClosed hw _ fun w₁ w₁' hw₁ => agree_current hw₁ ?_
  split
  · rename_i hnow
    refine agree_peek hw₁ (by simp [hnow]) ?_
    split
    · exact hr.agree_definition hw₁ hless
    · exact hr.agree_expressionStatement hw₁ hn
  · exact (hr.agree_conditional hw₁ hless).map fun c c' hc => by grind [Stmt.erase]
  · exact hr.agree_untilLoop hw₁ hless
  · exact agree_failHere hw₁ (by simp)
  · exact hr.agree_expressionStatement hw₁ hn

/-- The whole program, and the end mark behind it. -/
theorem agree_program (hstray : P.Stray) (hn : 8 * k + 3 ≤ n) :
    Parse.Agree P Program.erase (k + 1) w w' rules.program rules'.program := by
  refine (hr.statements hw hn [.eof, .dedent]).bind
    fun body body' hbody j w₁ w₁' hw₁ hj => agree_current hw₁ ?_
  split
  · exact agree_unexpected hw₁ fun _ => hstray
  · split <;> split <;> exact agree_pure hw₁ hj (by grind [Program.erase])

end Rules

/-- Rules agree, with one more unfolding, if the parsers given to them do. -/
theorem rule (hr : Rules.Agree P n rules rules') :
    Rules.Agree P (n + 1) (rule rules) (rule rules') where
  phrase p k w w' hw hn := by
    cases p with
    | expression above =>
      have hless : 8 * k ≤ n := Nat.le_of_succ_le_succ hn
      refine (hr.agree_operand hw hless).bind fun left left' hleft j w₁ w₁' hw₁ hj => ?_
      exact (hr.operators above hleft hw₁ (by omega)).mono hj
    | operators above left =>
      exact hr.agree_operators hw (.refl left) (Nat.le_of_succ_le_succ hn) above
    | expressions => exact hr.agree_expressions hw (Nat.le_of_succ_le_succ hn)
    | params => exact hr.agree_params hw (Nat.le_of_succ_le_succ hn)
    | block => exact hr.agree_colonBlock hw (Nat.le_of_succ_le_succ hn)
    | sameLine => exact hr.agree_sameLine hw (Nat.le_of_succ_le_succ hn)
    | statements stops => exact hr.agree_statementsUpTo hw (Nat.le_of_succ_le_succ hn) stops
    | statement => exact hr.agree_statement hw (Nat.le_of_succ_le_succ hn)
    | conditional => exact hr.agree_conditional hw (Nat.le_of_succ_le_succ hn)
    | lineBreaks => exact hr.agree_lineBreaks hw (Nat.le_of_succ_le_succ hn)
  operators above _ _ hleft _ _ _ hw hn :=
    hr.agree_operators hw hleft (Nat.le_of_succ_le_succ hn) above

end Agree

end Rules

/-! ### Feeds that bring the same -/

/-- Parsers agree as far as both are unfolded. -/
theorem agree_parse (P : Pace) {n n' : Nat} (hn : m ≤ n) (hn' : m ≤ n') :
    Rules.Agree P m (parse n) (parse n') := by
  induction m generalizing n n' with
  | zero =>
    refine ⟨fun p k w w' _ hrank => ?_, fun _ _ _ _ _ _ _ _ hrank => by omega⟩
    have hpos := p.rank_pos
    omega
  | succ m ih =>
    cases n with
    | zero => cases hn
    | succ n =>
      cases n' with
      | zero => cases hn'
      | succ n' => exact (ih (Nat.le_of_succ_le_succ hn) (Nat.le_of_succ_le_succ hn')).rule

/-- There are unfoldings enough at windows that are beside each other, counted from
what each feed may still bring. -/
theorem agree_fuel {P : Pace} (hw : P.Beside k w w') :
    Rules.Agree P (8 * k + 3) (parse w.fuel) (parse w'.fuel) := by
  obtain ⟨hbound, hbound'⟩ := P.le_bound hw
  exact agree_parse P (by rw [Window.fuel]; omega) (by rw [Window.fuel]; omega)

/-- Windows that are beside each other are parsed in the same way. -/
theorem agree_withRules {P : Pace} (hstray : P.Stray) (hw : P.Beside k w w') :
    Parse.Alike P Program.erase (k + 1) ((Parse.withRules Rules.program).run w)
      ((Parse.withRules Rules.program).run w') := by
  have hrun (v : Window) : (Parse.withRules Rules.program).run v = (parse v.fuel).program v := rfl
  rw [hrun, hrun]
  exact (agree_fuel hw).agree_program hw hstray (Nat.le_refl _)

/-- What parsing comes to, without places. -/
def erasedOutcome : Except SyntaxError Program → Except SyntaxError Program
  | .ok p => .ok p.erase
  | .error e => .error e.erase

/-- Two feeds that bring items that match are parsed in the same way.  A fault that is
told is one that they bring. -/
theorem parseFeed_brings {exact : Prop} {f f' : Feed} {xs xs' : List Item} (h : f.Brings xs)
    (h' : f'.Brings xs') (hitems : MatchAll exact xs xs') :
    SameUpTo exact erasedOutcome (parseFeed f) (parseFeed f') ∧
      ∀ e, parseFeed f = .error e → e.Genuine (fun fault => .error fault ∈ xs) True := by
  rw [parseFeed, parseFeed]
  rcases Window.ofFeed_brings h with ⟨fault, hfault, hfail⟩ | ⟨hno, w, hopen, hclosed, hw⟩
  · obtain ⟨other, hother, hsame⟩ := hitems.fault_mem hfault
    rcases Window.ofFeed_brings h' with ⟨fault', hfault', hfail'⟩ | ⟨hno', -⟩
    · obtain rfl := h'.fault_unique (List.mem_of_mem_take hother) (List.mem_of_mem_take hfault')
      rw [hfail, hfail']
      refine ⟨by grind [erasedOutcome, SyntaxError.erase, SyntaxCause.erase], ?_⟩
      rintro _ ⟨⟩
      exact SyntaxError.genuine_lexical (List.mem_of_mem_take hfault)
    · exact absurd hother (hno' other)
  · rcases Window.ofFeed_brings h' with ⟨fault', hfault', -⟩ | ⟨-, w', hopen', hclosed', hw'⟩
    · obtain ⟨fault, hfault, -⟩ := hitems.symm.fault_mem hfault'
      exact absurd hfault (hno fault)
    · have hbeside : (Pace.facing exact fun fault => .error fault ∈ xs).Beside xs.length w w' :=
        ⟨by rw [hclosed, hclosed'], xs, xs', hw, hw', hitems, rfl, fun _ => id⟩
      rw [hopen, hopen']
      dsimp only
      rcases Parse.Alike.cases (agree_withRules trivial hbeside) with
        ⟨p, p', v, v', -, hdone, hdone', hp, -⟩ | ⟨e, e', v, v', hfail, hfail', he, hgenuine, -⟩
      · rw [hdone, hdone']
        refine ⟨⟨fun hexact => congrArg _ (hp.1 hexact), congrArg Except.ok hp.2⟩, ?_⟩
        rintro e ⟨⟩
      · rw [hfail, hfail']
        refine ⟨⟨fun hexact => congrArg _ (he.1 hexact), congrArg Except.error he.2⟩, ?_⟩
        rintro _ ⟨⟩
        exact hgenuine

/-! ### Main result -/

/-- A text brings what it yields. -/
theorem brings_of_text (text : String) :
    (Feed.text (Scanner.ofText text)).Brings (Scanner.ofText text).yields := by
  obtain ⟨ts, rest, hover, hstream, hlayout⟩ := Scanner.inOrder (Scanner.isReading_ofText text)
  exact Scanner.brings_yields hover hstream hlayout.eof_not_mem

/-- A text that is parsed has no fault. -/
theorem tokenize_of_parsed {text : String} {p : Program} (h : parseProgram text = .ok p) :
    ∃ ts, tokenize text = .ok ts := by
  obtain ⟨ts, c, hstream, hlayout, -⟩ := reads_of_parsed h
  obtain ⟨lexemes, hlexemes, -⟩ := Scanner.tokens_of_stream hstream hlayout.eof_not_mem
  exact ⟨lexemes, hlexemes⟩

/-- **Scanning on demand and scanning first** come to the same.  If the text has
tokens, it is parsed as their list is, with the same program or the same failure.
If it has a fault, it is parsed as the list of the tokens before it, with the fault
behind them, is: there is a failure, and it is that fault, at its place, if it is
one of scanning.  So a text that is parsed has tokens.  No failure comes from the
number of unfoldings. -/
theorem parseProgram_eq_parseFeed_items (text : String) :
    (∀ ts, tokenize text = .ok ts → parseProgram text = parseFeed (.items (ts.map .ok))) ∧
      (∀ fault, tokenize text = .error fault →
        parseProgram text = parseFeed (.items (Scanner.ofText text).yields) ∧
        ∃ e, parseProgram text = .error e ∧
          ∀ fault', e.cause = .lexical fault' → fault' = fault ∧ e.span = fault.span) ∧
      (∀ p, parseProgram text = .ok p → ∃ ts, tokenize text = .ok ts) ∧
      ∀ e, parseProgram text = .error e → e.cause ≠ .outOfFuel := by
  have hbrings := brings_of_text text
  obtain ⟨⟨hexact, -⟩, hgenuine⟩ :=
    @parseFeed_brings True _ _ _ _ hbrings hbrings.items (.refl _)
  have hsame := hexact trivial
  refine ⟨fun ts hts => ?_, fun fault hfault => ⟨hsame.symm, ?_⟩, fun p => tokenize_of_parsed,
    fun e he => (hgenuine e he).unfolded⟩
  · rw [← Scanner.yields_of_tokens hts]
    exact hsame.symm
  · cases hparse : parseProgram text with
    | ok p =>
      obtain ⟨ts, hts⟩ := tokenize_of_parsed hparse
      cases hfault.symm.trans hts
    | error e =>
      refine ⟨e, rfl, fun fault' hcause => ?_⟩
      obtain ⟨hmem, hspan⟩ := (hgenuine e hparse).lexical fault' hcause
      obtain rfl := hbrings.fault_unique (Scanner.mem_yields_of_tokens hfault) hmem
      exact ⟨rfl, hspan⟩

/-- A text with a program, one whose fault is told, and one that fails before its
fault. -/
theorem parseProgram_eq_parseFeed_items_quote :
    (tokenize "x = 1" = .ok [⟨.ident "x", ⟨0, 1⟩⟩, ⟨.symbol .assign, ⟨2, 3⟩⟩,
        ⟨.int 1, ⟨4, 5⟩⟩, ⟨.newline, ⟨5, 5⟩⟩, ⟨.eof, ⟨5, 5⟩⟩] ∧
      parseFeed (.items [.ok ⟨.ident "x", ⟨0, 1⟩⟩, .ok ⟨.symbol .assign, ⟨2, 3⟩⟩,
          .ok ⟨.int 1, ⟨4, 5⟩⟩, .ok ⟨.newline, ⟨5, 5⟩⟩, .ok ⟨.eof, ⟨5, 5⟩⟩]) =
        .ok ⟨[.assign (.ident ⟨"x", ⟨0, 1⟩⟩) (.int 1 ⟨4, 5⟩) ⟨0, 5⟩], ⟨0, 5⟩⟩) ∧
    (tokenize "x = 1\ny = 「abc" = .error ⟨.unterminatedString, ⟨10, 13⟩⟩ ∧
      parseFeed (.items (Scanner.ofText "x = 1\ny = 「abc").yields) =
        .error ⟨.lexical ⟨.unterminatedString, ⟨10, 13⟩⟩, ⟨10, 13⟩⟩) ∧
    tokenize "x ) 1 2 「abc" = .error ⟨.unterminatedString, ⟨8, 11⟩⟩ ∧
      parseFeed (.items (Scanner.ofText "x ) 1 2 「abc").yields) =
        .error ⟨.unexpected (.symbol .rightParen) ["改行"], ⟨2, 3⟩⟩ := by
  have hgood : tokenize "x = 1" = .ok [⟨.ident "x", ⟨0, 1⟩⟩, ⟨.symbol .assign, ⟨2, 3⟩⟩,
      ⟨.int 1, ⟨4, 5⟩⟩, ⟨.newline, ⟨5, 5⟩⟩, ⟨.eof, ⟨5, 5⟩⟩] := by decide +kernel
  have htold : tokenize "x = 1\ny = 「abc" = .error ⟨.unterminatedString, ⟨10, 13⟩⟩ := by
    decide +kernel
  have hhidden : tokenize "x ) 1 2 「abc" = .error ⟨.unterminatedString, ⟨8, 11⟩⟩ := by
    decide +kernel
  refine ⟨⟨hgood, ?_⟩, ⟨htold, ?_⟩, hhidden, ?_⟩
  · exact ((parseProgram_eq_parseFeed_items "x = 1").1 _ hgood).symm.trans (by decide +kernel)
  · rw [← ((parseProgram_eq_parseFeed_items "x = 1\ny = 「abc").2.1 _ htold).1]
    decide +kernel
  · rw [← ((parseProgram_eq_parseFeed_items "x ) 1 2 「abc").2.1 _ hhidden).1]
    decide +kernel

end Dncl
