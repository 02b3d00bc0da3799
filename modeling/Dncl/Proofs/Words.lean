/-
Dncl/Proofs/Words.lean

The parser keeps the words of a text.

The *words* of a text are its tokens without layout, commas and `繰り返す`,
which the grammar lets come and go.  A phrase takes the words of its tree off
the front, no more, no fewer and in their order:

    Reads f c ts t c' ts'  →  words ts = kept (t.tokens b) ++ words ts'

So a program has the words of the text that it was read from
(`words_of_parsed`).

Design.  A command that mentions input stands for one and the same tree, so its
token is written in one way (`Token.normal`) before words are compared.  An
operator, or what makes a statement of an expression, is read when a part of
its tree has been read before: `Form.before` are the tokens of that part.
-/
import Dncl.Proofs.RoundTrip

namespace Dncl

/-! ### Words -/

/-- Whether the token is a word: not layout, and not a mark or a word that a
program may have or lack. -/
def Token.isWord : Token → Bool
  | .newline | .indent | .dedent | .eof => false
  | .symbol .comma | .keyword .repeated => false
  | _ => true

/-- The token, with all commands that mention input written the same way. -/
def Token.normal : Token → Token
  | .command text => .command (Command.ofText text).inner
  | t => t

/-- The tokens that are words. -/
def kept (ts : List Token) : List Token :=
  ts.filter Token.isWord

/-- The words of a text that has the tokens `ts`. -/
def words (ts : List Token) : List Token :=
  (kept ts).map Token.normal

section Words

variable {ts us rest : List Token} {t : Token}

@[simp] theorem kept_nil : kept [] = [] := rfl

@[simp] theorem kept_cons :
    kept (t :: ts) = (if t.isWord then [t] else []) ++ kept ts := by
  rw [kept, List.filter_cons]
  split <;> rfl

@[simp] theorem kept_append : kept (ts ++ us) = kept ts ++ kept us :=
  List.filter_append _ _

@[simp] theorem words_nil : words [] = [] := rfl

@[simp] theorem words_cons :
    words (t :: ts) = (if t.isWord then [t.normal] else []) ++ words ts := by
  rw [words, kept_cons]
  split <;> rfl

theorem words_append : words (ts ++ us) = words ts ++ words us := by
  rw [words, kept_append, List.map_append]
  rfl

/-- The end of a line is no word. -/
@[simp] theorem kept_lineEnd (inside : Bool) (s : Stmt) : kept (s.lineEnd inside) = [] := by
  rw [Stmt.lineEnd]
  split <;> rfl

/-! ### What is passed between words -/

@[simp] theorem words_passToken (h : t.isWord = false) : words (passToken t ts) = words ts :=
  apply_passToken (fun _ => by simp [h]) ts

@[simp] theorem words_passBreak (continues : Token → Bool) :
    words (passBreak continues ts) = words ts :=
  apply_passBreak (fun _ => rfl) continues ts

@[simp] theorem words_dropBreaks : words (ts.dropWhile (· = .newline)) = words ts :=
  apply_dropBreaks (fun _ => rfl) ts

theorem words_passEnd {closed : Bool} (h : passEnd closed ts = some rest) :
    words ts = words rest := by
  rcases passEnd_eq_some.1 h with (rfl | rfl) | ⟨rfl, -⟩ <;> rfl

end Words

/-! ### The words of a phrase -/

/-- The tokens of a tree that a phrase of the form is read as. -/
@[simp] def Form.tokens (b : Bool) : (f : Form) → f.Tree → List Token
  | .operand, e | .expression _, e | .operators _ _, e => e.tokens b
  | .items closing, es => Expr.listTokens es ++ [.symbol closing]
  | .expressions, es => Expr.listTokens es
  | .paramItems, ids => paramTokens ids ++ [.symbol .rightParen]
  | .params, ids => paramTokens ids
  | .function, literal => literal.tokens b
  | .block, body => body.tokens b
  | .sameLine, ss | .statements _, ss => Stmt.lines b ss
  | .statement, s | .continued _, s => s.tokens b
  | .conditional, k => k.tokens b
  | .elseBranch, a => a.tokens b

/-- The tokens of the part of a tree that was read before the phrase. -/
@[simp] def Form.before (b : Bool) : Form → List Token
  | .operators _ left => left.tokens b
  | .continued e => e.tokens b
  | _ => []

theorem Token.isWord_of_isOperator {op : Token} (h : op.isOperator = true) : op.isWord = true := by
  cases op with
  | symbol s => cases s <;> first | rfl | cases h
  | keyword k => cases k <;> first | rfl | cases h
  | _ => cases h

theorem Token.normal_of_isOperator {op : Token} (h : op.isOperator = true) : op.normal = op := by
  cases op with
  | command text => cases h
  | _ => rfl

/-- The words that a phrase reads are those it is printed with. -/
theorem Reads.words_eq {f : Form} {c c' : Bool} {ts ts' : List Token} {t : f.Tree}
    (h : Reads f c ts t c' ts') :
    ∀ b, kept (f.before b) ++ words ts = kept (f.tokens b t) ++ words ts' := by
  induction h with
  -- operands
  | int | str | command | ident => exact fun b => rfl
  | builtin name place span known _ ih =>
    intro b
    have hitems : words _ = _ := ih b
    obtain rfl := Builtin.eq_name known
    simp [Expr.tokens, Builtin.listTokens_arguments, hitems, Token.isWord, Token.normal]
  | signed op span sign _ ih =>
    intro b
    have hoperand : words _ = _ := ih b
    rcases sign with rfl | rfl <;> simp [Expr.tokens, hoperand, Token.isWord, Token.normal]
  | nested span _ ih =>
    intro b
    have hinner : words _ = _ := ih true
    simp [Expr.tokens, hinner, Token.isWord, Token.normal]
  | array span _ ih | literal _ ih =>
    intro b
    have hparts : words _ = _ := ih b
    simp [Expr.tokens, hparts, Token.isWord, Token.normal]
  -- expressions
  | expression _ _ ih₁ ih₂ => exact fun b => (ih₁ b).trans (ih₂ b)
  | stop => exact fun b => rfl
  | called span tight _ _ ih₁ ih₂ =>
    intro b
    have hitems : words _ = _ := ih₁ b
    refine .trans ?_ (ih₂ b)
    simp [Expr.tokens, hitems, Token.isWord, Token.normal]
  | indexed span tight _ _ ih₁ ih₂ =>
    intro b
    have hposition : words _ = _ := ih₁ true
    refine .trans ?_ (ih₂ b)
    simp [Expr.tokens, hposition, Token.isWord, Token.normal]
  | negated span tight _ ih =>
    intro b
    refine .trans ?_ (ih b)
    simp [Expr.tokens, Token.isWord, Token.normal]
  | joined op span operator tight _ _ ih₁ ih₂ =>
    intro b
    have hright : words _ = _ := ih₁ b
    refine .trans ?_ (ih₂ b)
    simp [Expr.tokens, hright, Token.isWord_of_isOperator operator,
      Token.normal_of_isOperator operator]
  -- lists
  | noItems => simp [Expr.listTokens, Token.normal]
  | someItems _ _ ih =>
    intro b
    have hitems : words _ = _ := ih b
    simp [hitems, Token.normal]
  | lastExpr last _ ih =>
    intro b
    have hlast : words _ = _ := ih true
    simp [Expr.listTokens, Expr.laterTokens, hlast]
  | moreExprs _ h₂ ih₁ ih₂ =>
    intro b
    have hfirst : words _ = _ := ih₁ true
    have hothers : words _ = _ := ih₂ b
    simp [Expr.listTokens, Expr.laterTokens_eq h₂.expressions_ne_nil, hfirst, hothers,
      Token.isWord]
  | noParams | lastParam => exact fun b => rfl
  | someParams _ _ ih =>
    intro b
    have hparams : words _ = _ := ih b
    simp [hparams, Token.isWord, Token.normal]
  | moreParams name span h ih =>
    intro b
    have hothers : words _ = _ := ih b
    simp [paramTokens, laterParamTokens_eq h.params_ne_nil, hothers, Token.isWord, Token.normal]
  -- functions and blocks
  | function span closes _ _ ih₁ ih₂ =>
    intro b
    have hparams : words _ = _ := ih₁ b
    have hbody : words _ = _ := ih₂ b
    have hend := (words_passBreak _).symm.trans (congrArg words closes)
    simp [FunctionLit.tokens, hparams, hbody, hend, Token.isWord, Token.normal]
  | lines span _ ih | oneLine span _ _ ih =>
    intro b
    have hlines : words _ = _ := ih b
    cases b <;> simp [Block.tokens, hlines, Token.isWord, Token.normal]
  | lastHere last _ ih =>
    intro b
    have hlast : words _ = _ := ih b
    simp [Stmt.lines, hlast]
  | moreHere _ _ ih₁ ih₂ =>
    intro b
    have hfirst : words _ = _ := ih₁ b
    have hothers : words _ = _ := ih₂ b
    simp [Stmt.lines, hfirst, hothers, Token.isWord]
  | noStatements breaks _ =>
    intro b
    rw [← breaks]
    simp [Stmt.lines]
  | someStatements breaks _ ended _ _ ih₁ ih₂ =>
    intro b
    have hfirst : words _ = _ := ih₁ b
    have hothers : words _ = _ := ih₂ b
    have hstart := words_dropBreaks.symm.trans (congrArg words breaks)
    simp [Stmt.lines, hstart, hfirst, words_passEnd ended, hothers]
  -- statements
  | define _ _ _ _ ih | conditional _ ih =>
    intro b
    have hrest : words _ = _ := ih b
    simp [Stmt.tokens, hrest, Token.isWord, Token.normal]
  | untilLoop _ closes _ _ ih₁ ih₂ =>
    intro b
    have hbody : words _ = _ := ih₁ b
    have hcondition : words _ = _ := ih₂ b
    have hword := (words_passBreak _).symm.trans (congrArg words closes)
    rw [words_passToken rfl] at hcondition
    simp [Stmt.tokens, hbody, hword, hcondition, Token.isWord, Token.normal]
  | opened _ _ _ ih₁ ih₂ => exact fun b => (ih₁ b).trans (ih₂ b)
  | plain => exact fun b => rfl
  | assign _ _ _ ih =>
    intro b
    have hvalue : words _ = _ := ih b
    simp [Stmt.tokens, hvalue, Token.isWord, Token.normal]
  | counted counter direction _ _ _ _ _ ih₁ ih₂ ih₃ ih₄ =>
    intro b
    have hfirst : words _ = _ := ih₁ b
    have hlast : words _ = _ := ih₂ b
    have hstep : words _ = _ := ih₃ b
    have hbody : words _ = _ := ih₄ b
    rw [words_passToken rfl] at hbody
    cases direction <;>
      simp [Stmt.tokens, Expr.tokens, Direction.countingToken, hfirst, hlast, hstep, hbody,
        Token.isWord, Token.normal]
  | change direction _ _ _ ih =>
    intro b
    have hamount : words _ = _ := ih b
    cases direction <;>
      simp [Stmt.tokens, Direction.changingToken, hamount, Token.isWord, Token.normal]
  | whileLoop _ _ ih =>
    intro b
    have hbody : words _ = _ := ih b
    rw [words_passToken rfl] at hbody
    simp [Stmt.tokens, hbody, Token.isWord, Token.normal]
  | giveBack =>
    intro b
    simp [Stmt.tokens, Token.isWord, Token.normal]
  -- conditionals
  | branches _ _ _ _ ih₁ ih₂ ih₃ =>
    intro b
    have hcondition : words _ = _ := ih₁ b
    have hconsequence : words _ = _ := ih₂ b
    have halternative : words _ = _ := ih₃ b
    rw [words_passBreak] at halternative
    simp [Conditional.tokens, hcondition, hconsequence, halternative, Token.isWord, Token.normal]
  | elseIf _ ih | otherwise _ ih =>
    intro b
    have hrest : words _ = _ := ih b
    simp [ElseBranch.tokens, hrest, Token.isWord, Token.normal]
  | missing => exact fun b => rfl

/-! ### Texts and their programs -/

namespace Scanner

variable {s : Scanner}

/-- The first token of the stream is the next one. -/
theorem next_of_stream {t : Token} (h : s.stream 0 = .ok t) :
    ∃ lexeme u, s.next = (.ok lexeme, u) ∧ lexeme.token = t ∧ u.stream = s.stream.tail := by
  have hitem : (Feed.text s).item = .ok t := h
  rw [Feed.item, Feed.pull] at hitem
  cases hresult : s.next.1 with
  | error fault =>
    rw [hresult] at hitem
    cases hitem
  | ok lexeme =>
    rw [hresult] at hitem
    exact ⟨lexeme, s.next.2, Prod.ext hresult rfl, Except.ok.inj hitem, rfl⟩

theorem tokens_of_eof {t : Scanner} {lexeme : Lexeme} (h : s.next = (.ok lexeme, t))
    (hl : lexeme.token = .eof) : s.tokens = .ok [lexeme] := by
  rw [tokens]
  split
  · rename_i heq
    rw [h] at heq
    cases heq
  · rename_i heq
    rw [h] at heq
    cases heq
    exact dif_pos hl

theorem tokens_of_next {t : Scanner} {lexeme : Lexeme} {later : List Lexeme}
    (h : s.next = (.ok lexeme, t)) (hl : lexeme.token ≠ .eof) (ht : t.tokens = .ok later) :
    s.tokens = .ok (lexeme :: later) := by
  rw [tokens]
  split
  · rename_i heq
    rw [h] at heq
    cases heq
  · rename_i heq
    rw [h] at heq
    cases heq
    rw [dif_neg hl, ht]

/-- A scanner whose stream has no fault yields the tokens of its stream. -/
theorem tokens_of_stream {ts : List Token} (h : s.stream = .prepend ts .ended) (hts : .eof ∉ ts) :
    ∃ lexemes, s.tokens = .ok lexemes ∧ lexemes.map Lexeme.token = ts ++ [.eof] := by
  induction ts generalizing s with
  | nil =>
    obtain ⟨lexeme, t, hnext, htoken, -⟩ := next_of_stream (congrFun h 0)
    exact ⟨[lexeme], tokens_of_eof hnext htoken, congrArg (fun u => [u]) htoken⟩
  | cons u ts ih =>
    obtain ⟨lexeme, t, hnext, htoken, hrest⟩ := next_of_stream (congrFun h 0)
    rw [h] at hrest
    obtain ⟨later, hlater, hmap⟩ := ih hrest fun hmem => hts (List.mem_cons_of_mem u hmem)
    have hlexeme : lexeme.token ≠ .eof := htoken ▸ fun heq => hts (heq ▸ List.mem_cons_self)
    refine ⟨lexeme :: later, tokens_of_next hnext hlexeme hlater, ?_⟩
    rw [List.map_cons, htoken, hmap, List.cons_append]

end Scanner

/-- A text that was parsed is read as tokens in order, from which its program
is derived. -/
theorem reads_of_parsed {text : String} {p : Program} (h : parseProgram text = .ok p) :
    ∃ ts c, (Scanner.ofText text).stream = .prepend ts .ended ∧ Layout 0 ts ∧
      Reads (.statements [.eof, .dedent]) false ts p.statements c [] := by
  obtain ⟨ts, s, hover, hstream, hlayout⟩ := Scanner.inOrder (Scanner.isReading_ofText text)
  obtain ⟨rfl, c, hreads⟩ := reads_of_parseFeed hover hstream hlayout.eof_not_mem h
  exact ⟨ts, c, hstream, hlayout, hreads⟩

/-- **Parsing keeps the words of a text.**  A text that is parsed is a list of
tokens, and without layout, commas and `繰り返す` these are the tokens of the
program: none was dropped, repeated or moved. -/
theorem words_of_parsed (text : String) (p : Program) (h : parseProgram text = .ok p) :
    ∃ lexemes, tokenize text = .ok lexemes ∧
      words (lexemes.map Lexeme.token) = kept p.tokens := by
  obtain ⟨ts, c, hstream, hlayout, hreads⟩ := reads_of_parsed h
  obtain ⟨lexemes, hlexemes, htokens⟩ :=
    Scanner.tokens_of_stream hstream hlayout.eof_not_mem
  have hwords : words ts = kept p.tokens ++ words [] := hreads.words_eq false
  refine ⟨lexemes, hlexemes, ?_⟩
  rw [htokens, words_append, hwords]
  simp [Token.isWord]

/-- A loop in one line without `繰り返す`, whose last statement is a command
that mentions input. -/
theorem words_of_parsed_loop :
    ∃ p, parseProgram "x の間: y, 【外部からの入力を待つ】" = .ok p ∧
      kept p.tokens = [.ident "x", .keyword .whileWord, .symbol .colon, .ident "y",
        .command "外部からの入力"] ∧
      ∃ lexemes, tokenize "x の間: y, 【外部からの入力を待つ】" = .ok lexemes ∧
        words (lexemes.map Lexeme.token) = kept p.tokens := by
  obtain ⟨p, hparse, htokens⟩ :
      ∃ p, parseProgram "x の間: y, 【外部からの入力を待つ】" = .ok p ∧
        kept p.tokens = [.ident "x", .keyword .whileWord, .symbol .colon, .ident "y",
          .command "外部からの入力"] :=
    ⟨⟨[.whileLoop (.ident ⟨"x", ⟨0, 1⟩⟩)
      ⟨[.expr (.ident ⟨"y", ⟨10, 11⟩⟩), .expr (.command .input ⟨13, 49⟩)], ⟨8, 49⟩⟩ ⟨0, 49⟩],
      ⟨0, 49⟩⟩, by decide +kernel, rfl⟩
  exact ⟨p, hparse, htokens, words_of_parsed _ p hparse⟩

end Dncl
