/-
Dncl/Proofs/OneLine.lean

Loops in one line.

The loop that is tested behind its block may have the block on lines of its own,

    繰り返し:
        S
    を, c になるまで実行する

or in the line of its heading, `繰り返し: S を, c になるまで実行する`.  Both are the same
loop, with one exception.  Where a statement is an expression by itself, `を` behind
it is taken to go on with it, for it might be counted or changed; so if `S` is such a
statement, or ends with a block in its line that does, the loop in one line is refused.

Design.  `Stmt.endsOpen` says which statements end so.  The tokens of `S` are the
same wherever it stands (`Inlays`), so what is to be compared are derivations from
tokens that end with a line break and from tokens that go on with `を`: a phrase of
the first kind is one of the second (`Reads.resumed`), unless it is open and comes
to the break; and then there is none at all (`Reads.refuses`).
-/
import Dncl.Proofs.Inlaid
import Dncl.Proofs.Joining

namespace Dncl

open Scanner (OpensToken)

variable {stops ts ts' us vs : List Token} {c c' : Bool} {f : Form} {s : Stmt}

/-! ### Statements that end with an expression -/

mutual

/-- Whether the statement is an expression by itself, or the last statement of its
block is. -/
def Stmt.endsOpen : Stmt → Bool
  | .expr _ => true
  | .conditional c => c.endsOpen
  | .counted _ _ _ _ _ body _ => body.endsOpen
  | .whileLoop _ body _ => body.endsOpen
  | .assign .. | .untilLoop .. | .change .. | .define .. | .giveBack .. => false

/-- Whether the last of the statements ends with an expression. -/
def Stmt.lastEndsOpen : List Stmt → Bool
  | [] => false
  | [s] => s.endsOpen
  | _ :: s :: ss => Stmt.lastEndsOpen (s :: ss)

/-- Whether the block ends with an expression. -/
def Block.endsOpen : Block → Bool
  | ⟨statements, _⟩ => Stmt.lastEndsOpen statements

/-- Whether the last block of the conditional ends with an expression. -/
def Conditional.endsOpen : Conditional → Bool
  | ⟨_, consequence, alternative, _⟩ => alternative.endsOpen consequence.endsOpen

/-- Whether the last block ends with an expression; if there is none, `before`
says so. -/
def ElseBranch.endsOpen (before : Bool) : ElseBranch → Bool
  | .missing => before
  | .elseIf c => c.endsOpen
  | .otherwise b => b.endsOpen

end

/-- Whether what is read as a phrase of the form ends with an expression that is a
statement by itself. -/
def Form.endsOpen : (f : Form) → f.Tree → Bool
  | .block, b => b.endsOpen
  | .sameLine, ss => Stmt.lastEndsOpen ss
  | .statement, s => s.endsOpen
  | .continued _, s => s.endsOpen
  | .conditional, c => c.endsOpen
  | .elseBranch, b => b.endsOpen false
  | _, _ => false

/-! ### Lines of tokens -/

/-- Words, and the line break behind them. -/
def IsLine (ts : List Token) : Prop :=
  ∃ us, (∀ t ∈ us, t.isSolid = true) ∧ ts = us ++ [.newline]

/-- The line, going on with `vs` where it breaks. -/
def resume (vs : List Token) : List Token → List Token
  | [] => []
  | .newline :: _ => vs
  | t :: ts => t :: resume vs ts

section Lines

variable {ts ts' vs : List Token} {t : Token}

theorem IsLine.ne_nil (h : IsLine ts) : ts ≠ [] := by
  obtain ⟨us, -, rfl⟩ := h
  simp

theorem IsLine.suffix (h : IsLine ts) (hsuffix : ts' <:+ ts) (hne : ts' ≠ []) : IsLine ts' := by
  obtain ⟨us, hus, rfl⟩ := h
  rcases List.suffix_concat_iff.1 hsuffix with rfl | ⟨us', rfl, hus'⟩
  · exact absurd rfl hne
  · exact ⟨us', fun t ht => hus t (hus'.subset ht), rfl⟩

/-- A line is its break, or begins with a word. -/
theorem IsLine.cases (h : IsLine (t :: ts)) :
    t = .newline ∧ ts = [] ∨ t.isSolid = true ∧ IsLine ts := by
  obtain ⟨us, hus, heq⟩ := h
  cases us with
  | nil =>
    obtain ⟨rfl, rfl⟩ := List.cons.inj heq
    exact .inl ⟨rfl, rfl⟩
  | cons u us =>
    obtain ⟨rfl, rfl⟩ := List.cons.inj heq
    exact .inr ⟨hus t List.mem_cons_self, us, fun u hu => hus u (List.mem_cons_of_mem _ hu), rfl⟩

theorem IsLine.tail (h : IsLine (t :: ts)) (ht : t.isSolid = true) : IsLine ts := by
  rcases h.cases with ⟨rfl, -⟩ | ⟨-, hts⟩
  · cases ht
  · exact hts

/-- Nothing comes behind the break of a line. -/
theorem IsLine.eq_nil (h : IsLine (.newline :: ts)) : ts = [] := by
  rcases h.cases with ⟨-, hnil⟩ | ⟨hsolid, -⟩
  · exact hnil
  · cases hsolid

theorem IsLine.isSealed (h : IsLine ts) : Sealed ts := by
  obtain ⟨us, -, rfl⟩ := h
  intro t ht
  rw [List.getLast?_concat] at ht
  rw [← Option.some.inj ht]
  rfl

theorem IsLine.not_endsBlock (h : IsLine ts) : ¬EndsBlock ts := by
  obtain ⟨us, -, rfl⟩ := h
  rw [EndsBlock, List.getLast?_concat]
  simp

theorem resume_cons (ht : t.isSolid = true) : resume vs (t :: ts) = t :: resume vs ts := by
  cases t with
  | newline => cases ht
  | _ => rfl

/-- What is in view is kept, but for the break. -/
theorem IsLine.inView_resume (h : IsLine ts) : ts = [.newline] ∧ resume vs ts = vs ∨
    inView (resume vs ts) = inView ts ∧ (inView ts).isSolid = true := by
  cases ts with
  | nil => exact absurd rfl h.ne_nil
  | cons t ts =>
    rcases h.cases with ⟨rfl, rfl⟩ | ⟨ht, -⟩
    · exact .inl ⟨rfl, rfl⟩
    · rw [resume_cons ht]
      exact .inr ⟨rfl, ht⟩

theorem IsLine.inView_resume_ne (h : IsLine ts) (hview : inView ts ≠ t) (hvs : inView vs ≠ t) :
    inView (resume vs ts) ≠ t := by
  rcases h.inView_resume with ⟨-, heq⟩ | ⟨heq, -⟩
  · rw [heq]
    exact hvs
  · rw [heq]
    exact hview

/-- No break is passed at the end of a line. -/
theorem IsLine.passBreak_eq (h : IsLine ts) {continues : Token → Bool}
    (heof : continues .eof = false) : passBreak continues ts = ts := by
  rw [passBreak, if_neg]
  rintro ⟨hbreak, hgoes⟩
  obtain ⟨rest, rfl⟩ := eq_cons_of_inView hbreak (by simp)
  obtain rfl := h.eq_nil
  exact Bool.false_ne_true (heof.symm.trans hgoes)

theorem IsLine.passBreak_resume (h : IsLine ts) (hvs : inView vs ≠ .newline)
    (continues : Token → Bool) : passBreak continues (resume vs ts) = resume vs ts := by
  rw [passBreak, if_neg]
  rintro ⟨hbreak, -⟩
  rcases h.inView_resume with ⟨-, heq⟩ | ⟨heq, hsolid⟩
  · rw [heq] at hbreak
    exact hvs hbreak
  · exact Token.ne_of_isSolid hsolid rfl (heq.symm.trans hbreak)

theorem IsLine.passToken_resume (h : IsLine ts) (ht : t.isSolid = true) (hvs : inView vs ≠ t) :
    passToken t (resume vs ts) = resume vs (passToken t ts) := by
  cases ts with
  | nil => exact absurd rfl h.ne_nil
  | cons u ts =>
    rcases h.cases with ⟨rfl, rfl⟩ | ⟨hu, -⟩
    · rw [passToken, passToken, if_neg (show ¬inView [.newline] = t from
        (Token.ne_of_isSolid ht rfl).symm)]
      exact if_neg hvs
    · rw [resume_cons hu, passToken, passToken]
      by_cases heq : u = t
      · rw [if_pos (by exact heq), if_pos (by exact heq)]
        rfl
      · rw [if_neg (by exact heq), if_neg (by exact heq), resume_cons hu]

theorem IsLine.passToken (h : IsLine ts) (ht : t.isSolid = true) : IsLine (passToken t ts) := by
  rw [Dncl.passToken]
  split
  · rename_i hview
    obtain ⟨rest, rfl⟩ := eq_cons_of_inView hview (by rintro rfl; cases ht)
    exact h.tail ht
  · exact h

theorem opensExpression_resume (hvs : inView vs = .keyword .wo) (h : IsLine ts) :
    opensExpression (resume vs ts) = opensExpression ts := by
  obtain ⟨vs, rfl⟩ := eq_cons_of_inView hvs (by simp)
  rcases ts with _ | ⟨t, _ | ⟨u, ts⟩⟩
  · exact absurd rfl h.ne_nil
  · rcases h.cases with ⟨rfl, -⟩ | ⟨-, hnil⟩
    · rfl
    · exact absurd rfl hnil.ne_nil
  · rcases h.cases with ⟨-, hnil⟩ | ⟨ht, hts⟩
    · cases hnil
    · rw [resume_cons ht]
      rcases hts.cases with ⟨rfl, rfl⟩ | ⟨hu, -⟩
      · cases t with
        | keyword k => cases k <;> rfl
        | _ => rfl
      · rw [resume_cons hu]
        cases t with
        | keyword k => cases k <;> rfl
        | _ => rfl

/-- What a phrase leaves of a line is a line. -/
theorem IsLine.reads {t : f.Tree} (h : IsLine ts) (hreads : Reads f c ts t c' ts')
    (hf : f.isFirm = true ∨ f.isLoose = true) : IsLine ts' := by
  have hbegins : f.Begins ts := by
    cases f with
    | operators | continued => exact h.ne_nil
    | _ => trivial
  refine h.suffix hreads.suffix ?_
  rcases hf with hfirm | hloose
  · exact hreads.ne_nil h.isSealed hbegins hfirm
  · intro hnil
    rcases hreads.endsBlock h.isSealed hbegins hloose hnil with hnone | hends
    · exact h.ne_nil hnone
    · exact h.not_endsBlock hends

end Lines

/-! ### Going on behind a line -/

theorem Token.isSolid_of_isOperator {op : Token} (h : op.isOperator = true) :
    op.isSolid = true := by
  cases op with
  | newline | indent | dedent | eof => cases h
  | _ => rfl

theorem Direction.isSolid_countingToken (direction : Direction) :
    direction.countingToken.isSolid = true := by
  cases direction <;> rfl

theorem Direction.isSolid_changingToken (direction : Direction) :
    direction.changingToken.isSolid = true := by
  cases direction <;> rfl

theorem Stmt.lastEndsOpen_cons {ss : List Stmt} (h : ss ≠ []) :
    Stmt.lastEndsOpen (s :: ss) = Stmt.lastEndsOpen ss := by
  cases ss with
  | nil => exact absurd rfl h
  | cons s' ss => rw [Stmt.lastEndsOpen]

theorem ElseBranch.endsOpen_false {b : ElseBranch} {before : Bool}
    (h : b.endsOpen before = false) : b.endsOpen false = false := by
  cases b with
  | missing => rw [ElseBranch.endsOpen]
  | elseIf c =>
    rw [ElseBranch.endsOpen] at h ⊢
    exact h
  | otherwise b =>
    rw [ElseBranch.endsOpen] at h ⊢
    exact h

/-- **A phrase goes on.**  A phrase in a line is read in the same way if `を` comes
instead of the break, unless an expression that is a statement by itself comes right
before it. -/
theorem Reads.resumed (hvs : inView vs = .keyword .wo) {t : f.Tree} (h : Reads f c ts t c' ts')
    (hts : IsLine ts) (hf : f.isFirm = true ∨ f.isLoose = true)
    (hopen : ts' = [.newline] → f.endsOpen t = false) :
    Reads f c (resume vs ts) t c' (resume vs ts') := by
  have hwo {t : Token} (ht : t ≠ .keyword .wo) : inView vs ≠ t := fun heq => ht (heq.symm.trans hvs)
  have hbreak : inView vs ≠ .newline := hwo (by simp)
  induction h with
  -- operands
  | int value span => exact .int value span
  | str text span => exact .str text span
  | command text span => exact .command text span
  | ident name span plain =>
    exact .ident name span (plain.imp_right fun hparen =>
      (hts.tail rfl).inView_resume_ne hparen (hwo (by simp)))
  | builtin name place span known _ ih =>
    exact .builtin name place span known (ih ((hts.tail rfl).tail rfl) (.inl rfl) fun _ => rfl)
  | signed op span sign _ ih =>
    exact .signed op span sign (ih (hts.tail rfl) (.inl rfl) fun _ => rfl)
  | nested span _ ih => exact .nested span (ih (hts.tail rfl) (.inl rfl) fun _ => rfl)
  | array span _ ih => exact .array span (ih (hts.tail rfl) (.inl rfl) fun _ => rfl)
  | literal _ ih => exact .literal (ih (hts.tail rfl) (.inl rfl) fun _ => rfl)
  -- expressions
  | expression h₁ _ ih₁ ih₂ =>
    exact .expression (ih₁ hts (.inl rfl) fun _ => rfl)
      (ih₂ (hts.reads h₁ (.inl rfl)) (.inl rfl) fun _ => rfl)
  | stop weak =>
    refine .stop ?_
    rcases hts.inView_resume with ⟨rfl, heq⟩ | ⟨heq, -⟩
    · rw [heq, hvs]
      exact weak
    · rw [heq]
      exact weak
  | called span tight h₁ _ ih₁ ih₂ =>
    exact .called span tight (ih₁ (hts.tail rfl) (.inl rfl) fun _ => rfl)
      (ih₂ ((hts.tail rfl).reads h₁ (.inl rfl)) (.inl rfl) fun _ => rfl)
  | indexed span tight h₁ _ ih₁ ih₂ =>
    have hrest := (hts.tail rfl).reads h₁ (.inl rfl)
    exact .indexed span tight (ih₁ (hts.tail rfl) (.inl rfl) fun _ => rfl)
      (ih₂ (hrest.tail rfl) (.inl rfl) fun _ => rfl)
  | negated span tight _ ih =>
    exact .negated span tight (ih (hts.tail rfl) (.inl rfl) fun _ => rfl)
  | joined op span operator tight h₁ _ ih₁ ih₂ =>
    have hop := Token.isSolid_of_isOperator operator
    rw [resume_cons hop]
    exact .joined op span operator tight (ih₁ (hts.tail hop) (.inl rfl) fun _ => rfl)
      (ih₂ ((hts.tail hop).reads h₁ (.inl rfl)) (.inl rfl) fun _ => rfl)
  -- lists
  | noItems => exact .noItems
  | someItems some _ ih =>
    exact .someItems (hts.inView_resume_ne some (hwo (by simp))) (ih hts (.inl rfl) fun _ => rfl)
  | lastExpr last h ih =>
    have hrest := hts.reads h (.inl rfl)
    exact .lastExpr (hrest.inView_resume_ne last (hwo (by simp))) (ih hts (.inl rfl) fun _ => rfl)
  | moreExprs h₁ _ ih₁ ih₂ =>
    exact .moreExprs (ih₁ hts (.inl rfl) fun _ => rfl)
      (ih₂ ((hts.reads h₁ (.inl rfl)).tail rfl) (.inl rfl) fun _ => rfl)
  | noParams => exact .noParams
  | someParams some _ ih =>
    exact .someParams (hts.inView_resume_ne some (hwo (by simp))) (ih hts (.inl rfl) fun _ => rfl)
  | lastParam name span last =>
    exact .lastParam name span ((hts.tail rfl).inView_resume_ne last (hwo (by simp)))
  | moreParams name span _ ih =>
    exact .moreParams name span (ih ((hts.tail rfl).tail rfl) (.inl rfl) fun _ => rfl)
  -- functions and blocks
  | function span closes h₁ h₂ ih₁ ih₂ =>
    have hbody := ((hts.tail rfl).reads h₁ (.inl rfl)).tail rfl
    have hrest := hbody.reads h₂ (.inr rfl)
    rw [hrest.passBreak_eq rfl] at closes
    subst closes
    exact .function span (hrest.passBreak_resume hbreak _)
      (ih₁ (hts.tail rfl) (.inl rfl) fun _ => rfl) (ih₂ hbody (.inr rfl) (by rintro ⟨⟩))
  | lines span _ => cases (hts.tail rfl).eq_nil
  | oneLine span here _ ih =>
    exact .oneLine span ((hts.tail rfl).inView_resume_ne here hbreak)
      (ih (hts.tail rfl) (.inr rfl) hopen)
  | lastHere last h ih =>
    have hrest := hts.reads h (.inr rfl)
    exact .lastHere (hrest.inView_resume_ne last (hwo (by simp))) (ih hts (.inr rfl) hopen)
  | moreHere h₁ h₂ ih₁ ih₂ =>
    refine .moreHere (ih₁ hts (.inr rfl) (by rintro ⟨⟩))
      (ih₂ ((hts.reads h₁ (.inr rfl)).tail rfl) (.inr rfl) fun hend => ?_)
    exact (Stmt.lastEndsOpen_cons h₂.sameLine_ne_nil).symm.trans (hopen hend)
  | noStatements | someStatements => exact absurd hf (by simp [Form.isFirm, Form.isLoose])
  -- statements
  | define name place span _ ih =>
    exact .define name place span (ih ((hts.tail rfl).tail rfl) (.inl rfl) fun _ => rfl)
  | conditional _ ih => exact .conditional (ih (hts.tail rfl) (.inr rfl) hopen)
  | untilLoop span closes h₁ _ ih₁ ih₂ =>
    have hrest := (hts.tail rfl).reads h₁ (.inr rfl)
    rw [hrest.passBreak_eq rfl] at closes
    subst closes
    have hcondition := ih₂ ((hrest.tail rfl).passToken rfl) (.inl rfl) fun _ => rfl
    rw [← (hrest.tail rfl).passToken_resume rfl (hwo (by simp))] at hcondition
    exact .untilLoop span (hrest.passBreak_resume hbreak _)
      (ih₁ (hts.tail rfl) (.inr rfl) (by rintro ⟨⟩)) hcondition
  | opened opens h₁ _ ih₁ ih₂ =>
    exact .opened ((opensExpression_resume hvs hts).trans opens)
      (ih₁ hts (.inl rfl) fun _ => rfl) (ih₂ (hts.reads h₁ (.inl rfl)) (.inr rfl) hopen)
  | plain ends =>
    rcases hts.inView_resume with ⟨hend, -⟩ | ⟨heq, -⟩
    · -- the one phrase that `を` goes on with
      cases hopen hend
    · exact .plain (heq ▸ ends)
  | assign span assignable _ ih =>
    exact .assign span assignable (ih (hts.tail rfl) (.inl rfl) fun _ => rfl)
  | counted counter direction span h₁ h₂ h₃ _ ih₁ ih₂ ih₃ ih₄ =>
    have hlast := ((hts.tail rfl).reads h₁ (.inl rfl)).tail rfl
    have hstep := (hlast.reads h₂ (.inl rfl)).tail rfl
    have hrest := ((hstep.reads h₃ (.inl rfl)).tail rfl).tail direction.isSolid_countingToken
    have hamount := ih₃ hstep (.inl rfl) fun _ => rfl
    rw [resume_cons rfl, resume_cons direction.isSolid_countingToken] at hamount
    have hbody := ih₄ (hrest.passToken rfl) (.inr rfl) hopen
    rw [← hrest.passToken_resume rfl (hwo (by simp))] at hbody
    exact .counted counter direction span (ih₁ (hts.tail rfl) (.inl rfl) fun _ => rfl)
      (ih₂ hlast (.inl rfl) fun _ => rfl) hamount hbody
  | change direction span assignable _ ih =>
    have hamount := ih (hts.tail rfl) (.inl rfl) fun _ => rfl
    rw [resume_cons direction.isSolid_changingToken] at hamount
    exact .change direction span assignable hamount
  | whileLoop span _ ih =>
    have hbody := ih ((hts.tail rfl).passToken rfl) (.inr rfl) hopen
    rw [← (hts.tail rfl).passToken_resume rfl (hwo (by simp))] at hbody
    exact .whileLoop span hbody
  | giveBack span => exact .giveBack span
  -- conditionals
  | branches span h₁ h₂ h₃ ih₁ ih₂ ih₃ =>
    have hbody := (hts.reads h₁ (.inl rfl)).tail rfl
    have hrest := hbody.reads h₂ (.inr rfl)
    rw [hrest.passBreak_eq rfl] at h₃ ih₃
    refine .branches span (ih₁ hts (.inl rfl) fun _ => rfl) (ih₂ hbody (.inr rfl) ?_) ?_
    · rintro rfl
      -- nothing follows the consequence, so it is the last block
      cases h₃ with
      | missing => exact hopen rfl
    · rw [hrest.passBreak_resume hbreak]
      exact ih₃ hrest (.inr rfl) fun hend => ElseBranch.endsOpen_false (by exact hopen hend)
  | elseIf _ ih => exact .elseIf (ih (hts.tail rfl) (.inr rfl) hopen)
  | otherwise _ ih => exact .otherwise (ih (hts.tail rfl) (.inr rfl) hopen)
  | missing ends =>
    refine .missing ?_
    rcases hts.inView_resume with ⟨-, heq⟩ | ⟨heq, -⟩
    · rw [heq, hvs]
      rfl
    · rw [heq]
      exact ends

/-! ### What a phrase is -/

section Unique

variable {c d c₁ c₂ : Bool} {ts ts₁ ts₂ : List Token}

theorem Reads.expression_unique {above : Precedence} {e e' : Expr}
    (h : Reads (.expression above) c ts e c₁ ts₁) (h' : Reads (.expression above) d ts e' c₂ ts₂) :
    ts₁ = ts₂ := by
  obtain ⟨_, hstart⟩ := h.afresh rfl false
  obtain ⟨_, hstart'⟩ := h'.afresh rfl false
  have haccepts := hstart.accepted _ (Nat.le_refl _)
  refine (haccepts.unique (hstart'.accepted _ (Nat.le_refl _)) ?_).2.2
  rw [h.count_eof, h'.count_eof]

theorem Reads.block_unique {b b' : Block} (h : Reads .block c ts b c₁ ts₁)
    (h' : Reads .block d ts b' c₂ ts₂) : ts₁ = ts₂ := by
  have haccepts := (h.block_restart false).accepted _ (Nat.le_refl _)
  refine (haccepts.unique ((h'.block_restart false).accepted _ (Nat.le_refl _)) ?_).2.2
  rw [h.count_eof, h'.count_eof]

theorem Reads.expression_opens {above : Precedence} {e : Expr}
    (h : Reads (.expression above) c ts e c₁ ts₁) : (inView ts).Opens := by
  cases h with
  | expression h => exact h.operand_opens

end Unique

/-! ### Phrases that cannot go on -/

/-- No phrase of the form can be read; what stands before a statement does not
matter. -/
def Form.Refuses (ts : List Token) : Form → Prop
  | .continued _ => ∀ e d t d' ts', ¬Reads (.continued e) d ts t d' ts'
  | f => ∀ d t d' ts', ¬Reads f d ts t d' ts'

/-- **An expression goes on.**  If a phrase comes to the end of its line with an
expression that is a statement by itself, it cannot be read with `を` and a comma
instead of the break. -/
theorem Reads.refuses {t : f.Tree} (h : Reads f c ts t c' ts') (hts : IsLine ts)
    (hend : ts' = [.newline]) (hopen : f.endsOpen t = true) :
    f.Refuses (resume (.keyword .wo :: .symbol .comma :: us) ts) := by
  have hvs : inView (.keyword .wo :: .symbol .comma :: us) = .keyword .wo := rfl
  have hcomma {above : Precedence} {d d' : Bool} {e : Expr} {ts' : List Token} :
      ¬Reads (.expression above) d (.symbol .comma :: us) e d' ts' := fun h => by
    cases h.expression_opens.2
  induction h with
  | lines span _ => cases (hts.tail rfl).eq_nil
  | oneLine span here h ih =>
    have hhere := (hts.tail rfl).inView_resume_ne here (by rw [hvs]; simp)
    have hrefuses := ih (hts.tail rfl) hend hopen
    rw [resume_cons rfl]
    generalize resume _ _ = vs at hhere hrefuses
    intro d b d' ts'' g
    cases g with
    | lines => exact hhere rfl
    | oneLine _ _ g => exact hrefuses _ _ _ _ g
  | lastHere last _ ih =>
    intro d ss d' ts'' g
    cases g with
    | lastHere _ g => exact ih hts hend hopen _ _ _ _ g
    | moreHere g _ => exact ih hts hend hopen _ _ _ _ g
  | moreHere h₁ h₂ _ ih₂ =>
    have hfirst := h₁.resumed hvs hts (.inr rfl) (by rintro ⟨⟩)
    have hrefuses := ih₂ ((hts.reads h₁ (.inr rfl)).tail rfl) hend
      ((Stmt.lastEndsOpen_cons h₂.sameLine_ne_nil).symm.trans hopen)
    intro d ss d' ts'' g
    cases g with
    | lastHere last g =>
      obtain ⟨-, -, rfl⟩ := hfirst.statement_unique g
      exact last rfl
    | moreHere g₁ g₂ =>
      obtain ⟨-, -, heq⟩ := hfirst.statement_unique g₁
      obtain ⟨-, rfl⟩ := List.cons.inj heq
      exact hrefuses _ _ _ _ g₂
  | conditional _ ih =>
    have hrefuses := ih (hts.tail rfl) hend hopen
    rw [resume_cons rfl]
    intro d s d' ts'' g
    cases g with
    | conditional g => exact hrefuses _ _ _ _ g
    | opened opens => cases opens
  | opened opens h₁ _ _ ih₂ =>
    have hopens := (opensExpression_resume hvs hts).trans opens
    have hfirst := h₁.resumed hvs hts (.inl rfl) fun _ => rfl
    have hrefuses := ih₂ (hts.reads h₁ (.inl rfl)) hend hopen
    generalize resume _ _ = vs at hopens hfirst
    intro d s d' ts'' g
    cases g with
    | opened _ g₁ g₂ =>
      obtain rfl := hfirst.expression_unique g₁
      exact hrefuses _ _ _ _ _ g₂
    | _ => cases hopens
  | plain ends =>
    subst hend
    intro e d s d' ts'' g
    cases g with
    | plain ends => cases ends
    | counted _ _ _ g => exact hcomma g
    | change _ _ _ g => exact hcomma g
  | counted counter direction span h₁ h₂ h₃ _ _ _ _ ih =>
    have hlast := ((hts.tail rfl).reads h₁ (.inl rfl)).tail rfl
    have hstep := (hlast.reads h₂ (.inl rfl)).tail rfl
    have hrest := ((hstep.reads h₃ (.inl rfl)).tail rfl).tail direction.isSolid_countingToken
    have hfrom := h₁.resumed hvs (hts.tail rfl) (.inl rfl) fun _ => rfl
    have hto := h₂.resumed hvs hlast (.inl rfl) fun _ => rfl
    have hby := h₃.resumed hvs hstep (.inl rfl) fun _ => rfl
    rw [resume_cons rfl, resume_cons direction.isSolid_countingToken] at hby
    have hrefuses := ih (hrest.passToken rfl) hend hopen
    rw [← hrest.passToken_resume rfl (by rw [hvs]; simp)] at hrefuses
    rw [resume_cons rfl]
    intro e d s d' ts'' g
    cases g with
    | plain ends => cases ends
    | counted _ _ _ g₁ g₂ g₃ g₄ =>
      obtain ⟨-, rfl⟩ := List.cons.inj (hfrom.expression_unique g₁)
      obtain ⟨-, rfl⟩ := List.cons.inj (hto.expression_unique g₂)
      obtain ⟨-, heq⟩ := List.cons.inj (hby.expression_unique g₃)
      obtain ⟨-, rfl⟩ := List.cons.inj heq
      exact hrefuses _ _ _ _ g₄
    | change direction' _ _ g =>
      obtain ⟨heq, -⟩ := List.cons.inj (hfrom.expression_unique g)
      cases direction' <;> cases heq
  | whileLoop span _ ih =>
    have hrefuses := ih ((hts.tail rfl).passToken rfl) hend hopen
    rw [← (hts.tail rfl).passToken_resume rfl (by rw [hvs]; simp)] at hrefuses
    rw [resume_cons rfl]
    intro e d s d' ts'' g
    cases g with
    | plain ends => cases ends
    | whileLoop _ g => exact hrefuses _ _ _ _ g
  | branches span h₁ h₂ h₃ _ ih₂ ih₃ =>
    have hbody := (hts.reads h₁ (.inl rfl)).tail rfl
    have hrest := hbody.reads h₂ (.inr rfl)
    have hcondition := h₁.resumed hvs hts (.inl rfl) fun _ => rfl
    rw [hrest.passBreak_eq rfl] at h₃ ih₃
    intro d b d' ts'' g
    cases g with
    | branches _ g₁ g₂ g₃ =>
      obtain ⟨-, rfl⟩ := List.cons.inj (hcondition.expression_unique g₁)
      cases h₃ with
      | missing =>
        -- the consequence is the last block
        exact ih₂ hbody hend hopen _ _ _ _ g₂
      | elseIf h₃ =>
        have hblock := h₂.resumed hvs hbody (.inr rfl) (by rintro ⟨⟩)
        obtain rfl := hblock.block_unique g₂
        exact ih₃ hrest hend hopen _ _ _ _ g₃
      | otherwise h₃ =>
        have hblock := h₂.resumed hvs hbody (.inr rfl) (by rintro ⟨⟩)
        obtain rfl := hblock.block_unique g₂
        exact ih₃ hrest hend hopen _ _ _ _ g₃
  | elseIf _ ih =>
    have hrefuses := ih (hts.tail rfl) hend hopen
    rw [resume_cons rfl]
    intro d b d' ts'' g
    cases g with
    | elseIf g => exact hrefuses _ _ _ _ g
    | missing ends => cases ends
  | otherwise _ ih =>
    have hrefuses := ih (hts.tail rfl) hend hopen
    rw [resume_cons rfl]
    intro d b d' ts'' g
    cases g with
    | otherwise g => exact hrefuses _ _ _ _ g
    | missing ends => cases ends
  | _ => cases hopen

/-! ### Statements that are a line -/

/-- The text is the statement `s`, in one line and from its first byte to its last. -/
structure IsStatement (text : String) (s : Stmt) : Prop where
  line : '\n' ∉ text.toList
  parsed : parseProgram text = .ok ⟨[s], s.span⟩
  whole : s.span = ⟨0, Text.byteSize text.toList⟩

/-- A statement begins and ends with words of the text, and all tokens lie one behind
the other. -/
theorem exists_words_at_ends {text : String} {p : Program} (h : parseProgram text = .ok p)
    (hs : s ∈ p.statements) :
    ∃ xs, tokenize text = .ok xs ∧ (xs.Pairwise fun a b => a.span.stop ≤ b.span.start) ∧
      ∃ x ∈ xs, ∃ y ∈ xs, x.token.isWord = true ∧ y.token.isWord = true ∧
        s.span = ⟨x.span.start, y.span.stop⟩ := by
  have hgood := Scanner.good_trail_ofText text
  have hplaces := parseFeed_places hgood (fitsIn_start _)
  rw [← parseProgram, h] at hplaces
  obtain ⟨xs, e, tr', hpass, heof, he, heeof, hgives⟩ := hplaces
  have hordered := hgood.ordered hpass
  have hend : Trail.Passes tr'.tail [e] tr' := ⟨he, rfl⟩
  have hall := hgood.ordered (hpass.append hend)
  have hplace := Program.placeAll_gives hgives []
  rw [List.append_nil] at hplace
  obtain ⟨ys, hys, hfits⟩ := Stmt.placeAll_fits hgood.law p.statements
    (hordered.sublist (places_sublist xs)) hplace
  rw [List.append_nil] at hys
  obtain ⟨zs, hsub, hfit⟩ := hfits.parts (.stmt s) (List.mem_map_of_mem hs)
  obtain ⟨first, hfirst, last, hlast, hspan⟩ := hfit.spans.ends
  -- every place is that of a word
  have hword : ∀ y ∈ zs, ∃ x ∈ xs ++ [e], x.token.isWord = true ∧ x.span = y := by
    intro y hy
    obtain ⟨x, hx, rfl⟩ := List.mem_map.1 (hys ▸ hsub hy : y ∈ places xs)
    obtain ⟨hmem, hword⟩ := List.mem_filter.1 hx
    exact ⟨x, List.mem_append_left _ hmem, hword, rfl⟩
  obtain ⟨x, hx, hxword, rfl⟩ := hword first hfirst
  obtain ⟨y, hy, hyword, rfl⟩ := hword last hlast
  exact ⟨xs ++ [e], Scanner.tokens_of_passes hpass heof he heeof,
    List.pairwise_map.1 hall.apart, x, hx, y, hy, hxword, hyword, hspan⟩

/-- Nothing but the break is left of a line without statements. -/
theorem IsLine.eq_break {d : Bool} (hts : IsLine ts) (h : Reads (.statements stops) c ts [] d []) :
    ts = [.newline] := by
  cases h with
  | noStatements breaks =>
    cases ts with
    | nil => exact absurd rfl hts.ne_nil
    | cons t ts =>
      rcases hts.cases with ⟨rfl, rfl⟩ | ⟨ht, -⟩
      · rfl
      · rw [dropBreaks_of_isSolid ht] at breaks
        cases breaks

/-- One statement and the end of the line. -/
theorem Reads.statement_of_line (h : Reads (.statements stops) false (us ++ [.newline]) [s] c [])
    (hus : ∀ t ∈ us, t.isSolid = true) (hcomma : us.getLast? ≠ some (.symbol .comma)) :
    ∃ d, Reads .statement false (us ++ [.newline]) s d [.newline] := by
  have hline : IsLine (us ++ [.newline]) := ⟨us, hus, rfl⟩
  cases h with
  | @someStatements _ _ _ ts₁ _ c₂ ts₂ ts₃ _ _ _ breaks goes ended h₁ h₂ =>
    have hfirst : (us ++ [Token.newline]).dropWhile (· = .newline) = us ++ [.newline] := by
      cases us with
      | nil =>
        -- an empty line has no statement
        exact absurd breaks.symm (h₁.ne_nil_of_isSolid rfl)
      | cons u us => exact dropBreaks_of_isSolid (hus u List.mem_cons_self)
    obtain rfl := hfirst.symm.trans breaks
    have hrest := hline.reads h₁ (.inr rfl)
    rcases passEnd_eq_some.1 ended with (rfl | rfl) | ⟨rfl, hbreak, -⟩
    · obtain rfl := hrest.eq_nil
      exact ⟨c₂, h₁⟩
    · -- the comma would be the last token
      obtain rfl := (hrest.tail rfl).eq_break h₂
      obtain ⟨front, hfront⟩ := h₁.suffix
      have hlast : us = front ++ [.symbol .comma] := by
        refine (List.append_left_inj [Token.newline]).1 ?_
        rw [← hfront, List.append_assoc]
        rfl
      rw [hlast, List.getLast?_concat] at hcomma
      exact absurd rfl hcomma
    · rw [hrest.eq_break h₂] at hbreak
      exact absurd rfl hbreak

/-- What is known of a statement that is a line: its tokens, which are read wherever
it stands. -/
theorem IsStatement.exists_reads {text : String} (h : IsStatement text s) :
    ∃ ts d, Inlays text.toList ts ∧ depthOver 0 ts = 0 ∧
      Reads .statement false (ts ++ [.newline]) s d [.newline] := by
  obtain ⟨xs, hlexemes, hordered, x, hx, y, hy, hxword, hyword, hspan⟩ :=
    exists_words_at_ends h.parsed List.mem_cons_self
  obtain ⟨hstart, hstop⟩ := Span.mk.inj (hspan.symm.trans h.whole)
  have hysolid := Token.isSolid_of_isWord hyword
  obtain ⟨hinlays, hmap⟩ := inlays_of_tokens h.line hlexemes hx (Token.isSolid_of_isWord hxword)
    hstart hy hysolid hstop
  have hlast := getLast?_solids hlexemes hordered hy hysolid hstop
  obtain ⟨xs', ts, c, hparsed⟩ := exists_parsed h.parsed
  obtain rfl := Except.ok.inj (hlexemes.symm.trans hparsed.lexemes)
  have htokens : ts = solids xs ++ [.newline] := by
    refine (List.append_left_inj [Token.eof]).1 ?_
    rw [← hparsed.tokens, hmap, List.append_assoc]
    rfl
  have hreads := hparsed.reads
  rw [htokens] at hreads
  have hdepth : depthOver 0 (solids xs) = 0 := by
    have hall := hreads.depthOver_eq 0
    rw [depthOver_append] at hall
    exact hall
  have hcomma : (solids xs).getLast? ≠ some (.symbol .comma) := by
    intro heq
    rw [Option.some.inj (hlast.symm.trans heq)] at hyword
    cases hyword
  obtain ⟨d, hstatement⟩ := hreads.statement_of_line hinlays.solid hcomma
  exact ⟨solids xs, d, hinlays, hdepth, hstatement⟩

/-! ### Both texts of a loop -/

/-- The loop with its body in a line of its own. -/
def loopInLines (body condition : String) : String :=
  "繰り返し:\n    " ++ body ++ "\nを, " ++ condition ++ " になるまで実行する"

/-- The loop in one line. -/
def loopInOneLine (body condition : String) : String :=
  "繰り返し: " ++ body ++ " を, " ++ condition ++ " になるまで実行する"

/-- Behind the comma of the loop, where both texts are the same. -/
def behindComma (condition ending : String) : Place :=
  .inLine (' ' :: (condition.toList ++ ending.toList)) 0 [0] true

section Texts

variable {body : String} {ts : List Token}

/-- The tokens of `を` and the comma behind it. -/
theorem runs_wo_comma (condition ending : String) {is : List Nat} {used : Bool} :
    Runs (.inLine (Keyword.wo.spelling.toList ++ (Symbol.comma.spelling.toList ++
        ' ' :: (condition.toList ++ ending.toList))) 0 is used)
      [.keyword .wo, .symbol .comma]
      (.inLine (' ' :: (condition.toList ++ ending.toList)) 0 is true) :=
  (runs_token (spells_keyword .wo (.inr (delimited_cons (by decide)))) rfl).trans
    (runs_token (spells_symbol .comma (.inr (delimited_cons (by decide)))) rfl)

/-- The word that begins the loop, and the colon behind it. -/
theorem runs_loop_colon {tail : List Char} (htail : Delimited tail) :
    Runs (.atLine (Keyword.loop.spelling.toList ++ (Symbol.colon.spelling.toList ++ tail)) [0])
      [.keyword .loop, .symbol .colon] (.inLine tail 0 [0] true) := by
  refine (runs_margin (m := 0) (spells_keyword .loop (.inl (by simp))).opens
    (by simp [Rising])).trans ?_
  exact (runs_token (spells_keyword .loop (.inl (by simp))) rfl).trans
    (runs_token (spells_symbol .colon (.inr htail)) rfl)

/-- The body, all of whose brackets are closed. -/
theorem Inlays.runs_closed (h : Inlays body.toList ts) (hdepth : depthOver 0 ts = 0)
    {tail : List Char} (htail : Delimited tail) {is : List Nat} {used : Bool} :
    Runs (.inLine (body.toList ++ tail) 0 is used) ts (.inLine tail 0 is true) := by
  have hruns : Runs (.inLine (body.toList ++ tail) 0 is used) ts _ := h.runs htail
  rw [hdepth] at hruns
  exact hruns

/-- The tokens of the loop up to its comma, with the body in a line of its own. -/
theorem runs_inLines (h : Inlays body.toList ts) (hdepth : depthOver 0 ts = 0)
    (condition ending : String) :
    Runs (.atLine ("繰り返し:\n    " ++ body ++ "\nを, " ++ condition ++ ending).toList [0])
      (.keyword .loop :: .symbol .colon :: .newline :: .indent ::
        (ts ++ .newline :: .dedent :: [.keyword .wo, .symbol .comma]))
      (behindComma condition ending) := by
  have hhead : "繰り返し:\n    ".toList = Keyword.loop.spelling.toList ++
      (Symbol.colon.spelling.toList ++ '\n' :: List.replicate 4 ' ') := by decide
  have hmiddle : "\nを, ".toList = '\n' :: (Keyword.wo.spelling.toList ++
      (Symbol.comma.spelling.toList ++ [' '])) := by decide
  have hopens : OpensToken (Keyword.wo.spelling.toList ++ (Symbol.comma.spelling.toList ++
      ' ' :: (condition.toList ++ ending.toList))) :=
    (spells_keyword .wo (.inr (delimited_cons (by decide)))).opens
  have hback : GoesBack [0] (Keyword.wo.spelling.toList ++ (Symbol.comma.spelling.toList ++
      ' ' :: (condition.toList ++ ending.toList))) :=
    ⟨List.cons_ne_nil _ _, .inr ⟨0, List.mem_cons_self, _, hopens, rfl⟩⟩
  rw [String.toList_append, String.toList_append, String.toList_append, String.toList_append,
    hhead, hmiddle]
  simp only [List.append_assoc, List.cons_append, List.nil_append]
  -- the first line, the body in its margin, and the last line, token by token
  refine (runs_loop_colon (delimited_cons (by decide))).trans ?_
  refine runs_break.trans ?_
  refine (runs_indent (h.opens.append (delimited_cons (by decide))) (by decide)).trans ?_
  refine (h.runs_closed hdepth (delimited_cons (by decide))).trans ?_
  refine runs_break.trans ?_
  refine (runs_dedent (by simp [Rising]) hback).trans ?_
  exact (runs_margin (m := 0) hopens (by simp [Rising])).trans (runs_wo_comma condition ending)

/-- The tokens of the loop up to its comma, in one line. -/
theorem runs_inOneLine (h : Inlays body.toList ts) (hdepth : depthOver 0 ts = 0)
    (condition ending : String) :
    Runs (.atLine ("繰り返し: " ++ body ++ " を, " ++ condition ++ ending).toList [0])
      (.keyword .loop :: .symbol .colon :: (ts ++ [.keyword .wo, .symbol .comma]))
      (behindComma condition ending) := by
  have hhead : "繰り返し: ".toList = Keyword.loop.spelling.toList ++
      (Symbol.colon.spelling.toList ++ [' ']) := by decide
  have hmiddle : " を, ".toList = ' ' :: (Keyword.wo.spelling.toList ++
      (Symbol.comma.spelling.toList ++ [' '])) := by decide
  rw [String.toList_append, String.toList_append, String.toList_append, String.toList_append,
    hhead, hmiddle]
  simp only [List.append_assoc, List.cons_append, List.nil_append]
  refine (runs_loop_colon (delimited_cons (by decide))).trans ?_
  refine runs_gap.trans ?_
  refine (h.runs_closed hdepth (delimited_cons (by decide))).trans ?_
  exact runs_gap.trans (runs_wo_comma condition ending)

end Texts

/-! ### Both derivations of a loop -/

/-- Behind the comma of a loop the condition is read, and then the statements after
the loop. -/
def AfterComma (us : List Token) (condition : Expr) (later : List Stmt) : Prop :=
  ∃ c d c' rest rest', Reads (.expression .lowest) c us condition d
      (.keyword .untilWord :: rest) ∧ passEnd false rest = some rest' ∧
    Reads (.statements [.eof, .dedent]) false rest' later c' []

section Derivations

variable {ts us : List Token} {s : Stmt} {ss : List Stmt} {c d : Bool}

theorem resume_line (hts : ∀ t ∈ ts, t.isSolid = true) :
    resume vs (ts ++ [.newline]) = ts ++ vs := by
  induction ts with
  | nil => rfl
  | cons t ts ih =>
    obtain ⟨ht, hts⟩ := List.forall_mem_cons.1 hts
    rw [List.cons_append, resume_cons ht, ih hts, List.cons_append]

theorem Reads.inView_ne_break (h : Reads .statement c ts s d ts') : inView ts ≠ .newline :=
  Token.ne_of_isSolid h.statement_opens.1 rfl

/-- A line that holds a statement is that statement in a block, too. -/
theorem Reads.statement_of_block (hs : Reads .statement false (ts ++ [.newline]) s d [.newline])
    (hts : ∀ t ∈ ts, t.isSolid = true)
    (h : Reads (.statements [.dedent, .eof]) false (ts ++ .newline :: .dedent :: vs) ss c
      (.dedent :: ts')) :
    ∃ s', ss = [s'] ∧ s'.erase = s.erase ∧ ts' = vs := by
  have hline : IsLine (ts ++ [.newline]) := ⟨ts, hts, rfl⟩
  have hfollowed : Reads .statement false (ts ++ .newline :: .dedent :: vs) s d
      (.newline :: .dedent :: vs) := by
    have hall : Reads .statement false ((ts ++ [.newline]) ++ .dedent :: vs) s d _ :=
      hs.followed rfl hline.isSealed trivial trivial
    rw [List.append_assoc] at hall
    exact hall
  obtain ⟨t, ts₀, rfl⟩ : ∃ t ts₀, ts = t :: ts₀ := by
    refine List.exists_cons_of_ne_nil ?_
    rintro rfl
    cases hs.statement_opens.1
  have ht := hts t List.mem_cons_self
  cases h with
  | noStatements breaks =>
    rw [List.cons_append, dropBreaks_of_isSolid ht] at breaks
    rw [(List.cons.inj breaks).1] at ht
    cases ht
  | someStatements breaks goes ended h₁ h₂ =>
    rw [List.cons_append, dropBreaks_of_isSolid ht] at breaks
    subst breaks
    obtain ⟨herase, rfl, rfl⟩ := h₁.statement_unique hfollowed
    obtain rfl := Option.some.inj ended
    cases h₂ with
    | noStatements breaks => exact ⟨_, rfl, herase, (List.cons.inj breaks).2.symm⟩
    | someStatements breaks goes =>
      rw [List.tail_cons, List.dropWhile_cons_of_neg (by simp)] at breaks
      subst breaks
      exact absurd List.mem_cons_self goes

/-- A loop whose body is a line of its own has the statement of that line as its
body. -/
theorem Reads.loop_of_lines
    (h : Reads (.statements [.eof, .dedent]) false (.keyword .loop :: .symbol .colon :: .newline ::
      .indent :: (ts ++ .newline :: .dedent :: .keyword .wo :: .symbol .comma :: us)) ss c [])
    (hs : Reads .statement false (ts ++ [.newline]) s d [.newline])
    (hts : ∀ t ∈ ts, t.isSolid = true) :
    ∃ s' block condition loop later, ss = .untilLoop ⟨[s'], block⟩ condition loop :: later ∧
      s'.erase = s.erase ∧ AfterComma us condition later := by
  cases h with
  | noStatements breaks =>
    rw [dropBreaks_of_isSolid rfl] at breaks
    cases breaks
  | someStatements breaks goes ended h₁ h₂ =>
    rw [dropBreaks_of_isSolid rfl] at breaks
    subst breaks
    cases h₁ with
    | opened opens => cases opens
    | untilLoop loop closes hblock hcondition =>
      cases hblock with
      | oneLine _ here => exact absurd rfl here
      | lines block hbody =>
        obtain ⟨s', rfl, herase, rfl⟩ := hs.statement_of_block hts hbody
        rw [passBreak, if_neg (by simp)] at closes
        obtain ⟨-, rfl⟩ := List.cons.inj closes
        exact ⟨s', block, _, loop, _, rfl, herase, _, _, _, _, _, hcondition, ended, h₂⟩

/-- A loop in one line is read, if its body does not end with an expression. -/
theorem Reads.loop_of_line {condition : Expr} {later : List Stmt}
    (hs : Reads .statement false (ts ++ [.newline]) s d [.newline])
    (hts : ∀ t ∈ ts, t.isSolid = true) (hopen : s.endsOpen = false)
    (hafter : AfterComma us condition later) :
    ∃ c, Reads (.statements [.eof, .dedent]) false (.keyword .loop :: .symbol .colon ::
      (ts ++ .keyword .wo :: .symbol .comma :: us))
      (.untilLoop ⟨[s], default⟩ condition default :: later) c [] := by
  have hline : IsLine (ts ++ [.newline]) := ⟨ts, hts, rfl⟩
  have hvs : inView (.keyword .wo :: .symbol .comma :: us) = .keyword .wo := rfl
  have hstatement := hs.resumed hvs hline (.inr rfl) fun _ => hopen
  rw [resume_line hts] at hstatement
  have hblock : Reads .block false (.symbol .colon :: (ts ++ .keyword .wo :: .symbol .comma :: us))
      ⟨[s], default⟩ false (.keyword .wo :: .symbol .comma :: us) :=
    .oneLine default hstatement.inView_ne_break (.lastHere (by simp) hstatement)
  have hcloses : passBreak (· = .keyword .wo) (.keyword .wo :: .symbol .comma :: us) =
      .keyword .wo :: .symbol .comma :: us := if_neg (by simp)
  have hcomma : passToken (.symbol .comma) (.symbol .comma :: us) = us := if_pos rfl
  obtain ⟨_, _, c, rest, rest', hcondition, ended, hlater⟩ := hafter
  obtain ⟨_, hcondition⟩ := hcondition.afresh rfl false
  rw [← hcomma] at hcondition
  exact ⟨c, .someStatements (dropBreaks_of_isSolid rfl) (by simp) ended
    (.untilLoop default hcloses hblock hcondition) hlater⟩

/-- A loop in one line is not read, if its body ends with an expression. -/
theorem Reads.loop_refused (hs : Reads .statement false (ts ++ [.newline]) s d [.newline])
    (hts : ∀ t ∈ ts, t.isSolid = true) (hopen : s.endsOpen = true) :
    ¬Reads (.statements [.eof, .dedent]) false (.keyword .loop :: .symbol .colon ::
      (ts ++ .keyword .wo :: .symbol .comma :: us)) ss c [] := by
  have hline : IsLine (.symbol .colon :: (ts ++ [.newline])) :=
    ⟨.symbol .colon :: ts, List.forall_mem_cons.2 ⟨rfl, hts⟩, rfl⟩
  have hblock : Reads .block false (.symbol .colon :: (ts ++ [.newline])) ⟨[s], default⟩ false
      [.newline] :=
    .oneLine default hs.inView_ne_break (.lastHere (by simp) hs)
  have hrefuses : Form.block.Refuses (resume (.keyword .wo :: .symbol .comma :: us)
      (.symbol .colon :: (ts ++ [.newline]))) := hblock.refuses hline rfl hopen
  rw [resume_cons rfl, resume_line hts] at hrefuses
  intro h
  cases h with
  | noStatements breaks =>
    rw [dropBreaks_of_isSolid rfl] at breaks
    cases breaks
  | someStatements breaks goes ended h₁ h₂ =>
    rw [dropBreaks_of_isSolid rfl] at breaks
    subst breaks
    cases h₁ with
    | opened opens => cases opens
    | untilLoop _ _ hbody _ => exact hrefuses _ _ _ _ hbody

end Derivations

/-! ### Main result -/

/-- A stream that begins with tokens and has an end goes on with the rest of its
tokens. -/
theorem Stream.exists_append {s : Stream} (h : Stream.prepend ts s = .prepend us .ended)
    (hts : .eof ∉ ts) : ∃ vs, us = ts ++ vs ∧ s = .prepend vs .ended := by
  induction ts generalizing us with
  | nil => exact ⟨us, rfl, h⟩
  | cons t ts ih =>
    cases us with
    | nil =>
      obtain rfl : t = .eof := Except.ok.inj (congrFun h 0)
      exact absurd List.mem_cons_self hts
    | cons u us =>
      obtain rfl : t = u := Except.ok.inj (congrFun h 0)
      obtain ⟨vs, rfl, hs⟩ := ih (congrArg Stream.tail h) fun hmem =>
        hts (List.mem_cons_of_mem t hmem)
      exact ⟨vs, rfl, hs⟩

/-- **A loop may be written in one line.**  If the loop with the statement `s` in a line
of its own is parsed, then so is the loop in one line, and both are the same up to
their places, unless the statement ends with an expression that is a statement by
itself: then the loop in one line is refused. -/
theorem loops_in_one_line (body condition : String) (s : Stmt) (p : Program)
    (hbody : IsStatement body s) (hp : parseProgram (loopInLines body condition) = .ok p) :
    if s.endsOpen then ∃ e, parseProgram (loopInOneLine body condition) = .error e
    else ∃ q, parseProgram (loopInOneLine body condition) = .ok q ∧ q.erase = p.erase := by
  obtain ⟨ts, d, hinlays, hdepth, hs⟩ := hbody.exists_reads
  obtain ⟨xs, all, c, hparsed⟩ := exists_parsed hp
  have heof : .eof ∉ ts := fun hmem => by cases hinlays.solid _ hmem
  -- the tokens behind the comma are the same
  obtain ⟨pos, hlines⟩ := runs_inLines hinlays hdepth condition " になるまで実行する" 0
  obtain ⟨us, rfl, hrest⟩ :=
    Stream.exists_append (hlines.symm.trans hparsed.stream) (by simp [heof])
  obtain ⟨pos', hline⟩ := runs_inOneLine hinlays hdepth condition " になるまで実行する" 0
  rw [stream_place hrest pos', ← Stream.prepend_append] at hline
  have hreads := hparsed.reads
  have hus : .eof ∉ us := fun hmem => hparsed.eof (List.mem_append_right _ hmem)
  simp only [List.cons_append, List.append_assoc, List.nil_append] at hreads hline
  obtain ⟨s', block, e, loop, later, hss, herase, hafter⟩ := hreads.loop_of_lines hs hinlays.solid
  split
  · rename_i hopen
    cases hq : parseProgram (loopInOneLine body condition) with
    | error e => exact ⟨e, rfl⟩
    | ok q =>
      obtain ⟨xs', all', c', hparsed'⟩ := exists_parsed hq
      obtain rfl := Stream.prepend_inj (hline.symm.trans hparsed'.stream) (by
        rw [List.count_eq_zero.2 hparsed'.eof, List.count_eq_zero]
        simp [heof, hus])
      exact absurd hparsed'.reads (hs.loop_refused hinlays.solid hopen)
  · rename_i hopen
    obtain ⟨c', hloop⟩ := hs.loop_of_line hinlays.solid (Bool.eq_false_iff.2 hopen) hafter
    obtain ⟨q, hq, hsame⟩ := parseFeed_of_reads hline (by simp [heof, hus]) hloop
    refine ⟨q, hq, ?_⟩
    rw [Program.erase, Program.erase, hsame, hss]
    simp [Stmt.eraseAll, Stmt.erase, Block.erase, herase]

/-- An assignment may be the body of a loop in one line, a call may not. -/
theorem loops_in_one_line_call :
    (∃ q, parseProgram (loopInOneLine "x = 1" "x") = .ok q ∧
      q.erase = Program.erase ⟨[.untilLoop ⟨[.assign (.ident ⟨"x", ⟨18, 19⟩⟩) (.int 1 ⟨22, 23⟩)
        ⟨18, 23⟩], ⟨12, 23⟩⟩ (.ident ⟨"x", ⟨29, 30⟩⟩) ⟨0, 58⟩], ⟨0, 58⟩⟩) ∧
    ∃ e, parseProgram (loopInOneLine "f(x)" "x") = .error e := by
  have hassign : IsStatement "x = 1" (.assign (.ident ⟨"x", ⟨0, 1⟩⟩) (.int 1 ⟨4, 5⟩) ⟨0, 5⟩) :=
    ⟨by decide, by decide +kernel, by decide⟩
  have hcall : IsStatement "f(x)" (.expr (.call (.ident ⟨"f", ⟨0, 1⟩⟩) [.ident ⟨"x", ⟨2, 3⟩⟩]
      ⟨0, 4⟩)) :=
    ⟨by decide, by decide +kernel, by decide⟩
  have hlines : parseProgram (loopInLines "x = 1" "x") = .ok ⟨[.untilLoop ⟨[.assign
      (.ident ⟨"x", ⟨18, 19⟩⟩) (.int 1 ⟨22, 23⟩) ⟨18, 23⟩], ⟨12, 23⟩⟩ (.ident ⟨"x", ⟨29, 30⟩⟩)
        ⟨0, 58⟩], ⟨0, 58⟩⟩ := by
    rw [show loopInLines "x = 1" "x" = "繰り返し:\n    x = 1\nを, x になるまで実行する" by decide]
    decide +kernel
  have hlines' : parseProgram (loopInLines "f(x)" "x") = .ok ⟨[.untilLoop ⟨[.expr (.call
      (.ident ⟨"f", ⟨18, 19⟩⟩) [.ident ⟨"x", ⟨20, 21⟩⟩] ⟨18, 22⟩)], ⟨12, 22⟩⟩
        (.ident ⟨"x", ⟨28, 29⟩⟩) ⟨0, 57⟩], ⟨0, 57⟩⟩ := by
    rw [show loopInLines "f(x)" "x" = "繰り返し:\n    f(x)\nを, x になるまで実行する" by decide]
    decide +kernel
  exact ⟨loops_in_one_line _ _ _ _ hassign hlines, loops_in_one_line _ _ _ _ hcall hlines'⟩

end Dncl
