/-
Dncl/Proofs/Reprint.lean

Programs that are read from their own text.

Inside brackets line breaks are passed, and the printer separates statements by
nothing else.  So two statements of a block inside brackets may be read as one
when the text of a program is read again:

    f(関数() を: a, (b) と定義する)   is printed as   f(関数() を:
                                                          a
                                                          (b)
                                                      と定義する)

where `a` and `(b)` are a call.  No words are lost then, and the program is the
same exactly if every block of it inside brackets has one statement:

    parseProgram p.text = .ok q  →  (q.erase = p.erase ↔ p.Fits)

Design.  The separators of a text are its commas, but for those that may follow
`を`.  A phrase takes at least as many of them as the tokens of its tree have,
and more if a block inside brackets had several statements, between which there
were commas (`Reads.spends`).  If a program is read as itself from its own
tokens there are none to spare, and it fits.
-/
import Dncl.Proofs.Words

namespace Dncl

variable {c c' : Bool} {ts ts' : List Token}

/-! ### Separators -/

/-- How many commas of the tokens separate something.  One that follows `を`
does not. -/
def separators : List Token → Nat
  | [] => 0
  | .symbol .comma :: ts => separators ts + 1
  | .keyword .wo :: ts =>
    if inView ts = .symbol .comma then separators ts - 1 else separators ts
  | _ :: ts => separators ts

/-- Whether the token has no part in the count. -/
def Token.isMute : Token → Bool
  | .symbol .comma | .keyword .wo => false
  | _ => true

section Separators

variable {ts us rest : List Token} {t : Token}

theorem separators_of_comma (h : inView ts = .symbol .comma) :
    separators ts = separators ts.tail + 1 := by
  obtain ⟨rest, rfl⟩ := eq_cons_of_inView h nofun
  rfl

theorem separators_wo :
    separators (.keyword .wo :: ts) = separators (passToken (.symbol .comma) ts) := by
  rw [separators, passToken]
  split
  · rename_i hnow
    rw [separators_of_comma hnow]
    rfl
  · rfl

theorem Token.ne_comma_of_isMute (h : t.isMute = true) : t ≠ .symbol .comma := by
  rintro rfl
  cases h

theorem separators_cons (h : t.isMute = true) : separators (t :: ts) = separators ts := by
  rw [separators.eq_def]
  split
  · rename_i heq
    cases heq
  · rename_i heq
    cases heq
    cases h
  · rename_i heq
    cases heq
    cases h
  · rename_i heq
    cases heq
    rfl

theorem Token.isMute_of_ne (hcomma : t ≠ .symbol .comma) (hwo : t ≠ .keyword .wo) :
    t.isMute = true := by
  rw [Token.isMute.eq_def]
  split
  · exact absurd rfl hcomma
  · exact absurd rfl hwo
  · rfl

theorem separators_symbol_ge (s : Symbol) : separators ts ≤ separators (.symbol s :: ts) := by
  cases s with
  | comma => exact Nat.le_succ _
  | _ => exact le_rfl

theorem separators_cons_le (h : t ≠ .symbol .comma) : separators (t :: ts) ≤ separators ts := by
  by_cases hwo : t = .keyword .wo
  · subst hwo
    rw [separators]
    split <;> omega
  · rw [separators_cons (Token.isMute_of_ne h hwo)]

/-- Two lists have no more separators than both of them. -/
theorem separators_append_le : separators (ts ++ us) ≤ separators ts + separators us := by
  induction ts with
  | nil => simp [separators]
  | cons t ts ih =>
    by_cases hcomma : t = .symbol .comma
    · subst hcomma
      simp only [List.cons_append, separators]
      omega
    · by_cases hwo : t = .keyword .wo
      · subst hwo
        cases ts with
        | nil => exact (separators_cons_le hcomma).trans ih
        | cons u ts =>
          by_cases hu : u = .symbol .comma
          · subst hu
            simp only [List.cons_append, separators, inView_cons, if_true] at ih ⊢
            omega
          · simpa only [List.cons_append, separators, inView_cons, hu, if_false] using ih
      · have hmute := Token.isMute_of_ne hcomma hwo
        rw [List.cons_append, separators_cons hmute, separators_cons hmute]
        exact ih

/-- Two pieces with a token between them that is no comma. -/
theorem separators_join (h : t ≠ .symbol .comma) :
    separators (ts ++ t :: us) ≤ separators ts + separators us :=
  separators_append_le.trans (Nat.add_le_add_left (separators_cons_le h) _)

theorem separators_close (h : t ≠ .symbol .comma) : separators (ts ++ [t]) ≤ separators ts :=
  separators_join h

/-- A piece in brackets behind another one. -/
theorem separators_enclose {opening closing : Token} (hopening : opening ≠ .symbol .comma)
    (hclosing : closing ≠ .symbol .comma) :
    separators (ts ++ opening :: (us ++ [closing])) ≤ separators ts + separators us :=
  (separators_join hopening).trans (Nat.add_le_add_left (separators_close hclosing) _)

theorem separators_passBreak (continues : Token → Bool) :
    separators (passBreak continues ts) = separators ts :=
  apply_passBreak (fun _ => rfl) continues ts

theorem separators_dropBreaks :
    separators (ts.dropWhile (· = .newline)) = separators ts :=
  apply_dropBreaks (fun _ => rfl) ts

theorem separators_passEnd {closed : Bool} (h : passEnd closed ts = some rest) :
    separators rest ≤ separators ts := by
  rcases passEnd_eq_some.1 h with (rfl | rfl) | ⟨rfl, -⟩
  · exact Nat.le_refl _
  · exact Nat.le_succ _
  · exact Nat.le_refl _

theorem separators_passRepeated :
    separators (passToken (.keyword .repeated) ts) = separators ts :=
  apply_passToken (fun _ => rfl) ts

/-- Behind `を` an expression or a block begins, and no comma. -/
theorem separators_wo_of_ne (h : inView ts ≠ .symbol .comma) :
    separators (.keyword .wo :: ts) = separators ts := by
  rw [separators_wo, passToken, if_neg h]

theorem separators_wo_comma :
    separators (.keyword .wo :: .symbol .comma :: ts) = separators ts := by
  rw [separators_wo, passToken, inView_cons, if_pos rfl]
  rfl

end Separators

/-! ### Passing separators -/

/-- Between `ts` and `ts'` there are at least `n` separators, and `F` holds if
there are no more. -/
structure Passes (n : Nat) (F : Prop) (ts ts' : List Token) : Prop where
  le : n + separators ts' ≤ separators ts
  exact : separators ts ≤ n + separators ts' → F

namespace Passes

variable {n m : Nat} {F G : Prop} {ts ts₁ ts' : List Token} {t : Token}

theorem refl (h : F) : Passes 0 F ts ts :=
  ⟨Nat.le_of_eq (Nat.zero_add _), fun _ => h⟩

theorem trans (h₁ : Passes n F ts ts₁) (h₂ : Passes m G ts₁ ts') :
    Passes (n + m) (F ∧ G) ts ts' := by
  have hle₁ := h₁.le
  have hle₂ := h₂.le
  exact ⟨by omega, fun h => ⟨h₁.exact (by omega), h₂.exact (by omega)⟩⟩

theorem mono (h : Passes n F ts ts') (hle : m ≤ n) (hF : F → G) : Passes m G ts ts' := by
  have hn := h.le
  exact ⟨by omega, fun hm => hF (h.exact (by omega))⟩

/-- More separators in front, or fewer at the end. -/
theorem widen {us us' : List Token} (h : Passes n F ts ts')
    (hfront : separators ts ≤ separators us) (hend : separators us' ≤ separators ts') :
    Passes n F us us' := by
  have hn := h.le
  exact ⟨by omega, fun hm => h.exact (by omega)⟩

/-- One separator too many leaves nothing to show. -/
theorem of_succ (h : Passes (n + 1) F ts ts') : Passes n G ts ts' := by
  have hn := h.le
  exact ⟨by omega, fun hm => by omega⟩

/-- A token in front that is no comma. -/
theorem cons (h : Passes n F ts ts') (ht : t.isMute = true) : Passes n F (t :: ts) ts' :=
  h.widen (separators_cons ht).ge le_rfl

theorem comma (h : Passes n F ts ts') : Passes (n + 1) F (.symbol .comma :: ts) ts' := by
  have hn := h.le
  refine ⟨?_, fun hm => h.exact ?_⟩
  · rw [separators]
    omega
  · rw [separators] at hm
    omega

/-- A token behind the phrase that is no comma. -/
theorem drop (h : Passes n F ts (t :: ts')) (ht : t.isMute = true) : Passes n F ts ts' :=
  h.widen le_rfl (separators_cons ht).ge

end Passes

/-! ### The separators of a phrase -/

/-- A phrase that was read as the tree from `ts`, up to `ts'`, takes at least
the separators of its tree, and more unless the tree fits. -/
def Form.Spends (b : Bool) : (f : Form) → List Token → f.Tree → List Token → Prop
  | .operators _ left, ts, e, ts' => ∀ ts₀,
    Passes (separators (left.tokens b)) (left.Fits b) ts₀ ts →
      Passes (separators (e.tokens b)) (e.Fits b) ts₀ ts'
  | .continued e, ts, s, ts' => ∀ ts₀,
    Passes (separators (e.tokens b)) (e.Fits b) ts₀ ts →
      Passes (separators (s.tokens b)) (s.Fits b) ts₀ ts'
  | .items _, ts, es, ts' | .expressions, ts, es, ts' => b = true →
    Passes (separators (Expr.listTokens es)) (Expr.FitAll es) ts ts'
  | .paramItems, ts, ids, ts' | .params, ts, ids, ts' =>
    Passes (separators (paramTokens ids)) True ts ts'
  | .sameLine, ts, ss, ts' =>
    Passes (separators (Stmt.lines b ss)) (ss.length = 1 ∧ Stmt.FitAll b ss) ts ts'
  | f, ts, t, ts' => Passes (separators (f.tokens b t)) (f.Fits b t) ts ts'

theorem Token.isMute_of_isOperator {op : Token} (h : op.isOperator = true) : op.isMute = true := by
  refine Token.isMute_of_ne ?_ ?_
  · rintro rfl
    cases h
  · rintro rfl
    cases h

theorem Direction.isMute_countingToken (direction : Direction) :
    direction.countingToken.isMute = true := by
  cases direction <;> rfl

theorem Direction.isMute_changingToken (direction : Direction) :
    direction.changingToken.isMute = true := by
  cases direction <;> rfl

section Trees

variable {b : Bool} (span : Span) {body : Block} {params : List Ident} {s : Stmt} {ss : List Stmt}
  {condition first last step : Expr} {counter : Ident} {direction : Direction}

theorem separators_function : separators (FunctionLit.tokens b ⟨params, body, span⟩) ≤
    separators (paramTokens params) + separators (body.tokens b) := by
  rw [FunctionLit.tokens]
  have hparams : separators (paramTokens params ++ .symbol .rightParen :: .keyword .wo ::
      (body.tokens b ++ [Token.keyword .endFunction])) ≤ _ := separators_join (by simp)
  have hwo : separators (.keyword .wo :: (body.tokens b ++ [Token.keyword .endFunction])) ≤ _ :=
    separators_cons_le (by simp)
  have hbody : separators (body.tokens b ++ [Token.keyword .endFunction]) ≤ _ :=
    separators_close (by simp)
  rw [separators_cons rfl]
  omega

/-- The comma behind the block is not counted. -/
theorem separators_untilLoop : separators (Stmt.tokens b (.untilLoop body condition span)) ≤
    separators (body.tokens b) + separators (condition.tokens b) := by
  have hbody : separators (body.tokens b ++ .keyword .wo :: .symbol .comma ::
      (condition.tokens b ++ [Token.keyword .untilWord])) ≤ _ := separators_append_le
  have hcondition : separators (condition.tokens b ++ [Token.keyword .untilWord]) ≤ _ :=
    separators_close nofun
  rw [separators_wo_comma] at hbody
  rw [Stmt.tokens, separators_cons rfl]
  omega

theorem separators_counted :
    separators (Stmt.tokens b (.counted counter first last step direction body span)) ≤
      separators (Expr.tokens b (.ident counter)) + (separators (first.tokens b) +
        (separators (last.tokens b) + (separators (step.tokens b) +
          separators (body.tokens b)))) := by
  have hcounter : separators (Expr.tokens b (.ident counter)) = 0 := rfl
  rw [Stmt.tokens, hcounter, Nat.zero_add, separators_cons rfl]
  refine Nat.le_trans (separators_cons_le (by simp)) ?_
  refine Nat.le_trans (separators_join (by simp)) (Nat.add_le_add_left ?_ _)
  refine Nat.le_trans (separators_join (by simp)) (Nat.add_le_add_left ?_ _)
  refine Nat.le_trans (separators_join (by simp)) (Nat.add_le_add_left ?_ _)
  rw [separators_cons direction.isMute_countingToken, separators_cons rfl]

theorem separators_lines :
    separators (Stmt.lines b (s :: ss)) ≤
      separators (s.tokens b) + separators (Stmt.lines b ss) := by
  rw [Stmt.lines, Stmt.lineEnd]
  split
  · exact separators_append_le
  · exact separators_join (by simp)

end Trees

theorem Reads.block_ne_comma {body : Block} (h : Reads .block c ts body c' ts') :
    inView ts ≠ .symbol .comma := by
  cases h with
  | lines | oneLine => nofun

theorem Reads.expression_ne_comma {above : Precedence} {e : Expr}
    (h : Reads (.expression above) c ts e c' ts') : inView ts ≠ .symbol .comma := by
  intro hcomma
  have hbegins := h.begins_expression.1
  rw [hcomma] at hbegins
  cases hbegins

/-- A phrase passes at least the separators that it is printed with. -/
theorem Reads.spends {f : Form} {t : f.Tree} (h : Reads f c ts t c' ts') :
    ∀ d, Layout d ts → f.Spends (decide (0 < d)) ts t ts' := by
  induction h with
  -- operands
  | int | str | command | ident => exact fun _ _ => (Passes.refl trivial).cons rfl
  | builtin name place span known _ ih =>
    intro d hd
    have hitems := ih (d + 1) hd.tail.tail (decide_eq_true (Nat.succ_pos d))
    refine ((hitems.cons rfl).cons rfl).mono ?_ Builtin.fitAll_arguments.2
    simp only [Form.tokens, Expr.tokens, Builtin.listTokens_arguments]
    exact separators_close (by simp)
  | signed op span sign _ ih =>
    intro d hd
    have hoperand : Passes _ _ _ _ := ih d (by rcases sign with rfl | rfl <;> exact hd.tail)
    rcases sign with rfl | rfl
    · exact hoperand.cons rfl
    · exact hoperand.cons rfl
  | nested span _ ih =>
    intro d hd
    have hinner : Passes _ _ _ _ := ih (d + 1) hd.tail
    exact ((hinner.cons rfl).drop rfl).mono (separators_close (by simp)) id
  | array span _ ih =>
    intro d hd
    have hitems := ih (d + 1) hd.tail (decide_eq_true (Nat.succ_pos d))
    exact (hitems.cons rfl).mono (separators_close (by simp)) id
  | literal _ ih => exact fun d hd => Passes.cons (ih d hd.tail) rfl
  -- expressions
  | expression h₁ _ ih₁ ih₂ => exact fun d hd => ih₂ d (h₁.layout d hd) _ (ih₁ d hd)
  | stop => exact fun _ _ _ hleft => hleft
  | called span tight h₁ _ ih₁ ih₂ =>
    intro d hd ts₀ hleft
    have hitems := ih₁ (d + 1) hd.tail (decide_eq_true (Nat.succ_pos d))
    have hcall := hleft.trans (hitems.cons rfl)
    exact ih₂ d (h₁.layout (d + 1) hd.tail) ts₀
      (hcall.mono (separators_enclose (by simp) (by simp)) id)
  | indexed span tight h₁ _ ih₁ ih₂ =>
    intro d hd ts₀ hleft
    have hposition : Passes _ _ _ _ := ih₁ (d + 1) hd.tail
    have helement := hleft.trans ((hposition.cons rfl).drop rfl)
    exact ih₂ d (h₁.layout (d + 1) hd.tail).tail ts₀
      (helement.mono (separators_enclose (by simp) (by simp)) id)
  | negated span tight _ ih =>
    intro d hd ts₀ hleft
    exact ih d hd.tail ts₀ ((hleft.drop rfl).mono (separators_close (by simp)) id)
  | joined op span operator tight h₁ _ ih₁ ih₂ =>
    intro d hd ts₀ hleft
    have hmute := Token.isMute_of_isOperator operator
    have hright : Layout d _ := Token.depthAfter_operator operator d ▸ hd.tail
    have hboth := (hleft.drop hmute).trans (ih₁ d hright)
    exact ih₂ d (h₁.layout d hright) ts₀
      (hboth.mono (separators_join (Token.ne_comma_of_isMute hmute)) id)
  -- lists
  | noItems => exact fun _ _ _ => (Passes.refl trivial).widen (separators_symbol_ge _) le_rfl
  | someItems _ _ ih => exact fun d hd hb => (ih d hd hb).widen le_rfl (separators_symbol_ge _)
  | lastExpr _ _ ih =>
    intro d hd hb
    have hlast := ih d hd
    rw [hb] at hlast
    exact Passes.mono hlast separators_append_le fun h => ⟨h, trivial⟩
  | moreExprs h₁ h₂ ih₁ ih₂ =>
    intro d hd hb
    have hfirst := ih₁ d hd
    rw [hb] at hfirst
    have hothers := ih₂ d (h₁.layout d hd).tail hb
    have hall := Passes.trans hfirst hothers.comma
    refine hall.mono ?_ id
    rw [Expr.listTokens, Expr.laterTokens_eq h₂.expressions_ne_nil]
    exact separators_append_le
  | noParams => exact fun _ _ => (Passes.refl trivial).cons rfl
  | someParams _ _ ih => exact fun d hd => Passes.drop (ih d hd) rfl
  | lastParam => exact fun _ _ => (Passes.refl trivial).cons rfl
  | moreParams name span h ih =>
    intro d hd
    have hothers : Passes _ _ _ _ := ih d hd.tail.tail
    refine (hothers.comma.cons rfl).mono ?_ id
    rw [paramTokens, laterParamTokens_eq h.params_ne_nil]
    exact le_rfl
  -- functions and blocks
  | function span closes h₁ h₂ ih₁ ih₂ =>
    intro d hd
    have hparams : Passes _ _ _ _ := ih₁ (d + 1) hd.tail
    have hbody : Passes _ _ _ _ := ih₂ d (h₁.layout (d + 1) hd.tail).tail
    have hwo := separators_wo_of_ne h₂.block_ne_comma
    have hclose := (separators_passBreak _).symm.trans (congrArg separators closes)
    have hparts := (hparams.widen le_rfl hwo.ge).trans
      (Passes.drop (hbody.widen le_rfl hclose.ge) rfl)
    exact (hparts.cons rfl).mono (separators_function span) And.right
  | lines span _ ih =>
    intro d hd
    -- a block opens outside brackets only
    obtain ⟨rfl, -⟩ := hd.tail.tail.1 rfl
    have hlines : Passes _ _ _ _ := ih 0 hd.tail.tail.tail
    exact ((((hlines.cons rfl).cons rfl).cons rfl).drop rfl).mono (separators_close (by simp))
      (fun h => ⟨by simp, h⟩)
  | oneLine span _ _ ih =>
    intro d hd
    have hlines : Passes _ _ _ _ := ih d hd.tail
    refine (hlines.cons rfl).mono ?_ fun h => ⟨fun _ => h.1, h.2⟩
    cases decide (0 < d) with
    | true => exact le_rfl
    | false => exact separators_close (t := .dedent) (by simp)
  | lastHere _ _ ih =>
    intro d hd
    have hlast : Passes _ _ _ _ := ih d hd
    exact hlast.mono separators_lines fun h => ⟨rfl, h, trivial⟩
  | moreHere h₁ _ ih₁ ih₂ =>
    intro d hd
    have hfirst : Passes _ _ _ _ := ih₁ d hd
    have hothers : Passes _ _ _ _ := ih₂ d (h₁.layout d hd).tail
    -- the text of the block has no comma here
    exact Passes.of_succ ((hfirst.trans hothers.comma).mono (Nat.succ_le_succ separators_lines) id)
  | noStatements breaks _ =>
    intro d hd
    refine (Passes.refl trivial).widen ?_ le_rfl
    rw [← breaks, separators_dropBreaks]
  | someStatements breaks _ ended h₁ _ ih₁ ih₂ =>
    intro d hd
    have hd₁ : Layout d _ := breaks ▸ hd.dropBreaks
    have hfirst : Passes _ _ _ _ := ih₁ d hd₁
    have hothers : Passes _ _ _ _ := ih₂ d ((h₁.layout d hd₁).passEnd ended)
    have hstart := separators_dropBreaks.symm.trans (congrArg separators breaks)
    have hall := (hfirst.widen hstart.ge (separators_passEnd ended)).trans hothers
    exact hall.mono separators_lines id
  -- statements
  | define _ _ _ _ ih =>
    intro d hd
    have hfunction : Passes _ _ _ _ := ih d hd.tail.tail
    exact (hfunction.cons rfl).cons rfl
  | conditional _ ih =>
    intro d hd
    have hconditional : Passes _ _ _ _ := ih d hd.tail
    exact hconditional.cons rfl
  | untilLoop span closes h₁ _ ih₁ ih₂ =>
    intro d hd
    have hwo := (closes ▸ (h₁.layout d hd.tail).passBreak : Layout d _).tail
    have hbody : Passes _ _ _ _ := ih₁ d hd.tail
    have hcondition : Passes _ _ _ _ := ih₂ d (hwo.passToken rfl)
    have hclose := (separators_passBreak _).symm.trans (congrArg separators closes)
    rw [separators_wo] at hclose
    have hparts := (hbody.widen le_rfl hclose.ge).trans (hcondition.drop rfl)
    exact (hparts.cons rfl).mono (separators_untilLoop span) id
  | opened _ h₁ _ ih₁ ih₂ => exact fun d hd => ih₂ d (h₁.layout d hd) _ (ih₁ d hd)
  | plain => exact fun _ _ _ hleft => hleft
  | assign _ _ _ ih =>
    intro d hd ts₀ hleft
    exact ((hleft.drop rfl).trans (ih d hd.tail)).mono (separators_join (by simp)) id
  | counted counter direction span h₁ h₂ h₃ _ ih₁ ih₂ ih₃ ih₄ =>
    intro d hd ts₀ hleft
    have hd₁ := (h₁.layout d hd.tail).tail
    have hd₂ := (h₂.layout d hd₁).tail
    have hd₃ := (h₃.layout d hd₂).tail.tail
    rw [direction.depthAfter_countingToken] at hd₃
    have hfirst : Passes _ _ _ _ := ih₁ d hd.tail
    have hlast : Passes _ _ _ _ := ih₂ d hd₁
    have hstep : Passes _ _ _ _ := ih₃ d hd₂
    have hbody : Passes _ _ _ _ := ih₄ d (hd₃.passToken rfl)
    have hwo := separators_wo_of_ne h₁.expression_ne_comma
    have hcounting := direction.isMute_countingToken
    have hrepeated := hbody.widen separators_passRepeated.le le_rfl
    have hbounds := (hfirst.drop rfl).trans
      ((hlast.drop rfl).trans (((hstep.drop rfl).drop hcounting).trans hrepeated))
    have hparts := hleft.trans (hbounds.widen hwo.ge le_rfl)
    exact hparts.mono (separators_counted span) And.right
  | change direction _ _ h ih =>
    intro d hd ts₀ hleft
    have hamount : Passes _ _ _ _ := ih d hd.tail
    have hwo := separators_wo_of_ne h.expression_ne_comma
    have hchanging := direction.isMute_changingToken
    have hparts := hleft.trans ((hamount.drop hchanging).widen hwo.ge le_rfl)
    exact hparts.mono (separators_enclose (by simp) (Token.ne_comma_of_isMute hchanging)) id
  | whileLoop _ _ ih =>
    intro d hd ts₀ hleft
    have hbody : Passes _ _ _ _ := ih d (hd.tail.passToken rfl)
    have hparts := (hleft.drop rfl).trans (hbody.widen separators_passRepeated.le le_rfl)
    exact hparts.mono (separators_join (by simp)) id
  | giveBack => exact fun _ _ _ hleft => (hleft.drop rfl).mono (separators_close (by simp)) id
  -- conditionals
  | branches _ h₁ h₂ _ ih₁ ih₂ ih₃ =>
    intro d hd
    have hd₁ := (h₁.layout d hd).tail
    have hcondition : Passes _ _ _ _ := ih₁ d hd
    have hconsequence : Passes _ _ _ _ := ih₂ d hd₁
    have halternative : Passes _ _ _ _ := ih₃ d (h₂.layout d hd₁).passBreak
    have hbranches :=
      (hconsequence.widen le_rfl (separators_passBreak continuesConditional).le).trans halternative
    refine ((hcondition.drop rfl).trans hbranches).mono ?_ id
    exact Nat.le_trans (separators_join (by simp)) (Nat.add_le_add_left separators_append_le _)
  | elseIf _ ih | otherwise _ ih => exact fun d hd => Passes.cons (ih d hd.tail) rfl
  | missing => exact fun _ _ => Passes.refl trivial

/-! ### What does not depend on places -/

theorem laterParamTokens_erase (params : List Ident) :
    laterParamTokens (params.map Ident.erase) = laterParamTokens params := by
  induction params with
  | nil => rfl
  | cons id ids ih => exact congrArg (.symbol .comma :: .ident id.name :: ·) ih

theorem paramTokens_erase : ∀ params : List Ident,
    paramTokens (params.map Ident.erase) = paramTokens params
  | [] => rfl
  | _ :: ids => congrArg (List.cons _) (laterParamTokens_erase ids)

mutual

/-- How a tree is printed does not depend on places. -/
theorem Expr.tokens_erase (b : Bool) : ∀ e : Expr, e.erase.tokens b = e.tokens b
  | .ident _ | .int _ _ | .str _ _ | .absent _ | .command _ _ => rfl
  | .array elements _ => by simp only [Expr.erase, Expr.tokens, Expr.listTokens_erase elements]
  | .prefixOp op operand _ => by simp only [Expr.erase, Expr.tokens, operand.tokens_erase b]
  | .infixOp op left right _ => by
    simp only [Expr.erase, Expr.tokens, left.tokens_erase b, right.tokens_erase b]
  | .index container position _ => by
    simp only [Expr.erase, Expr.tokens, container.tokens_erase b, position.tokens_erase true]
  | .call callee arguments _ => by
    simp only [Expr.erase, Expr.tokens, callee.tokens_erase b, Expr.listTokens_erase arguments]
  | .builtin _ arguments _ => by
    simp only [Expr.erase, Expr.tokens, Expr.listTokens_erase arguments]
  | .function literal => congrArg (List.cons _) (literal.tokens_erase b)
  | .nested inner _ => by simp only [Expr.erase, Expr.tokens, inner.tokens_erase true]

theorem Expr.listTokens_erase : ∀ es : List Expr,
    Expr.listTokens (Expr.eraseAll es) = Expr.listTokens es
  | [] => rfl
  | e :: es => congrArg₂ (· ++ ·) (e.tokens_erase true) (Expr.laterTokens_erase es)

theorem Expr.laterTokens_erase : ∀ es : List Expr,
    Expr.laterTokens (Expr.eraseAll es) = Expr.laterTokens es
  | [] => rfl
  | e :: es => congrArg (List.cons _)
    (congrArg₂ (· ++ ·) (e.tokens_erase true) (Expr.laterTokens_erase es))

theorem FunctionLit.tokens_erase (b : Bool) : ∀ f : FunctionLit, f.erase.tokens b = f.tokens b
  | ⟨params, body, _⟩ => by
    simp only [FunctionLit.erase, FunctionLit.tokens, paramTokens_erase, body.tokens_erase b]

theorem Block.tokens_erase (b : Bool) : ∀ body : Block, body.erase.tokens b = body.tokens b
  | ⟨statements, _⟩ => by
    simp only [Block.erase, Block.tokens, Stmt.lines_erase true statements,
      Stmt.lines_erase false statements]

theorem Stmt.tokens_erase (b : Bool) : ∀ s : Stmt, s.erase.tokens b = s.tokens b
  | .expr e => e.tokens_erase b
  | .assign target value _ => by
    simp only [Stmt.erase, Stmt.tokens, target.tokens_erase b, value.tokens_erase b]
  | .conditional c => congrArg (List.cons _) (c.tokens_erase b)
  | .counted counter first last step direction body _ => by
    simp only [Stmt.erase, Stmt.tokens, Ident.erase, first.tokens_erase b, last.tokens_erase b,
      step.tokens_erase b, body.tokens_erase b]
  | .whileLoop condition body _ => by
    simp only [Stmt.erase, Stmt.tokens, condition.tokens_erase b, body.tokens_erase b]
  | .untilLoop body condition _ => by
    simp only [Stmt.erase, Stmt.tokens, condition.tokens_erase b, body.tokens_erase b]
  | .change target amount _ _ => by
    simp only [Stmt.erase, Stmt.tokens, target.tokens_erase b, amount.tokens_erase b]
  | .define name function _ => by
    simp only [Stmt.erase, Stmt.tokens, Ident.erase, function.tokens_erase b]
  | .giveBack value _ => by simp only [Stmt.erase, Stmt.tokens, value.tokens_erase b]

theorem Stmt.lines_erase (b : Bool) : ∀ ss : List Stmt,
    Stmt.lines b (Stmt.eraseAll ss) = Stmt.lines b ss
  | [] => rfl
  | s :: ss => by
    have hends : s.erase.lineEnd b = s.lineEnd b := by cases s <;> rfl
    simp only [Stmt.eraseAll, Stmt.lines, s.tokens_erase b, hends, Stmt.lines_erase b ss]

theorem Conditional.tokens_erase (b : Bool) : ∀ c : Conditional, c.erase.tokens b = c.tokens b
  | ⟨condition, consequence, alternative, _⟩ => by
    simp only [Conditional.erase, Conditional.tokens, condition.tokens_erase b,
      consequence.tokens_erase b, alternative.tokens_erase b]

theorem ElseBranch.tokens_erase (b : Bool) : ∀ a : ElseBranch, a.erase.tokens b = a.tokens b
  | .missing => rfl
  | .elseIf c => congrArg (List.cons _) (c.tokens_erase b)
  | .otherwise body => congrArg (List.cons _) (body.tokens_erase b)

end

theorem Stmt.length_eraseAll (ss : List Stmt) : (Stmt.eraseAll ss).length = ss.length := by
  induction ss with
  | nil => rfl
  | cons s ss ih => exact congrArg (· + 1) ih

mutual

/-- Nor does whether it fits. -/
theorem Expr.fits_erase (b : Bool) : ∀ e : Expr, e.erase.Fits b ↔ e.Fits b
  | .ident _ | .int _ _ | .str _ _ | .absent _ | .command _ _ => .rfl
  | .array elements _ => Expr.fitAll_erase elements
  | .prefixOp _ operand _ => operand.fits_erase b
  | .infixOp _ left right _ => and_congr (left.fits_erase b) (right.fits_erase b)
  | .index container position _ => and_congr (container.fits_erase b) (position.fits_erase true)
  | .call callee arguments _ => and_congr (callee.fits_erase b) (Expr.fitAll_erase arguments)
  | .builtin _ arguments _ => Expr.fitAll_erase arguments
  | .function literal => literal.fits_erase b
  | .nested inner _ => inner.fits_erase true

theorem Expr.fitAll_erase : ∀ es : List Expr, Expr.FitAll (Expr.eraseAll es) ↔ Expr.FitAll es
  | [] => .rfl
  | e :: es => and_congr (e.fits_erase true) (Expr.fitAll_erase es)

theorem FunctionLit.fits_erase (b : Bool) : ∀ f : FunctionLit, f.erase.Fits b ↔ f.Fits b
  | ⟨_, body, _⟩ => body.fits_erase b

theorem Block.fits_erase (b : Bool) : ∀ body : Block, body.erase.Fits b ↔ body.Fits b
  | ⟨statements, _⟩ => and_congr (by rw [Stmt.length_eraseAll]) (Stmt.fitAll_erase b statements)

theorem Stmt.fits_erase (b : Bool) : ∀ s : Stmt, s.erase.Fits b ↔ s.Fits b
  | .expr e => e.fits_erase b
  | .assign target value _ => and_congr (target.fits_erase b) (value.fits_erase b)
  | .conditional c => c.fits_erase b
  | .counted _ first last step _ body _ => and_congr (first.fits_erase b)
    (and_congr (last.fits_erase b) (and_congr (step.fits_erase b) (body.fits_erase b)))
  | .whileLoop condition body _ => and_congr (condition.fits_erase b) (body.fits_erase b)
  | .untilLoop body condition _ => and_congr (body.fits_erase b) (condition.fits_erase b)
  | .change target amount _ _ => and_congr (target.fits_erase b) (amount.fits_erase b)
  | .define _ function _ => function.fits_erase b
  | .giveBack value _ => value.fits_erase b

theorem Stmt.fitAll_erase (b : Bool) : ∀ ss : List Stmt,
    Stmt.FitAll b (Stmt.eraseAll ss) ↔ Stmt.FitAll b ss
  | [] => .rfl
  | s :: ss => and_congr (s.fits_erase b) (Stmt.fitAll_erase b ss)

theorem Conditional.fits_erase (b : Bool) : ∀ c : Conditional, c.erase.Fits b ↔ c.Fits b
  | ⟨condition, consequence, alternative, _⟩ => and_congr (condition.fits_erase b)
    (and_congr (consequence.fits_erase b) (alternative.fits_erase b))

theorem ElseBranch.fits_erase (b : Bool) : ∀ a : ElseBranch, a.erase.Fits b ↔ a.Fits b
  | .missing => .rfl
  | .elseIf c => c.fits_erase b
  | .otherwise body => body.fits_erase b

end

theorem Program.tokens_erase (p : Program) : p.erase.tokens = p.tokens :=
  Stmt.lines_erase false p.statements

theorem Program.fits_erase (p : Program) : p.erase.Fits ↔ p.Fits :=
  Stmt.fitAll_erase false p.statements

/-! ### Programs read from their own text -/

theorem Stmt.eof_not_mem_lineEnd (inside : Bool) (s : Stmt) : .eof ∉ s.lineEnd inside := by
  rw [Stmt.lineEnd]
  split <;> simp

/-- The end mark is no token of a tree. -/
theorem Reads.eof_not_mem {f : Form} {t : f.Tree} (h : Reads f c ts t c' ts') :
    (∀ b, .eof ∉ f.before b) → ∀ b, .eof ∉ f.tokens b t := by
  have hoperator {op : Token} (h : op.isOperator = true) : op ≠ .eof := by
    rintro rfl
    cases h
  induction h with
  | builtin name place span known _ ih =>
    simpa [Expr.tokens, Builtin.listTokens_arguments] using ih
  | signed op span sign _ ih => rcases sign with rfl | rfl <;> simpa [Expr.tokens] using ih
  | joined op span operator _ _ _ ih₁ ih₂ =>
    simp_all [Expr.tokens, (hoperator operator).symm]
  | moreExprs _ h₂ ih₁ ih₂ =>
    simp_all [Expr.listTokens, Expr.laterTokens_eq h₂.expressions_ne_nil]
  | moreParams name span h ih =>
    simp_all [paramTokens, laterParamTokens_eq h.params_ne_nil]
  | counted counter direction =>
    cases direction <;> simp_all [Stmt.tokens, Expr.tokens, Direction.countingToken]
  | change direction => cases direction <;> simp_all [Stmt.tokens, Direction.changingToken]
  | someStatements | lastHere | moreHere => simp_all [Stmt.lines, Stmt.eof_not_mem_lineEnd]
  | _ =>
    simp_all [Expr.tokens, Expr.listTokens, Expr.laterTokens, paramTokens, laterParamTokens,
      FunctionLit.tokens, Block.tokens, Stmt.lines, Stmt.tokens, Conditional.tokens,
      ElseBranch.tokens]

theorem Token.normal_normal (t : Token) : t.normal.normal = t.normal := by
  cases t with
  | command text =>
    rw [Token.normal, Token.normal, Command.ofText_inner]
  | _ => rfl

theorem map_normal_words (ts : List Token) : (words ts).map Token.normal = words ts := by
  rw [words, List.map_map]
  exact List.map_congr_left fun t _ => t.normal_normal

section Programs

variable {text : String} {p q : Program}

/-- The tokens of a program that was read from a text are written in one way. -/
theorem words_tokens (h : parseProgram text = .ok p) : words p.tokens = kept p.tokens := by
  obtain ⟨ts, c, -, -, hreads⟩ := reads_of_parsed h
  have hwords : words ts = kept p.tokens ++ words [] := hreads.words_eq false
  rw [words_nil, List.append_nil] at hwords
  rw [words, ← hwords, map_normal_words]

/-- The printed tokens are read as the second program. -/
theorem reads_of_reparsed (h : parseProgram text = .ok p) (h' : parseProgram p.text = .ok q) :
    ∃ c, Layout 0 p.tokens ∧
      Reads (.statements [.eof, .dedent]) false p.tokens q.statements c [] := by
  obtain ⟨ts, c, -, hlayout, hreads⟩ := reads_of_parsed h
  obtain ⟨us, c', hstream, hlayout', hreads'⟩ := reads_of_parsed h'
  rw [Program.stream_text hlayout hreads] at hstream
  have heof : .eof ∉ p.tokens := hreads.eof_not_mem (fun _ => nofun) false
  have htokens : p.tokens = us := Stream.prepend_inj hstream
    ((List.count_eq_zero.2 heof).trans (List.count_eq_zero.2 hlayout'.eof_not_mem).symm)
  exact ⟨c', htokens ▸ hlayout', htokens ▸ hreads'⟩

/-- What fits is read back. -/
theorem erase_eq_of_fits (h : parseProgram text = .ok p) (h' : parseProgram p.text = .ok q)
    (hfits : p.Fits) : q.erase = p.erase := by
  obtain ⟨ts, c, -, hlayout, hreads⟩ := reads_of_parsed h
  obtain ⟨c', htokens⟩ := Program.reads_tokens hlayout hfits hreads
  have heof := hreads.eof_not_mem (fun _ => nofun) false
  obtain ⟨r, hr, hstatements⟩ :=
    parseFeed_of_reads (Program.stream_text hlayout hreads) heof htokens
  obtain rfl : r = q := Except.ok.inj (hr.symm.trans h')
  rw [Program.erase, hstatements]
  rfl

/-- What is read back fits. -/
theorem fits_of_erase_eq (h : parseProgram text = .ok p) (h' : parseProgram p.text = .ok q)
    (herase : q.erase = p.erase) : p.Fits := by
  obtain ⟨c, hlayout, hreads⟩ := reads_of_reparsed h h'
  have htokens : q.tokens = p.tokens := by
    rw [← q.tokens_erase, herase, p.tokens_erase]
  have hpasses : Passes (separators q.tokens) q.Fits p.tokens [] := hreads.spends 0 hlayout
  have hfits : q.Fits := hpasses.exact (htokens ▸ le_rfl)
  rw [← p.fits_erase, ← herase]
  exact q.fits_erase.2 hfits

/-- **What a text means when it is printed.**  A program that was read from a
text, and from whose own text a program is read again, has the same words then.
It is the same program, up to places, exactly if every block of it that lies
inside brackets has one statement. -/
theorem reparsed_eq_iff_fits (text : String) (p q : Program) (h : parseProgram text = .ok p)
    (h' : parseProgram p.text = .ok q) :
    kept q.tokens = kept p.tokens ∧ (q.erase = p.erase ↔ p.Fits) := by
  obtain ⟨c, -, hreads⟩ := reads_of_reparsed h h'
  have hwords : words p.tokens = kept q.tokens ++ words [] := hreads.words_eq false
  rw [words_nil, List.append_nil, words_tokens h] at hwords
  exact ⟨hwords.symm, fits_of_erase_eq h h', erase_eq_of_fits h h'⟩

/-- Two statements inside brackets that are a call when they are read again. -/
theorem reparsed_eq_iff_fits_fused :
    ∃ p q, parseProgram "f(関数() を: a, (b) と定義する)" = .ok p ∧
      p.text = "f(関数() を:\n    a\n    (b)\nと定義する)" ∧
      parseProgram p.text = .ok q ∧ q.text = "f(関数() を:\n    a(b)\nと定義する)" ∧
      kept q.tokens = kept p.tokens ∧ q.erase ≠ p.erase ∧ ¬ p.Fits := by
  obtain ⟨p, hp, htext, hfits⟩ :
      ∃ p, parseProgram "f(関数() を: a, (b) と定義する)" = .ok p ∧
        p.text = "f(関数() を:\n    a\n    (b)\nと定義する)" ∧ ¬ p.Fits := by
    refine ⟨⟨[.expr (.call (.ident ⟨"f", ⟨0, 1⟩⟩)
      [.function ⟨[], ⟨[.expr (.ident ⟨"a", ⟨16, 17⟩⟩),
        .expr (.nested (.ident ⟨"b", ⟨20, 21⟩⟩) ⟨19, 22⟩)], ⟨14, 22⟩⟩, ⟨2, 38⟩⟩] ⟨0, 39⟩)],
      ⟨0, 39⟩⟩, by decide +kernel, by decide, ?_⟩
    rintro ⟨⟨-, ⟨hone, -⟩, -⟩, -⟩
    cases hone rfl
  obtain ⟨q, hq, hqtext⟩ :
      ∃ q, parseProgram p.text = .ok q ∧
        q.text = "f(関数() を:\n    a(b)\nと定義する)" := by
    rw [htext]
    exact ⟨⟨[.expr (.call (.ident ⟨"f", ⟨0, 1⟩⟩)
      [.function ⟨[], ⟨[.expr (.call (.ident ⟨"a", ⟨20, 21⟩⟩) [.ident ⟨"b", ⟨27, 28⟩⟩]
        ⟨20, 29⟩)], ⟨14, 29⟩⟩, ⟨2, 45⟩⟩] ⟨0, 46⟩)], ⟨0, 46⟩⟩, by decide +kernel, by decide⟩
  obtain ⟨hwords, heq⟩ := reparsed_eq_iff_fits _ p q hp hq
  exact ⟨p, q, hp, htext, hq, hqtext, hwords, fun h => hfits (heq.1 h), hfits⟩

end Programs

end Dncl
