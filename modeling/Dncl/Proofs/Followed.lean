/-
Dncl/Proofs/Followed.lean

Phrases that are followed by further tokens.

The tokens of a text end with a line break or the end of a block.  So no phrase
looks at what comes behind them, except for the token with which the next line
begins, and that is of no use to a phrase if it begins a statement:

    Reads f c ts t c' ts'   →   Reads f c (ts ++ us) t c' (ts' ++ us).

Hence the statements of `ts` may be followed by those of `us`, unless the last
of them has taken all tokens and still needs an end (`Reads.follow`); and then
nothing can be read at all (`Reads.stuck`).

Design.  `Sealed` is kept by every suffix, so it is asked of the whole list and
holds wherever a phrase begins.  Phrases whose last token is a word leave some
token behind (`Reads.ne_nil`).
-/
import Mathlib.Data.List.TakeWhile
import Dncl.Proofs.Completeness
import Dncl.Proofs.Layout

namespace Dncl

variable {rest stops ts ts' ts₁ ts₂ us : List Token} {c c' closed c₁ c₂ : Bool} {f : Form}

/-! ### Tokens that end with a line -/

/-- The last of the tokens, if there is one, is a layout token. -/
def Sealed (ts : List Token) : Prop :=
  ∀ t, ts.getLast? = some t → t.isSolid = false

/-- Whether the token goes on with what stands before it, at the start of a
line. -/
def Token.goesOn (t : Token) : Bool :=
  t = .newline || t = .symbol .comma || t = .keyword .wo || t = .keyword .endFunction ||
    continuesConditional t

section Sealed

variable {ts us ts' : List Token} {t : Token}

theorem Sealed.of_suffix (h : Sealed ts) (hsuffix : ts' <:+ ts) : Sealed ts' := by
  obtain ⟨front, rfl⟩ := hsuffix
  intro t ht
  refine h t ?_
  rw [List.getLast?_append, ht]
  rfl

theorem Sealed.tail (h : Sealed (t :: ts)) : Sealed ts :=
  h.of_suffix (List.suffix_cons _ _)

/-- Behind a word there is a further token. -/
theorem Sealed.ne_nil (h : Sealed (t :: ts)) (ht : t.isSolid = true) : ts ≠ [] := by
  rintro rfl
  exact Bool.false_ne_true ((h t rfl).symm.trans ht)

theorem Sealed.passBreak (h : Sealed ts) (continues : Token → Bool) :
    Sealed (passBreak continues ts) :=
  h.of_suffix (passBreak_suffix continues ts)

theorem Sealed.passToken (h : Sealed ts) (t : Token) : Sealed (passToken t ts) :=
  h.of_suffix (passToken_suffix t ts)

theorem Sealed.reads {t : f.Tree} (h : Sealed ts) (hreads : Reads f c ts t c' ts') : Sealed ts' :=
  h.of_suffix hreads.suffix

theorem Token.goesOn_eq_false : t.goesOn = false ↔ t ≠ .newline ∧ t ≠ .symbol .comma ∧
    t ≠ .keyword .wo ∧ t ≠ .keyword .endFunction ∧ continuesConditional t = false := by
  simp [Token.goesOn, and_assoc]

/-! ### Looking ahead before further tokens -/

theorem inView_append (h : ts ≠ []) : inView (ts ++ us) = inView ts := by
  cases ts with
  | nil => exact absurd rfl h
  | cons t ts => rfl

theorem inView_append_ne (h : inView ts ≠ t) (hus : inView us ≠ t) : inView (ts ++ us) ≠ t := by
  cases ts with
  | nil => exact hus
  | cons u ts => exact h

theorem dropBreaks_append (h : ts.dropWhile (· = .newline) = ts') (hne : ts' ≠ []) :
    (ts ++ us).dropWhile (· = .newline) = ts' ++ us := by
  rw [List.dropWhile_append, h, if_neg (by simpa using hne)]

theorem passEnd_append (hne : ts ≠ []) :
    passEnd closed (ts ++ us) = (passEnd closed ts).map (· ++ us) := by
  rw [passEnd.eq_def, passEnd.eq_def, inView_append hne]
  split
  · rw [List.tail_append_of_ne_nil hne]
    rfl
  · rw [List.tail_append_of_ne_nil hne]
    rfl
  · rfl
  · rfl
  · split <;> rfl

theorem passToken_append (h : ts ≠ []) : passToken t (ts ++ us) = passToken t ts ++ us := by
  rw [passToken, passToken, inView_append h]
  split
  · exact List.tail_append_of_ne_nil h
  · rfl

theorem passBreak_append {continues : Token → Bool} (hbreak : inView us ≠ .newline)
    (hus : continues (inView us) = false) (heof : continues .eof = false) :
    passBreak continues (ts ++ us) = passBreak continues ts ++ us := by
  rcases ts with _ | ⟨t, _ | ⟨u, ts⟩⟩
  · have hnone : ¬(inView [] = .newline ∧ continues (inView [].tail) = true) :=
      fun h => by cases h.1
    rw [passBreak, passBreak, List.nil_append, if_neg (fun h => hbreak h.1), if_neg hnone]
    rfl
  · rw [passBreak, passBreak, if_neg, if_neg]
    · exact fun h => by simp [heof] at h
    · exact fun h => by simp [hus] at h
  · by_cases hgoes : t = .newline ∧ continues u = true
    · rw [passBreak, passBreak, if_pos (by exact hgoes), if_pos (by exact hgoes)]
      rfl
    · rw [passBreak, passBreak, if_neg (by exact hgoes), if_neg (by exact hgoes)]

theorem opensExpression_append (h : Sealed ts) (hne : ts ≠ []) :
    opensExpression (ts ++ us) = opensExpression ts := by
  match ts with
  | [] => exact absurd rfl hne
  | [t] =>
    cases t with
    | keyword k => exact absurd rfl (h.ne_nil rfl)
    | _ => rfl
  | t :: u :: ts =>
    cases t with
    | keyword k => cases k <;> rfl
    | _ => rfl

end Sealed

/-- A phrase of the form may begin here: what follows an expression does not
begin at the end. -/
def Form.Begins (ts : List Token) : Form → Prop
  | .operators _ _ | .continued _ => ts ≠ []
  | _ => True

/-- A phrase that ends with a word leaves a token behind. -/
theorem Reads.ne_nil {t : f.Tree} (h : Reads f c ts t c' ts') (hts : Sealed ts)
    (hbegins : f.Begins ts) (hf : f.isFirm = true) : ts' ≠ [] := by
  induction h <;>
    grind [Form.isFirm, Form.Begins, → Sealed.ne_nil, → Sealed.reads, → Sealed.tail,
      Sealed.passBreak, Sealed.passToken, Token.isSolid]

/-- A phrase of the form leaves tokens, if statements are asked for: they may stop
at the end otherwise. -/
def Form.Leaves (ts' : List Token) : Form → Prop
  | .statements _ => ts' ≠ []
  | _ => True

/-- There is a token with which the phrase begins. -/
theorem Reads.ne_nil_of_isSolid {t : f.Tree} (h : Reads f c ts t c' ts') (hf : f.isSolid = true) :
    ts ≠ [] :=
  List.ne_nil_of_length_pos (Nat.zero_lt_of_lt (h.length_lt hf))

/-- **A phrase is read by itself.**  It is read in the same way if further tokens
follow the line with which its tokens end. -/
theorem Reads.followed (hus : (inView us).goesOn = false) {t : f.Tree} (h : Reads f c ts t c' ts')
    (hts : Sealed ts) (hbegins : f.Begins ts) (hleaves : f.Leaves ts') :
    Reads f c (ts ++ us) t c' (ts' ++ us) := by
  obtain ⟨hnewline, hcomma, hwo, hend, hconditional⟩ := Token.goesOn_eq_false.1 hus
  have hcloses : ∀ ts, passBreak (· = .keyword .endFunction) (ts ++ us) = _ ++ us := fun _ =>
    passBreak_append hnewline (decide_eq_false hend) rfl
  have hruns : ∀ ts, passBreak (· = .keyword .wo) (ts ++ us) = _ ++ us := fun _ =>
    passBreak_append hnewline (decide_eq_false hwo) rfl
  have hbranches : ∀ ts, passBreak continuesConditional (ts ++ us) = _ ++ us := fun _ =>
    passBreak_append hnewline hconditional rfl
  induction h with
  -- operands
  | int value span => exact .int value span
  | str text span => exact .str text span
  | command text span => exact .command text span
  | ident name span plain =>
    exact .ident name span (plain.imp_right (inView_append (hts.ne_nil rfl) ▸ ·))
  | builtin name place span known _ ih =>
    exact .builtin name place span known (ih hts.tail.tail trivial trivial)
  | signed op span sign _ ih => exact .signed op span sign (ih hts.tail trivial trivial)
  | nested span _ ih => exact .nested span (ih hts.tail trivial trivial)
  | array span _ ih => exact .array span (ih hts.tail trivial trivial)
  | literal _ ih => exact .literal (ih hts.tail trivial trivial)
  -- expressions
  | expression h₁ _ ih₁ ih₂ =>
    exact .expression (ih₁ hts trivial trivial)
      (ih₂ (hts.reads h₁) (h₁.ne_nil hts trivial rfl) trivial)
  | stop weak => exact .stop (inView_append hbegins ▸ weak)
  | called span tight h₁ _ ih₁ ih₂ =>
    exact .called span tight (ih₁ hts.tail trivial trivial)
      (ih₂ (hts.tail.reads h₁) (h₁.ne_nil hts.tail trivial rfl) trivial)
  | indexed span tight h₁ _ ih₁ ih₂ =>
    have hrest := hts.tail.reads h₁
    exact .indexed span tight (ih₁ hts.tail trivial trivial)
      (ih₂ hrest.tail (hrest.ne_nil rfl) trivial)
  | negated span tight _ ih => exact .negated span tight (ih hts.tail (hts.ne_nil rfl) trivial)
  | joined op span operator tight h₁ _ ih₁ ih₂ =>
    exact .joined op span operator tight (ih₁ hts.tail trivial trivial)
      (ih₂ (hts.tail.reads h₁) (h₁.ne_nil hts.tail trivial rfl) trivial)
  -- lists
  | noItems => exact .noItems
  | someItems some h ih =>
    exact .someItems (inView_append (h.ne_nil_of_isSolid rfl) ▸ some) (ih hts trivial trivial)
  | lastExpr last h ih =>
    exact .lastExpr (inView_append (h.ne_nil hts trivial rfl) ▸ last) (ih hts trivial trivial)
  | moreExprs h₁ _ ih₁ ih₂ =>
    exact .moreExprs (ih₁ hts trivial trivial) (ih₂ (hts.reads h₁).tail trivial trivial)
  | noParams => exact .noParams
  | someParams some h ih =>
    exact .someParams (inView_append (h.ne_nil_of_isSolid rfl) ▸ some) (ih hts trivial trivial)
  | lastParam name span last =>
    exact .lastParam name span (inView_append (hts.ne_nil rfl) ▸ last)
  | moreParams name span _ ih => exact .moreParams name span (ih hts.tail.tail trivial trivial)
  -- functions and blocks
  | function span closes h₁ _ ih₁ ih₂ =>
    refine .function span ?_ (ih₁ hts.tail trivial trivial)
      (ih₂ (hts.tail.reads h₁).tail trivial trivial)
    rw [hcloses, closes, List.cons_append]
  | lines span _ ih => exact .lines span (ih hts.tail.tail.tail trivial (List.cons_ne_nil _ _))
  | oneLine span here _ ih =>
    exact .oneLine span (inView_append (hts.ne_nil rfl) ▸ here) (ih hts.tail trivial trivial)
  | lastHere last _ ih => exact .lastHere (inView_append_ne last hcomma) (ih hts trivial trivial)
  | moreHere h₁ _ ih₁ ih₂ =>
    exact .moreHere (ih₁ hts trivial trivial) (ih₂ (hts.reads h₁).tail trivial trivial)
  | noStatements breaks stop =>
    exact .noStatements (dropBreaks_append breaks hleaves) (inView_append hleaves ▸ stop)
  | @someStatements _ _ _ _ _ _ ts₂ _ _ _ _ breaks goes ended h₁ h₂ ih₁ ih₂ =>
    have hsealed := hts.of_suffix (breaks ▸ List.dropWhile_suffix _)
    -- some token is left at the end, so there is one behind the statement
    have hbehind : ts₂ ≠ [] := fun hnil =>
      hleaves (List.suffix_nil.1 (hnil ▸ h₂.suffix.trans (passEnd_suffix ended)))
    refine .someStatements (dropBreaks_append breaks (h₁.ne_nil_of_isSolid rfl))
      (inView_append (h₁.ne_nil_of_isSolid rfl) ▸ goes) ?_ (ih₁ hsealed trivial trivial)
      (ih₂ ((hsealed.reads h₁).of_suffix (passEnd_suffix ended)) trivial hleaves)
    rw [passEnd_append hbehind, ended]
    rfl
  -- statements
  | define name place span _ ih => exact .define name place span (ih hts.tail.tail trivial trivial)
  | conditional _ ih => exact .conditional (ih hts.tail trivial trivial)
  | untilLoop span closes h₁ _ ih₁ ih₂ =>
    have hrest : Sealed (.keyword .wo :: _) := closes ▸ (hts.tail.reads h₁).passBreak _
    have hcondition := ih₂ (hrest.tail.passToken _) trivial trivial
    rw [← passToken_append (hrest.ne_nil rfl)] at hcondition
    refine .untilLoop span ?_ (ih₁ hts.tail trivial trivial) hcondition
    rw [hruns, closes, List.cons_append]
  | opened opens h₁ _ ih₁ ih₂ =>
    exact .opened ((opensExpression_append hts (h₁.ne_nil_of_isSolid rfl)).trans opens)
      (ih₁ hts trivial trivial)
      (ih₂ (hts.reads h₁) (h₁.ne_nil hts trivial rfl) trivial)
  | plain ends => exact .plain (inView_append hbegins ▸ ends)
  | assign span assignable _ ih => exact .assign span assignable (ih hts.tail trivial trivial)
  | counted counter direction span h₁ h₂ h₃ _ ih₁ ih₂ ih₃ ih₄ =>
    have hlast := (hts.tail.reads h₁).tail
    have hstep := (hlast.reads h₂).tail
    have hrest := (hstep.reads h₃).tail
    have hbody := ih₄ (hrest.tail.passToken _) trivial trivial
    rw [← passToken_append (hrest.ne_nil (by cases direction <;> rfl))] at hbody
    exact .counted counter direction span (ih₁ hts.tail trivial trivial)
      (ih₂ hlast trivial trivial) (ih₃ hstep trivial trivial) hbody
  | change direction span assignable _ ih =>
    exact .change direction span assignable (ih hts.tail trivial trivial)
  | whileLoop span _ ih =>
    have hbody := ih (hts.tail.passToken _) trivial trivial
    rw [← passToken_append (hts.ne_nil rfl)] at hbody
    exact .whileLoop span hbody
  | giveBack span => exact .giveBack span
  -- conditionals
  | branches span h₁ h₂ _ ih₁ ih₂ ih₃ =>
    have hbody := (hts.reads h₁).tail
    refine .branches span (ih₁ hts trivial trivial) (ih₂ hbody trivial trivial) ?_
    rw [hbranches]
    exact ih₃ ((hbody.reads h₂).passBreak _) trivial trivial
  | elseIf _ ih => exact .elseIf (ih hts.tail trivial trivial)
  | otherwise _ ih => exact .otherwise (ih hts.tail trivial trivial)
  | @missing _ ts ends =>
    refine .missing ?_
    cases ts with
    | nil => exact hconditional
    | cons t ts => exact ends

/-! ### Blocks at the end -/

/-- The last token is the end of a block. -/
def EndsBlock (ts : List Token) : Prop :=
  ts.getLast? = some .dedent

theorem EndsBlock.of_suffix (h : EndsBlock ts') (hsuffix : ts' <:+ ts) : EndsBlock ts := by
  obtain ⟨front, rfl⟩ := hsuffix
  rw [EndsBlock, List.getLast?_append, h]
  rfl

theorem EndsBlock.suffix (h : EndsBlock ts) (hsuffix : ts' <:+ ts) (hne : ts' ≠ []) :
    EndsBlock ts' := by
  obtain ⟨front, rfl⟩ := hsuffix
  rw [EndsBlock, List.getLast?_append] at h
  cases hlast : ts'.getLast? with
  | none => exact absurd (List.getLast?_eq_none_iff.1 hlast) hne
  | some t =>
    rw [hlast] at h
    exact hlast.trans h

theorem passBreak_eq_nil {continues : Token → Bool} (heof : continues .eof = false)
    (h : passBreak continues ts = []) : ts = [] := by
  rw [passBreak] at h
  split at h
  · rename_i hgoes
    rw [h] at hgoes
    exact absurd (heof.symm.trans hgoes.2) Bool.false_ne_true
  · exact h

/-- The forms whose phrases may end with a block. -/
def Form.isLoose : Form → Bool
  | .block | .sameLine | .statement | .continued _ | .conditional | .elseBranch => true
  | _ => false

/-- A phrase that takes all tokens ends with a block. -/
theorem Reads.endsBlock {t : f.Tree} (h : Reads f c ts t c' ts') (hts : Sealed ts)
    (hbegins : f.Begins ts) (hf : f.isLoose = true) (hall : ts' = []) : ts = [] ∨ EndsBlock ts := by
  -- the phrase ends with another one that takes all tokens
  have hup : ∀ {us vs : List Token}, us = [] ∨ EndsBlock us → us ≠ [] → us <:+ vs →
      vs = [] ∨ EndsBlock vs := fun h hne hsuffix => .inr ((h.resolve_left hne).of_suffix hsuffix)
  induction h with
  | lines span h =>
    subst hall
    have hlast : EndsBlock [.dedent] := rfl
    exact .inr (hlast.of_suffix (h.suffix.trans ⟨[_, _, _], rfl⟩))
  | oneLine span here _ ih =>
    exact hup (ih hts.tail trivial rfl hall) (hts.ne_nil rfl) (List.suffix_cons _ _)
  | lastHere last _ ih => exact ih hts trivial rfl hall
  | moreHere h₁ h₂ _ ih₂ =>
    exact hup (ih₂ (hts.reads h₁).tail trivial rfl hall) (h₂.ne_nil_of_isSolid rfl)
      ((List.suffix_cons _ _).trans h₁.suffix)
  | define name place span h => exact absurd hall (h.ne_nil hts.tail.tail trivial rfl)
  | conditional _ ih =>
    exact hup (ih hts.tail trivial rfl hall) (hts.ne_nil rfl) (List.suffix_cons _ _)
  | untilLoop span closes h₁ h₂ =>
    have hrest : Sealed (.keyword .wo :: _) := closes ▸ (hts.tail.reads h₁).passBreak _
    exact absurd hall (((hrest.tail.passToken _).reads h₂).ne_nil rfl)
  | opened opens h₁ _ _ ih₂ =>
    have hne := h₁.ne_nil hts trivial rfl
    exact hup (ih₂ (hts.reads h₁) hne rfl hall) hne h₁.suffix
  | plain => exact absurd hall hbegins
  | assign span assignable h => exact absurd hall (h.ne_nil hts.tail trivial rfl)
  | change direction span assignable h =>
    exact absurd hall ((hts.tail.reads h).ne_nil (by cases direction <;> rfl))
  | giveBack => exact absurd hall (hts.ne_nil rfl)
  | counted counter direction span h₁ h₂ h₃ h₄ _ _ _ ih =>
    have hrest := (((hts.tail.reads h₁).tail.reads h₂).tail.reads h₃).tail
    have hstep := (passToken_suffix (.keyword .repeated) _).trans
      ((List.suffix_append [_, _] _).trans h₃.suffix)
    have hlast := hstep.trans ((List.suffix_cons _ _).trans h₂.suffix)
    have hfirst := hlast.trans ((List.suffix_cons _ _).trans h₁.suffix)
    exact hup (ih (hrest.tail.passToken _) trivial rfl hall) (h₄.ne_nil_of_isSolid rfl)
      (hfirst.trans (List.suffix_cons _ _))
  | whileLoop span h ih =>
    exact hup (ih (hts.tail.passToken _) trivial rfl hall) (h.ne_nil_of_isSolid rfl)
      ((passToken_suffix _ _).trans (List.suffix_cons _ _))
  | branches span h₁ h₂ h₃ _ ih₂ ih₃ =>
    have hbody := (hts.reads h₁).tail
    have hsuffix := (List.suffix_cons _ _).trans h₁.suffix
    rcases ih₃ ((hbody.reads h₂).passBreak _) trivial rfl hall with hnil | hends
    · refine hup (ih₂ hbody trivial rfl (passBreak_eq_nil rfl hnil)) (h₂.ne_nil_of_isSolid rfl)
        hsuffix
    · exact .inr (hends.of_suffix ((passBreak_suffix _ _).trans (h₂.suffix.trans hsuffix)))
  | elseIf h ih =>
    exact hup (ih hts.tail trivial rfl hall) (hts.ne_nil rfl) (List.suffix_cons _ _)
  | otherwise h ih =>
    exact hup (ih hts.tail trivial rfl hall) (hts.ne_nil rfl) (List.suffix_cons _ _)
  | missing => exact .inl hall
  | _ => cases hf

/-! ### One statement after the other -/

theorem Reads.of_nil {ss : List Stmt} (h : Reads (.statements stops) c [] ss c' ts') :
    ss = [] ∧ c' = c := by
  cases h with
  | noStatements => exact ⟨rfl, rfl⟩
  | someStatements breaks _ _ h => exact absurd breaks.symm (h.ne_nil_of_isSolid rfl)

/-- An action reads one thing from a list of tokens, and leaves one rest. -/
theorem Parse.Accepts.unique {α β : Type} {x : Parse α} {view : α → β} {a b : β}
    (h : x.Accepts view false ts a c₁ ts₁) (h' : x.Accepts view false ts b c₂ ts₂)
    (hcount : ts₁.count .eof = ts₂.count .eof) : a = b ∧ c₁ = c₂ ∧ ts₁ = ts₂ := by
  obtain ⟨w, -, hw⟩ := Window.exists_ofFeed (Feed.stream_items (ts.map (⟨·, default⟩)))
  rw [List.map_map, show Lexeme.token ∘ _ = id from rfl, List.map_id] at hw
  obtain ⟨_, w₁, hrun, ha, hw₁⟩ := h w hw
  obtain ⟨_, w₂, hrun', hb, hw₂⟩ := h' w hw
  cases hrun.symm.trans hrun'
  exact ⟨ha.symm.trans hb, hw₁.flag.symm.trans hw₂.flag,
    Stream.prepend_inj (hw₁.stream.symm.trans hw₂.stream) hcount⟩

theorem Reads.statement_unique {d : Bool} {s s' : Stmt} (h : Reads .statement c ts s c₁ ts₁)
    (h' : Reads .statement d ts s' c₂ ts₂) : s.erase = s'.erase ∧ c₁ = c₂ ∧ ts₁ = ts₂ := by
  have haccepts := (h.restart false).accepted _ (Nat.le_refl _)
  refine haccepts.unique ((h'.restart false).accepted _ (Nat.le_refl _)) ?_
  rw [h.count_eof, h'.count_eof]

/-! ### How statements begin -/

/-- A statement may begin with the token: it is a word, and goes on with nothing. -/
def Token.Opens (t : Token) : Prop :=
  t.isSolid = true ∧ t.goesOn = false

theorem Reads.operand_opens {e : Expr} (h : Reads .operand c ts e c' ts') : (inView ts).Opens := by
  cases h with
  | signed op span sign =>
    rcases sign with rfl | rfl
    · exact ⟨rfl, rfl⟩
    · exact ⟨rfl, rfl⟩
  | _ => exact ⟨rfl, rfl⟩

theorem Reads.statement_opens {s : Stmt} (h : Reads .statement c ts s c' ts') :
    (inView ts).Opens := by
  cases h with
  | opened _ h =>
    cases h with
    | expression h => exact h.operand_opens
  | _ => exact ⟨rfl, rfl⟩

/-- Tokens that do not begin with a line break are none, or begin a statement. -/
theorem Reads.opens {ss : List Stmt} (h : Reads (.statements stops) c ts ss c' [])
    (hbreak : inView ts ≠ .newline) : ts = [] ∧ ss = [] ∨ (inView ts).Opens ∧ ss ≠ [] := by
  have hsame : ts.dropWhile (· = .newline) = ts := by
    cases ts with
    | nil => rfl
    | cons t ts => exact List.dropWhile_cons_of_neg (by simpa using hbreak)
  cases h with
  | noStatements breaks => exact .inl ⟨hsame.symm.trans breaks, rfl⟩
  | someStatements breaks _ _ h =>
    rw [hsame.symm.trans breaks]
    exact .inr ⟨h.statement_opens, List.cons_ne_nil _ _⟩

/-! ### Programs one behind the other -/

section Programs

variable {ts us : List Token}

theorem dropBreaks_of_all (h : ts.dropWhile (· = .newline) = []) :
    (ts ++ us).dropWhile (· = .newline) = us.dropWhile (· = .newline) := by
  rw [List.dropWhile_append, h]
  rfl

/-- **Statements follow statements.**  The statements of `us` may follow those
of `ts` if the last of these does not end with a block, or has no need of
another end. -/
theorem Reads.follow {d d' : Bool} {ss' : List Stmt} (hus : (inView us).goesOn = false)
    (hnext : Reads (.statements [.eof, .dedent]) d us ss' d' []) :
    ∀ {c c' ts ss}, Reads (.statements [.eof, .dedent]) c ts ss c' [] → Sealed ts →
      (EndsBlock ts → us = [] ∨ c' = true) →
      ∃ e, Reads (.statements [.eof, .dedent]) c (ts ++ us) (ss ++ ss') e []
  | c, _, _, _, .noStatements breaks _, _, _ => hnext.restartAll c (dropBreaks_of_all breaks)
  | _, c', ts, _, @Reads.someStatements _ _ _ ts₁ s c₂ ts₂ ts₃ ss _ _ breaks goes ended h₁ h₂,
      hts, hends => by
    obtain ⟨hnewline, hcomma, -⟩ := Token.goesOn_eq_false.1 hus
    have hsuffix : ts₁ <:+ ts := breaks ▸ List.dropWhile_suffix _
    have hfirst := h₁.ne_nil_of_isSolid rfl
    have hsealed := hts.of_suffix hsuffix
    have hbreaks : (ts ++ us).dropWhile (· = .newline) = ts₁ ++ us :=
      dropBreaks_append breaks hfirst
    have hstatement := h₁.followed hus hsealed trivial trivial
    have hgoes : inView (ts₁ ++ us) ∉ [Token.eof, .dedent] := inView_append hfirst ▸ goes
    by_cases hall : ts₂ = []
    · -- the statement takes all tokens, so nothing but its block can end it
      subst hall
      obtain rfl : ts₃ = [] := List.suffix_nil.1 (passEnd_suffix ended)
      obtain ⟨rfl, rfl⟩ := h₂.of_nil
      have hblock := (h₁.endsBlock hsealed trivial rfl rfl).resolve_left hfirst
      have hend : passEnd c' us = some us := by
        refine passEnd_eq_some.2 (.inr ⟨rfl, hnewline, hcomma, ?_⟩)
        rcases hends (hblock.of_suffix hsuffix) with rfl | hclosed
        · exact .inr (.inl rfl)
        · exact .inr (.inr hclosed)
      obtain ⟨e, hothers⟩ := hnext.restartAll c' rfl
      exact ⟨e, .someStatements hbreaks hgoes hend hstatement hothers⟩
    · have hrest : ts₃ <:+ ts₂ := passEnd_suffix ended
      have hend : passEnd c₂ (ts₂ ++ us) = some (ts₃ ++ us) := by
        rw [passEnd_append hall, ended]
        rfl
      obtain ⟨e, hothers⟩ := Reads.follow hus hnext h₂ ((hsealed.reads h₁).of_suffix hrest)
        fun h => hends (h.of_suffix (hrest.trans (h₁.suffix.trans hsuffix)))
      exact ⟨e, .someStatements hbreaks hgoes hend hstatement hothers⟩

/-- If the last statement ends with a block and still needs an end, no statement
follows it. -/
theorem Reads.stuck {e : Bool} {ss' : List Stmt} (hus : (inView us).goesOn = false)
    (hdedent : inView us ≠ .dedent) (heof : inView us ≠ .eof) :
    ∀ {c ts ss}, Reads (.statements [.eof, .dedent]) c ts ss false [] → Sealed ts → EndsBlock ts →
      ¬Reads (.statements [.eof, .dedent]) c (ts ++ us) ss' e []
  | _, _, _, .noStatements breaks _, _, hends => by
    have hbreak := List.dropWhile_eq_nil_iff.1 breaks _ (List.mem_of_getLast? hends)
    cases of_decide_eq_true hbreak
  | _, ts, _, @Reads.someStatements _ _ _ ts₁ s c₂ ts₂ ts₃ ss _ _ breaks goes ended h₁ h₂,
      hts, hends => by
    intro h
    obtain ⟨hnewline, hcomma, -⟩ := Token.goesOn_eq_false.1 hus
    have hsuffix : ts₁ <:+ ts := breaks ▸ List.dropWhile_suffix _
    have hfirst := h₁.ne_nil_of_isSolid rfl
    have hsealed := hts.of_suffix hsuffix
    have hbreaks : (ts ++ us).dropWhile (· = .newline) = ts₁ ++ us :=
      dropBreaks_append breaks hfirst
    have hstatement := h₁.followed hus hsealed trivial trivial
    cases h with
    | noStatements breaks' =>
      exact hfirst (List.append_eq_nil_iff.1 (hbreaks.symm.trans breaks')).1
    | someStatements breaks' goes' ended' g₁ g₂ =>
      obtain rfl := breaks'.symm.trans hbreaks
      -- both derivations read the same first statement, however many tokens follow it
      obtain ⟨-, rfl, rfl⟩ := g₁.statement_unique hstatement
      by_cases hall : ts₂ = []
      · -- the last statement: no token of `us` ends it
        subst hall
        obtain rfl : ts₃ = [] := List.suffix_nil.1 (passEnd_suffix ended)
        obtain ⟨-, rfl⟩ := h₂.of_nil
        rcases passEnd_eq_some.1 ended' with (rfl | rfl) | ⟨-, -, -, hend | hend | hend⟩
        · exact hnewline rfl
        · exact hcomma rfl
        · exact hdedent hend
        · exact heof hend
        · cases hend
      · rw [passEnd_append hall, ended] at ended'
        obtain rfl := Option.some.inj ended'
        have hrest : ts₃ <:+ ts₂ := passEnd_suffix ended
        have hlast := hends.suffix (h₁.suffix.trans hsuffix) hall
        refine Reads.stuck hus hdedent heof h₂ ((hsealed.reads h₁).of_suffix hrest)
          (hlast.suffix hrest ?_) g₂
        rintro rfl
        rcases passEnd_eq_some.1 ended with (rfl | rfl) | ⟨rfl, -⟩
        · cases hlast
        · cases hlast
        · exact hall rfl

end Programs

/-! ### Brackets -/

/-- How many brackets are open after the tokens. -/
def depthOver (d : Nat) (ts : List Token) : Nat :=
  ts.foldl Token.depthAfter d

theorem depthOver_cons (d : Nat) (t : Token) (ts : List Token) :
    depthOver d (t :: ts) = depthOver (t.depthAfter d) ts :=
  rfl

theorem depthOver_of_passToken {t : Token} {d n : Nat} (ht : ∀ d, t.depthAfter d = d)
    (h : depthOver d (passToken t ts) = n) : depthOver d ts = n := by
  rw [← h]
  exact (apply_passToken (fun ts => by rw [depthOver_cons, ht]) ts).symm

theorem depthOver_of_passBreak {continues : Token → Bool} (h : passBreak continues ts = rest)
    (d : Nat) : depthOver d ts = depthOver d rest := by
  rw [← h]
  exact (apply_passBreak (fun _ => rfl) continues ts).symm

theorem depthOver_dropBreaks (d : Nat) (ts : List Token) :
    depthOver d (ts.dropWhile (· = .newline)) = depthOver d ts :=
  apply_dropBreaks (fun _ => rfl) ts

theorem depthOver_passEnd (d : Nat) (h : passEnd closed ts = some rest) :
    depthOver d rest = depthOver d ts := by
  rcases passEnd_eq_some.1 h with (rfl | rfl) | ⟨rfl, -⟩ <;> rfl

/-- A phrase closes the brackets that it opens. -/
theorem Reads.depthOver_eq {t : f.Tree} (h : Reads f c ts t c' ts') :
    ∀ d, depthOver d ts = depthOver (f.depthAfter d) ts' := by
  induction h with
  | int | str | command | ident | noItems | noParams | lastParam | giveBack => exact fun _ => rfl
  | stop | plain | missing => exact fun _ => rfl
  -- the brackets of these forms enclose phrases
  | builtin _ _ _ _ _ ih | nested _ _ ih | array _ _ ih => exact fun d => ih (d + 1)
  | called _ _ _ _ ih₁ ih₂ | indexed _ _ _ _ ih₁ ih₂ => exact fun d => (ih₁ (d + 1)).trans (ih₂ d)
  | function _ closes _ _ ih₁ ih₂ =>
    exact fun d => (ih₁ (d + 1)).trans ((ih₂ d).trans (depthOver_of_passBreak closes d))
  -- the others have none of their own
  | signed op _ sign _ ih =>
    rcases sign with rfl | rfl
    · exact ih
    · exact ih
  | joined op _ operator _ _ _ ih₁ ih₂ =>
    intro d
    rw [depthOver_cons, Token.depthAfter_operator operator]
    exact (ih₁ d).trans (ih₂ d)
  | literal _ ih | negated _ _ _ ih | oneLine _ _ _ ih | conditional _ ih | assign _ _ _ ih
  | elseIf _ ih | otherwise _ ih | moreParams _ _ _ ih | define _ _ _ _ ih | lastExpr _ _ ih
  | lastHere _ _ ih | someItems _ _ ih | someParams _ _ ih | lines _ _ ih => exact ih
  | expression _ _ ih₁ ih₂ | opened _ _ _ ih₁ ih₂ | moreExprs _ _ ih₁ ih₂
  | moreHere _ _ ih₁ ih₂ => exact fun d => (ih₁ d).trans (ih₂ d)
  | noStatements breaks _ => exact fun d => breaks ▸ (depthOver_dropBreaks d _).symm
  | someStatements breaks _ ended _ _ ih₁ ih₂ =>
    intro d
    rw [← depthOver_dropBreaks, breaks]
    exact (ih₁ d).trans ((depthOver_passEnd d ended).symm.trans (ih₂ d))
  | untilLoop _ closes _ _ ih₁ ih₂ =>
    intro d
    have hcondition := depthOver_of_passToken (fun _ => rfl) (ih₂ d)
    exact (ih₁ d).trans ((depthOver_of_passBreak closes d).trans hcondition)
  | counted _ direction _ _ _ _ _ ih₁ ih₂ ih₃ ih₄ =>
    intro d
    refine (ih₁ d).trans ((ih₂ d).trans ((ih₃ d).trans ?_))
    rw [depthOver_cons, depthOver_cons, direction.depthAfter_countingToken]
    exact depthOver_of_passToken (fun _ => rfl) (ih₄ d)
  | change direction _ _ _ ih =>
    intro d
    refine (ih d).trans ?_
    rw [depthOver_cons, direction.depthAfter_changingToken]
    rfl
  | whileLoop _ _ ih =>
    intro d
    have hbody := depthOver_of_passToken (fun _ => rfl) (ih d)
    exact hbody
  | branches _ _ _ _ ih₁ ih₂ ih₃ =>
    exact fun d => (ih₁ d).trans ((ih₂ d).trans ((depthOver_of_passBreak rfl d).trans (ih₃ d)))

end Dncl
