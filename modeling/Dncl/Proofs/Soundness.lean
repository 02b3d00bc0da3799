/-
Dncl/Proofs/Soundness.lean

What the parser reads is a phrase of the grammar.

    parse n p w = .ok t w'  →  Reads f c ts t c' ts'

where the window `w` shows the tokens `ts`, the window `w'` shows `ts'`, and
`f` is the form of the phrase `p`.

Design.  `Yields` says what is known of an action once it has succeeded, in
terms of the tokens before and after it, so that windows appear only in the
lemmas about single actions.  A rule is sound if the parsers that it is given
are (`Faithful`): there is one lemma for each rule and no induction in any of
them; the only induction is on the number of unfoldings.  Each proof takes its
rule apart action by action and puts the constructor of the relation in its
place.
-/
import Dncl.Grammar
import Dncl.Proofs.Stream

namespace Dncl

variable {w w' : Window} {ts ts₀ : List Token} {object target : Expr}

/-! ### Actions -/

namespace Parse

variable {α β : Type} {c : Bool} {ts : List Token} {t : Token}

/-- If the action succeeds before the tokens `ts`, then `Q` holds of what it
gives, and of the flag and the tokens after it. -/
def Yields (x : Parse α) (c : Bool) (ts : List Token) (Q : α → Bool → List Token → Prop) : Prop :=
  ∀ ⦃w a w' s⦄, Window.Shows w c ts s → x w = .ok a w' →
    ∃ c' ts', w'.Shows c' ts' s ∧ Q a c' ts'

variable {Q : β → Bool → List Token → Prop}

/-- The second action begins with what the first one leaves. -/
theorem Yields.bind {x : Parse α} {f : α → Parse β} {R : α → Bool → List Token → Prop}
    (hx : x.Yields c ts R) (hf : ∀ a c₁ ts₁, R a c₁ ts₁ → (f a).Yields c₁ ts₁ Q) :
    (x >>= f).Yields c ts Q := by
  intro w b w' s hw done
  obtain ⟨a, w₁, hrun, done⟩ := bind_eq_ok.1 done
  obtain ⟨c₁, ts₁, hw₁, ha⟩ := hx hw hrun
  exact hf a c₁ ts₁ ha hw₁ done

theorem yields_pure {b : β} (h : Q b c ts) : (pure b : Parse β).Yields c ts Q := by
  intro w b' w' s hw done
  obtain ⟨rfl, rfl⟩ := pure_eq_ok.1 done
  exact ⟨c, ts, hw, h⟩

theorem yields_fail {cause : SyntaxCause} {span : Span} :
    (fail cause span : Parse β).Yields c ts Q :=
  fun _ _ _ _ _ done => (not_fail done).elim

theorem yields_failHere {cause : SyntaxCause} :
    (currentSpan >>= fail cause : Parse β).Yields c ts Q := by
  intro w b w' s _ done
  obtain ⟨span, w₁, -, done⟩ := bind_eq_ok.1 done
  exact (not_fail done).elim

theorem yields_unexpected {expected : List String} :
    (unexpected expected : Parse β).Yields c ts Q :=
  fun _ _ _ _ _ done => (not_unexpected done).elim

/-- An action that looks at the current token goes on as the token in view
says. -/
theorem yields_current {f : Token → Parse β} (h : (f (inView ts)).Yields c ts Q) :
    (current >>= f).Yields c ts Q := by
  intro w b w' s hw done
  obtain ⟨now, w₁, hnow, done⟩ := bind_eq_ok.1 done
  obtain ⟨rfl, rfl⟩ := current_eq_ok.1 hnow
  rw [hw.current] at done
  exact h hw done

/-- The token behind the one in view is the next of the list, or the end. -/
theorem yields_peek {f : Token → Parse β} (h : (f (inView ts)).Yields c (t :: ts) Q) :
    (peek >>= f).Yields c (t :: ts) Q := by
  intro w b w' s hw done
  obtain ⟨next, w₁, hnext, done⟩ := bind_eq_ok.1 done
  obtain ⟨rfl, rfl⟩ := peek_eq_ok.1 hnext
  rw [hw.next] at done
  exact h hw done

theorem yields_currentSpan {f : Span → Parse β} (h : ∀ span, (f span).Yields c ts Q) :
    (currentSpan >>= f).Yields c ts Q := by
  intro w b w' s hw done
  obtain ⟨span, w₁, hspan, done⟩ := bind_eq_ok.1 done
  cases hspan
  exact h _ hw done

/-- The token in view is passed, and what follows may look at it. -/
theorem yields_advance {f : Lexeme → Parse β}
    (h : ∀ lexeme, lexeme.token = t → (f lexeme).Yields c ts Q) :
    (advance >>= f).Yields c (t :: ts) Q := by
  intro w b w' s hw done
  obtain ⟨lexeme, w₁, hpass, done⟩ := bind_eq_ok.1 done
  obtain ⟨htoken, hw₁⟩ := hw.advance hpass
  exact h lexeme htoken hw₁ done

/-- Passing the token in view. -/
theorem yields_pass {Q : PUnit → Bool → List Token → Prop} (h : Q ⟨⟩ c ts) :
    (discard advance : Parse PUnit).Yields c (t :: ts) Q := by
  intro w u w' s hw done
  obtain ⟨lexeme, hpass⟩ := discard_eq_ok.1 done
  exact ⟨c, ts, (hw.advance hpass).2, h⟩

theorem yields_passThen {f : PUnit → Parse β} (h : (f ⟨⟩).Yields c ts Q) :
    (discard advance >>= f).Yields c (t :: ts) Q :=
  (yields_pass (Q := fun _ c' ts' => c' = c ∧ ts' = ts) ⟨rfl, rfl⟩).bind fun _ _ _ ⟨hc, hts⟩ =>
    hc ▸ hts ▸ h

/-- A token that had to come was there. -/
theorem yields_expect {f : Span → Parse β} (ht : t ≠ .eof)
    (h : ∀ span rest, ts = t :: rest → (f span).Yields c rest Q) :
    (expect t >>= f).Yields c ts Q := by
  have hexpect : (expect t).Yields c ts fun _ c' rest => c' = c ∧ ts = t :: rest := by
    refine yields_current ?_
    split
    · rename_i heq
      obtain ⟨rest, rfl⟩ := eq_cons_of_inView heq ht
      exact yields_advance fun _ _ => yields_pure ⟨rfl, rfl⟩
    · exact yields_unexpected
  exact hexpect.bind fun span _ rest ⟨hc, hts⟩ => hc ▸ h span rest hts

theorem yields_discardExpect {f : PUnit → Parse β} (ht : t ≠ .eof)
    (h : ∀ rest, ts = t :: rest → (f ⟨⟩).Yields c rest Q) :
    (discard (expect t) >>= f).Yields c ts Q := by
  intro w b w' s hw done
  obtain ⟨u, w₁, hexpect, done⟩ := bind_eq_ok.1 done
  obtain ⟨span, hexpect⟩ := discard_eq_ok.1 hexpect
  exact yields_expect (f := fun _ => f ⟨⟩) ht (fun _ => h) hw
    (bind_eq_ok.2 ⟨span, w₁, hexpect, done⟩)

theorem yields_expectIdent {f : Ident → Parse β}
    (h : ∀ id rest, ts = .ident id.name :: rest → (f id).Yields c rest Q) :
    (expectIdent >>= f).Yields c ts Q := by
  have hexpect : expectIdent.Yields c ts
      fun id c' rest => c' = c ∧ ts = .ident id.name :: rest := by
    refine yields_current ?_
    split
    · rename_i name heq
      obtain ⟨rest, rfl⟩ := eq_cons_of_inView heq nofun
      exact yields_advance fun _ _ => yields_pure ⟨rfl, rfl⟩
    all_goals exact yields_failHere
  exact hexpect.bind fun id _ rest ⟨hc, hts⟩ => hc ▸ h id rest hts

theorem yields_setClosed {c' : Bool} {f : Unit → Parse β} (h : (f ()).Yields c' ts Q) :
    (setClosed c' >>= f).Yields c ts Q := by
  intro w b w' s hw done
  obtain ⟨u, w₁, hset, done⟩ := bind_eq_ok.1 done
  cases hset
  have hw₁ : Window.Shows { w with closedBlock := c' } c' ts s := ⟨hw.isOver, rfl, hw.stream⟩
  exact h hw₁ done

/-- A line break is passed as `passBreak` does it. -/
theorem yields_skipNewlineIf {continues : Token → Bool} {f : Unit → Parse β}
    (h : (f ()).Yields c (passBreak continues ts) Q) :
    (skipNewlineIf continues >>= f).Yields c ts Q := by
  have hskip : (skipNewlineIf continues).Yields c ts
      fun _ c' rest => c' = c ∧ rest = passBreak continues ts := by
    rw [passBreak]
    by_cases hbreak : inView ts = .newline
    · obtain ⟨rest, rfl⟩ := eq_cons_of_inView hbreak (by simp)
      refine yields_current (yields_peek ?_)
      by_cases hgoes : continues (inView rest) = true
      · rw [if_pos (by simpa using hgoes), if_pos (by simpa using hgoes)]
        exact yields_pass (.intro rfl rfl)
      · rw [if_neg (by simpa using hgoes), if_neg (by simpa using hgoes)]
        exact yields_pure ⟨rfl, rfl⟩
    · rw [if_neg (by simp [hbreak])]
      refine yields_current fun w u w' s hw done => ?_
      obtain ⟨next, w₁, hnext, done⟩ := bind_eq_ok.1 done
      obtain ⟨-, rfl⟩ := peek_eq_ok.1 hnext
      rw [if_neg (by simp [hbreak])] at done
      obtain ⟨-, rfl⟩ := pure_eq_ok.1 done
      exact ⟨c, ts, hw, rfl, rfl⟩
  refine hskip.bind ?_
  rintro _ _ _ ⟨rfl, rfl⟩
  exact h

theorem yields_skipToken {f : Unit → Parse β} (ht : t ≠ .eof)
    (h : (f ()).Yields c (passToken t ts) Q) : (skipToken t >>= f).Yields c ts Q := by
  have hskip : (skipToken t).Yields c ts fun _ c' rest => c' = c ∧ rest = passToken t ts := by
    rw [passToken]
    refine yields_current ?_
    split
    · rename_i heq
      obtain ⟨rest, rfl⟩ := eq_cons_of_inView heq ht
      exact yields_pass (.intro rfl rfl)
    · exact yields_pure ⟨rfl, rfl⟩
  refine hskip.bind ?_
  rintro _ _ _ ⟨rfl, rfl⟩
  exact h

/-- A statement has ended in one of the ways that `passEnd` lists. -/
theorem yields_expectStatementEnd {f : Unit → Parse β}
    (h : ∀ rest, passEnd c ts = some rest → (f ()).Yields c rest Q) :
    (expectStatementEnd >>= f).Yields c ts Q := by
  have hend : expectStatementEnd.Yields c ts
      fun _ c' rest => c' = c ∧ passEnd c ts = some rest := by
    refine yields_current ?_
    split
    · rename_i heq
      obtain ⟨rest, rfl⟩ := eq_cons_of_inView heq nofun
      exact yields_pass (.intro rfl rfl)
    · rename_i heq
      obtain ⟨rest, rfl⟩ := eq_cons_of_inView heq nofun
      exact yields_pass (.intro rfl rfl)
    · rename_i heq
      exact yields_pure ⟨rfl, passEnd_eq_some.2 (.inr ⟨rfl, heq ▸ nofun, heq ▸ nofun, .inl heq⟩)⟩
    · rename_i heq
      exact yields_pure
        ⟨rfl, passEnd_eq_some.2 (.inr ⟨rfl, heq ▸ nofun, heq ▸ nofun, .inr (.inl heq)⟩)⟩
    · rename_i hbreak hcomma _ _
      intro w u w' s hw done
      obtain ⟨w₁, w₂, hget, done⟩ := bind_eq_ok.1 done
      cases hget
      rw [hw.flag] at done
      split at done
      · rename_i hclosed
        obtain ⟨-, rfl⟩ := pure_eq_ok.1 done
        exact ⟨c, ts, hw, rfl,
          passEnd_eq_some.2 (.inr ⟨rfl, hbreak, hcomma, .inr (.inr hclosed)⟩)⟩
      · exact (not_unexpected done).elim
  exact hend.bind fun _ _ rest ⟨hc, hrest⟩ => hc ▸ h rest hrest

end Parse

/-! ### Rules -/

/-- The action reads phrases of the form `f`. -/
def Parse.Follows (f : Form) (x : Parse f.Tree) : Prop :=
  ∀ ⦃c ts⦄, x.Yields c ts (Reads f c ts)

theorem Parse.Follows.yields {f : Form} {x : Parse f.Tree} (h : Follows f x) {c : Bool} :
    x.Yields c ts (Reads f c ts) :=
  @h c ts

/-- What binds the expression before it is an operator, a bracket or a
negation. -/
theorem Token.binds_cases {t : Token} (h : 0 < t.precedence.level) :
    t = .symbol .leftParen ∨ t = .symbol .leftBracket ∨ t = .keyword .notWord ∨
      t.isOperator = true := by
  cases t with
  | symbol s =>
    cases s <;> first | exact absurd h (by decide) | decide
  | keyword k =>
    cases k <;> first | exact absurd h (by decide) | decide
  | _ => exact absurd h (by simp [Token.precedence, Precedence.level])

namespace Rules

/-- The parsers read phrases of the grammar. -/
structure Faithful (rules : Rules) : Prop where
  expression above : Parse.Follows (.expression above) (rules (.expression above))
  operators above left : Parse.Follows (.operators above left) (rules (.operators above left))
  expressions : Parse.Follows .expressions (rules .expressions)
  params : Parse.Follows .params (rules .params)
  block : Parse.Follows .block (rules .block)
  sameLine : Parse.Follows .sameLine (rules .sameLine)
  statements stops : Parse.Follows (.statements stops) (rules (.statements stops))
  statement : Parse.Follows .statement (rules .statement)
  conditional : ∀ ⦃c ts⦄, (rules .conditional).Yields c ts fun k c' ts' =>
    ∃ word rest, opensConditional word ∧ ts = word :: rest ∧ Reads .conditional c rest k c' ts'
  lineBreaks : ∀ ⦃c ts⦄, (rules .lineBreaks).Yields c ts fun _ c' ts' =>
    c' = c ∧ ts.dropWhile (· = .newline) = ts'

namespace Faithful

open Parse

variable {rules : Rules} {c : Bool} {ts : List Token} {β : Type}
  {Q : β → Bool → List Token → Prop}

/-! ### Lists -/

/-- A list has ended with its bracket. -/
theorem yields_listEnd {closing : Symbol} {items : List Expr}
    {Q : List Expr × Nat → Bool → List Token → Prop}
    (h : ∀ stop rest, ts = .symbol closing :: rest → Q (items, stop) c rest) :
    (listEnd (.symbol closing) items).Yields c ts Q := by
  refine yields_current ?_
  split
  · exact yields_expect nofun fun span rest hts => yields_pure (h span.stop rest hts)
  · exact yields_unexpected

/-- A list with commas: an item, and further ones behind a comma. -/
theorem yields_commas {item : β} {others : Parse (List β)} {Q : List β → Bool → List Token → Prop}
    {R : List β → List Token → Bool → List Token → Prop}
    (hothers : ∀ rest, others.Yields c rest fun items => R items rest)
    (last : inView ts ≠ .symbol .comma → Q [item] c ts)
    (more : ∀ rest items c' ts', ts = .symbol .comma :: rest → R items rest c' ts' →
      Q (item :: items) c' ts') :
    Yields (do
      if (← current) = .symbol .comma then
        discard advance
        return item :: (← others)
      else return [item]) c ts Q := by
  refine yields_current ?_
  split
  · rename_i hnow
    obtain ⟨rest, rfl⟩ := eq_cons_of_inView hnow nofun
    refine yields_passThen ((hothers rest).bind fun items c' ts' hitems => yields_pure ?_)
    exact more rest items c' ts' rfl hitems
  · exact yields_pure (last ‹_›)

/-- What comes after the check may rely on it. -/
theorem yields_ensureAssignable {f : Unit → Parse β}
    (h : target.isAssignable = true → (f ()).Yields c ts Q) :
    (ensureAssignable target >>= f).Yields c ts Q := by
  have hensure : (ensureAssignable target).Yields c ts
      fun _ c' ts' => (c' = c ∧ ts' = ts) ∧ target.isAssignable = true := by
    rw [ensureAssignable]
    split
    · exact yields_pure ⟨⟨rfl, rfl⟩, ‹_›⟩
    · exact yields_fail
  exact hensure.bind fun _ _ _ ⟨⟨hc, hts⟩, hassignable⟩ => hc ▸ hts ▸ h hassignable

theorem yields_countingWord {f : Direction → Parse β}
    (h : ∀ direction rest, ts = direction.countingToken :: rest → (f direction).Yields c rest Q) :
    (countingWord >>= f).Yields c ts Q := by
  have hword : countingWord.Yields c ts
      fun direction c' rest => c' = c ∧ ts = direction.countingToken :: rest := by
    refine yields_current ?_
    split
    · rename_i hnow
      obtain ⟨rest, rfl⟩ := eq_cons_of_inView hnow nofun
      exact yields_passThen (yields_pure ⟨rfl, rfl⟩)
    · rename_i hnow
      obtain ⟨rest, rfl⟩ := eq_cons_of_inView hnow nofun
      exact yields_passThen (yields_pure ⟨rfl, rfl⟩)
    · exact yields_unexpected
  exact hword.bind fun direction _ rest ⟨hc, hts⟩ => hc ▸ h direction rest hts

/-- A change whose target and amount were read before. -/
theorem yields_changedBy (direction : Direction) {amount : Expr} {c₀ : Bool}
    (hread : Reads (.expression .lowest) c₀ ts₀ amount c (direction.changingToken :: ts)) :
    (changedBy target amount direction).Yields c (direction.changingToken :: ts)
      (Reads (.continued target) c₀ (.keyword .wo :: ts₀)) :=
  yields_ensureAssignable fun assignable => yields_advance fun _ _ =>
    yields_pure (.change direction _ assignable hread)

variable (hr : rules.Faithful)

include hr

theorem follows_items {closing : Symbol} :
    (rules.items (.symbol closing)).Yields c ts fun r => Reads (.items closing) c ts r.1 := by
  refine yields_current ?_
  split
  · refine yields_listEnd fun stop rest hts => ?_
    subst hts
    exact .noItems
  · rename_i hnow
    refine hr.expressions.bind fun items c₁ ts₁ hread => yields_listEnd fun stop rest hts => ?_
    subst hts
    exact .someItems hnow hread

/-- What follows a list in brackets may rely on its items. -/
theorem yields_bracketed {opening closing : Symbol} {f : List Expr × Nat → Parse β}
    (h : ∀ items stop rest c₁ ts₁, ts = .symbol opening :: rest →
      Reads (.items closing) c rest items c₁ ts₁ → (f (items, stop)).Yields c₁ ts₁ Q) :
    (rules.bracketed (.symbol opening) (.symbol closing) >>= f).Yields c ts Q := by
  have hitems : (rules.bracketed (.symbol opening) (.symbol closing)).Yields c ts
      fun r c₁ ts₁ => ∃ rest, ts = .symbol opening :: rest ∧
        Reads (.items closing) c rest r.1 c₁ ts₁ :=
    yields_discardExpect nofun fun rest hts w r w' s hw done => by
      obtain ⟨c₁, ts₁, hw₁, hread⟩ := hr.follows_items hw done
      exact ⟨c₁, ts₁, hw₁, rest, hts, hread⟩
  exact hitems.bind fun r c₁ ts₁ ⟨rest, hts, hread⟩ => h r.1 r.2 rest c₁ ts₁ hts hread

theorem follows_paramItems : Follows .paramItems rules.paramItems := by
  intro c ts
  refine yields_current ?_
  dsimp only
  split
  · refine (yields_pure ⟨rfl, rfl, rfl⟩ : Yields (pure []) c ts fun params c₁ ts₁ =>
      params = [] ∧ c₁ = c ∧ ts₁ = ts).bind ?_
    rintro _ _ _ ⟨rfl, rfl, rfl⟩
    refine yields_discardExpect nofun fun rest hts => yields_pure ?_
    subst hts
    exact .noParams
  · rename_i hnow
    refine hr.params.bind fun params c₁ ts₁ hread => ?_
    refine yields_discardExpect nofun fun rest hts => yields_pure ?_
    subst hts
    exact .someParams hnow hread

theorem follows_expressions : Follows .expressions rules.expressions :=
  fun _ _ => (hr.expression .lowest).bind fun _ _ _ hread =>
    yields_commas (fun _ => hr.expressions.yields) (fun hlast => .lastExpr hlast hread)
      fun _ _ _ _ hts hreads => .moreExprs (hts ▸ hread) hreads

theorem follows_sameLine : Follows .sameLine rules.sameLine :=
  fun _ _ => hr.statement.bind fun _ _ _ hread =>
    yields_commas (fun _ => hr.sameLine.yields) (fun hlast => .lastHere hlast hread)
      fun _ _ _ _ hts hreads => .moreHere (hts ▸ hread) hreads

theorem follows_params : Follows .params rules.params := by
  refine fun _ _ => yields_expectIdent fun id rest hts => ?_
  subst hts
  refine yields_commas (fun _ => hr.params.yields)
    (fun hlast => .lastParam id.name id.span hlast) ?_
  rintro rest items c' ts' rfl hreads
  exact .moreParams id.name id.span hreads

/-- All line breaks in view are passed. -/
theorem yields_lineBreaks : rules.lineBreaks.Yields c ts fun _ c' ts' =>
    c' = c ∧ ts.dropWhile (· = .newline) = ts' := by
  refine yields_current ?_
  split
  · rename_i hnow
    obtain ⟨rest, rfl⟩ := eq_cons_of_inView hnow nofun
    rw [List.dropWhile_cons_of_pos (by simp)]
    exact yields_passThen fun _ _ _ _ hw done => hr.lineBreaks hw done
  · rename_i hnow
    refine yields_pure ⟨rfl, ?_⟩
    cases ts with
    | nil => rfl
    | cons t ts => exact List.dropWhile_cons_of_neg (by simpa using hnow)

theorem follows_statementsUpTo (stops : List Token) :
    Follows (.statements stops) (rules.statementsUpTo stops) := by
  intro c ts
  refine hr.lineBreaks.bind ?_
  rintro _ _ ts₁ ⟨rfl, hbreaks⟩
  refine yields_current ?_
  split
  · rename_i hstop
    exact yields_pure (.noStatements hbreaks hstop)
  · rename_i hgoes
    refine hr.statement.bind fun first c₂ ts₂ hread => ?_
    refine yields_expectStatementEnd fun ts₃ hpass => ?_
    refine (hr.statements stops).bind fun others c' ts' hreads => yields_pure ?_
    exact .someStatements hbreaks hgoes hpass hread hreads

/-! ### Functions and blocks -/

/-- The word that ends a function may stand on a new line. -/
theorem follows_functionFrom (start : Nat) : Follows .function (rules.functionFrom start) := by
  intro c ts
  refine yields_discardExpect nofun fun ts₁ hopen => ?_
  refine hr.follows_paramItems.bind fun params c₂ ts₂ hreads => ?_
  refine yields_discardExpect nofun fun ts₃ hwo => ?_
  refine hr.block.bind fun body c₄ ts₄ hread => ?_
  refine yields_skipNewlineIf (yields_expect nofun fun closing ts' hpass => ?_)
  subst hopen hwo
  exact yields_setClosed (yields_pure (.function _ hpass hreads hread))

/-- A block has lines of its own or is the rest of a line. -/
theorem follows_colonBlock : Follows .block rules.colonBlock := by
  intro c ts
  refine yields_current ?_
  split
  · refine yields_expect nofun fun colon ts₁ hcolon => ?_
    subst hcolon
    refine yields_current ?_
    split
    · -- lines of their own
      rename_i hbreak
      obtain ⟨ts₂, rfl⟩ := eq_cons_of_inView hbreak nofun
      refine yields_passThen (yields_current ?_)
      split
      · rename_i hindent
        obtain ⟨ts₃, rfl⟩ := eq_cons_of_inView hindent nofun
        refine yields_passThen ((hr.statements _).bind fun statements c₄ ts₄ hreads => ?_)
        refine yields_discardExpect nofun fun ts' hdedent => ?_
        subst hdedent
        exact yields_setClosed (yields_pure (.lines _ hreads))
      · exact yields_failHere
    · -- the rest of the line
      rename_i hhere
      refine hr.sameLine.bind fun statements c₂ ts' hreads => ?_
      exact yields_setClosed (yields_pure (.oneLine _ hhere hreads))
  · exact yields_failHere
  · exact yields_failHere

/-! ### Expressions -/

/-- A call without arguments is read as the function completes it. -/
theorem yields_builtinCall {name : String} {function : Builtin}
    (known : Builtin.ofName? name = some function) :
    (rules.builtinCall function).Yields c (.ident name :: ts)
      (Reads .operand c (.ident name :: ts)) := by
  refine yields_expectIdent fun id rest hname => ?_
  obtain ⟨rfl, rfl⟩ : name = id.name ∧ ts = rest := by simpa using hname
  refine hr.yields_bracketed fun arguments stop rest c' ts' hopen hread => ?_
  subst hopen
  -- the absent argument is placed where the call is
  have hread' := Reads.builtin id.name ⟨id.span.start, stop⟩ ⟨id.span.start, stop⟩ known hread
  rw [Builtin.arguments] at hread'
  dsimp only
  split
  · rename_i hnone
    rw [if_pos hnone] at hread'
    exact yields_pure hread'
  · rename_i hsome
    rw [if_neg hsome] at hread'
    exact yields_pure hread'

theorem yields_signed {op : Symbol} (hnow : inView ts = .symbol op)
    (sign : op = .minus ∨ op = .plus) : rules.signed.Yields c ts (Reads .operand c ts) := by
  obtain ⟨rest, rfl⟩ := eq_cons_of_inView hnow nofun
  refine yields_advance fun lexeme htoken => ?_
  refine (hr.expression .sign).bind fun operand c' ts' hread => yields_pure ?_
  rw [htoken]
  exact .signed op _ sign hread

theorem follows_nested : Follows .operand rules.nested := by
  intro c ts
  refine yields_expect nofun fun opening ts₁ hopen => ?_
  refine (hr.expression .lowest).bind fun inner c₂ ts₂ hread => ?_
  refine yields_expect nofun fun closing ts' hclose => yields_pure ?_
  subst hopen hclose
  exact .nested _ hread

theorem follows_array : Follows .operand rules.array := by
  intro c ts
  refine yields_currentSpan fun span => ?_
  refine hr.yields_bracketed fun elements stop rest c' ts' hopen hreads => yields_pure ?_
  subst hopen
  exact .array _ hreads

/-- The token in view decides what is read as an operand. -/
theorem follows_operand : Follows .operand rules.operand := by
  intro c ts
  refine yields_current ?_
  split
  · rename_i value hnow
    obtain ⟨rest, rfl⟩ := eq_cons_of_inView hnow nofun
    refine yields_advance fun lexeme htoken => ?_
    rw [htoken]
    exact yields_pure (.int value _)
  · rename_i text hnow
    obtain ⟨rest, rfl⟩ := eq_cons_of_inView hnow nofun
    refine yields_advance fun lexeme htoken => ?_
    rw [htoken]
    exact yields_pure (.str text _)
  · -- commands
    rename_i text hnow
    obtain ⟨rest, rfl⟩ := eq_cons_of_inView hnow nofun
    exact yields_advance fun lexeme _ => yields_pure (.command text _)
  · -- names, which may be those of built-in functions
    rename_i name hnow
    obtain ⟨rest, rfl⟩ := eq_cons_of_inView hnow nofun
    have hident (plain : Builtin.ofName? name = none ∨ inView rest ≠ .symbol .leftParen) :
        Yields (return .ident (← expectIdent)) c (.ident name :: rest)
          (Reads .operand c (.ident name :: rest)) := by
      refine yields_expectIdent fun id ts' hname => yields_pure ?_
      obtain ⟨rfl, rfl⟩ : name = id.name ∧ rest = ts' := by simpa using hname
      exact .ident id.name id.span plain
    split
    · rename_i function known
      refine yields_peek ?_
      split
      · exact hr.yields_builtinCall known
      · exact hident (.inr ‹_›)
    · exact hident (.inl ‹_›)
  · exact hr.yields_signed ‹_› (.inl rfl)
  · exact hr.yields_signed ‹_› (.inr rfl)
  · exact hr.follows_nested.yields
  · exact hr.follows_array.yields
  · -- functions without a name
    refine yields_expect nofun fun span rest hword => ?_
    subst hword
    refine (hr.follows_functionFrom span.start).bind fun literal c' ts' hread => yields_pure ?_
    exact .literal hread
  · exact yields_unexpected

/-- Going on behind a phrase that begins with `left`. -/
theorem yields_operator {above : Precedence} {left : Expr} {x : Parse Expr}
    (h : x.Yields c ts fun e c₁ ts₁ => ∀ e' c' ts', Reads (.operators above e) c₁ ts₁ e' c' ts' →
      Reads (.operators above left) c ts e' c' ts') :
    (x >>= fun e => rules (.operators above e)).Yields c ts (Reads (.operators above left) c ts) :=
  h.bind fun e _ _ he _ _ _ _ hw done => by
    obtain ⟨c', ts', hw', hread⟩ := hr.operators above e hw done
    exact ⟨c', ts', hw', he _ c' ts' hread⟩

/-- Each operator that is read binds tighter than `above`. -/
theorem follows_operators (above : Precedence) (left : Expr) :
    Follows (.operators above left) (rules.operators above left) := by
  intro c ts
  refine yields_current ?_
  split
  · rename_i htight
    split
    · -- a call
      refine hr.yields_operator (hr.yields_bracketed fun arguments stop rest c₁ ts₁ hopen hreads =>
        yields_pure fun e c' ts' hread => ?_)
      subst hopen
      exact .called _ htight hreads hread
    · -- an element
      refine hr.yields_operator (yields_discardExpect nofun fun rest hopen => ?_)
      refine (hr.expression .lowest).bind fun position c₃ ts₃ hread₁ => ?_
      refine yields_expect nofun fun closing ts₄ hclose => yields_pure fun e c' ts' hread₂ => ?_
      subst hopen hclose
      exact .indexed _ htight hread₁ hread₂
    · -- a negation
      refine hr.yields_operator (yields_expect nofun fun word rest hword =>
        yields_pure fun e c' ts' hread => ?_)
      subst hword
      exact .negated _ htight hread
    · split
      · -- an operator with two operands
        rename_i hop
        have hne : inView ts ≠ .eof := by
          intro heof
          rw [heof] at hop
          cases hop
        -- the operator gets a name before the tokens are taken apart
        obtain ⟨rest, hts⟩ := eq_cons_of_inView rfl hne
        generalize inView ts = op at htight hop hts
        subst hts
        refine hr.yields_operator (yields_advance fun lexeme htoken => ?_)
        refine (hr.expression _).bind fun right c₁ ts₁ hread₁ => yields_pure ?_
        rw [htoken] at hread₁ ⊢
        exact fun e c' ts' hread₂ => .joined op _ hop htight hread₁ hread₂
      · rename_i hparen hbracket hnot hop
        have hbinds : 0 < (inView ts).precedence.level := Nat.zero_lt_of_lt htight
        -- a token that binds is one of those above, so this branch is not taken
        rcases Token.binds_cases hbinds with h | h | h | h
        · exact (hparen h).elim
        · exact (hbracket h).elim
        · exact (hnot h).elim
        · exact (hop h).elim
  · exact yields_pure (.stop (Nat.le_of_not_lt ‹_›))

/-! ### Statements -/

theorem follows_loopBody :
    rules.loopBody.Yields c ts (Reads .block c (passToken (.keyword .repeated) ts)) :=
  yields_skipToken nofun hr.block.yields

/-- A counted loop whose counter and first value were read before. -/
theorem yields_countedFrom {first : Expr} {c₀ : Bool}
    (hread : Reads (.expression .lowest) c₀ ts₀ first c ts) :
    (rules.countedFrom object first).Yields c ts
      (Reads (.continued object) c₀ (.keyword .wo :: ts₀)) := by
  cases object with
  | ident counter =>
    refine yields_discardExpect nofun fun ts₁ hstart => ?_
    refine (hr.expression .lowest).bind fun last c₂ ts₂ hread₂ => ?_
    refine yields_discardExpect nofun fun ts₃ hupTo => ?_
    refine (hr.expression .lowest).bind fun step c₄ ts₄ hread₄ => ?_
    refine yields_discardExpect nofun fun ts₅ hby => ?_
    refine yields_countingWord fun direction ts₆ hword => ?_
    refine hr.follows_loopBody.bind fun body c' ts' hread' => yields_pure ?_
    subst hstart hupTo hby hword
    exact .counted counter direction _ hread hread₂ hread₄ hread'
  | _ => exact yields_fail

/-- What follows the operand tells a loop from a change. -/
theorem yields_actedOn :
    (rules.actedOn object).Yields c (.keyword .wo :: ts)
      (Reads (.continued object) c (.keyword .wo :: ts)) := by
  refine yields_passThen ((hr.expression .lowest).bind fun operand c₂ ts₂ hread => ?_)
  refine yields_current ?_
  split
  · exact hr.yields_countedFrom hread
  · rename_i hnow
    obtain ⟨ts₃, rfl⟩ := eq_cons_of_inView hnow nofun
    exact yields_changedBy .increasing hread
  · rename_i hnow
    obtain ⟨ts₃, rfl⟩ := eq_cons_of_inView hnow nofun
    exact yields_changedBy .decreasing hread
  · exact yields_unexpected

/-- The token behind an expression decides what statement it opens. -/
theorem follows_continued (e : Expr) : Follows (.continued e) (rules.continued e) := by
  intro c ts
  refine yields_current ?_
  split
  · rename_i hnow
    obtain ⟨ts₁, rfl⟩ := eq_cons_of_inView hnow nofun
    refine yields_ensureAssignable fun assignable => yields_passThen ?_
    refine (hr.expression .lowest).bind fun value c' ts' hread => yields_pure ?_
    exact .assign _ assignable hread
  · rename_i hnow
    obtain ⟨ts₁, rfl⟩ := eq_cons_of_inView hnow nofun
    exact hr.yields_actedOn
  · rename_i hnow
    obtain ⟨ts₁, rfl⟩ := eq_cons_of_inView hnow nofun
    refine yields_passThen (hr.follows_loopBody.bind fun body c' ts' hread => yields_pure ?_)
    exact .whileLoop _ hread
  · refine yields_expect nofun fun word ts' hword => yields_pure ?_
    subst hword
    exact .giveBack _
  · refine yields_pure (.plain ?_)
    rw [endsExpression.eq_def]
    split <;> first | contradiction | rfl

theorem follows_elseBranch {stop : Nat} :
    (rules.elseBranch stop).Yields c ts fun r => Reads .elseBranch c ts r.1 := by
  refine yields_current ?_
  split
  · rename_i hnow
    refine hr.conditional.bind ?_
    rintro conditional c' ts' ⟨word, rest, -, rfl, hread⟩
    obtain rfl : word = .keyword .elseIf := hnow
    exact yields_pure (.elseIf hread)
  · rename_i hnow
    obtain ⟨ts₁, rfl⟩ := eq_cons_of_inView hnow nofun
    exact yields_passThen (hr.block.bind fun body c' ts' hread => yields_pure (.otherwise hread))
  · exact yields_pure (.missing (by simp_all [continuesConditional]))

theorem follows_conditionalFrom (start : Nat) :
    Follows .conditional (rules.conditionalFrom start) := by
  intro c ts
  refine (hr.expression .lowest).bind fun condition c₁ ts₁ hread₁ => ?_
  refine yields_discardExpect nofun fun ts₂ hthen => ?_
  refine hr.block.bind fun consequence c₃ ts₃ hread₃ => ?_
  refine yields_skipNewlineIf (hr.follows_elseBranch.bind fun r c' ts' hread' => yields_pure ?_)
  subst hthen
  exact .branches _ hread₁ hread₃ hread'

/-- A conditional begins with one of two words. -/
theorem yields_conditional :
    rules.conditional.Yields c ts fun k c' ts' => ∃ word rest, opensConditional word ∧
      ts = word :: rest ∧ Reads .conditional c rest k c' ts' := by
  refine yields_current ?_
  split
  · refine yields_expect nofun fun span rest hword w k w' s hw done => ?_
    obtain ⟨c', ts', hw', hread⟩ := hr.follows_conditionalFrom _ hw done
    exact ⟨c', ts', hw', _, rest, .inl rfl, hword, hread⟩
  · refine yields_expect nofun fun span rest hword w k w' s hw done => ?_
    obtain ⟨c', ts', hw', hread⟩ := hr.follows_conditionalFrom _ hw done
    exact ⟨c', ts', hw', _, rest, .inr rfl, hword, hread⟩

/-- The flag is cleared before the loop is read, and again after it. -/
theorem yields_untilLoop (c : Bool) : rules.untilLoop.Yields false ts (Reads .statement c ts) := by
  refine yields_expect nofun fun word ts₁ hword => ?_
  refine hr.block.bind fun body c₂ ts₂ hread₂ => ?_
  refine yields_skipNewlineIf (yields_discardExpect nofun fun ts₄ hpass => ?_)
  refine yields_skipToken nofun ((hr.expression .lowest).bind fun condition c₆ ts₆ hread₆ => ?_)
  refine yields_expect nofun fun closing ts' hclose => yields_setClosed (yields_pure ?_)
  subst hword hclose
  exact .untilLoop _ hpass hread₂ hread₆

theorem yields_definition (c : Bool) :
    rules.definition.Yields false ts (Reads .statement c ts) := by
  refine yields_expect nofun fun word ts₁ hword => ?_
  refine yields_expectIdent fun id ts₂ hname => ?_
  refine (hr.follows_functionFrom _).bind fun function c' ts' hread => yields_pure ?_
  subst hword hname
  exact .define id.name id.span _ hread

/-- The token in view decides what statement is read. -/
theorem follows_statement : Follows .statement rules.statement := by
  intro c ts
  refine yields_setClosed (yields_current ?_)
  have hexpression (opens : opensExpression ts = true) :
      rules.expressionStatement.Yields false ts (Reads .statement c ts) := by
    refine (hr.expression .lowest).bind fun e c₂ ts₂ hread w st w' s hw done => ?_
    obtain ⟨c', ts', hw', hread'⟩ := hr.follows_continued e hw done
    exact ⟨c', ts', hw', .opened opens hread hread'⟩
  split
  · -- `関数` defines a function only if a name follows
    rename_i hnow
    obtain ⟨ts₁, rfl⟩ := eq_cons_of_inView hnow nofun
    refine yields_peek ?_
    split
    · exact hr.yields_definition c
    · rename_i hname
      refine hexpression ?_
      cases ts₁ with
      | nil => rfl
      | cons t ts₁ => simpa [opensExpression] using hname
  · rename_i hnow
    refine hr.yields_conditional.bind ?_
    rintro conditional c' ts' ⟨word, rest, -, rfl, hread⟩
    obtain rfl : word = .keyword .ifWord := hnow
    exact yields_pure (.conditional hread)
  · exact hr.yields_untilLoop c
  · exact yields_failHere
  · refine hexpression ?_
    rw [opensExpression.eq_def]
    split <;> first | contradiction | rfl

/-- A rule reads phrases of the grammar if the parsers that it uses do. -/
theorem rule : (Dncl.rule rules).Faithful where
  expression above := by
    refine fun c ts => hr.follows_operand.bind fun operand c₁ ts₁ hread₁ w e w' s hw done => ?_
    obtain ⟨c', ts', hw', hread'⟩ := hr.operators above operand hw done
    exact ⟨c', ts', hw', .expression hread₁ hread'⟩
  operators := hr.follows_operators
  expressions := hr.follows_expressions
  params := hr.follows_params
  block := hr.follows_colonBlock
  sameLine := hr.follows_sameLine
  statements := hr.follows_statementsUpTo
  statement := hr.follows_statement
  conditional _ _ := hr.yields_conditional
  lineBreaks _ _ := hr.yields_lineBreaks

end Faithful

end Rules

/-! ### Whole programs -/

/-- Without an unfolding nothing is read. -/
theorem parse_zero {p : Phrase} {t : p.Tree} : parse 0 p w ≠ .ok t w' := by
  intro done
  obtain ⟨span, w₁, -, done⟩ := Parse.bind_eq_ok.1 done
  exact Parse.not_fail done

/-- However often the grammar is unfolded, what is read is a phrase of it. -/
theorem parse_faithful (n : Nat) : (parse n).Faithful := by
  induction n with
  | zero =>
    refine ⟨fun _ => ?_, fun _ _ => ?_, ?_, ?_, ?_, ?_, fun _ => ?_, ?_, ?_, ?_⟩ <;>
      intro c ts w t w' s hw done <;> exact (parse_zero done).elim
  | succ n ih => exact ih.rule

/-- The window on a feed shows its stream. -/
theorem Window.stream_ofFeed {feed : Feed} (h : Window.ofFeed feed = .ok w) :
    w.closedBlock = false ∧ w.stream = feed.stream := by
  rw [Window.ofFeed] at h
  split at h
  · rename_i u w₂ hrun
    cases h
    obtain ⟨u₁, w₁, hfirst, hsecond⟩ := Parse.bind_eq_ok.1 hrun
    obtain ⟨lexeme₁, hfirst⟩ := Parse.discard_eq_ok.1 hfirst
    obtain ⟨lexeme₂, hsecond⟩ := Parse.discard_eq_ok.1 hsecond
    obtain ⟨-, hflag₁, hstream₁⟩ := Parse.advance_eq_ok hfirst
    obtain ⟨-, hflag₂, hstream₂⟩ := Parse.advance_eq_ok hsecond
    refine ⟨hflag₂.trans hflag₁, ?_⟩
    rw [hstream₂, hstream₁]
    rfl
  · cases h

/-- A program consists of its statements, and no dedent follows them. -/
theorem Rules.program_eq_ok {rules : Rules} {p : Program} (done : rules.program w = .ok p w') :
    rules (.statements [.eof, .dedent]) w = .ok p.statements w' ∧ w'.current.token ≠ .dedent := by
  obtain ⟨body, w₁, hbody, done⟩ := Parse.bind_eq_ok.1 done
  obtain ⟨now, w₂, y, hnow, hy, done⟩ := Parse.exists_of_bind done
  obtain ⟨rfl, rfl⟩ := Parse.current_eq_ok.1 hnow
  split at hy
  · subst hy
    exact (Parse.not_unexpected done).elim
  · rename_i hlast
    split at hy <;> subst hy <;> obtain ⟨rfl, rfl⟩ := Parse.pure_eq_ok.1 done <;>
      exact ⟨hbody, hlast⟩

/-- Statements are read up to a token at which they stop. -/
theorem Reads.inView_mem {stops : List Token} {c c' : Bool} {ts ts' : List Token}
    {ss : List Stmt} : Reads (.statements stops) c ts ss c' ts' → inView ts' ∈ stops
  | .noStatements _ hstop => hstop
  | .someStatements _ _ _ _ others => others.inView_mem

/-- The window stands at that token. -/
theorem current_mem_stops {n : Nat} {stops : List Token} {ss : List Stmt}
    (h : parse n (.statements stops) w = .ok ss w') : w'.current.token ∈ stops := by
  induction n generalizing w ss with
  | zero => exact (parse_zero h).elim
  | succ n ih =>
    obtain ⟨_, w₁, -, h⟩ := Parse.bind_eq_ok.1 h
    obtain ⟨now, w₂, y, hnow, hy, h⟩ := Parse.exists_of_bind h
    obtain ⟨rfl, rfl⟩ := Parse.current_eq_ok.1 hnow
    split at hy
    · rename_i hstop
      subst hy
      obtain ⟨-, rfl⟩ := Parse.pure_eq_ok.1 h
      exact hstop
    · subst hy
      obtain ⟨first, w₃, -, h⟩ := Parse.bind_eq_ok.1 h
      obtain ⟨_, w₄, -, h⟩ := Parse.bind_eq_ok.1 h
      obtain ⟨others, w₅, hothers, h⟩ := Parse.bind_eq_ok.1 h
      obtain ⟨-, rfl⟩ := Parse.pure_eq_ok.1 h
      exact ih hothers

/-- A program that is read ends at the end mark. -/
theorem current_of_program {n : Nat} {p : Program} (h : (parse n).program w = .ok p w') :
    w'.current.token = .eof := by
  obtain ⟨hbody, hlast⟩ := Rules.program_eq_ok h
  simpa [hlast] using current_mem_stops hbody

/-- A program that was parsed is read from the tokens of its feed, all of
them, and there was no fault in the feed. -/
theorem reads_of_parseFeed {feed : Feed} {p : Program} {s : Stream} (hs : s.IsOver)
    (hfeed : feed.stream = .prepend ts s) (heof : .eof ∉ ts) (h : parseFeed feed = .ok p) :
    s = .ended ∧ ∃ c, Reads (.statements [.eof, .dedent]) false ts p.statements c [] := by
  rw [parseFeed] at h
  split at h
  · cases h
  · rename_i w hwindow
    obtain ⟨hflag, hstream⟩ := Window.stream_ofFeed hwindow
    have hw : w.Shows false ts s := ⟨hs, hflag, hstream.trans hfeed⟩
    split at h
    · rename_i q w' hrun
      cases h
      obtain ⟨w₁, w₂, hget, hprogram⟩ := Parse.bind_eq_ok.1 hrun
      cases hget
      obtain ⟨hbody, hlast⟩ := Rules.program_eq_ok hprogram
      obtain ⟨c', ts', hw', hread⟩ := (parse_faithful _).statements _ hw hbody
      -- the last token is the end mark, so nothing is left
      have hend : inView ts' = .eof := by
        have hmem := hread.inView_mem
        rw [hw'.current] at hlast
        simpa [hlast] using hmem
      obtain rfl : ts' = [] := by
        cases ts' with
        | nil => rfl
        | cons t ts' =>
          obtain rfl : t = .eof := hend
          exact (heof (hread.suffix.mem List.mem_cons_self)).elim
      refine ⟨?_, c', hread⟩
      -- a fault would be in view instead of the end mark
      rcases hs with hended | ⟨fault, hfault⟩
      · exact hended
      · have hview : w'.stream 0 = .error fault := hw'.stream ▸ hfault
        cases hview
    · cases h

end Dncl
