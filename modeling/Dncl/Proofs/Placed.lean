/-
Dncl/Proofs/Placed.lean

Parsed trees have the places of their words.

A parser passes tokens, and gives the tree that it reads the places of those
that are words, in their order; nothing else goes into a place.  If it fails,
it tells of a place that lies in the text.

Design.  For each rule of the grammar there is a lemma that follows the rule
action by action, and at its end the tree is placed as `place` does it.  The
only induction is on the number of unfoldings.
-/
import Dncl.Proofs.Soundness
import Dncl.Proofs.Spending

namespace Dncl

variable {ys zs : List Span} {e left target : Expr} {V : Span → Prop}

/-! ### Rules -/

open Placing

/-- An expression that is placed is written. -/
theorem Expr.isAbsent_of_gives {e' : Expr} (h : e.place.Gives e' ys) : e.isAbsent = false := by
  cases e with
  | absent span => cases h []
  | _ => rfl

theorem Expr.gives_ident {id : Ident} (h : (Expr.ident id).place.Gives (.ident id) ys) :
    ys = [id.span] := by
  have hplace := h []
  rw [List.append_nil] at hplace
  cases ys with
  | nil => cases hplace
  | cons s ys =>
    obtain ⟨hid, rfl⟩ := Prod.mk.inj (Option.some.inj hplace)
    rw [← Expr.ident.inj hid]

/-- An argument that is not written takes no place. -/
theorem Builtin.placeAll_arguments (function : Builtin) (es : List Expr) (span : Span) :
    Expr.placeAll (function.arguments es span) = Expr.placeAll es := by
  rcases function.arguments_cases es span with h | ⟨-, rfl, h⟩ <;> rw [h]
  rfl

/-- An expression that is placed has a valid place. -/
theorem Expr.valid_of_gives (hV : SpanLaw V) (h : e.place.Gives e ys) (hy : Ordered V ys) :
    V e.span := by
  have hplace := h []
  rw [List.append_nil] at hplace
  obtain ⟨zs, rfl, hfits⟩ := e.place_fits hV hy hplace
  rw [List.append_nil] at hy
  exact hfits.spans.valid hV hy

namespace Rules

/-- The parsers place what they read. -/
structure Places (V : Span → Prop) (rules : Rules) : Prop where
  expression : ∀ above w,
    Parse.Spends V w (rules (.expression above)) fun e ys => e.place.Gives e ys
  operators : ∀ above left w ys, left.place.Gives left ys →
    Parse.Spends V w (rules (.operators above left)) fun e zs => e.place.Gives e (ys ++ zs)
  expressions : ∀ w,
    Parse.Spends V w (rules .expressions) fun es ys => (Expr.placeAll es).Gives es ys
  params : ∀ w, Parse.Spends V w (rules .params) fun ids ys => (placeNames ids).Gives ids ys
  block : ∀ w, Parse.Spends V w (rules .block) fun b ys => b.place.Gives b ys
  sameLine : ∀ w, Parse.Spends V w (rules .sameLine) fun ss ys => (Stmt.placeAll ss).Gives ss ys
  statements : ∀ stops w,
    Parse.Spends V w (rules (.statements stops)) fun ss ys => (Stmt.placeAll ss).Gives ss ys
  statement : ∀ w, Parse.Spends V w (rules .statement) fun s ys => s.place.Gives s ys
  conditional : ∀ w, Parse.Spends V w (rules .conditional) fun c ys => c.place.Gives c ys
  lineBreaks : ∀ w, Parse.Spends V w (rules .lineBreaks) fun _ ys => ys = []

namespace Places

open Parse

variable {V : Span → Prop} {rules : Rules} {w : Window}

/-- The closing bracket is the only word of the end of a list. -/
theorem spends_listEnd {closing : Token} (hclosing : closing.isWord = true) {es : List Expr} :
    Spends V w (listEnd closing es) fun r ys => r.1 = es ∧ ∃ s, ys = [s] ∧ r.2 = s.stop := by
  refine spends_current ?_
  split
  · exact spends_expect hclosing fun s _ w' => spends_pure ⟨rfl, s, rfl, rfl⟩
  · exact spends_unexpected _

theorem spends_literal
    (h : (∃ n, w.current.token = .int n) ∨ ∃ text, w.current.token = .str text) :
    Spends V w literal fun e ys => e.place.Gives e ys := by
  have hword : w.current.token.isWord = true := by
    rcases h with ⟨n, hn⟩ | ⟨text, htext⟩
    · rw [hn]
      rfl
    · rw [htext]
      rfl
  refine spends_word hword fun w₁ => ?_
  split
  · exact spends_pure (gives_word _).map
  · exact spends_pure (gives_word _).map
  · rename_i hint hstr
    rcases h with ⟨n, hn⟩ | ⟨text, htext⟩
    · exact absurd hn (hint n)
    · exact absurd htext (hstr text)

theorem spends_negated (hleft : left.place.Gives left ys) :
    Spends V w (negated left) fun e zs => e.place.Gives e (ys ++ zs) := by
  refine spends_expect rfl fun b _ w₁ => spends_pure ?_
  rw [Expr.place, if_pos rfl]
  exact hleft.bind (gives_word b).map

/-- A target that cannot be assigned to is reported at its own place. -/
theorem spends_ensureAssignable (htarget : target.place.Gives target ys) (hy : Ordered V ys)
    {f : Unit → Parse Stmt} {Ψ : Stmt → List Span → Prop} (h : Spends V w (f ()) Ψ) :
    Spends V w (ensureAssignable target >>= f) Ψ := by
  rw [ensureAssignable]
  split
  · exact h
  · exact fun tr _ htr => Expr.valid_of_gives htr.law htarget hy

/-- The word for the direction takes a place that the tree does not keep. -/
theorem spends_countingWord : Spends V w countingWord fun _ ys => ∃ s, ys = [s] := by
  refine spends_current ?_
  split
  · rename_i hnow
    exact spends_discard (spends_word (hnow ▸ rfl) fun _ => spends_pure ⟨_, rfl⟩)
  · rename_i hnow
    exact spends_discard (spends_word (hnow ▸ rfl) fun _ => spends_pure ⟨_, rfl⟩)
  · exact spends_unexpected _

/-- The target and the amount were read before, with a word between them. -/
theorem spends_changedBy {amount : Expr} {direction : Direction} {s : Span}
    (htarget : target.place.Gives target ys) (hy : Ordered V ys)
    (hamount : amount.place.Gives amount zs) (hword : w.current.token.isWord = true) :
    Spends V w (changedBy target amount direction) fun st us =>
      st.place.Gives st (ys ++ s :: (zs ++ us)) := by
  refine spends_ensureAssignable htarget hy (spends_word hword fun w₁ => spends_pure ?_)
  rw [Stmt.place]
  exact htarget.bind (Gives.afterWord (hamount.bind (gives_word _).map))

variable (hr : rules.Places V)

include hr

/-- The expressions between brackets are placed, and the closing bracket comes
last. -/
theorem spends_bracketed {opening closing : Token} (hopening : opening.isWord = true)
    (hclosing : closing.isWord = true) :
    Spends V w (rules.bracketed opening closing) fun r ys =>
      ∃ zs b, ys = w.current.span :: (zs ++ [b]) ∧ (Expr.placeAll r.1).Gives r.1 zs ∧
        r.2 = b.stop := by
  refine spends_discard (spends_expect hopening fun a ha w₁ => spends_current ?_)
  split
  · refine (spends_listEnd hclosing).mono ?_
    rintro ⟨es, stop⟩ ys ⟨rfl, b, rfl, hstop⟩
    exact ⟨[], b, by rw [ha]; rfl, gives_pure _, hstop⟩
  · refine (hr.expressions w₁).bind fun es zs w₂ _ hes => (spends_listEnd hclosing).mono ?_
    rintro ⟨es, stop⟩ ys ⟨rfl, b, rfl, hstop⟩
    exact ⟨zs, b, by rw [ha], hes, hstop⟩

/-- The parameters are placed, and the closing bracket comes last. -/
theorem spends_paramItems :
    Spends V w rules.paramItems fun ids ys =>
      ∃ zs b, ys = zs ++ [b] ∧ (placeNames ids).Gives ids zs := by
  -- the closing bracket follows, whatever parameters were read
  have hend : ∀ {w : Window} {ids : List Ident} {zs : List Span}, (placeNames ids).Gives ids zs →
      Spends V w (discard (expect (.symbol .rightParen)) >>= fun _ => pure ids) fun ids ys =>
        ∃ us b, zs ++ ys = us ++ [b] ∧ (placeNames ids).Gives ids us := fun hids =>
    spends_discard (spends_expect rfl fun b _ _ => spends_pure ⟨_, b, rfl, hids⟩)
  have hnone : (placeNames []).Gives [] [] := gives_pure _
  refine spends_current ?_
  dsimp only
  split
  · exact hend hnone
  · exact (hr.params w).bind fun ids zs w₁ _ hids => hend hids

/-- Commas take no place. -/
theorem spends_expressions :
    Spends V w rules.expressions fun es ys => (Expr.placeAll es).Gives es ys := by
  refine (hr.expression .lowest w).bind fun e ys w₁ _ he => spends_current ?_
  have hwritten := Expr.isAbsent_of_gives he
  split
  · rename_i hnow
    refine spends_discard (spends_mute hnow rfl nofun fun w₂ => ?_)
    refine (hr.expressions w₂).map fun es zs hes => ?_
    rw [Expr.placeAll, if_neg (by rw [hwritten]; exact Bool.false_ne_true)]
    exact he.bind hes.map
  · refine spends_pure ?_
    rw [Expr.placeAll, if_neg (by rw [hwritten]; exact Bool.false_ne_true)]
    exact he.bind (gives_pure _).map

theorem spends_params : Spends V w rules.params fun ids ys => (placeNames ids).Gives ids ys := by
  refine spends_expectIdent fun id w₁ => spends_current ?_
  split
  · rename_i hnow
    refine spends_discard (spends_mute hnow rfl nofun fun w₂ => ?_)
    refine (hr.params w₂).map fun ids zs hids => ?_
    rw [placeNames]
    exact hids.map.afterWord
  · refine spends_pure ?_
    rw [placeNames]
    exact (gives_pure _).map.afterWord

theorem spends_sameLine :
    Spends V w rules.sameLine fun ss ys => (Stmt.placeAll ss).Gives ss ys := by
  refine (hr.statement w).bind fun s ys w₁ _ hs => spends_current ?_
  split
  · rename_i hnow
    refine spends_discard (spends_mute hnow rfl nofun fun w₂ => ?_)
    refine (hr.sameLine w₂).map fun ss zs hss => ?_
    rw [Stmt.placeAll]
    exact hs.bind hss.map
  · refine spends_pure ?_
    rw [Stmt.placeAll]
    exact hs.bind (gives_pure _).map

theorem spends_lineBreaks : Spends V w rules.lineBreaks fun _ ys => ys = [] := by
  refine spends_current ?_
  split
  · rename_i hnow
    exact spends_discard (spends_mute hnow rfl nofun fun w₁ => hr.lineBreaks w₁)
  · exact spends_pure rfl

/-- Line breaks and the ends of statements take no place. -/
theorem spends_statementsUpTo (stops : List Token) :
    Spends V w (rules.statementsUpTo stops) fun ss ys => (Stmt.placeAll ss).Gives ss ys := by
  refine (hr.lineBreaks w).bind fun u ys w₁ _ hys => spends_current ?_
  subst hys
  split
  · exact spends_pure (gives_pure _)
  · refine (hr.statement w₁).bind fun s ys w₂ _ hs => ?_
    refine mute_expectStatementEnd.before fun _ w₃ => (hr.statements stops w₃).map
      fun ss zs hss => ?_
    rw [Stmt.placeAll]
    exact hs.bind hss.map

/-! ### Functions and blocks -/

/-- A function has its place from the word before it and the word that ends it. -/
theorem spends_functionFrom (opening : Span) :
    Spends V w (rules.functionFrom opening.start) fun f ys => (f.place opening).Gives f ys := by
  refine spends_discard (spends_expect rfl fun a _ w₁ => ?_)
  refine hr.spends_paramItems.bind fun params ys w₂ _ hparams => ?_
  obtain ⟨zs, b, rfl, hparams⟩ := hparams
  refine spends_discard (spends_expect rfl fun c _ w₃ => ?_)
  refine (hr.block w₃).bind fun body us w₄ _ hbody => ?_
  refine (mute_skipNewlineIf _).before fun _ w₅ => spends_expect rfl fun closing _ w₆ => ?_
  refine (mute_setClosed _).before fun _ w₇ => spends_pure ?_
  rw [FunctionLit.place, List.append_assoc, List.singleton_append]
  refine Gives.afterWord (hparams.bind (Gives.afterWord (Gives.afterWord ?_)))
  exact hbody.bind (gives_word closing).map

/-- Only the colon of a block is a word; its lines are set off by tokens of layout. -/
theorem spends_colonBlock : Spends V w rules.colonBlock fun b ys => b.place.Gives b ys := by
  refine spends_current ?_
  split
  · refine spends_expect rfl fun colon _ w₁ => spends_current ?_
    split
    · rename_i hnow
      refine spends_discard (spends_mute hnow rfl nofun fun w₂ => spends_current ?_)
      split
      · rename_i hindent
        refine spends_discard (spends_mute hindent rfl nofun fun w₃ => ?_)
        refine (hr.statements _ w₃).bind fun body ys w₄ _ hbody => ?_
        refine spends_discard (spends_dedent fun _ w₅ => ?_)
        refine (mute_setClosed _).before fun _ w₆ => spends_pure ?_
        rw [Block.place, List.append_nil]
        exact hbody.map.afterWord
      · exact spends_failHere _
    · refine (hr.sameLine w₁).bind fun body ys w₂ _ hbody => ?_
      refine (mute_setClosed _).before fun _ w₃ => spends_pure ?_
      rw [Block.place, List.append_nil]
      exact hbody.map.afterWord
  · exact spends_failHere _
  · exact spends_failHere _

/-! ### Expressions -/

theorem spends_array : Spends V w rules.array fun e ys => e.place.Gives e ys := by
  refine spends_currentSpan ((hr.spends_bracketed rfl rfl).map ?_)
  rintro ⟨elements, stop⟩ ys ⟨zs, b, rfl, helements, hstop⟩
  dsimp only at helements hstop ⊢
  subst hstop
  rw [Expr.place]
  exact (helements.bind (gives_word b).map).afterWord

/-- The call is placed whether an argument was written or not. -/
theorem spends_builtinCall (function : Builtin) :
    Spends V w (rules.builtinCall function) fun e ys => e.place.Gives e ys := by
  refine spends_expectIdent fun name w₁ => (hr.spends_bracketed rfl rfl).bind ?_
  rintro ⟨arguments, stop⟩ ys w₂ - ⟨zs, b, rfl, harguments, hstop⟩
  dsimp only at harguments hstop ⊢
  subst hstop
  -- both branches of the rule build the same call
  have hcall : ∀ call : Expr,
      call = .builtin function (function.arguments arguments ⟨name.span.start, b.stop⟩)
        ⟨name.span.start, b.stop⟩ →
      call.place.Gives call (name.span :: (w₁.current.span :: (zs ++ [b]) ++ [])) := by
    rintro call rfl
    rw [Expr.place, Builtin.placeAll_arguments, List.append_nil]
    exact Gives.afterWord (Gives.afterWord (harguments.bind (gives_word b).map))
  split
  · rename_i hnone
    exact spends_pure (hcall _ (by rw [Builtin.arguments, if_pos hnone]))
  · rename_i hsome
    exact spends_pure (hcall _ (by rw [Builtin.arguments, if_neg hsome]))

theorem spends_signed (hop : w.current.token.isWord = true)
    (hnot : w.current.token ≠ .keyword .notWord) :
    Spends V w rules.signed fun e ys => e.place.Gives e ys := by
  refine spends_word hop fun w₁ => (hr.expression .sign w₁).map fun operand ys hoperand => ?_
  rw [Expr.place, if_neg hnot]
  exact hoperand.map.afterWord

theorem spends_nested : Spends V w rules.nested fun e ys => e.place.Gives e ys := by
  refine spends_expect rfl fun opening _ w₁ => (hr.expression .lowest w₁).bind
    fun inner ys w₂ _ hinner => spends_expect rfl fun closing _ w₃ => spends_pure ?_
  rw [Expr.place]
  exact (hinner.bind (gives_word closing).map).afterWord

/-- What an expression begins with. -/
theorem spends_operand : Spends V w rules.operand fun e ys => e.place.Gives e ys := by
  have hident : Spends V w (expectIdent >>= fun id => pure (Expr.ident id)) fun e ys =>
      e.place.Gives e ys :=
    spends_expectIdent fun id w₁ => spends_pure (gives_word _).map
  refine spends_current ?_
  split
  · exact spends_literal (.inl ⟨_, ‹_›⟩)
  · exact spends_literal (.inr ⟨_, ‹_›⟩)
  · rename_i hnow
    exact spends_word (hnow ▸ rfl) fun w₁ => spends_pure (gives_word _).map
  · split
    · refine spends_peek ?_
      split
      · exact hr.spends_builtinCall _
      · exact hident
    · exact hident
  · rename_i hnow
    exact hr.spends_signed (hnow ▸ rfl) (hnow ▸ nofun)
  · rename_i hnow
    exact hr.spends_signed (hnow ▸ rfl) (hnow ▸ nofun)
  · exact hr.spends_nested
  · exact hr.spends_array
  · refine spends_expect rfl fun opening _ w₁ => (hr.spends_functionFrom opening).map
      fun literal ys hliteral => ?_
    rw [Expr.place]
    exact hliteral.map.afterWord
  · exact spends_unexpected _

theorem spends_joined (hleft : left.place.Gives left ys) (hop : w.current.token.isWord = true) :
    Spends V w (rules.joined left) fun e zs => e.place.Gives e (ys ++ zs) := by
  refine spends_word hop fun w₁ => (hr.expression _ w₁).map fun right zs hright => ?_
  rw [Expr.place]
  exact hleft.bind hright.map.afterWord

theorem spends_called (hleft : left.place.Gives left ys) :
    Spends V w (rules.called left) fun e zs => e.place.Gives e (ys ++ zs) := by
  refine (hr.spends_bracketed rfl rfl).map ?_
  rintro ⟨arguments, stop⟩ zs ⟨us, b, rfl, harguments, hstop⟩
  dsimp only at harguments hstop ⊢
  subst hstop
  rw [Expr.place]
  exact hleft.bind (harguments.bind (gives_word b).map).afterWord

theorem spends_indexed (hleft : left.place.Gives left ys) :
    Spends V w (rules.indexed left) fun e zs => e.place.Gives e (ys ++ zs) := by
  refine spends_discard (spends_expect rfl fun a _ w₁ => ?_)
  refine (hr.expression .lowest w₁).bind fun position us w₂ _ hposition => ?_
  refine spends_expect rfl fun b _ w₃ => spends_pure ?_
  rw [Expr.place]
  exact hleft.bind (hposition.bind (gives_word b).map).afterWord

/-- Each operator behind the expression extends what was placed. -/
theorem spends_operators (above : Precedence) (hleft : left.place.Gives left ys) :
    Spends V w (rules.operators above left) fun e zs => e.place.Gives e (ys ++ zs) := by
  -- whatever was read behind the expression, operators may follow
  have hmore : ∀ {x : Parse Expr}, Spends V w x (fun e zs => e.place.Gives e (ys ++ zs)) →
      Spends V w (x >>= fun e => rules (.operators above e))
        fun e zs => e.place.Gives e (ys ++ zs) := by
    intro x hx
    refine hx.bind fun e zs w₁ _ he => ?_
    simp only [← List.append_assoc]
    exact hr.operators above e w₁ _ he
  refine spends_current ?_
  split
  · split
    · exact hmore (hr.spends_called hleft)
    · exact hmore (hr.spends_indexed hleft)
    · exact hmore (spends_negated hleft)
    · split
      · rename_i hop
        exact hmore (hr.spends_joined hleft (Token.isWord_of_isOperator hop))
      · exact spends_pure (by rw [List.append_nil]; exact hleft)
  · exact spends_pure (by rw [List.append_nil]; exact hleft)

/-! ### Statements -/

theorem spends_loopBody : Spends V w rules.loopBody fun b ys => b.place.Gives b ys :=
  (mute_skipToken (t := .keyword .repeated) rfl nofun).before fun _ w₁ => hr.block w₁

/-- The variable and the first value were read before, with a word between
them. -/
theorem spends_countedFrom {counter first : Expr} {s : Span}
    (hcounter : counter.place.Gives counter ys) (hy : Ordered V ys)
    (hfirst : first.place.Gives first zs) :
    Spends V w (rules.countedFrom counter first) fun st us =>
      st.place.Gives st (ys ++ s :: (zs ++ us)) := by
  rw [countedFrom.eq_def]
  split
  · rename_i id
    -- the variable is one word
    obtain rfl := Expr.gives_ident hcounter
    refine spends_discard (spends_expect rfl fun a _ w₁ => ?_)
    refine (hr.expression .lowest w₁).bind fun last us w₂ _ hlast => ?_
    refine spends_discard (spends_expect rfl fun b _ w₃ => ?_)
    refine (hr.expression .lowest w₃).bind fun step vs w₄ _ hstep => ?_
    refine spends_discard (spends_expect rfl fun c _ w₅ => ?_)
    refine spends_countingWord.bind fun direction ws w₆ _ hws => ?_
    obtain ⟨e, rfl⟩ := hws
    refine hr.spends_loopBody.map fun body xs hbody => ?_
    rw [Stmt.place]
    refine Gives.afterWord (Gives.afterWord (hfirst.bind (Gives.afterWord (hlast.bind
      (Gives.afterWord (hstep.bind (Gives.afterWord (Gives.afterWord ?_))))))))
    exact hbody.map
  · exact fun tr _ htr => Expr.valid_of_gives htr.law hcounter hy

/-- The word between object and operand is passed before it is known what it means. -/
theorem spends_actedOn {object : Expr} (hobject : object.place.Gives object ys) (hy : Ordered V ys)
    (hword : w.current.token.isWord = true) :
    Spends V w (rules.actedOn object) fun st zs => st.place.Gives st (ys ++ zs) := by
  refine spends_discard (spends_word hword fun w₁ => ?_)
  refine (hr.expression .lowest w₁).bind fun operand us w₂ _ hoperand => spends_current ?_
  split
  · exact hr.spends_countedFrom hobject hy hoperand
  · rename_i hnow
    exact spends_changedBy hobject hy hoperand (hnow ▸ rfl)
  · rename_i hnow
    exact spends_changedBy hobject hy hoperand (hnow ▸ rfl)
  · exact spends_unexpected _

/-- What follows an expression decides what statement it opens. -/
theorem spends_continued (he : e.place.Gives e ys) (hy : Ordered V ys) :
    Spends V w (rules.continued e) fun st zs => st.place.Gives st (ys ++ zs) := by
  refine spends_current ?_
  split
  · rename_i hnow
    refine spends_ensureAssignable he hy (spends_discard (spends_word (hnow ▸ rfl) fun w₁ => ?_))
    refine (hr.expression .lowest w₁).map fun value zs hvalue => ?_
    rw [Stmt.place]
    exact he.bind hvalue.map.afterWord
  · rename_i hnow
    exact hr.spends_actedOn he hy (hnow ▸ rfl)
  · rename_i hnow
    refine spends_discard (spends_word (hnow ▸ rfl) fun w₁ => ?_)
    refine hr.spends_loopBody.map fun body zs hbody => ?_
    rw [Stmt.place]
    exact he.bind hbody.map.afterWord
  · refine spends_expect rfl fun closing _ w₁ => spends_pure ?_
    rw [Stmt.place]
    exact he.bind (gives_word closing).map
  · refine spends_pure ?_
    rw [Stmt.place, List.append_nil]
    exact he.map

theorem spends_expressionStatement :
    Spends V w rules.expressionStatement fun st ys => st.place.Gives st ys :=
  (hr.expression .lowest w).bind fun _ _ _ hy he => hr.spends_continued he hy

/-- Where the conditional ends depends on the branch that was read. -/
theorem spends_elseBranch (stop : Nat) :
    Spends V w (rules.elseBranch stop) fun r ys =>
      r.1.place.Gives r.1 ys ∧ r.2 = r.1.stop stop := by
  refine spends_current ?_
  split
  · refine (hr.conditional w).map fun c ys hc => ⟨?_, rfl⟩
    rw [ElseBranch.place]
    exact hc.map
  · rename_i hnow
    refine spends_discard (spends_word (hnow ▸ rfl) fun w₁ => ?_)
    refine (hr.block w₁).map fun b ys hb => ⟨?_, rfl⟩
    rw [ElseBranch.place]
    exact hb.map.afterWord
  · exact spends_pure ⟨gives_pure _, rfl⟩

/-- The conditional begins with a word that was read before. -/
theorem spends_conditionalFrom (opening : Span) :
    Spends V w (rules.conditionalFrom opening.start) fun c ys =>
      c.place.Gives c (opening :: ys) := by
  refine (hr.expression .lowest w).bind fun condition ys w₁ _ hcondition => ?_
  refine spends_discard (spends_expect rfl fun a _ w₂ => ?_)
  refine (hr.block w₂).bind fun consequence zs w₃ _ hconsequence => ?_
  refine (mute_skipNewlineIf _).before fun _ w₄ => (hr.spends_elseBranch _).map ?_
  rintro ⟨alternative, stop⟩ us ⟨halternative, hstop⟩
  dsimp only at halternative hstop ⊢
  subst hstop
  rw [Conditional.place]
  refine Gives.afterWord (hcondition.bind (Gives.afterWord (hconsequence.bind ?_)))
  exact halternative.map

theorem spends_conditional : Spends V w rules.conditional fun c ys => c.place.Gives c ys := by
  refine spends_current ?_
  split
  · exact spends_expect rfl fun opening _ w₁ => hr.spends_conditionalFrom opening
  · exact spends_expect rfl fun opening _ w₁ => hr.spends_conditionalFrom opening

theorem spends_untilLoop : Spends V w rules.untilLoop fun st ys => st.place.Gives st ys := by
  refine spends_expect rfl fun opening _ w₁ => ?_
  refine (hr.block w₁).bind fun body ys w₂ _ hbody => ?_
  refine (mute_skipNewlineIf _).before fun _ w₃ =>
    spends_discard (spends_expect rfl fun a _ w₄ => ?_)
  refine (mute_skipToken (t := .symbol .comma) rfl nofun).before fun _ w₅ => ?_
  refine (hr.expression .lowest w₅).bind fun condition zs w₆ _ hcondition => ?_
  refine spends_expect rfl fun closing _ w₇ => (mute_setClosed _).before fun _ w₈ => spends_pure ?_
  rw [Stmt.place]
  refine Gives.afterWord (hbody.bind (Gives.afterWord (hcondition.bind ?_)))
  exact (gives_word closing).map

theorem spends_definition : Spends V w rules.definition fun st ys => st.place.Gives st ys := by
  refine spends_expect rfl fun opening _ w₁ => spends_expectIdent fun name w₂ => ?_
  refine (hr.spends_functionFrom opening).map fun function ys hfunction => ?_
  rw [Stmt.place]
  exact Gives.afterWord (Gives.afterWord hfunction.map)

theorem spends_statement : Spends V w rules.statement fun st ys => st.place.Gives st ys := by
  refine (mute_setClosed _).before fun _ w₁ => spends_current ?_
  split
  · refine spends_peek ?_
    split
    · exact hr.spends_definition
    · exact hr.spends_expressionStatement
  · refine hr.spends_conditional.map fun c ys hc => ?_
    rw [Stmt.place]
    exact hc.map
  · exact hr.spends_untilLoop
  · exact spends_failHere _
  · exact hr.spends_expressionStatement

/-- A rule places what it reads if the parsers given to it do. -/
theorem rule : (rule rules).Places V where
  expression above _ :=
    hr.spends_operand.bind fun left ys w₁ _ hleft => hr.operators above left w₁ ys hleft
  operators above _ _ _ hleft := hr.spends_operators above hleft
  expressions _ := hr.spends_expressions
  params _ := hr.spends_params
  block _ := hr.spends_colonBlock
  sameLine _ := hr.spends_sameLine
  statements stops _ := hr.spends_statementsUpTo stops
  statement _ := hr.spends_statement
  conditional _ := hr.spends_conditional
  lineBreaks _ := hr.spends_lineBreaks

end Places

end Rules

/-! ### Programs -/

/-- So every unfolding of the grammar places what it reads. -/
theorem parse_places (V : Span → Prop) (n : Nat) : (parse n).Places V := by
  induction n with
  | zero =>
    refine ⟨fun _ _ => ?_, fun _ _ _ _ _ => ?_, fun _ => ?_, fun _ => ?_, fun _ => ?_, fun _ => ?_,
      fun _ _ => ?_, fun _ => ?_, fun _ => ?_, fun _ => ?_⟩ <;> exact Parse.spends_failHere _
  | succ n ih => exact ih.rule

/-- A program covers its statements from the first to the last. -/
theorem Rules.Places.spends_program {rules : Rules} {w : Window} (hr : rules.Places V) :
    Parse.Spends V w rules.program fun p ys => p.place.Gives p ys := by
  refine (hr.statements _ w).bind fun body ys w₁ _ hbody => Parse.spends_current ?_
  split
  · exact Parse.spends_unexpected _
  · have hplace : ∀ p : Program, p = ⟨body, coverAll body⟩ → p.place.Gives p (ys ++ []) := by
      rintro p rfl
      rw [List.append_nil]
      exact hbody.map
    split
    · rename_i first last hfirst hlast
      exact Parse.spends_pure (hplace _ (by rw [coverAll, hfirst, hlast]))
    · rename_i hnone
      refine Parse.spends_pure (hplace _ ?_)
      rw [coverAll]
      split
      · exact (hnone _ _ ‹_› ‹_›).elim
      · rfl

/-- The window on a text stands at the start of its trail, unless a fault is
found. -/
theorem Window.ofFeed_runs {s : Scanner} (h : s.trail.Good V) (hV : V ⟨0, 0⟩) :
    (∃ w, Window.ofFeed (.text s) = .ok w ∧ w.Runs s.trail) ∨
      ∃ e, Window.ofFeed (.text s) = .error e ∧ V e.span := by
  -- two end marks stand before the first token
  have hnear : (Trail.cons ⟨.eof, ⟨0, 0⟩⟩ s.trail).Good V := h.cons hV fun _ _ => Nat.zero_le _
  have hfar : (Trail.cons ⟨.eof, ⟨0, 0⟩⟩ (.cons ⟨.eof, ⟨0, 0⟩⟩ s.trail)).Good V :=
    hnear.cons hV fun _ _ => Nat.zero_le _
  have hstart : (⟨⟨.eof, ⟨0, 0⟩⟩, ⟨.eof, ⟨0, 0⟩⟩, false, .text s, 0⟩ : Window).Runs _ :=
    ⟨s, rfl, rfl⟩
  simp only [Window.ofFeed, Parse.discard_eq, bind_assoc, pure_bind]
  simp only [EStateM.run, bind, EStateM.bind]
  rcases Parse.advance_runs hstart hfar with ⟨w₁, hfirst, hw₁⟩ | ⟨e, w₁, hfirst, he⟩
  · rw [hfirst]
    dsimp only
    rcases Parse.advance_runs hw₁ hnear with ⟨w₂, hsecond, hw₂⟩ | ⟨e, w₂, hsecond, he⟩
    · rw [hsecond]
      exact .inl ⟨w₂, rfl, hw₂⟩
    · rw [hsecond]
      exact .inr ⟨e, rfl, he⟩
  · rw [hfirst]
    exact .inr ⟨e, rfl, he⟩

/-- The program has the places of the words on the trail, up to its end mark; a
failure is at a valid place. -/
def Trail.Places (V : Span → Prop) (tr : Trail) : Except SyntaxError Program → Prop
  | .ok p => ∃ xs x tr', Trail.Passes tr' xs tr ∧ (∀ l ∈ xs, l.token ≠ .eof) ∧
      tr' 0 = .ok x ∧ x.token = .eof ∧ p.place.Gives p (places xs)
  | .error e => V e.span

/-- A text is parsed into a tree with the places of its words, or fails at a
valid place. -/
theorem parseFeed_places {s : Scanner} (h : s.trail.Good V) (hV : V ⟨0, 0⟩) :
    s.trail.Places V (parseFeed (.text s)) := by
  rw [parseFeed]
  rcases Window.ofFeed_runs h hV with ⟨w, hwindow, hw⟩ | ⟨e, hwindow, he⟩
  · have hprogram := (parse_places V w.fuel).spends_program (w := w) s.trail hw h
    have hrun : (Parse.withRules Rules.program).run w = (parse w.fuel).program w := rfl
    rw [hwindow]
    dsimp only
    rw [hrun]
    cases hdone : (parse w.fuel).program w with
    | error e w' =>
      rw [hdone] at hprogram
      exact hprogram
    | ok p w' =>
      rw [hdone] at hprogram
      obtain ⟨xs, tr', ⟨t, hfeed, rfl⟩, hpass, heof, hp⟩ := hprogram
      obtain ⟨hbody, hlast⟩ := Rules.program_eq_ok hdone
      -- the statements of a program stop at the end or at a dedent, which is refused
      have hend : w'.current.token = .eof := by
        simpa [hlast] using current_mem_stops hbody
      exact ⟨xs, w'.current, _, hpass, heof, rfl, hend, hp⟩
  · rw [hwindow]
    exact he

/-- What lies on the trail of a scanner up to the end mark are its tokens. -/
theorem Scanner.tokens_of_passes {s : Scanner} {tr' : Trail} {xs : List Lexeme} {x : Lexeme}
    (hpass : Trail.Passes tr' xs s.trail) (hxs : ∀ l ∈ xs, l.token ≠ .eof)
    (hx : tr' 0 = .ok x) (heof : x.token = .eof) : s.tokens = .ok (xs ++ [x]) := by
  induction xs generalizing s with
  | nil =>
    cases hpass
    exact tokens_of_eof (Prod.ext hx rfl) heof
  | cons y xs ih =>
    obtain ⟨hy, hxs⟩ := List.forall_mem_cons.1 hxs
    have hnext : s.next = (.ok y, s.next.2) := Prod.ext hpass.1 rfl
    exact tokens_of_next hnext hy (ih (tail_trail hnext ▸ hpass.2) hxs)

end Dncl
