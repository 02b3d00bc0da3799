/-
Dncl/Proofs/Printing.lean

The text of a tree is read as the tokens of the tree.

`Prints line inside x ts` says that a scanner reads the text `x` as the tokens
`ts`, set in by any margin and whatever delimiter comes behind it.  There is
one rule for each way in which the printer puts texts together: with a blank
between them, with a line break, as a block below a head, or in brackets.

Design.  A scanner tells the end of a block only when it has measured the next
line.  So a text that ends with a block, and every statement with its line end,
is read up to the start of the next line (`line`), outside brackets at least;
inside brackets there are no lines and reading goes on right behind the text.
-/
import Dncl.Proofs.Indentation
import Dncl.Proofs.Lines
import Dncl.Proofs.Rendering

namespace Dncl

open Scanner (OpensToken)

variable {ts ts' : List Token} {c c' : Bool} {d m : Nat} {is : List Nat}

/-! ### The judgment -/

/-- Where a text that is set in by `m` stands: inside brackets, or in a line of
the innermost block. -/
def Stands : Bool → Nat → Nat → List Nat → Prop
  | true, _, d, _ => 0 < d
  | false, m, d, is => d = 0 ∧ Rising is ∧ ∃ ms, is = m :: ms

/-- Where reading stops when `tail` comes next: right before it, or at the start
of the line after it. -/
def Lands : Bool → Bool → Nat → List Nat → List Char → Place → Prop
  | true, false, _, is, tail, q => ∃ after, (tail = '\n' :: after ∨ tail = [] ∧ after = []) ∧
    GoesBack is after ∧ q = .atLine after is
  | _, _, d, is, tail, q => Delimited tail ∧ q = .inLine tail d is true

/-- The text `x` is read as the tokens `ts`; `line` says whether they include
the end of the line. -/
structure Prints (line inside : Bool) (x : List Char) (ts : List Token) : Prop where
  tidy : Tidy x
  opens : ∀ (m : Nat) (tail : List Char), Delimited tail → OpensToken (setIn m x ++ tail)
  runs : ∀ {m d : Nat} {is : List Nat} {used : Bool} {tail : List Char} {q : Place},
    Stands inside m d is → Lands line inside d is tail q →
      Runs (.inLine (setIn m x ++ tail) d is used) ts q

/-- The text `x` is read as the tokens `ts` inside brackets; it may be empty. -/
structure Encloses (x : List Char) (ts : List Token) : Prop where
  tidy : x = [] ∨ Tidy x
  runs : ∀ {m d : Nat} {is : List Nat} {tail : List Char}, 0 < d → Delimited tail →
    Runs (.inLine (setIn m x ++ tail) d is true) ts (.inLine tail d is true)

section Rules

variable {line inside : Bool} {x y : List Char} {ts us : List Token} {t : Token}

theorem Lands.delimited {tail : List Char} {q : Place} (h : Lands line inside d is tail q) :
    Delimited tail := by
  cases line with
  | false => exact h.1
  | true =>
    cases inside with
    | true => exact h.1
    | false =>
      obtain ⟨after, rfl | ⟨rfl, -⟩, -⟩ := h
      · exact delimited_cons (by decide)
      · exact delimited_nil

theorem lands_here {tail : List Char} (h : Delimited tail) :
    Lands false inside d is tail (.inLine tail d is true) :=
  ⟨h, rfl⟩

/-- Two texts with a blank between them. -/
theorem Prints.gap (h₁ : Prints false inside x ts) (h₂ : Prints line inside y us) :
    Prints line inside (x ++ ' ' :: y) (ts ++ us) where
  tidy := h₁.tidy.append (h₂.tidy.cons (by decide))
  opens m tail htail := by
    rw [setIn_append, List.append_assoc, setIn_cons m y (by decide)]
    exact h₁.opens m _ (delimited_cons (by decide))
  runs hstands hlands := by
    rw [setIn_append, List.append_assoc, setIn_cons _ y (by decide)]
    refine (h₁.runs hstands (lands_here (delimited_cons (c := ' ') (by decide)))).trans ?_
    exact runs_gap.trans (h₂.runs hstands hlands)

theorem delimited_setIn (hy : Delimited y) (hne : y ≠ []) (m : Nat) (tail : List Char) :
    Delimited (setIn m y ++ tail) := by
  obtain ⟨c, y, rfl⟩ := List.exists_cons_of_ne_nil hne
  have hc : c ∈ delimiters := hy c rfl
  by_cases hbreak : c = '\n'
  · subst hbreak
    exact delimited_cons hc
  · rw [setIn_cons m y hbreak]
    exact delimited_cons hc

/-- Two texts next to each other, if the second begins with a delimiter. -/
theorem Prints.append (h₁ : Prints false inside x ts) (h₂ : Prints line inside y us)
    (hy : Delimited y) : Prints line inside (x ++ y) (ts ++ us) where
  tidy := h₁.tidy.append h₂.tidy
  opens m tail htail := by
    rw [setIn_append, List.append_assoc]
    exact h₁.opens m _ (delimited_setIn hy h₂.tidy.ne_nil m tail)
  runs hstands hlands := by
    rw [setIn_append, List.append_assoc]
    refine (h₁.runs hstands (lands_here (delimited_setIn hy h₂.tidy.ne_nil _ _))).trans ?_
    exact h₂.runs hstands hlands

/-- A text in the next line. -/
theorem Prints.next (h₁ : Prints true inside x ts) (h₂ : Prints line inside y us) :
    Prints line inside (x ++ '\n' :: y) (ts ++ us) where
  tidy := h₁.tidy.append (h₂.tidy.cons (by decide))
  opens m tail htail := by
    rw [setIn_append, List.append_assoc, setIn_break]
    exact h₁.opens m _ (delimited_cons (by decide))
  runs {m d is used tail q} hstands hlands := by
    rw [setIn_append, List.append_assoc, setIn_break, List.cons_append, List.append_assoc]
    cases inside with
    | true =>
      -- the break and the blanks after it are passed
      have hx : Lands true true d is ('\n' :: (List.replicate m ' ' ++ (setIn m y ++ tail))) _ :=
        ⟨delimited_cons (by decide), rfl⟩
      refine (h₁.runs hstands hx).trans ?_
      exact (runs_break_inside hstands).trans ((runs_gaps m).trans (h₂.runs hstands hlands))
    | false =>
      obtain ⟨rfl, hrising, ms, rfl⟩ := id hstands
      have hopens := h₂.opens m tail hlands.delimited
      have hback : GoesBack (m :: ms) (List.replicate m ' ' ++ (setIn m y ++ tail)) :=
        ⟨List.cons_ne_nil _ _, .inr ⟨m, List.mem_cons_self, _, hopens, rfl⟩⟩
      refine (h₁.runs hstands ⟨_, .inl rfl, hback, rfl⟩).trans ?_
      exact (runs_margin hopens hrising).trans (h₂.runs hstands hlands)

/-- A statement that does not end with a block ends with its line. -/
theorem Prints.endLine (h : Prints false inside x ts) :
    Prints true inside x (ts ++ if inside then [] else [.newline]) where
  tidy := h.tidy
  opens := h.opens
  runs {m d is used tail q} hstands hlands := by
    cases inside with
    | true =>
      obtain ⟨htail, rfl⟩ := hlands
      exact (h.runs hstands (lands_here htail)).trans (.refl _)
    | false =>
      refine (h.runs hstands (lands_here hlands.delimited)).trans ?_
      obtain ⟨rfl, -⟩ := hstands
      obtain ⟨after, rfl | ⟨rfl, rfl⟩, -, rfl⟩ := hlands
      · exact runs_break
      · exact runs_end

/-! ### Tokens -/

theorem line_of_not_mem (hne : x ≠ []) (hbreak : '\n' ∉ x) (hreturn : '\r' ∉ x) :
    '\n' ∉ x ∧ Tidy x :=
  ⟨hbreak, .of_not_mem hne hbreak hreturn⟩

theorem GoesOn.forall_isNameChar (h : GoesOn x) : ∀ c ∈ x, isNameChar c = true := by
  induction x with
  | nil => nofun
  | cons c x ih =>
    have hc : isNameChar c = true := by
      have hends := h.1
      rw [endsName, Bool.or_eq_false_iff, Bool.not_eq_false'] at hends
      exact hends.1
    exact List.forall_mem_cons.2 ⟨hc, ih h.2⟩

theorem IsName.forall_isNameChar (h : IsName x) : ∀ c ∈ x, isNameChar c = true := by
  cases x with
  | nil => exact h.elim
  | cons c x =>
    obtain ⟨hstart, -, -, -, hgoes⟩ := h
    have hc : isNameChar c = true := by
      rw [isNameChar, Bool.or_eq_true]
      exact .inl hstart
    exact List.forall_mem_cons.2 ⟨hc, hgoes.forall_isNameChar⟩

theorem escaped_ne_break (c : Char) : '\n' ∉ escaped c := by
  rw [escaped]
  split
  · decide
  · split
    · decide
    · split
      · decide
      · rename_i hbreak
        split
        · decide
        · simpa using Ne.symm hbreak

/-- A written token is a text of one line. -/
theorem Token.written_line (ht : t.IsWritten) (hsolid : t.isSolid = true) :
    '\n' ∉ t.written ∧ Tidy t.written := by
  cases t with
  | ident name =>
    have hname : IsName name.toList := ht
    have hchars : ∀ c ∈ name.toList, isNameChar c = true := hname.forall_isNameChar
    refine line_of_not_mem (fun hnil => ?_) (fun hmem => ?_) fun hmem => ?_
    · rw [show name.toList = [] from hnil] at hname
      exact hname
    · exact absurd (hchars _ hmem) (by decide)
    · exact absurd (hchars _ hmem) (by decide)
  | int value =>
    obtain ⟨n, rfl⟩ := Int.eq_ofNat_of_zero_le ht.1
    rw [show (Token.int n).written = Nat.toDigits 10 n from toList_toString_nat n]
    have hdigits : ∀ c ∈ Nat.toDigits 10 n, c.isDigit = true := fun c hc =>
      Nat.isDigit_of_mem_toDigits (by decide) (by decide) hc
    refine line_of_not_mem Nat.toDigits_ne_nil (fun hmem => ?_) fun hmem => ?_
    · exact absurd (hdigits _ hmem) (by decide)
    · exact absurd (hdigits _ hmem) (by decide)
  | str text =>
    have htext : (Token.str text).written = ('"' :: text.toList.flatMap escaped) ++ ['"'] := by
      simp [Token.written, strLiteral]
    have hline : '\n' ∉ '"' :: text.toList.flatMap escaped := by
      simp [escaped_ne_break]
    rw [htext]
    exact ⟨by simpa using hline, .concat hline (by decide)⟩
  | command text =>
    have htext : (Token.command text).written = ('【' :: text.toList) ++ ['】'] := by
      simp [Token.written, Token.spelling]
    have hline : '\n' ∉ '【' :: text.toList := by
      simpa using fun hmem => (ht.1 '\n' hmem).1 rfl
    rw [htext]
    exact ⟨by simpa using hline, .concat hline (by decide)⟩
  | symbol s => cases s <;> exact line_of_not_mem (by decide) (by decide) (by decide)
  | keyword k => cases k <;> exact line_of_not_mem (by decide) (by decide) (by decide)
  | newline | indent | dedent | eof => cases hsolid

/-- A token that is no bracket. -/
theorem prints_token (ht : t.IsWritten) (hsolid : t.isSolid = true)
    (hdepth : ∀ d, t.depthAfter d = d) : Prints false inside t.written [t] where
  tidy := (Token.written_line ht hsolid).2
  opens m tail htail := by
    rw [setIn_eq_self m (Token.written_line ht hsolid).1]
    exact (Token.spells ht hsolid (.inr htail)).opens
  runs {m d is used tail q} _ hlands := by
    obtain ⟨htail, rfl⟩ := hlands
    rw [setIn_eq_self m (Token.written_line ht hsolid).1]
    exact runs_token (Token.spells ht hsolid (.inr htail)) (hdepth d)

theorem prints_keyword (k : Keyword) : Prints false inside k.spelling.toList [.keyword k] :=
  prints_token (t := .keyword k) trivial rfl fun _ => rfl

/-- A token that ends itself, and a text right behind it. -/
theorem Prints.glue (h : Prints line inside y us) (ht : t.IsWritten) (hsolid : t.isSolid = true)
    (hdepth : ∀ d, t.depthAfter d = d) (hend : t.endsItself = true) :
    Prints line inside (t.written ++ y) (t :: us) where
  tidy := (Token.written_line ht hsolid).2.append h.tidy
  opens m tail htail := by
    rw [setIn_append, List.append_assoc, setIn_eq_self m (Token.written_line ht hsolid).1]
    exact (Token.spells ht hsolid (.inl hend)).opens
  runs {m d is used tail q} hstands hlands := by
    rw [setIn_append, List.append_assoc, setIn_eq_self m (Token.written_line ht hsolid).1]
    refine (runs_token (Token.spells ht hsolid (.inl hend)) (hdepth d)).trans ?_
    exact h.runs hstands hlands

/-! ### Brackets -/

theorem Prints.encloses (h : Prints false true x ts) : Encloses x ts where
  tidy := .inr h.tidy
  runs hd htail := h.runs (m := _) (q := _) hd (lands_here htail)

theorem encloses_nil : Encloses [] [] where
  tidy := .inl rfl
  runs _ _ := .refl _

/-- The symbols are an opening bracket and its closing one. -/
def Bracket (o c : Symbol) : Prop :=
  o = .leftParen ∧ c = .rightParen ∨ o = .leftBracket ∧ c = .rightBracket

/-- A text in brackets, which may stand inside brackets or outside. -/
theorem Encloses.prints (h : Encloses x ts) {o c : Symbol} (hbracket : Bracket o c) :
    Prints false inside (o.spelling.toList ++ (x ++ c.spelling.toList))
      (.symbol o :: (ts ++ [.symbol c])) := by
  have hopening (tail : List Char) : Spells o.spelling.toList (.symbol o) tail := by
    rcases hbracket with ⟨rfl, rfl⟩ | ⟨rfl, rfl⟩
    · exact spells_symbol _ (.inl rfl)
    · exact spells_symbol _ (.inl rfl)
  have hdepth (d : Nat) : (Token.symbol o).depthAfter d = d + 1 ∧
      (Token.symbol c).depthAfter (d + 1) = d := by
    rcases hbracket with ⟨rfl, rfl⟩ | ⟨rfl, rfl⟩ <;> exact ⟨rfl, rfl⟩
  have hclosing (tail : List Char) : Delimited (c.spelling.toList ++ tail) := by
    rcases hbracket with ⟨rfl, rfl⟩ | ⟨rfl, rfl⟩ <;> exact delimited_cons (by decide)
  obtain ⟨hline₁, htidy₁⟩ : '\n' ∉ o.spelling.toList ∧ Tidy o.spelling.toList :=
    Token.written_line (t := .symbol o) trivial rfl
  obtain ⟨hline₂, htidy₂⟩ : '\n' ∉ c.spelling.toList ∧ Tidy c.spelling.toList :=
    Token.written_line (t := .symbol c) trivial rfl
  have htext (m : Nat) (tail : List Char) :
      setIn m (o.spelling.toList ++ (x ++ c.spelling.toList)) ++ tail =
        o.spelling.toList ++ (setIn m x ++ (c.spelling.toList ++ tail)) := by
    rw [setIn_append, setIn_append, setIn_eq_self m hline₁, setIn_eq_self m hline₂]
    simp
  refine ⟨htidy₁.append ?_, fun m tail _ => ?_, fun {m d is used tail q} _ hlands => ?_⟩
  · rcases h.tidy with rfl | htidy
    · exact htidy₂
    · exact htidy.append htidy₂
  · rw [htext]
    exact (hopening _).opens
  · obtain ⟨htail, rfl⟩ := hlands
    rw [htext]
    -- between the brackets the depth is not zero, so every break is a gap
    refine (runs_token (hopening _) (hdepth d).1).trans ?_
    refine (h.runs (Nat.succ_pos d) (hclosing tail)).trans ?_
    exact runs_token (spells_symbol c (.inr htail)) (hdepth d).2

/-! ### Blocks -/

theorem Stands.deeper (h : Stands false m 0 is) : Stands false (m + 4) 0 ((m + 4) :: is) := by
  obtain ⟨-, hrising, ms, rfl⟩ := h
  refine ⟨rfl, List.pairwise_cons.2 ⟨fun w hw => ?_, hrising⟩, _, rfl⟩
  have hle : w ≤ m := hrising.le_headD hw
  exact Nat.lt_of_le_of_lt hle (Nat.lt_add_of_pos_right (by decide))

theorem GoesBack.deeper {cs : List Char} (h : GoesBack is cs) : GoesBack (m :: is) cs := by
  refine ⟨List.cons_ne_nil _ _, h.2.imp_right fun ⟨w, hw, hcs⟩ => ?_⟩
  exact ⟨w, List.mem_cons_of_mem m hw, hcs⟩

/-- A block below its head. -/
theorem Prints.block (h₁ : Prints false inside x ts) (h₂ : Prints true inside y us) :
    Prints true inside (x ++ ':' :: '\n' :: (List.replicate 4 ' ' ++ setIn 4 y))
      (ts ++ if inside then .symbol .colon :: us
        else .symbol .colon :: .newline :: .indent :: (us ++ [.dedent])) := by
  have htext (m : Nat) (tail : List Char) :
      setIn m (x ++ ':' :: '\n' :: (List.replicate 4 ' ' ++ setIn 4 y)) ++ tail =
        setIn m x ++ (Symbol.colon.spelling.toList ++
          '\n' :: (List.replicate (m + 4) ' ' ++ (setIn (m + 4) y ++ tail))) := by
    have hblanks : setIn m (List.replicate 4 ' ') = List.replicate 4 ' ' :=
      setIn_eq_self m (by decide)
    rw [setIn_append, setIn_cons m _ (by decide), setIn_break, setIn_append, hblanks, setIn_setIn,
      ← List.replicate_append_replicate]
    simp
    rfl
  have hcolon (tail : List Char) : Delimited (Symbol.colon.spelling.toList ++ tail) :=
    delimited_cons (by decide)
  have hspells (tail : List Char) :
      Spells Symbol.colon.spelling.toList (.symbol .colon) ('\n' :: tail) :=
    spells_symbol .colon (.inr (delimited_cons (by decide)))
  refine ⟨?_, fun m tail _ => ?_, fun {m d is used tail q} hstands hlands => ?_⟩
  · exact h₁.tidy.append
      ((((h₂.tidy.setIn 4).blanks 4).cons (by decide)).cons (by decide))
  · rw [htext]
    exact h₁.opens m _ (hcolon _)
  · rw [htext]
    refine (h₁.runs hstands (lands_here (hcolon _))).trans ?_
    cases inside with
    | true =>
      -- inside brackets breaks and margins are not tokens
      refine (runs_token (hspells _) rfl).trans ?_
      exact (runs_break_inside hstands).trans ((runs_gaps _).trans (h₂.runs hstands hlands))
    | false =>
      have hopens := h₂.opens (m + 4) tail hlands.delimited
      -- the block opens with its margin and closes before what comes back
      obtain ⟨after, htail, hback, rfl⟩ := hlands
      obtain ⟨rfl, hrising, ms, rfl⟩ := id hstands
      refine (runs_token (hspells _) rfl).trans (runs_break.trans ?_)
      refine (runs_indent hopens (Nat.lt_add_of_pos_right (by decide))).trans ?_
      refine (h₂.runs hstands.deeper ⟨after, htail, hback.deeper, rfl⟩).trans ?_
      exact runs_dedent hstands.deeper.2.1 hback

end Rules

/-! ### Expressions -/

/-- The text of an expression is read as its tokens. -/
def Expr.Prints (inside : Bool) (e : Expr) : Prop :=
  Dncl.Prints false inside e.text.toList (e.tokens inside)

section Expressions

variable {b : Bool} {left right inner e : Expr} {es : List Expr} {span : Span}

theorem prints_operator {op : Token} (h : op.isOperator = true) :
    Prints false b op.spelling.toList [op] := by
  cases op with
  | symbol s => exact prints_token (t := .symbol s) trivial rfl (Token.depthAfter_operator h)
  | keyword k => exact prints_keyword k
  | _ => cases h

theorem prints_joined {op : Token} (h : op.isOperator = true) (hleft : left.Prints b)
    (hright : right.Prints b) : (Expr.infixOp op left right span).Prints b := by
  have hprint := hleft.gap ((prints_operator h).gap hright)
  show Prints false b (left.text ++ " " ++ op.spelling ++ " " ++ right.text).toList
    (left.tokens b ++ op :: right.tokens b)
  simpa using hprint

theorem prints_negated (hleft : left.Prints b) :
    (Expr.prefixOp (.keyword .notWord) left span).Prints b := by
  have hprint := hleft.gap (prints_keyword .notWord)
  show Prints false b (left.text ++ " でない").toList (left.tokens b ++ [Token.keyword .notWord])
  simpa [Keyword.spelling] using hprint

theorem prints_signed {op : Symbol} (sign : op = .minus ∨ op = .plus) (h : inner.Prints b) :
    (Expr.prefixOp (.symbol op) inner span).Prints b := by
  have hprint : Prints false b (op.spelling.toList ++ inner.text.toList)
      (.symbol op :: inner.tokens b) := by
    refine Prints.glue (t := .symbol op) h trivial rfl ?_ ?_
    · rcases sign with rfl | rfl <;> exact fun _ => rfl
    · rcases sign with rfl | rfl <;> rfl
  show Prints false b (op.spelling ++ inner.text).toList (.symbol op :: inner.tokens b)
  simpa using hprint

theorem prints_nested (h : inner.Prints true) : (Expr.nested inner span).Prints b := by
  have hprint : Prints false b _ _ := h.encloses.prints (.inl ⟨rfl, rfl⟩)
  show Prints false b ("(" ++ inner.text ++ ")").toList
    (.symbol .leftParen :: (inner.tokens true ++ [Token.symbol .rightParen]))
  simpa [Symbol.spelling] using hprint

/-- The texts of expressions with commas between them are read inside brackets. -/
def Expr.Enclosed (es : List Expr) : Prop :=
  Encloses (Text.joinWith ", " (Expr.texts es)).toList (Expr.listTokens es)

theorem prints_array (h : Expr.Enclosed es) : (Expr.array es span).Prints b := by
  have hprint : Prints false b _ _ := Encloses.prints h (.inr ⟨rfl, rfl⟩)
  show Prints false b ("[" ++ Text.joinWith ", " (Expr.texts es) ++ "]").toList
    (.symbol .leftBracket :: (Expr.listTokens es ++ [Token.symbol .rightBracket]))
  simpa [Symbol.spelling] using hprint

theorem prints_call (hleft : left.Prints b) (h : Expr.Enclosed es) :
    (Expr.call left es span).Prints b := by
  have hprint := hleft.append (Encloses.prints h (.inl ⟨rfl, rfl⟩)) (delimited_cons (by decide))
  show Prints false b (left.text ++ "(" ++ Text.joinWith ", " (Expr.texts es) ++ ")").toList
    (left.tokens b ++ .symbol .leftParen :: (Expr.listTokens es ++ [Token.symbol .rightParen]))
  simpa [Symbol.spelling] using hprint

theorem prints_index (hleft : left.Prints b) (h : inner.Prints true) :
    (Expr.index left inner span).Prints b := by
  have hprint := hleft.append (h.encloses.prints (.inr ⟨rfl, rfl⟩)) (delimited_cons (by decide))
  show Prints false b (left.text ++ "[" ++ inner.text ++ "]").toList
    (left.tokens b ++ .symbol .leftBracket :: (inner.tokens true ++ [Token.symbol .rightBracket]))
  simpa [Symbol.spelling] using hprint

theorem Builtin.joinWith_arguments (function : Builtin) (es : List Expr) (place : Span) :
    Text.joinWith ", " (Expr.texts (function.arguments es place)) =
      Text.joinWith ", " (Expr.texts es) := by
  rcases function.arguments_cases es place with h | ⟨-, rfl, h⟩ <;> rw [h]
  rfl

theorem prints_builtin {function : Builtin} {place : Span}
    (hname : (Token.ident function.name).IsWritten) (h : Expr.Enclosed es) :
    (Expr.builtin function (function.arguments es place) span).Prints b := by
  have hword : Prints false b function.name.toList [.ident function.name] :=
    prints_token hname rfl fun _ => rfl
  have hprint := hword.append (Encloses.prints h (.inl ⟨rfl, rfl⟩)) (delimited_cons (by decide))
  show Prints false b (function.name ++ "(" ++
      Text.joinWith ", " (Expr.texts (function.arguments es place)) ++ ")").toList
    (.ident function.name :: .symbol .leftParen ::
      (Expr.listTokens (function.arguments es place) ++ [Token.symbol .rightParen]))
  rw [function.joinWith_arguments, function.listTokens_arguments]
  simpa [Symbol.spelling] using hprint

theorem prints_command {text : String} (h : (Token.command text).IsWritten) :
    (Expr.command (.ofText text) span).Prints b := by
  have hinner : (Token.command (Command.ofText text).inner).IsWritten := by
    rw [Command.ofText]
    split
    · have hbreak : '\n' ∉ Command.inputText.toList := by decide
      have hclose : '】' ∉ Command.inputText.toList := by decide
      have hchars : ∀ c ∈ Command.inputText.toList, c ≠ '\n' ∧ c ≠ '】' := fun c hc =>
        ⟨fun heq => hbreak (heq ▸ hc), fun heq => hclose (heq ▸ hc)⟩
      exact ⟨hchars, by decide⟩
    · exact h
  have htext : (Command.ofText text).text = "【" ++ (Command.ofText text).inner ++ "】" := by
    cases Command.ofText text <;> rfl
  show Prints false b (Command.ofText text).text.toList [.command (Command.ofText text).inner]
  rw [htext]
  exact prints_token hinner rfl fun _ => rfl

theorem Text.joinWith_cons {sep s : String} {ss : List String} (h : ss ≠ []) :
    Text.joinWith sep (s :: ss) = s ++ sep ++ Text.joinWith sep ss := by
  obtain ⟨t, ss, rfl⟩ := List.exists_cons_of_ne_nil h
  rfl

/-- Texts with a comma and a blank between them. -/
theorem prints_comma {x y : List Char} {us : List Token} (h₁ : Prints false b x ts)
    (h₂ : Prints false b y us) :
    Prints false b (x ++ ',' :: ' ' :: y) (ts ++ .symbol .comma :: us) := by
  have hcomma : Prints false b [','] [.symbol .comma] :=
    prints_token (t := .symbol .comma) trivial rfl fun _ => rfl
  have hprint := h₁.append (hcomma.gap h₂) (delimited_cons (by decide))
  simpa using hprint

theorem prints_lastExpr (h : e.Prints true) :
    Prints false true (Text.joinWith ", " (Expr.texts [e])).toList (Expr.listTokens [e]) := by
  show Prints false true e.text.toList (e.tokens true ++ [])
  rw [List.append_nil]
  exact h

theorem prints_moreExprs (hes : es ≠ []) (h₁ : e.Prints true)
    (h₂ : Prints false true (Text.joinWith ", " (Expr.texts es)).toList (Expr.listTokens es)) :
    Prints false true (Text.joinWith ", " (Expr.texts (e :: es))).toList
      (Expr.listTokens (e :: es)) := by
  have hprint := prints_comma h₁ h₂
  have htexts : Expr.texts es ≠ [] := by
    cases es with
    | nil => exact absurd rfl hes
    | cons => nofun
  show Prints false true (Text.joinWith ", " (e.text :: Expr.texts es)).toList
    (e.tokens true ++ Expr.laterTokens es)
  rw [Text.joinWith_cons htexts, Expr.laterTokens_eq hes]
  simpa using hprint

end Expressions

/-! ### Functions and blocks -/

/-- The text of a statement is read as its tokens and the end of its line. -/
def Stmt.Prints (inside : Bool) (s : Stmt) : Prop :=
  Dncl.Prints true inside s.text.toList (s.tokens inside ++ s.lineEnd inside)

/-- A block is read below any head. -/
def Block.Prints (inside : Bool) (body : Block) : Prop :=
  ∀ x ts, Dncl.Prints false inside x ts →
    Dncl.Prints true inside (x ++ ':' :: '\n' :: body.text.toList) (ts ++ body.tokens inside)

/-- The text of a function from its opening bracket on. -/
def FunctionLit.rest : FunctionLit → String
  | ⟨params, body, _⟩ => "(" ++ paramList params ++ ") を:\n" ++ body.text ++ "\nと定義する"

/-- A function is read behind any text. -/
def FunctionLit.Prints (inside : Bool) (literal : FunctionLit) : Prop :=
  ∀ x ts, Dncl.Prints false inside x ts →
    Dncl.Prints false inside (x ++ literal.rest.toList) (ts ++ literal.tokens inside)

section Functions

variable {b : Bool} {params : List Ident} {body : Block} {s : Stmt} {ss : List Stmt}
  {literal : FunctionLit} {name : String} {span : Span}

theorem prints_moreParams (hparams : params ≠ []) (hname : (Token.ident name).IsWritten)
    (h : Prints false true (paramList params).toList (paramTokens params)) :
    Prints false true (paramList (⟨name, span⟩ :: params)).toList
      (paramTokens (⟨name, span⟩ :: params)) := by
  have hword : Prints false true name.toList [.ident name] :=
    prints_token hname rfl fun _ => rfl
  have hprint := prints_comma hword h
  show Prints false true (Text.joinWith ", " (name :: params.map Ident.name)).toList
    (.ident name :: laterParamTokens params)
  rw [Text.joinWith_cons (by simpa using hparams), laterParamTokens_eq hparams]
  simpa [paramList] using hprint

theorem prints_function (hparams : Encloses (paramList params).toList (paramTokens params))
    (hbody : body.Prints b) : FunctionLit.Prints b ⟨params, body, span⟩ := by
  intro x ts hx
  have hhead := (hx.append (hparams.prints (.inl ⟨rfl, rfl⟩)) (delimited_cons (by decide))).gap
    (prints_keyword .wo)
  have hprint := (hbody _ _ hhead).next (prints_keyword .endFunction)
  show Prints false b (x ++ ("(" ++ paramList params ++ ") を:\n" ++ body.text ++
      "\nと定義する").toList)
    (ts ++ .symbol .leftParen :: (paramTokens params ++ .symbol .rightParen :: .keyword .wo ::
      (body.tokens b ++ [Token.keyword .endFunction])))
  simpa [Symbol.spelling, Keyword.spelling] using hprint

theorem prints_literal (h : literal.Prints b) : (Expr.function literal).Prints b := by
  have hprint := h _ _ (prints_keyword .function)
  have htext : literal.text.toList = Keyword.function.spelling.toList ++ literal.rest.toList := by
    obtain ⟨params, body, span⟩ := literal
    show ("関数(" ++ paramList params ++ ") を:\n" ++ body.text ++ "\nと定義する").toList = _ ++
      ("(" ++ paramList params ++ ") を:\n" ++ body.text ++ "\nと定義する").toList
    simp [Keyword.spelling]
  show Prints false b literal.text.toList (.keyword .function :: literal.tokens b)
  rw [htext]
  exact hprint

/-- Statements, each in a line of its own. -/
theorem prints_statements (hss : ss ≠ []) (h : ∀ s ∈ ss, s.Prints b) :
    Prints true b (Text.joinWith "\n" (Stmt.texts ss)).toList (Stmt.lines b ss) := by
  induction ss with
  | nil => exact absurd rfl hss
  | cons s ss ih =>
    have hs : s.Prints b := h s List.mem_cons_self
    cases ss with
    | nil =>
      show Prints true b s.text.toList (s.tokens b ++ (s.lineEnd b ++ []))
      rw [List.append_nil]
      exact hs
    | cons t ss =>
      have hothers := ih nofun fun u hu => h u (List.mem_cons_of_mem s hu)
      have hprint := Prints.next hs hothers
      show Prints true b (s.text ++ "\n" ++ Text.joinWith "\n" (Stmt.texts (t :: ss))).toList
        (s.tokens b ++ (s.lineEnd b ++ Stmt.lines b (t :: ss)))
      simpa using hprint

theorem Stmt.mem_texts {t : String} (h : t ∈ Stmt.texts ss) : ∃ s ∈ ss, t = s.text := by
  induction ss with
  | nil => cases h
  | cons s ss ih =>
    rcases List.mem_cons.1 h with rfl | h
    · exact ⟨s, List.mem_cons_self, rfl⟩
    · obtain ⟨u, hu, rfl⟩ := ih h
      exact ⟨u, List.mem_cons_of_mem s hu, rfl⟩

theorem prints_block (hss : ss ≠ []) (h : ∀ s ∈ ss, s.Prints b) : Block.Prints b ⟨ss, span⟩ := by
  intro x ts hx
  have hprint := hx.block (prints_statements hss h)
  obtain ⟨s, ss, rfl⟩ := List.exists_cons_of_ne_nil hss
  have htidy : ∀ t ∈ s.text :: Stmt.texts ss, Tidy t.toList := by
    intro t (ht : t ∈ Stmt.texts (s :: ss))
    obtain ⟨u, hu, rfl⟩ := Stmt.mem_texts ht
    exact (h u hu).tidy
  have htext : (Block.text ⟨s :: ss, span⟩).toList =
      List.replicate 4 ' ' ++ setIn 4 (Text.joinWith "\n" (Stmt.texts (s :: ss))).toList :=
    Text.toList_joinWith_indent htidy
  rw [htext]
  cases b with
  | true => exact hprint
  | false => exact hprint

end Functions

/-! ### Statements -/

section Statements

variable {b : Bool} {e value amount condition : Expr} {body : Block} {s : Stmt}
  {literal : FunctionLit} {direction : Direction} {name : String} {place span : Span}

/-- A statement that does not end with a block. -/
theorem Stmt.Prints.of_inline (h : Dncl.Prints false b s.text.toList (s.tokens b))
    (hs : s.endsWithBlock = false) : s.Prints b := by
  have hend : s.lineEnd b = if b then [] else [.newline] := by
    rw [Stmt.lineEnd, hs, Bool.or_false]
  rw [Stmt.Prints, hend]
  exact h.endLine

/-- A statement that ends with a block. -/
theorem Stmt.Prints.of_line (h : Dncl.Prints true b s.text.toList (s.tokens b))
    (hs : s.endsWithBlock = true) : s.Prints b := by
  have hend : s.lineEnd b = [] := by
    rw [Stmt.lineEnd, hs, Bool.or_true]
    rfl
  rw [Stmt.Prints, hend, List.append_nil]
  exact h

theorem prints_define (hname : (Token.ident name).IsWritten) (h : literal.Prints b) :
    (Stmt.define ⟨name, place⟩ literal span).Prints b := by
  have hword : Prints false b name.toList [.ident name] :=
    prints_token hname rfl fun _ => rfl
  have hprint := h _ _ ((prints_keyword .function).gap hword)
  refine .of_inline ?_ rfl
  obtain ⟨params, body, span⟩ := literal
  show Prints false b ("関数 " ++ name ++ "(" ++ paramList params ++ ") を:\n" ++ body.text ++
      "\nと定義する").toList
    (.keyword .function :: .ident name :: FunctionLit.tokens b ⟨params, body, span⟩)
  simpa [Keyword.spelling, FunctionLit.rest] using hprint

theorem prints_untilLoop (hbody : body.Prints b) (hcondition : condition.Prints b) :
    (Stmt.untilLoop body condition span).Prints b := by
  have hlast := prints_comma (prints_keyword .wo) (hcondition.gap (prints_keyword .untilWord))
  have hprint := (hbody _ _ (prints_keyword .loop)).next hlast
  refine .of_inline ?_ rfl
  show Prints false b ("繰り返し:\n" ++ body.text ++ "\nを, " ++ condition.text ++
      " になるまで実行する").toList
    (.keyword .loop :: (body.tokens b ++ .keyword .wo :: .symbol .comma ::
      (condition.tokens b ++ [Token.keyword .untilWord])))
  simpa [Keyword.spelling] using hprint

theorem prints_assign (he : e.Prints b) (hvalue : value.Prints b) :
    (Stmt.assign e value span).Prints b := by
  have hmark : Prints false b ['='] [.symbol .assign] :=
    prints_token (t := .symbol .assign) trivial rfl fun _ => rfl
  have hprint := he.gap (hmark.gap hvalue)
  refine .of_inline ?_ rfl
  show Prints false b (e.text ++ " = " ++ value.text).toList
    (e.tokens b ++ .symbol .assign :: value.tokens b)
  simpa using hprint

theorem prints_counted {first last step : Expr} {counter : Ident}
    (hcounter : (Expr.ident counter).Prints b) (hfirst : first.Prints b) (hlast : last.Prints b)
    (hstep : step.Prints b) (hbody : body.Prints b) :
    (Stmt.counted counter first last step direction body span).Prints b := by
  have hword : Prints false b (direction.countingWord.toList ++ "繰り返す".toList)
      (direction.countingToken :: [.keyword .repeated]) := by
    cases direction with
    | increasing =>
      exact Prints.glue (t := .keyword .increasing) (prints_keyword .repeated) trivial rfl
        (fun _ => rfl) rfl
    | decreasing =>
      exact Prints.glue (t := .keyword .decreasing) (prints_keyword .repeated) trivial rfl
        (fun _ => rfl) rfl
  have hwords := Prints.glue (t := .keyword .stepBy) hword trivial rfl (fun _ => rfl) rfl
  have hhead := hcounter.gap ((prints_keyword .wo).gap (hfirst.gap ((prints_keyword .startAt).gap
    (hlast.gap ((prints_keyword .upTo).gap (hstep.gap hwords))))))
  have hprint := hbody _ _ hhead
  refine .of_line ?_ rfl
  show Prints true b (counter.name ++ " を " ++ first.text ++ " から " ++ last.text ++ " まで " ++
      step.text ++ " ずつ" ++ direction.countingWord ++ "繰り返す:\n" ++ body.text).toList
    (.ident counter.name :: .keyword .wo :: (first.tokens b ++ .keyword .startAt ::
      (last.tokens b ++ .keyword .upTo :: (step.tokens b ++ .keyword .stepBy ::
        direction.countingToken :: .keyword .repeated :: body.tokens b))))
  have htext : (Expr.ident counter).text = counter.name := rfl
  have htokens : (Expr.ident counter).tokens b = [.ident counter.name] := rfl
  rw [htext, htokens] at hprint
  simpa [Keyword.spelling, Token.written, Token.spelling] using hprint

theorem prints_whileLoop (he : e.Prints b) (hbody : body.Prints b) :
    (Stmt.whileLoop e body span).Prints b := by
  have hwords : Prints false b _ _ := Prints.glue (t := .keyword .whileWord)
    (prints_keyword .repeated) trivial rfl (fun _ => rfl) rfl
  have hprint := hbody _ _ (he.gap hwords)
  refine .of_line ?_ rfl
  show Prints true b (e.text ++ " の間繰り返す:\n" ++ body.text).toList
    (e.tokens b ++ .keyword .whileWord :: .keyword .repeated :: body.tokens b)
  simpa [Keyword.spelling, Token.written, Token.spelling] using hprint

theorem prints_change (he : e.Prints b) (hamount : amount.Prints b) :
    (Stmt.change e amount direction span).Prints b := by
  have hword : Prints false b direction.changingWord.toList [direction.changingToken] := by
    cases direction with
    | increasing => exact prints_keyword .increase
    | decreasing => exact prints_keyword .decrease
  have hprint := he.gap ((prints_keyword .wo).gap (hamount.gap hword))
  refine .of_inline ?_ rfl
  show Prints false b (e.text ++ " を " ++ amount.text ++ " " ++ direction.changingWord).toList
    (e.tokens b ++ .keyword .wo :: (amount.tokens b ++ [direction.changingToken]))
  simpa [Keyword.spelling] using hprint

theorem prints_giveBack (he : e.Prints b) : (Stmt.giveBack e span).Prints b := by
  have hprint := he.gap (prints_keyword .giveBack)
  refine .of_inline ?_ rfl
  show Prints false b (e.text ++ " を返す").toList (e.tokens b ++ [Token.keyword .giveBack])
  simpa [Keyword.spelling] using hprint

/-! ### Conditionals -/

/-- A conditional is read behind its first word. -/
def Conditional.Prints (inside : Bool) (k : Conditional) : Prop :=
  ∃ rest, k.text.toList = 'も' :: 'し' :: ' ' :: rest ∧
    Dncl.Prints true inside rest (k.tokens inside)

/-- What follows a consequence is read below it. -/
def ElseBranch.Prints (inside : Bool) (a : ElseBranch) : Prop :=
  ∀ x ts, Dncl.Prints true inside x ts →
    Dncl.Prints true inside (x ++ a.text.toList) (ts ++ a.tokens inside)

variable {consequence : Block} {alternative : ElseBranch} {k : Conditional}

theorem prints_branches (hcondition : condition.Prints b) (hconsequence : consequence.Prints b)
    (halternative : alternative.Prints b) :
    Conditional.Prints b ⟨condition, consequence, alternative, span⟩ := by
  have hprint := halternative _ _ (hconsequence _ _ (hcondition.gap (prints_keyword .thenWord)))
  refine ⟨(condition.text ++ " ならば:\n" ++ consequence.text ++ alternative.text).toList, ?_, ?_⟩
  · show ("もし " ++ condition.text ++ " ならば:\n" ++ consequence.text ++
      alternative.text).toList = _
    simp
  · show Prints true b _ (condition.tokens b ++ .keyword .thenWord ::
      (consequence.tokens b ++ alternative.tokens b))
    simpa [Keyword.spelling] using hprint

theorem prints_conditional (h : k.Prints b) : (Stmt.conditional k).Prints b := by
  obtain ⟨rest, htext, hrest⟩ := h
  refine .of_line ?_ rfl
  show Prints true b k.text.toList (.keyword .ifWord :: k.tokens b)
  rw [htext]
  exact (prints_keyword .ifWord).gap hrest

theorem prints_elseIf (h : k.Prints b) : (ElseBranch.elseIf k).Prints b := by
  intro x ts hx
  obtain ⟨rest, htext, hrest⟩ := h
  have hprint := hx.next ((prints_keyword .elseIf).gap hrest)
  show Prints true b (x ++ ("\nそうでなく" ++ k.text).toList) (ts ++ .keyword .elseIf :: k.tokens b)
  rw [String.toList_append, htext]
  simpa [Keyword.spelling] using hprint

theorem prints_otherwise (h : body.Prints b) : (ElseBranch.otherwise body).Prints b := by
  intro x ts hx
  have hprint := hx.next (h _ _ (prints_keyword .otherwise))
  show Prints true b (x ++ ("\nそうでなければ:\n" ++ body.text).toList)
    (ts ++ .keyword .otherwise :: body.tokens b)
  simpa [Keyword.spelling] using hprint

theorem prints_missing : ElseBranch.missing.Prints b := by
  intro x ts hx
  show Prints true b (x ++ []) (ts ++ [])
  rw [List.append_nil, List.append_nil]
  exact hx

end Statements

/-! ### The induction -/

/-- The text of the tree is read as its tokens, given that of what it goes on
with. -/
def Form.Printed (b : Bool) : (f : Form) → f.Tree → Prop
  | .operand, e | .expression _, e => e.Prints b
  | .operators _ left, e => left.Prints b → e.Prints b
  | .items _, es => b = true → Expr.Enclosed es
  | .expressions, es => b = true →
    Prints false true (Text.joinWith ", " (Expr.texts es)).toList (Expr.listTokens es)
  | .paramItems, ids => Encloses (paramList ids).toList (paramTokens ids)
  | .params, ids => Prints false true (paramList ids).toList (paramTokens ids)
  | .function, literal => literal.Prints b
  | .block, body => body.Prints b
  | .sameLine, ss | .statements _, ss => ∀ s ∈ ss, s.Prints b
  | .statement, s => s.Prints b
  | .continued e, s => e.Prints b → s.Prints b
  | .conditional, k => k.Prints b
  | .elseBranch, a => a.Prints b

/-- A block that opens with a token has statements. -/
theorem Reads.lines_ne_nil {ss : List Stmt}
    (h : Reads (.statements [.dedent, .eof]) c ts ss c' (.dedent :: ts'))
    (hsolid : ts ≠ [] → (inView ts).isSolid = true) : ss ≠ [] := by
  cases h with
  | someStatements => nofun
  | noStatements breaks stop =>
    cases ts with
    | nil => cases breaks
    | cons t ts =>
      have ht : t.isSolid = true := hsolid nofun
      rw [dropBreaks_of_isSolid ht] at breaks
      cases breaks
      cases ht

/-- The text of a tree that was read from tokens in order is read as the tokens
of the tree. -/
theorem Reads.printed {f : Form} {t : f.Tree} (h : Reads f c ts t c' ts') :
    ∀ d, Layout d ts → f.Printed (decide (0 < d)) t := by
  induction h with
  -- operands
  | int value span => exact fun _ hd => prints_token (t := .int value) hd.head rfl fun _ => rfl
  | str text span => exact fun _ hd => prints_token (t := .str text) hd.head rfl fun _ => rfl
  | command text span => exact fun _ hd => prints_command hd.head
  | ident name span => exact fun _ hd => prints_token (t := .ident name) hd.head rfl fun _ => rfl
  | builtin name place span known _ ih =>
    intro d hd
    obtain rfl := Builtin.eq_name known
    exact prints_builtin hd.head (ih (d + 1) hd.tail.tail rfl)
  | signed op span sign _ ih =>
    intro d hd
    have hop : (Token.symbol op).depthAfter d = d := by
      rcases sign with rfl | rfl <;> rfl
    exact prints_signed sign (ih d (hop ▸ hd.tail))
  | nested span _ ih => exact fun d hd => prints_nested (ih (d + 1) hd.tail)
  | array span _ ih => exact fun d hd => prints_array (ih (d + 1) hd.tail rfl)
  | literal _ ih => exact fun d hd => prints_literal (ih d hd.tail)
  -- expressions
  | expression h₁ h₂ ih₁ ih₂ => exact fun d hd => ih₂ d (h₁.layout d hd) (ih₁ d hd)
  | stop => exact fun _ _ hleft => hleft
  | called span tight h₁ _ ih₁ ih₂ =>
    intro d hd hleft
    exact ih₂ d (h₁.layout (d + 1) hd.tail) (prints_call hleft (ih₁ (d + 1) hd.tail rfl))
  | indexed span tight h₁ _ ih₁ ih₂ =>
    intro d hd hleft
    exact ih₂ d (h₁.layout (d + 1) hd.tail).tail (prints_index hleft (ih₁ (d + 1) hd.tail))
  | negated span tight _ ih => exact fun d hd hleft => ih d hd.tail (prints_negated hleft)
  | joined op span operator tight h₁ _ ih₁ ih₂ =>
    intro d hd hleft
    have hright : Layout d _ := Token.depthAfter_operator operator d ▸ hd.tail
    exact ih₂ d (h₁.layout d hright) (prints_joined operator hleft (ih₁ d hright))
  -- lists
  | noItems => exact fun _ _ _ => encloses_nil
  | someItems _ _ ih => exact fun d hd hb => (ih d hd hb).encloses
  | lastExpr _ _ ih => exact fun d hd hb => prints_lastExpr (hb ▸ ih d hd)
  | moreExprs h₁ h₂ ih₁ ih₂ =>
    intro d hd hb
    have hothers := ih₂ d (h₁.layout d hd).tail hb
    exact prints_moreExprs h₂.expressions_ne_nil (hb ▸ ih₁ d hd) hothers
  | noParams => exact fun _ _ => encloses_nil
  | someParams _ _ ih => exact fun d hd => (ih d hd).encloses
  | lastParam name => exact fun _ hd => prints_token (t := .ident name) hd.head rfl fun _ => rfl
  | moreParams name span h ih =>
    exact fun d hd => prints_moreParams h.params_ne_nil hd.head (ih d hd.tail.tail)
  -- functions and blocks
  | function span closes h₁ _ ih₁ ih₂ =>
    exact fun d hd => prints_function (ih₁ (d + 1) hd.tail) (ih₂ d (h₁.layout (d + 1) hd.tail).tail)
  | lines span h ih =>
    intro d hd
    exact prints_block (h.lines_ne_nil (hd.tail.tail.1 rfl).2) (ih d hd.tail.tail.tail)
  | oneLine span _ h ih => exact fun d hd => prints_block h.sameLine_ne_nil (ih d hd.tail)
  | lastHere _ _ ih => exact fun d hd => List.forall_mem_singleton.2 (ih d hd)
  | moreHere h₁ _ ih₁ ih₂ =>
    exact fun d hd => List.forall_mem_cons.2 ⟨ih₁ d hd, ih₂ d (h₁.layout d hd).tail⟩
  | noStatements => exact fun _ _ => nofun
  | someStatements breaks _ ended h₁ _ ih₁ ih₂ =>
    intro d hd
    have hfirst : Layout d _ := breaks ▸ hd.dropBreaks
    exact List.forall_mem_cons.2 ⟨ih₁ d hfirst, ih₂ d ((h₁.layout d hfirst).passEnd ended)⟩
  -- statements
  | define _ _ _ _ ih => exact fun d hd => prints_define hd.tail.head (ih d hd.tail.tail)
  | conditional _ ih => exact fun d hd => prints_conditional (ih d hd.tail)
  | untilLoop _ closes h₁ _ ih₁ ih₂ =>
    intro d hd
    have hwo := (closes ▸ (h₁.layout d hd.tail).passBreak : Layout d _).tail
    exact prints_untilLoop (ih₁ d hd.tail) (ih₂ d (hwo.passToken rfl))
  | opened _ h₁ _ ih₁ ih₂ => exact fun d hd => ih₂ d (h₁.layout d hd) (ih₁ d hd)
  | plain => exact fun _ _ he => .of_inline he rfl
  | assign _ _ _ ih => exact fun d hd he => prints_assign he (ih d hd.tail)
  | counted counter direction _ h₁ h₂ h₃ _ ih₁ ih₂ ih₃ ih₄ =>
    intro d hd he
    have hd₁ := (h₁.layout d hd.tail).tail
    have hd₂ := (h₂.layout d hd₁).tail
    have hd₃ := (h₃.layout d hd₂).tail.tail
    rw [direction.depthAfter_countingToken] at hd₃
    exact prints_counted he (ih₁ d hd.tail) (ih₂ d hd₁) (ih₃ d hd₂) (ih₄ d (hd₃.passToken rfl))
  | change _ _ _ _ ih => exact fun d hd he => prints_change he (ih d hd.tail)
  | whileLoop _ _ ih => exact fun d hd he => prints_whileLoop he (ih d (hd.tail.passToken rfl))
  | giveBack => exact fun _ _ he => prints_giveBack he
  -- conditionals
  | branches _ h₁ h₂ _ ih₁ ih₂ ih₃ =>
    intro d hd
    have hd₁ := (h₁.layout d hd).tail
    exact prints_branches (ih₁ d hd) (ih₂ d hd₁) (ih₃ d (h₂.layout d hd₁).passBreak)
  | elseIf _ ih => exact fun d hd => prints_elseIf (ih d hd.tail)
  | otherwise _ ih => exact fun d hd => prints_otherwise (ih d hd.tail)
  | missing => exact fun _ _ => prints_missing

/-- From the start of its text a program is read as its tokens. -/
theorem runs_program {ss : List Stmt} (h : ∀ s ∈ ss, s.Prints false) :
    Runs (.atLine (Text.joinWith "\n" (Stmt.texts ss)).toList [0]) (Stmt.lines false ss)
      (.atLine [] [0]) := by
  by_cases hss : ss = []
  · subst hss
    exact .refl _
  · have hprint := prints_statements hss h
    have hstands : Stands false 0 0 [0] := ⟨rfl, List.pairwise_singleton _ _, [], rfl⟩
    have hlands : Lands true false 0 [0] [] (.atLine [] [0]) :=
      ⟨[], .inr ⟨rfl, rfl⟩, ⟨List.cons_ne_nil _ _, .inl rfl⟩, rfl⟩
    have hopens := hprint.opens 0 [] delimited_nil
    have hruns := (runs_margin hopens hstands.2.1).trans (hprint.runs hstands hlands)
    rw [setIn_zero, List.append_nil] at hruns
    exact hruns

/-- The text of a program that was read from tokens in order is read as the
tokens of the program. -/
theorem Program.stream_text {p : Program} (hlayout : Layout 0 ts)
    (h : Reads (.statements [.eof, .dedent]) false ts p.statements c []) :
    (Scanner.ofText p.text).stream = .prepend p.tokens .ended := by
  obtain ⟨pos, hstream⟩ := runs_program (h.printed 0 hlayout) 0
  rw [stream_atLine_nil] at hstream
  exact hstream

end Dncl
