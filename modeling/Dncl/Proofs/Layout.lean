/-
Dncl/Proofs/Layout.lean

Tokens in the order in which they come from a text.

`Layout d ts` says of the tokens `ts`, before which `d` brackets are open, that
a block opens outside brackets only, and not to be closed at once, that no line
breaks inside brackets but the last one, and that each token is one that can be
written down (`IsWritten`): names are not cut by keywords, integers are in range
and the texts of commands are trimmed.  It is what a scanner sees to; a phrase
leaves it as it is and closes the brackets that it opened (`Reads.layout`).
-/
import Dncl.Proofs.Derivation

namespace Dncl

/-! ### Tokens as they are written -/

/-- A name that has begun goes on through all of the characters. -/
def GoesOn : List Char → Prop
  | [] => True
  | c :: cs => endsName (c :: cs) = false ∧ GoesOn cs

/-- The characters are read as a name. -/
def IsName : List Char → Prop
  | [] => False
  | c :: cs => isNameStart c = true ∧ isDigit c = false ∧ Symbol.singles.lookup c = none ∧
    Keyword.startOf? (c :: cs) = none ∧ GoesOn cs

/-- The characters are read as the text of a command. -/
def IsCommandText (cs : List Char) : Prop :=
  (∀ c ∈ cs, c ≠ '\n' ∧ c ≠ '】') ∧ Text.trim cs = cs

/-- The token can be written in a text. -/
def Token.IsWritten : Token → Prop
  | .ident name => IsName name.toList
  | .int value => 0 ≤ value ∧ value ≤ Text.maxInt
  | .command text => IsCommandText text.toList
  | .eof => False
  | _ => True

/-! ### Layout -/

/-- Whether the token is neither layout nor the end mark. -/
def Token.isSolid : Token → Bool
  | .newline | .indent | .dedent | .eof => false
  | _ => true

theorem Token.ne_of_isSolid {t u : Token} (ht : t.isSolid = true) (hu : u.isSolid = false) :
    t ≠ u := by
  rintro rfl
  exact Bool.false_ne_true (hu.symm.trans ht)

theorem dropBreaks_of_isSolid {t : Token} {ts : List Token} (ht : t.isSolid = true) :
    (t :: ts).dropWhile (· = .newline) = t :: ts :=
  List.dropWhile_cons_of_neg (by simpa using Token.ne_of_isSolid ht rfl)

/-- How many brackets are open after the token. -/
def Token.depthAfter (d : Nat) : Token → Nat
  | .symbol s => bracketDepth d s
  | _ => d

/-- The tokens `ts`, before which `d` brackets are open, are in order. -/
def Layout (d : Nat) : List Token → Prop
  | [] => True
  | t :: ts =>
    (t = .indent → d = 0 ∧ (ts ≠ [] → (inView ts).isSolid = true)) ∧
    (t = .newline → 0 < d → (inView ts).isSolid = false) ∧
    t.IsWritten ∧ Layout (t.depthAfter d) ts

namespace Layout

variable {d : Nat} {ts rest : List Token} {t : Token}

theorem head (h : Layout d (t :: ts)) : t.IsWritten :=
  h.2.2.1

theorem tail (h : Layout d (t :: ts)) : Layout (t.depthAfter d) ts :=
  h.2.2.2

theorem passBreak {continues : Token → Bool} (h : Layout d ts) :
    Layout d (passBreak continues ts) := by
  rw [Dncl.passBreak]
  split
  · rename_i hbreak
    obtain ⟨rest, rfl⟩ := eq_cons_of_inView hbreak.1 (by simp)
    exact h.tail
  · exact h

theorem passToken (h : Layout d ts) (ht : t.depthAfter d = d) : Layout d (passToken t ts) := by
  rw [Dncl.passToken]
  split
  · rename_i hnow
    cases ts with
    | nil => exact h
    | cons u ts =>
      obtain rfl : u = t := hnow
      exact ht ▸ h.tail
  · exact h

/-- Skipping breaks keeps the layout. -/
theorem dropBreaks (h : Layout d ts) : Layout d (ts.dropWhile (· = .newline)) := by
  induction ts with
  | nil => exact h
  | cons t ts ih =>
    by_cases hbreak : t = .newline
    · subst hbreak
      rw [List.dropWhile_cons_of_pos (by simp)]
      exact ih h.tail
    · rw [List.dropWhile_cons_of_neg (by simpa using hbreak)]
      exact h

/-- So does the end of a statement. -/
theorem passEnd {closed : Bool} (h : Layout d ts) (hend : passEnd closed ts = some rest) :
    Layout d rest := by
  rcases passEnd_eq_some.1 hend with (rfl | rfl) | ⟨rfl, -⟩
  · exact h.tail
  · exact h.tail
  · exact h

/-- Inside brackets no statement goes on in the next line. -/
theorem passBreak_eq {continues : Token → Bool} (h : Layout d ts) (hd : 0 < d)
    (hsolid : ∀ t, continues t = true → t.isSolid = true) : Dncl.passBreak continues ts = ts := by
  rw [Dncl.passBreak, if_neg]
  rintro ⟨hbreak, hgoes⟩
  obtain ⟨rest, rfl⟩ := eq_cons_of_inView hbreak (by simp)
  have hloose : (inView rest).isSolid = false := h.2.1 rfl hd
  have hsolid : (inView rest).isSolid = true := hsolid _ hgoes
  rw [hloose] at hsolid
  cases hsolid

end Layout

theorem Token.depthAfter_operator {op : Token} (h : op.isOperator = true) (d : Nat) :
    op.depthAfter d = d := by
  cases op with
  | symbol s => cases s <;> first | rfl | cases h
  | _ => rfl

theorem Direction.depthAfter_countingToken (direction : Direction) (d : Nat) :
    direction.countingToken.depthAfter d = d := by
  cases direction <;> rfl

theorem Direction.depthAfter_changingToken (direction : Direction) (d : Nat) :
    direction.changingToken.depthAfter d = d := by
  cases direction <;> rfl

/-- How many brackets are open after a phrase of the form. -/
def Form.depthAfter (d : Nat) : Form → Nat
  | .items closing => bracketDepth d closing
  | .paramItems => d - 1
  | _ => d

/-- A phrase closes the brackets that it opens, and behind it the layout is as
it was. -/
theorem Reads.layout {f : Form} {c c' : Bool} {ts ts' : List Token} {t : f.Tree}
    (h : Reads f c ts t c' ts') : ∀ d, Layout d ts → Layout (f.depthAfter d) ts' := by
  induction h with
  | int | str | command | ident | noItems | noParams | lastParam | giveBack =>
    exact fun d hd => hd.tail
  | stop | plain | missing => exact fun d hd => hd
  -- the brackets of these forms enclose phrases
  | builtin _ _ _ _ _ ih => exact fun d hd => ih (d + 1) hd.tail.tail
  | nested _ _ ih => exact fun d hd => (ih (d + 1) hd.tail).tail
  | array _ _ ih => exact fun d hd => ih (d + 1) hd.tail
  | called _ _ _ _ ih₁ ih₂ => exact fun d hd => ih₂ d (ih₁ (d + 1) hd.tail)
  | indexed _ _ _ _ ih₁ ih₂ => exact fun d hd => ih₂ d (ih₁ (d + 1) hd.tail).tail
  | function _ closes _ _ ih₁ ih₂ =>
    intro d hd
    have hbody := ih₂ d (ih₁ (d + 1) hd.tail).tail
    exact (closes ▸ hbody.passBreak : Layout d _).tail
  -- the others have none of their own
  | signed op _ sign _ ih =>
    rcases sign with rfl | rfl
    · exact fun d hd => ih d hd.tail
    · exact fun d hd => ih d hd.tail
  | joined op _ operator _ _ _ ih₁ ih₂ =>
    intro d hd
    have hright : Layout d _ := Token.depthAfter_operator operator d ▸ hd.tail
    exact ih₂ d (ih₁ d hright)
  | literal _ ih | negated _ _ _ ih | oneLine _ _ _ ih | conditional _ ih | assign _ _ _ ih
  | elseIf _ ih | otherwise _ ih => exact fun d hd => ih d hd.tail
  | moreParams _ _ _ ih | define _ _ _ _ ih => exact fun d hd => ih d hd.tail.tail
  | lastExpr _ _ ih | lastHere _ _ ih => exact ih
  | expression _ _ ih₁ ih₂ | opened _ _ _ ih₁ ih₂ => exact fun d hd => ih₂ d (ih₁ d hd)
  | someItems _ _ ih | someParams _ _ ih => exact fun d hd => (ih d hd).tail
  | moreExprs _ _ ih₁ ih₂ | moreHere _ _ ih₁ ih₂ => exact fun d hd => ih₂ d (ih₁ d hd).tail
  | lines _ _ ih => exact fun d hd => (ih d hd.tail.tail.tail).tail
  | noStatements breaks _ => exact fun d hd => breaks ▸ hd.dropBreaks
  | someStatements breaks _ ended _ _ ih₁ ih₂ =>
    intro d hd
    have hfirst := ih₁ d (breaks ▸ hd.dropBreaks)
    exact ih₂ d (hfirst.passEnd ended)
  | untilLoop _ closes _ _ ih₁ ih₂ =>
    intro d hd
    have hwo := (closes ▸ (ih₁ d hd.tail).passBreak : Layout d _).tail
    exact (ih₂ d (hwo.passToken rfl)).tail
  | counted _ direction _ _ _ _ _ ih₁ ih₂ ih₃ ih₄ =>
    intro d hd
    have hstep := (ih₃ d (ih₂ d (ih₁ d hd.tail).tail).tail).tail.tail
    rw [direction.depthAfter_countingToken] at hstep
    exact ih₄ d (hstep.passToken rfl)
  | change direction _ _ _ ih =>
    intro d hd
    have hword := (ih d hd.tail).tail
    rw [direction.depthAfter_changingToken] at hword
    exact hword
  | whileLoop _ _ ih => exact fun d hd => ih d (hd.tail.passToken rfl)
  | branches _ _ _ _ ih₁ ih₂ ih₃ =>
    intro d hd
    exact ih₃ d (ih₂ d (ih₁ d hd).tail).passBreak

end Dncl
