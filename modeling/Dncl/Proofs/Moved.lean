/-
Dncl/Proofs/Moved.lean

A scanner that is further on in a text.

What a scanner finds does not depend on how far on it is.  If it has the same
text before it and its offset is greater by `k`, each of its steps is the same
(`step_moved`), and the places of all that it yields are greater by `k`.
-/
import Dncl.Proofs.Blocks
import Dncl.Proofs.Placing
import Dncl.Proofs.Words

namespace Dncl

/-- The token, `k` bytes further on. -/
def Lexeme.moved (k : Nat) (x : Lexeme) : Lexeme :=
  ⟨x.token, x.span.moved k⟩

/-- What was found, `k` bytes further on. -/
def Found.moved (k : Nat) : Found → Found
  | .ok x => .ok (x.moved k)
  | .error fault => .error ⟨fault.cause, fault.span.moved k⟩

theorem map_token_moved (k : Nat) (xs : List Lexeme) :
    (xs.map (Lexeme.moved k)).map Lexeme.token = xs.map Lexeme.token := by
  rw [List.map_map]
  rfl

namespace Scanner

variable {s t : Scanner}

/-- The scanner, `k` bytes further on. -/
def moved (k : Nat) (s : Scanner) : Scanner :=
  { s with pos := s.pos + k, pending := s.pending.map (Lexeme.moved k) }

theorem after_moved {α : Type} (k : Nat) (s : Scanner) (r : Reading α) :
    (s.moved k).after r = (s.after r).moved k := by
  simp only [after, moved, Nat.add_right_comm]

theorem skipWhile_moved (k : Nat) (s : Scanner) (p : Char → Bool) :
    (s.moved k).skipWhile p = (s.skipWhile p).moved k :=
  after_moved k s _

theorem pastMargin_moved (k : Nat) (s : Scanner) :
    (s.moved k).pastMargin = s.pastMargin.moved k := by
  simp only [pastMargin, moved, Nat.add_right_comm]

theorem readQuoted_moved (k : Nat) (s : Scanner) (quote close : Char) (cs : List Char) :
    (s.moved k).readQuoted quote close cs =
      (Found.moved k (s.readQuoted quote close cs).1, (s.readQuoted quote close cs).2.moved k) := by
  rw [readQuoted, readQuoted, after_moved]
  cases (readString close cs).value with
  | some value => rfl
  | none => simp only [Found.moved, Span.moved, moved, Nat.add_right_comm]

theorem readBracketed_moved (k : Nat) (s : Scanner) (bracket : Char) (cs : List Char) :
    (s.moved k).readBracketed bracket cs =
      (Found.moved k (s.readBracketed bracket cs).1, (s.readBracketed bracket cs).2.moved k) := by
  rw [readBracketed, readBracketed, after_moved]
  cases (readCommand cs).value with
  | some value => rfl
  | none => simp only [Found.moved, Span.moved, moved, Nat.add_right_comm]

theorem readInteger_moved (k : Nat) (s : Scanner) :
    (s.moved k).readInteger = (Found.moved k s.readInteger.1, s.readInteger.2.moved k) := by
  rw [readInteger_eq, readInteger_eq, after_moved]
  show (if ((readDigits s.rest).value : Int) ≤ Text.maxInt then _ else _) = _
  split <;> rfl

/-- The same token or fault is found. -/
theorem readToken_moved (k : Nat) (s : Scanner) (c : Char) (cs : List Char) :
    (s.moved k).readToken c cs =
      (Found.moved k (s.readToken c cs).1, (s.readToken c cs).2.moved k) := by
  cases readBy c with
  | quoted close hquote => rw [readToken_quote hquote, readToken_quote hquote, readQuoted_moved]
  | bracketed hbracket =>
    subst hbracket
    rw [readToken_bracket, readToken_bracket, readBracketed_moved]
  | digits hdigit => rw [readToken_digit hdigit, readToken_digit hdigit, readInteger_moved]
  | plain hplain hdigit =>
    rw [readToken_plain hplain hdigit, readToken_plain hplain hdigit]
    cases readMark? c cs with
    | some r =>
      simp only [after_moved]
      rfl
    | none =>
      simp only [after_moved]
      split
      · rfl
      · simp only [Found.moved, Span.moved, moved, Nat.add_right_comm]

end Scanner

/-- What a step yields and leads to, `k` bytes further on. -/
def Progress.moved (k : Nat) : Progress → Progress
  | .again t => .again (t.moved k)
  | .emit r t => .emit (Found.moved k r) (t.moved k)

namespace Scanner

variable {s t : Scanner}

theorem closeBlocks_moved (k : Nat) (s : Scanner) (width : Nat) :
    (s.moved k).closeBlocks width = (s.closeBlocks width).moved k := by
  simp only [closeBlocks, moved, List.map_replicate]
  rfl

theorem beginLine_moved (k : Nat) (s : Scanner) :
    (s.moved k).beginLine = s.beginLine.moved k := by
  rw [beginLine, beginLine, pastMargin_moved, closeBlocks_moved]
  show (if isBare s.pastMargin.rest then _ else if s.indents.headD 0 < s.lineWidth then _ else
    if (marginsUpTo s.lineWidth s.indents).headD 0 = s.lineWidth then _ else _) = _
  split
  · rfl
  · split
    · rfl
    · split <;> rfl

theorem finish_moved (k : Nat) (s : Scanner) : (s.moved k).finish = s.finish.moved k := by
  obtain ⟨rest, pos, depth, indents, lineStart, lineUsed, ended, pending⟩ := s
  simp only [finish, moved, List.map_append, List.map_replicate]
  cases lineUsed <;> rfl

/-- What is read does not depend on where the scanner stands. -/
theorem readOn_moved (k : Nat) (s : Scanner) : (s.moved k).readOn = s.readOn.moved k := by
  have hsame : (s.moved k).rest = s.rest := rfl
  rw [readOn, readOn, hsame]
  cases s.rest with
  | nil => exact congrArg Progress.again (finish_moved k s)
  | cons c cs =>
    dsimp only
    rw [skipWhile_moved, after_moved, readToken_moved]
    split
    · rfl
    · split
      · show (if 0 < s.depth then _ else if s.lineUsed then _ else _) = _
        split
        · rfl
        · split <;> rfl
      · cases s.readToken c cs with
        | mk result t => cases result <;> rfl

/-- A scanner that is further on in the text takes the same steps. -/
theorem step_moved (k : Nat) (s : Scanner) : (s.moved k).step = s.step.moved k := by
  have hpending : (s.moved k).pending = s.pending.map (Lexeme.moved k) := rfl
  rw [step, step, hpending, beginLine_moved, skipWhile_moved, readOn_moved]
  cases s.pending with
  | cons x later => rfl
  | nil =>
    show (if s.ended then _ else if s.lineStart then _ else _) = _
    dsimp only
    split
    · rfl
    · split <;> rfl

/-- The next token is the same one, moved. -/
theorem next_moved (k : Nat) (s : Scanner) :
    (s.moved k).next = (Found.moved k s.next.1, s.next.2.moved k) := by
  fun_induction next s with
  | case1 s r t hstep =>
    exact next_of_emit (by rw [step_moved, hstep]; rfl)
  | case2 s t hstep ih =>
    rw [next_of_again (t := t.moved k) (by rw [step_moved, hstep]; rfl), ih]

/-- The tokens of a scanner that is further on are further on. -/
theorem tokens_moved {xs : List Lexeme} (k : Nat) (h : s.tokens = .ok xs) :
    (s.moved k).tokens = .ok (xs.map (Lexeme.moved k)) := by
  fun_induction tokens s generalizing xs with
  | case1 => cases h
  | case2 s x t hnext heof =>
    cases h
    exact tokens_of_eof (t := t.moved k) (by rw [next_moved, hnext]; rfl) heof
  | case3 => cases h
  | case4 s x t hnext heof later hlater ih =>
    cases h
    exact tokens_of_next (t := t.moved k) (by rw [next_moved, hnext]; rfl) heof (ih hlater)

end Scanner

end Dncl
