/-
Dncl/Token/Stepping.lean

What a step of the scanner can do, said once.

A step yields what is pending, or the end mark again, or it measures a margin
(`MarginCase`), or it reads on within a line (`LineCase`); within a line there
may be a token, of one kind or another, or a fault (`TokenCase`).

Design.  Each function of the scanner has its cases as an inductive relation
between the scanner and what becomes of it.  A case tells under which condition
it is taken and what the result is then, so an invariant goes through the cases
by name and does not open the functions.  Where two scanners are compared, the
cases are those of the first character (`ReadBy`), which both have in common,
and the equations say what each of them does.
-/
import Dncl.Token.Scanner

namespace Dncl

/-- The quotes of a string, and the marks that they are closed with. -/
def quotes : List (Char × Char) :=
  [('"', '"'), ('「', '」')]

namespace Scanner

variable {s : Scanner} {c : Char} {cs : List Char}

/-! ### Readers -/

theorem readToken_quote {close : Char} (h : (c, close) ∈ quotes) :
    s.readToken c cs = s.readQuoted c close cs := by
  simp only [quotes, List.mem_cons, Prod.mk.injEq, List.not_mem_nil, or_false] at h
  rcases h with ⟨rfl, rfl⟩ | ⟨rfl, rfl⟩
  · exact if_pos rfl
  · exact (if_neg (by decide)).trans (if_pos rfl)

/-- What begins with a digit is read as an integer. -/
theorem readToken_digit (hc : isDigit c = true) (s : Scanner) (cs : List Char) :
    s.readToken c cs = s.readInteger := by
  have hdiffers : ∀ d, isDigit d = false → c ≠ d := by
    rintro d hd rfl
    rw [hc] at hd
    cases hd
  rw [readToken, if_neg (hdiffers _ (by decide)), if_neg (hdiffers _ (by decide)),
    if_neg (hdiffers _ (by decide)), if_pos hc]

theorem readToken_bracket : s.readToken '【' cs = s.readBracketed '【' cs :=
  (if_neg (by decide)).trans ((if_neg (by decide)).trans (if_pos rfl))

theorem readToken_plain (hplain : c ∉ ['"', '「', '【']) (hdigit : isDigit c = false) :
    s.readToken c cs = match readMark? c cs with
      | some r => (.ok ⟨.symbol r.value,
          s.spanTo { s.after r with depth := bracketDepth s.depth r.value }⟩,
          { s.after r with depth := bracketDepth s.depth r.value })
      | none =>
        if isNameStart c then
          (.ok ⟨(readWord c cs).value, s.spanTo (s.after (readWord c cs))⟩,
            s.after (readWord c cs))
        else (.error ⟨.unrecognized c, ⟨s.pos, s.pos + c.utf8Size⟩⟩, s) := by
  simp only [List.mem_cons, List.not_mem_nil, or_false, not_or] at hplain
  obtain ⟨hquote, hcorner, hbracket⟩ := hplain
  rw [readToken, if_neg hquote, if_neg hcorner, if_neg hbracket, hdigit]
  exact if_neg Bool.false_ne_true

/-- Which reader reads a token depends on its first character alone. -/
inductive ReadBy (c : Char) : Prop
  | quoted (close : Char) : (c, close) ∈ quotes → ReadBy c
  | bracketed : c = '【' → ReadBy c
  | digits : isDigit c = true → ReadBy c
  | plain : c ∉ ['"', '「', '【'] → isDigit c = false → ReadBy c

theorem readBy (c : Char) : ReadBy c := by
  by_cases hmark : c ∈ ['"', '「', '【']
  · simp only [List.mem_cons, List.not_mem_nil, or_false] at hmark
    rcases hmark with rfl | rfl | rfl
    · exact .quoted '"' (by decide)
    · exact .quoted '」' (by decide)
    · exact .bracketed rfl
  · cases hdigit : isDigit c with
    | true => exact .digits hdigit
    | false => exact .plain hmark hdigit

/-! ### Tokens -/

/-- The cases of a token that begins with `c` and goes on in `cs`. -/
inductive TokenCase (s : Scanner) (c : Char) (cs : List Char) :
    Except LexError Lexeme × Scanner → Prop
  | string {close : Char} {value : List Char} {t : Scanner} : (c, close) ∈ quotes →
      (readString close cs).value = some value →
      t = s.after ⟨(), c :: (readString close cs).taken, (readString close cs).rest⟩ →
      TokenCase s c cs (.ok ⟨.str (String.ofList value), s.spanTo t⟩, t)
  | openString {close : Char} : (c, close) ∈ quotes → (readString close cs).value = none →
      TokenCase s c cs (.error ⟨.unterminatedString, ⟨s.pos, s.pos + c.utf8Size⟩⟩,
        s.after ⟨(), c :: (readString close cs).taken, (readString close cs).rest⟩)
  | command {value : List Char} {t : Scanner} : c = '【' → (readCommand cs).value = some value →
      t = s.after ⟨(), c :: (readCommand cs).taken, (readCommand cs).rest⟩ →
      TokenCase s c cs (.ok ⟨.command (String.ofList (Text.trim value)), s.spanTo t⟩, t)
  | openCommand : c = '【' → (readCommand cs).value = none →
      TokenCase s c cs (.error ⟨.unterminatedCommand, ⟨s.pos, s.pos + c.utf8Size⟩⟩,
        s.after ⟨(), c :: (readCommand cs).taken, (readCommand cs).rest⟩)
  | integer {t : Scanner} : isDigit c = true → (readTally s.rest).value.overflow = false →
      t = s.after (readTally s.rest) →
      TokenCase s c cs (.ok ⟨.int (readTally s.rest).value.value, s.spanTo t⟩, t)
  | largeInteger {t : Scanner} : isDigit c = true → (readTally s.rest).value.overflow = true →
      t = s.after (readTally s.rest) → TokenCase s c cs (.error ⟨.integerTooLarge, s.spanTo t⟩, t)
  | mark {r : Reading Symbol} {t : Scanner} : isDigit c = false → readMark? c cs = some r →
      t = { s.after r with depth := bracketDepth s.depth r.value } →
      TokenCase s c cs (.ok ⟨.symbol r.value, s.spanTo t⟩, t)
  | word {t : Scanner} : isDigit c = false → readMark? c cs = none → isNameStart c = true →
      t = s.after (readWord c cs) → TokenCase s c cs (.ok ⟨(readWord c cs).value, s.spanTo t⟩, t)
  | stray : isDigit c = false → readMark? c cs = none → isNameStart c = false →
      TokenCase s c cs (.error ⟨.unrecognized c, ⟨s.pos, s.pos + c.utf8Size⟩⟩, s)

theorem readQuoted_case {close : Char} (h : (c, close) ∈ quotes) :
    TokenCase s c cs (s.readQuoted c close cs) := by
  rw [readQuoted]
  split
  · rename_i hvalue
    exact .string h hvalue rfl
  · rename_i hvalue
    exact .openString h hvalue

theorem readBracketed_case (h : c = '【') : TokenCase s c cs (s.readBracketed c cs) := by
  rw [readBracketed]
  split
  · rename_i hvalue
    exact .command h hvalue rfl
  · rename_i hvalue
    exact .openCommand h hvalue

theorem readInteger_case (h : isDigit c = true) : TokenCase s c cs s.readInteger := by
  rw [readInteger]
  split
  · rename_i hover
    exact .largeInteger h hover rfl
  · rename_i hover
    exact .integer h (Bool.eq_false_iff.2 hover) rfl

theorem readToken_case (s : Scanner) (c : Char) (cs : List Char) :
    TokenCase s c cs (s.readToken c cs) := by
  cases readBy c with
  | quoted close hquote =>
    rw [readToken_quote hquote]
    exact readQuoted_case hquote
  | bracketed hc =>
    subst hc
    rw [readToken_bracket]
    exact readBracketed_case rfl
  | digits hdigit =>
    rw [readToken_digit hdigit]
    exact readInteger_case hdigit
  | plain hplain hdigit =>
    rw [readToken_plain hplain hdigit]
    split
    · rename_i hmark
      exact .mark hdigit hmark rfl
    · rename_i hmark
      split
      · rename_i hstart
        exact .word hdigit hmark hstart rfl
      · rename_i hstart
        exact .stray hdigit hmark (Bool.eq_false_iff.2 hstart)

theorem tokenCase_of_eq {p : Except LexError Lexeme × Scanner} (h : s.readToken c cs = p) :
    TokenCase s c cs p :=
  h ▸ s.readToken_case c cs

/-! ### Margins -/

/-- The cases of a margin. -/
inductive MarginCase (s : Scanner) : Progress → Prop
  | bare : isBare s.pastMargin.rest = true → MarginCase s (.again s.pastMargin)
  | opens : isBare s.pastMargin.rest = false → s.indents.headD 0 < s.lineWidth →
      MarginCase s (.again (s.pastMargin.openBlock s.pos s.lineWidth))
  | closes : isBare s.pastMargin.rest = false → s.lineWidth ≤ s.indents.headD 0 →
      (marginsUpTo s.lineWidth s.indents).headD 0 = s.lineWidth →
      MarginCase s (.again (s.pastMargin.closeBlocks s.lineWidth))
  | uneven : isBare s.pastMargin.rest = false → s.lineWidth ≤ s.indents.headD 0 →
      (marginsUpTo s.lineWidth s.indents).headD 0 ≠ s.lineWidth →
      MarginCase s (.emit (.error ⟨.unevenIndent, ⟨s.pos, s.pastMargin.pos⟩⟩)
        (s.pastMargin.closeBlocks s.lineWidth))

theorem beginLine_case (s : Scanner) : MarginCase s s.beginLine := by
  rw [beginLine]
  split
  · rename_i hbare
    exact .bare hbare
  rename_i hbare
  rw [Bool.not_eq_true] at hbare
  split
  · rename_i hwider
    exact .opens hbare hwider
  · rename_i hwider
    split
    · rename_i heven
      exact .closes hbare (Nat.le_of_not_lt hwider) heven
    · rename_i heven
      exact .uneven hbare (Nat.le_of_not_lt hwider) heven

/-! ### Lines -/

/-- The cases of what comes next in a line. -/
inductive LineCase (s : Scanner) : Progress → Prop
  | finishes : s.rest = [] → LineCase s (.again s.finish)
  | comment : startsComment s.rest = true → LineCase s (.again (s.skipWhile (· ≠ '\n')))
  /-- A line break inside brackets. -/
  | inner {cs : List Char} : s.rest = '\n' :: cs → 0 < s.depth →
      LineCase s (.again (s.after ⟨(), ['\n'], cs⟩))
  /-- The end of a line that has a token. -/
  | ends {cs : List Char} {t : Scanner} : s.rest = '\n' :: cs → s.depth = 0 → s.lineUsed = true →
      t = s.after ⟨(), ['\n'], cs⟩ →
      LineCase s (.emit (.ok ⟨.newline, s.spanTo t⟩) { t with lineStart := true, lineUsed := false })
  | empty {cs : List Char} : s.rest = '\n' :: cs → s.depth = 0 → s.lineUsed = false →
      LineCase s (.again { s.after ⟨(), ['\n'], cs⟩ with lineStart := true })
  | token {c : Char} {cs : List Char} {x : Lexeme} {t : Scanner} : s.rest = c :: cs →
      startsComment (c :: cs) = false → c ≠ '\n' → s.readToken c cs = (.ok x, t) →
      LineCase s (.emit (.ok x) { t with lineUsed := true })
  | fault {c : Char} {cs : List Char} {fault : LexError} {t : Scanner} : s.rest = c :: cs →
      startsComment (c :: cs) = false → c ≠ '\n' → s.readToken c cs = (.error fault, t) →
      LineCase s (.emit (.error fault) t)

theorem readOn_case (s : Scanner) : LineCase s s.readOn := by
  rw [readOn]
  split
  · exact .finishes ‹_›
  rename_i c cs hrest
  split
  · rename_i hcomment
    exact .comment (hrest ▸ hcomment)
  rename_i hcomment
  rw [Bool.not_eq_true] at hcomment
  split
  · rename_i hbreak
    subst hbreak
    split
    · exact .inner hrest ‹_›
    · rename_i hdepth
      have hzero : s.depth = 0 := Nat.eq_zero_of_not_pos hdepth
      split
      · exact .ends hrest hzero ‹_› rfl
      · rename_i hused
        exact .empty hrest hzero (Bool.eq_false_iff.2 hused)
  · rename_i hbreak
    split
    · exact .token hrest hcomment hbreak ‹_›
    · exact .fault hrest hcomment hbreak ‹_›

/-! ### Steps -/

/-- The scanner stands within a line. -/
structure Within (s : Scanner) : Prop where
  pending : s.pending = []
  ended : s.ended = false
  lineStart : s.lineStart = false

theorem Within.skipWhile (h : s.Within) (p : Char → Bool) : (s.skipWhile p).Within :=
  ⟨h.pending, h.ended, h.lineStart⟩

/-- The scanner stands at the start of a line. -/
structure AtMargin (s : Scanner) : Prop where
  pending : s.pending = []
  ended : s.ended = false
  lineStart : s.lineStart = true

/-- The cases of a step. -/
inductive StepCase (s : Scanner) : Progress → Prop
  | waiting {x : Lexeme} {later : List Lexeme} : s.pending = x :: later →
      StepCase s (.emit (.ok x) { s with pending := later })
  | ended : s.pending = [] → s.ended = true → StepCase s (.emit (.ok ⟨.eof, ⟨s.pos, s.pos⟩⟩) s)
  | margin {p : Progress} : s.AtMargin → MarginCase s p → StepCase s p
  | line {p : Progress} : s.Within → LineCase (s.skipWhile isGap) p → StepCase s p

theorem step_case (s : Scanner) : StepCase s s.step := by
  rw [step]
  split
  · exact .waiting ‹_›
  rename_i hp
  split
  · exact .ended hp ‹_›
  rename_i he
  rw [Bool.not_eq_true] at he
  split
  · rename_i hl
    exact .margin ⟨hp, he, hl⟩ s.beginLine_case
  · rename_i hl
    exact .line ⟨hp, he, Bool.eq_false_iff.2 hl⟩ (s.skipWhile isGap).readOn_case

theorem stepCase_of_eq {p : Progress} (h : s.step = p) : StepCase s p :=
  h ▸ s.step_case

/-! ### Which step it is -/

theorem step_of_pending {x : Lexeme} {later : List Lexeme} (h : s.pending = x :: later) :
    s.step = .emit (.ok x) { s with pending := later } := by
  rw [step, h]

/-- The end mark is yielded where nothing else is left. -/
theorem step_of_ended (hp : s.pending = []) (he : s.ended = true) :
    s.step = .emit (.ok ⟨.eof, ⟨s.pos, s.pos⟩⟩) s := by
  rw [step, hp]
  exact if_pos he

theorem step_of_lineStart (hp : s.pending = []) (he : s.ended = false) (hl : s.lineStart = true) :
    s.step = s.beginLine := by
  rw [step, hp, he, hl]
  rfl

theorem Within.step_eq (h : s.Within) : s.step = (s.skipWhile isGap).readOn := by
  rw [step, h.pending, h.ended, h.lineStart]
  rfl

theorem readOn_comment (hs : s.rest = c :: cs) (hcomment : startsComment (c :: cs) = true) :
    s.readOn = .again (s.skipWhile (· ≠ '\n')) := by
  rw [readOn, hs]
  exact if_pos hcomment

theorem readOn_break (hs : s.rest = '\n' :: cs) :
    s.readOn =
      if 0 < s.depth then .again (s.after ⟨(), ['\n'], cs⟩)
      else if s.lineUsed then
        .emit (.ok ⟨.newline, s.spanTo (s.after ⟨(), ['\n'], cs⟩)⟩)
          { s.after ⟨(), ['\n'], cs⟩ with lineStart := true, lineUsed := false }
      else .again { s.after ⟨(), ['\n'], cs⟩ with lineStart := true } := by
  rw [readOn, hs]
  rfl

theorem readOn_eq_readToken (hs : s.rest = c :: cs) (hcomment : startsComment (c :: cs) = false)
    (hbreak : c ≠ '\n') :
    s.readOn = match s.readToken c cs with
      | (.ok lexeme, t) => .emit (.ok lexeme) { t with lineUsed := true }
      | (.error fault, t) => .emit (.error fault) t := by
  rw [readOn, hs]
  dsimp only
  rw [hcomment]
  exact (if_neg Bool.false_ne_true).trans (if_neg hbreak)

theorem readOn_token (hs : s.rest = c :: cs) (hcomment : startsComment (c :: cs) = false)
    (hbreak : c ≠ '\n') : ∃ used, s.readOn =
      .emit (s.readToken c cs).1 { (s.readToken c cs).2 with lineUsed := used } := by
  rw [readOn_eq_readToken hs hcomment hbreak]
  split
  · rename_i htoken
    exact ⟨true, by rw [htoken]⟩
  · rename_i t htoken
    exact ⟨t.lineUsed, by rw [htoken]⟩

end Scanner

end Dncl
