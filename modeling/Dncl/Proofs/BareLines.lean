/-
Dncl/Proofs/BareLines.lean

Blank lines and comment lines are invisible.

A bare line is a margin of any width, carriage returns, perhaps a comment, and
the line break.  Put where a line of a text may begin, it changes nothing: the
same tokens are found, or the same fault, and those that stand behind the bare
line are further on by its length (`bare_lines_invisible`).

Design.  Up to the end of the text in front, a scanner does the same whatever
comes in the next line (`SharedStart`): it finds a fault, unless the fault is a
string that takes the line break (`EscapesEnd`), or comes to the line break.
There it passes a bare line without a token (`BareLine.emits`), and stands
before the text behind it like a scanner that is further on (`yields_moved`).
-/
import Dncl.Proofs.Placeless
import Dncl.Proofs.Quoted
import Dncl.Proofs.Rescaled

namespace Dncl

/-! ### Places behind an offset -/

/-- The span, `n` bytes further on if it begins at the offset `k` or behind it. -/
def Span.movedFrom (k n : Nat) (span : Span) : Span :=
  if k ≤ span.start then span.moved n else span

/-- The token, `n` bytes further on if it begins at the offset `k` or behind it. -/
def Lexeme.movedFrom (k n : Nat) (x : Lexeme) : Lexeme :=
  ⟨x.token, x.span.movedFrom k n⟩

/-- The fault, `n` bytes further on if it begins at the offset `k` or behind it. -/
def LexError.movedFrom (k n : Nat) (e : LexError) : LexError :=
  ⟨e.cause, e.span.movedFrom k n⟩

/-- The tokens of a text or its fault, `n` bytes further on from the offset `k` on. -/
def tokensMovedFrom (k n : Nat) : Except LexError (List Lexeme) → Except LexError (List Lexeme)
  | .ok xs => .ok (xs.map (Lexeme.movedFrom k n))
  | .error e => .error (e.movedFrom k n)

/-- What was found, `n` bytes further on if it begins at the offset `k` or behind it. -/
def Found.movedFrom (k n : Nat) : Found → Found
  | .ok x => .ok (x.movedFrom k n)
  | .error e => .error (e.movedFrom k n)

section MovedFrom

variable {k n : Nat} {r : Found} {rs : List Found}

theorem Found.movedFrom_of_le (h : k ≤ r.start) : r.movedFrom k n = r.moved n := by
  cases r with
  | error e =>
    rw [Found.movedFrom, LexError.movedFrom, Span.movedFrom, if_pos (show k ≤ e.span.start from h)]
    rfl
  | ok x =>
    rw [Found.movedFrom, Lexeme.movedFrom, Span.movedFrom, if_pos (show k ≤ x.span.start from h)]
    rfl

theorem Found.movedFrom_of_lt (h : r.start < k) : r.movedFrom k n = r := by
  cases r with
  | error e =>
    rw [Found.movedFrom, LexError.movedFrom, Span.movedFrom,
      if_neg (show ¬ k ≤ e.span.start from Nat.not_le.2 h)]
  | ok x =>
    rw [Found.movedFrom, Lexeme.movedFrom, Span.movedFrom,
      if_neg (show ¬ k ≤ x.span.start from Nat.not_le.2 h)]

theorem map_movedFrom_of_le (h : ∀ r ∈ rs, k ≤ r.start) :
    rs.map (Found.movedFrom k n) = rs.map (Found.moved n) :=
  List.map_congr_left fun r hr => Found.movedFrom_of_le (h r hr)

theorem map_movedFrom_of_lt (h : ∀ r ∈ rs, r.start < k) : rs.map (Found.movedFrom k n) = rs :=
  (List.map_congr_left fun r hr => Found.movedFrom_of_lt (h r hr)).trans (List.map_id' rs)

theorem mapM_movedFrom (k n : Nat) (rs : List Found) :
    (rs.map (Found.movedFrom k n)).mapM id = tokensMovedFrom k n (rs.mapM id) := by
  induction rs with
  | nil => rfl
  | cons r rs ih =>
    rw [List.map_cons, List.mapM_cons, List.mapM_cons, ih]
    cases r with
    | error e => rfl
    | ok x => cases rs.mapM id <;> rfl

theorem alike_movedFrom (k n : Nat) (rs : List Found) :
    List.Forall₂ (Item.Alike SameCause) rs (rs.map (Found.movedFrom k n)) := by
  induction rs with
  | nil => exact .nil
  | cons r rs ih =>
    refine .cons ?_ ih
    cases r with
    | error e => exact .fault rfl
    | ok x => exact .token rfl

end MovedFrom

/-! ### Bare lines -/

/-- A comment, or nothing. -/
inductive IsComment : List Char → Prop
  | none : IsComment []
  | hash {cs : List Char} : '\n' ∉ cs → IsComment ('#' :: cs)
  | wideHash {cs : List Char} : '\n' ∉ cs → IsComment ('＃' :: cs)
  | slashes {cs : List Char} : '\n' ∉ cs → IsComment ('/' :: '/' :: cs)

/-- A line without a token. -/
structure BareLine where
  margin : List Char
  /-- How many carriage returns stand behind the margin. -/
  returns : Nat
  comment : List Char
  inMargin : ∀ c ∈ margin, InMargin c
  isComment : IsComment comment

namespace BareLine

/-- What stands behind the margin. -/
def body (w : BareLine) : List Char :=
  List.replicate w.returns '\r' ++ w.comment

/-- The line with its break. -/
def text (w : BareLine) : List Char :=
  w.margin ++ (w.body ++ ['\n'])

end BareLine

theorem IsComment.notMem {cs : List Char} (h : IsComment cs) : '\n' ∉ cs := by
  cases h <;> simp_all

/-- A comment begins with none of the blanks and rulers. -/
theorem IsComment.head {cs : List Char} (h : IsComment cs) (tail : List Char) :
    ∃ c ds, cs ++ '\n' :: tail = c :: ds ∧ Scanner.isMargin c = false ∧
      Scanner.isGap c = false ∧ (cs = [] ∨ Scanner.startsComment (c :: ds) = true) ∧
      Scanner.isBare (c :: ds) = true := by
  cases h with
  | none => exact ⟨'\n', tail, rfl, rfl, rfl, .inl rfl, rfl⟩
  | hash => exact ⟨'#', _, rfl, rfl, rfl, .inr rfl, rfl⟩
  | wideHash => exact ⟨'＃', _, rfl, rfl, rfl, .inr rfl, rfl⟩
  | slashes => exact ⟨'/', _, rfl, rfl, rfl, .inr rfl, rfl⟩

namespace Scanner

variable {s t : Scanner} {is : List Nat} {pos : Nat} {tail : List Char}

/-- The rest of a bare line, behind its blanks, leads to the next line. -/
theorem emits_comment {comment : List Char} (hcomment : IsComment comment) (hs : s.Within)
    (hrest : (s.skipWhile isGap).rest = comment ++ '\n' :: tail) (hdepth : s.depth = 0)
    (hused : s.lineUsed = false) :
    Emits s [] ((Place.atLine tail s.indents).scanner
      ((s.skipWhile isGap).pos + Text.byteSize comment + 1)) := by
  obtain ⟨c, ds, hcs, -, hgap, hstarts, -⟩ := hcomment.head tail
  have emitsBreak : ∀ u : Scanner, u.Within → (u.skipWhile isGap).rest = '\n' :: tail →
      u.depth = 0 → u.lineUsed = false →
      Emits u [] ((Place.atLine tail u.indents).scanner ((u.skipWhile isGap).pos + 1)) := by
    intro u hu hrest hdepth hused
    obtain ⟨xs, hxs, hrun⟩ := emits_break hu hrest hdepth
    rw [hused] at hxs
    obtain rfl := List.map_eq_nil_iff.1 hxs
    exact hrun
  rcases hstarts with rfl | hstarts
  · -- no comment at all: the line is empty
    exact emitsBreak s hs hrest hdepth hused
  · have hall : ∀ d ∈ comment, decide (d ≠ '\n') = true := fun d hd =>
      decide_eq_true fun heq => hcomment.notMem (heq ▸ hd)
    have htaken : (comment ++ '\n' :: tail).takeWhile (· ≠ '\n') = comment := by
      rw [List.takeWhile_append_of_pos hall, List.takeWhile_cons_of_neg (by simp), List.append_nil]
    have hleft : (comment ++ '\n' :: tail).dropWhile (· ≠ '\n') = '\n' :: tail := by
      rw [List.dropWhile_append_of_pos hall, List.dropWhile_cons_of_neg (by simp)]
    have hstep : s.step = .again ((s.skipWhile isGap).skipWhile (· ≠ '\n')) := by
      rw [hs.step_eq, readOn_comment (hrest.trans hcs) hstarts]
    have hline : ((s.skipWhile isGap).skipWhile (· ≠ '\n')).rest = '\n' :: tail := by
      rw [skipWhile, after, hrest, hleft]
    have hpos : ((s.skipWhile isGap).skipWhile (· ≠ '\n')).pos =
        (s.skipWhile isGap).pos + Text.byteSize comment := by
      rw [skipWhile, after, hrest, htaken]
    have hrun := emitsBreak ((s.skipWhile isGap).skipWhile (· ≠ '\n'))
      ⟨hs.pending, hs.ended, hs.lineStart⟩ (by rw [skipWhile_eq_self hline rfl, hline]) hdepth hused
    rw [skipWhile_eq_self hline rfl, hpos] at hrun
    exact .again hstep hrun

end Scanner

/-- A bare line yields nothing, and leaves the blocks alone. -/
theorem BareLine.emits (w : BareLine) (tail : List Char) (is : List Nat) (pos : Nat) :
    Scanner.Emits ((Place.atLine (w.text ++ tail) is).scanner pos) []
      ((Place.atLine tail is).scanner (pos + Text.byteSize w.text)) := by
  obtain ⟨c, ds, hcs, hmargin, hgap, -, hbare⟩ := w.isComment.head tail
  have htext : w.text ++ tail = w.margin ++ (w.body ++ '\n' :: tail) := by
    simp [BareLine.text]
  have hbody : w.body ++ '\n' :: tail =
      List.replicate w.returns '\r' ++ (w.comment ++ '\n' :: tail) := by
    rw [BareLine.body, List.append_assoc]
  -- behind the margin there is a carriage return, or the comment or the break comes at once
  have hhead : (w.body ++ '\n' :: tail).dropWhile Scanner.isMargin = w.body ++ '\n' :: tail ∧
      Scanner.isBare (w.body ++ '\n' :: tail) = true := by
    rw [hbody]
    cases w.returns with
    | zero =>
      rw [List.replicate_zero, List.nil_append, hcs]
      exact ⟨List.dropWhile_cons_of_neg (by rw [hmargin]; exact Bool.false_ne_true), hbare⟩
    | succ n => exact ⟨rfl, rfl⟩
  have hreturns : ∀ d ∈ List.replicate w.returns '\r', Scanner.isGap d = true := by
    intro d hd
    rw [List.eq_of_mem_replicate hd]
    rfl
  have hfirst : Scanner.Emits ((Place.atLine (w.margin ++ (w.body ++ '\n' :: tail)) is).scanner pos)
      [] ((Place.inLine (w.body ++ '\n' :: tail) 0 is false).scanner
        (pos + Text.byteSize w.margin)) :=
    Scanner.emits_bare (isMargin_of_inMargin w.inMargin) hhead.1 hhead.2
  let s := (Place.inLine (w.body ++ '\n' :: tail) 0 is false).scanner
    (pos + Text.byteSize w.margin)
  have hrest : (s.skipWhile Scanner.isGap).rest = w.comment ++ '\n' :: tail := by
    show (w.body ++ '\n' :: tail).dropWhile Scanner.isGap = _
    rw [hbody, List.dropWhile_append_of_pos hreturns, hcs,
      List.dropWhile_cons_of_neg (by rw [hgap]; exact Bool.false_ne_true)]
  have hpos : (s.skipWhile Scanner.isGap).pos =
      pos + Text.byteSize w.margin + Text.byteSize (List.replicate w.returns '\r') := by
    show _ + Text.byteSize ((w.body ++ '\n' :: tail).takeWhile Scanner.isGap) = _
    rw [hbody, List.takeWhile_append_of_pos hreturns, hcs,
      List.takeWhile_cons_of_neg (by rw [hgap]; exact Bool.false_ne_true), List.append_nil]
    rfl
  have hlast := Scanner.emits_comment w.isComment (s := s) ⟨rfl, rfl, rfl⟩ hrest rfl rfl
  have hsize : pos + Text.byteSize w.margin + Text.byteSize (List.replicate w.returns '\r') +
      Text.byteSize w.comment + 1 = pos + Text.byteSize w.text := by
    rw [BareLine.text, BareLine.body, Cut.byteSize_append, Cut.byteSize_append,
      Cut.byteSize_append]
    show _ = pos + (_ + (_ + _ + 1))
    omega
  rw [hpos, hsize] at hlast
  rw [htext]
  exact hfirst.trans hlast

/-! ### What a scanner yields -/

namespace Scanner

variable {s t : Scanner} {r : Found} {rs : List Found} {xs : List Lexeme} {lo hi : Nat}

/-- Steps put the tokens that they yield in front. -/
theorem Emits.yields_eq (h : Emits s rs t) (hrs : rs = xs.map .ok)
    (hxs : ∀ x ∈ xs, x.token ≠ .eof) : s.yields = rs ++ t.yields := by
  induction h generalizing xs with
  | refl s => rfl
  | again hstep _ ih => rw [yields_of_again hstep, ih hrs hxs]
  | emit hstep _ ih =>
    cases xs with
    | nil => cases hrs
    | cons x xs =>
      obtain ⟨rfl, hrest⟩ := List.cons.inj hrs
      obtain ⟨hx, hxs⟩ := List.forall_mem_cons.1 hxs
      rw [yields_of_next (next_of_emit hstep) hx, ih hrest hxs, List.cons_append]

theorem yields_ne_nil (s : Scanner) : s.yields ≠ [] := by
  rw [yields]
  split
  · simp
  · split <;> simp

theorem exists_emits_yields (s : Scanner) : ∃ t, Emits s s.yields t := by
  fun_induction yields s with
  | case1 s e t hnext =>
    have hrun := emits_next s
    rw [hnext] at hrun
    exact ⟨t, hrun⟩
  | case2 s x t hnext _ =>
    have hrun := emits_next s
    rw [hnext] at hrun
    exact ⟨t, hrun⟩
  | case3 s x t hnext _ ih =>
    have hrun := emits_next s
    rw [hnext] at hrun
    obtain ⟨u, hrest⟩ := ih
    exact ⟨u, hrun.trans hrest⟩

/-- What a scanner that is further on yields is further on. -/
theorem yields_moved (k : Nat) (s : Scanner) :
    (s.moved k).yields = s.yields.map (Found.moved k) := by
  fun_induction yields s with
  | case1 s e t hnext =>
    have hmoved := next_moved k s
    rw [hnext] at hmoved
    exact yields_of_fault hmoved
  | case2 s x t hnext hx =>
    have hmoved := next_moved k s
    rw [hnext] at hmoved
    exact yields_of_eof hmoved hx
  | case3 s x t hnext hx ih =>
    have hmoved := next_moved k s
    rw [hnext] at hmoved
    rw [yields_of_next hmoved hx, ih]
    rfl

/-- The scanner and what is pending are between two offsets. -/
structure Spread (lo hi : Nat) (s : Scanner) : Prop where
  pos : lo ≤ s.pos
  extent : s.extent ≤ hi
  pending : ∀ x ∈ s.pending, lo ≤ x.span.start ∧ x.span.start ≤ hi

theorem TextStep.extent_eq (h : TextStep s rs t) : t.extent = s.extent := by
  cases h with
  | waiting => rfl
  | layout taken hrest hpos => rw [extent, extent, hrest, hpos, Cut.byteSize_append, Nat.add_assoc]
  | token taken hrest htaken hpos =>
    rw [← s.extent_skipWhile isGap, extent, extent, hrest, htaken, hpos, Cut.byteSize_append,
      Nat.add_assoc]

/-- A step finds what it yields between the offsets, and stays between them. -/
theorem TextStep.spread (h : TextStep s rs t) (hs : s.Spread lo hi) :
    t.Spread lo hi ∧ ∀ r ∈ rs, lo ≤ r.start ∧ r.start ≤ hi := by
  have hextent : t.extent ≤ hi := h.extent_eq ▸ hs.extent
  have hupper : t.pos ≤ hi := (Nat.le_add_right _ _).trans hextent
  have hlower := hs.pos
  cases h with
  | waiting hp =>
    obtain ⟨hx, hlater⟩ := List.forall_mem_cons.1 (hp ▸ hs.pending)
    exact ⟨⟨hlower, hextent, hlater⟩, List.forall_mem_singleton.2 hx⟩
  | layout taken hrest hpos hfound hpending =>
    refine ⟨⟨by omega, hextent, fun x hx => ?_⟩, fun r hr => ?_⟩
    · obtain ⟨-, hfrom, hto⟩ := hpending x hx
      exact ⟨hlower.trans hfrom, hto.trans hupper⟩
    · obtain ⟨-, hfrom, hto⟩ := hfound r hr
      exact ⟨hlower.trans hfrom, hto.trans hupper⟩
  | @token t c cs taken hrest htaken hpos hpending =>
    obtain ⟨-, hstart, -⟩ := (s.skipWhile isGap).readToken_found c cs
    have hskip : s.pos ≤ (s.skipWhile isGap).pos := Nat.le_add_right _ _
    refine ⟨⟨by omega, hextent, by simp [hpending]⟩, List.forall_mem_singleton.2 ?_⟩
    rw [hstart]
    omega

theorem Emits.spread (h : Emits s rs t) (hs : s.Spread lo hi) :
    ∀ r ∈ rs, lo ≤ r.start ∧ r.start ≤ hi := by
  induction h using Emits.induction with
  | refl s => simp
  | step s rs u _ ih =>
    obtain ⟨ht, hfound⟩ := s.step_textStep.spread hs
    exact List.forall_mem_append.2 ⟨hfound, ih ht⟩

theorem Spread.yields (h : s.Spread lo hi) :
    ∀ r ∈ s.yields, lo ≤ Found.start r ∧ Found.start r ≤ hi := by
  obtain ⟨t, hrun⟩ := s.exists_emits_yields
  exact hrun.spread h

end Scanner

/-- In front of a bare line a scanner yields what it yields in front of the text
behind the line, further on by its length. -/
theorem BareLine.yields_eq (w : BareLine) (tail : List Char) (is : List Nat) (pos : Nat) :
    ((Place.atLine (w.text ++ tail) is).scanner pos).yields =
      ((Place.atLine tail is).scanner pos).yields.map
        (Found.movedFrom pos (Text.byteSize w.text)) := by
  have hspread : ((Place.atLine tail is).scanner pos).Spread pos
      (pos + Text.byteSize tail) :=
    ⟨Nat.le_refl _, Nat.le_refl _, by simp [Place.scanner]⟩
  have hmoved : (Place.atLine tail is).scanner (pos + Text.byteSize w.text) =
      ((Place.atLine tail is).scanner pos).moved (Text.byteSize w.text) := rfl
  have hnone : ∀ x ∈ ([] : List Lexeme), x.token ≠ .eof := by simp
  rw [(w.emits tail is pos).yields_eq rfl hnone, List.nil_append, hmoved, Scanner.yields_moved,
    map_movedFrom_of_le fun r hr => (hspread.yields r hr).1]

/-! ### Up to a line break -/

/-- The fault is a string that ends with a backslash at the end of the text, so that
it goes on behind a line break there. -/
def EscapesEnd (text : List Char) (e : LexError) : Prop :=
  ∃ before quote close, ∃ parts : List StringPart, (quote, close) ∈ quotes ∧
    (∀ part ∈ parts, part.Fits close) ∧
    text = before ++ quote :: (parts.flatMap StringPart.written ++ ['\\']) ∧
    e = ⟨.unterminatedString, ⟨Text.byteSize before, Text.byteSize before + quote.utf8Size⟩⟩

/-- A line break behind the text stands neither in brackets nor in a string. -/
structure BreaksOutside (text : List Char) : Prop where
  brackets : ∀ xs, tokenize (String.ofList text) = .ok xs → depthOver 0 (xs.map Lexeme.token) = 0
  strings : ∀ e, tokenize (String.ofList text) = .error e → ¬ EscapesEnd text e

/-- A line begins behind the text. -/
inductive EndsLine : List Char → Prop
  | nil : EndsLine []
  | line {text : List Char} : BreaksOutside text → EndsLine (text ++ ['\n'])

section Strings

variable {close c : Char} {cs tail rest : List Char} {parts : List StringPart}

theorem EndsString.append (h : EndsString close cs parts rest) (tail : List Char) :
    EndsString close (cs ++ tail) parts (rest ++ tail) :=
  ⟨h.fits, by rw [h.text_eq, List.append_assoc, List.cons_append]⟩

/-- A string that is closed behind a line break is closed before it, or takes it. -/
theorem EndsString.of_break (h : EndsString close (cs ++ '\n' :: tail) parts rest)
    (hclose : close ≠ '\n') : (∃ parts rest, EndsString close cs parts rest) ∨
      ∃ parts : List StringPart, (∀ part ∈ parts, part.Fits close) ∧
        cs = parts.flatMap StringPart.written ++ ['\\'] := by
  obtain ⟨hfits, htext⟩ := h
  induction parts generalizing cs with
  | nil =>
    cases cs with
    | nil => exact absurd (List.cons.inj htext).1.symm hclose
    | cons d cs =>
      obtain ⟨rfl, -⟩ := List.cons.inj htext
      exact .inl ⟨[], cs, by simp, rfl⟩
  | cons part parts ih =>
    obtain ⟨hpart, hparts⟩ := List.forall_mem_cons.1 hfits
    rw [List.flatMap_cons, List.append_assoc] at htext
    -- the part with what is shown of the rest of `cs`
    have hcons : ∀ ds, cs = part.written ++ ds →
        ds ++ '\n' :: tail = parts.flatMap StringPart.written ++ close :: rest →
        (∃ parts rest, EndsString close cs parts rest) ∨
          ∃ parts : List StringPart, (∀ part ∈ parts, part.Fits close) ∧
            cs = parts.flatMap StringPart.written ++ ['\\'] := by
      rintro ds rfl hds
      rcases ih hparts hds with ⟨ps, rest, hfits, rfl⟩ | ⟨ps, hps, rfl⟩
      · exact .inl ⟨part :: ps, rest, List.forall_mem_cons.2 ⟨hpart, hfits⟩, by
          rw [List.flatMap_cons, List.append_assoc]⟩
      · exact .inr ⟨part :: ps, List.forall_mem_cons.2 ⟨hpart, hps⟩, by
          rw [List.flatMap_cons, List.append_assoc]⟩
    cases part with
    | plain d =>
      cases cs with
      | nil => exact absurd (List.cons.inj htext).1.symm hpart.2.1
      | cons d' ds =>
        obtain ⟨rfl, hds⟩ := List.cons.inj htext
        exact hcons ds rfl hds
    | escaped d =>
      rcases cs with _ | ⟨d', _ | ⟨d'', ds⟩⟩
      · cases htext
      · obtain ⟨rfl, -⟩ := List.cons.inj htext
        exact .inr ⟨[], by simp, rfl⟩
      · obtain ⟨rfl, htext'⟩ := List.cons.inj htext
        obtain ⟨rfl, hds⟩ := List.cons.inj htext'
        exact hcons ds rfl hds

theorem readCommand_break (h : (readCommand cs).value = none) :
    (readCommand (cs ++ '\n' :: tail)).value = none := by
  induction cs with
  | nil => rfl
  | cons d cs ih =>
    rw [List.cons_append, readCommand]
    rw [readCommand] at h
    split at h
    · rw [if_pos ‹_›]
    · rw [if_neg ‹_›]
      split at h
      · cases h
      · rw [if_neg ‹_›]
        exact Option.map_eq_none_iff.2 (ih (Option.map_eq_none_iff.1 h))

end Strings

namespace Scanner

variable {s t : Scanner} {e : LexError} {x : Lexeme} {c : Char} {cs text before tail : List Char}

theorem readBracketed_break (s : Scanner) (bracket : Char) (cs tail : List Char) :
    ((s.before tail).readBracketed bracket (cs ++ '\n' :: tail)).1 =
      (s.readBracketed bracket cs).1 := by
  rw [readBracketed, readBracketed]
  cases hvalue : (readCommand cs).value with
  | none => simp only [readCommand_break hvalue, before]
  | some value =>
    have hclosed : (readCommand cs).value.isSome = true := by rw [hvalue]; rfl
    have hbefore := readCommand_before hclosed ('\n' :: tail)
    simp only [hbefore, Reading.before, hvalue, spanTo, after, before]

theorem readInteger_break (s : Scanner) (tail : List Char) :
    (s.before tail).readInteger.1 = s.readInteger.1 := by
  have hdigits : readDigits (s.before tail).rest = (readDigits s.rest).before ('\n' :: tail) :=
    readDigits_before _ (delimited_cons (by decide))
  rw [readInteger_eq, readInteger_eq, hdigits]
  by_cases hmax : ((readDigits s.rest).value : Int) ≤ Text.maxInt
  · simp only [Reading.before, hmax, if_true, spanTo, after, before]
  · simp only [Reading.before, hmax, if_false, spanTo, after, before]

/-- What is found does not depend on the lines that come behind, unless it is a string
that takes the line break. -/
theorem readToken_break (hs : s.rest = c :: cs)
    (hstring : ∀ close, ∀ parts : List StringPart, (c, close) ∈ quotes →
      (∀ part ∈ parts, part.Fits close) → cs ≠ parts.flatMap StringPart.written ++ ['\\'])
    (tail : List Char) :
    ((s.before tail).readToken c (cs ++ '\n' :: tail)).1 = (s.readToken c cs).1 := by
  have htail : Delimited ('\n' :: tail) := delimited_cons (by decide)
  cases readBy c with
  | quoted close hquote =>
    by_cases hends : ∃ parts rest, EndsString close cs parts rest
    · obtain ⟨parts, rest, hparts⟩ := hends
      rw [readToken_of_endsString hquote hparts,
        readToken_of_endsString hquote (hparts.append ('\n' :: tail))]
      rfl
    · have hends' : ¬ ∃ parts rest, EndsString close (cs ++ '\n' :: tail) parts rest := by
        rintro ⟨parts, rest, hparts⟩
        rcases hparts.of_break (closing_ne hquote).2 with hclosed | ⟨ps, hps, hcs⟩
        · exact hends hclosed
        · exact hstring close ps hquote hps hcs
      rw [readToken_of_unterminated hquote hends, readToken_of_unterminated hquote hends']
      rfl
  | bracketed hbracket =>
    subst hbracket
    rw [readToken_bracket, readToken_bracket, readBracketed_break]
  | digits hdigit => rw [readToken_digit hdigit, readToken_digit hdigit, readInteger_break]
  | plain hplain hdigit =>
    rw [readToken_plain hplain hdigit, readToken_plain hplain hdigit, readMark_before c cs htail]
    cases readMark? c cs with
    | some r => rfl
    | none =>
      simp only [Option.map_none, readWord_before c cs htail]
      split <;> rfl

theorem readOn_of_fault (hs : s.rest = c :: cs) (hcomment : startsComment (c :: cs) = false)
    (hbreak : c ≠ '\n') (h : (s.readToken c cs).1 = .error e) :
    ∃ u, s.readOn = .emit (.error e) u := by
  rw [readOn_eq_readToken hs hcomment hbreak]
  rcases hfound : s.readToken c cs with ⟨e' | x, u⟩
  · rw [hfound] at h
    cases h
    exact ⟨u, rfl⟩
  · rw [hfound] at h
    cases h

/-- A fault at a quote, if a backslash ends the text. -/
theorem escapesEnd_of_fault {close : Char} {parts : List StringPart} (hs : s.Passed text before)
    (hrest : s.rest = c :: (parts.flatMap StringPart.written ++ ['\\']))
    (hquote : (c, close) ∈ quotes) (hparts : ∀ part ∈ parts, part.Fits close)
    (h : (s.readToken c (parts.flatMap StringPart.written ++ ['\\'])).1 = .error e) :
    EscapesEnd text e := by
  refine ⟨before, c, close, parts, hquote, hparts, by rw [hs.text_eq, hrest], ?_⟩
  rw [← hs.pos_eq]
  by_cases hends : ∃ ps rest, EndsString close (parts.flatMap StringPart.written ++ ['\\']) ps rest
  · obtain ⟨ps, rest, hps⟩ := hends
    rw [readToken_of_endsString hquote hps] at h
    cases h
  · rw [readToken_of_unterminated hquote hends] at h
    exact (Except.error.inj h).symm

/-- A fault of a text is found in front of any lines, unless it is a string that takes
the line break. -/
theorem step_fault_before (hstep : s.step = .emit (.error e) t) (hpassed : s.Passed text before)
    (hstring : ¬ EscapesEnd text e) (tail : List Char) :
    ∃ u, (s.before tail).step = .emit (.error e) u := by
  cases stepCase_of_eq hstep with
  | margin h =>
    rw [step_of_lineStart h.pending h.ended h.lineStart] at hstep
    refine ⟨t.before tail, ?_⟩
    rw [step_of_lineStart (s := s.before tail) h.pending h.ended h.lineStart, beginLine_before,
      hstep]
    rfl
  | line h hcase =>
    have hwithin : (s.before tail).Within := ⟨h.pending, h.ended, h.lineStart⟩
    rw [hwithin.step_eq, skipWhile_before rfl]
    cases hcase with
    | @fault c cs _ _ hrest hcomment hbreak htoken =>
      have hrest' : ((s.skipWhile isGap).before tail).rest = c :: (cs ++ '\n' :: tail) := by
        rw [Scanner.before, hrest, List.cons_append]
      have hfault := congrArg Prod.fst htoken
      refine readOn_of_fault hrest' ?_ hbreak ?_
      · exact (startsComment_before (delimited_cons (by decide))).trans hcomment
      · refine (readToken_break hrest ?_ tail).trans hfault
        rintro close parts hquote hparts rfl
        exact hstring (escapesEnd_of_fault (hpassed.skipWhile isGap) hrest hquote hparts hfault)

/-- What a scanner yields in front of any lines: something that ends with a fault, or
what comes before the line break. -/
inductive SharedStart (s : Scanner) : Prop
  | stops (rs : List Found) : (∀ tail, (s.before tail).yields = rs) →
      (∀ r ∈ rs, r.start ≤ s.extent) → SharedStart s
  | reaches (rs : List Found) (f : Scanner) : f.AtEnd → f.depth = 0 → f.extent = s.extent →
      (∀ tail, (s.before tail).yields = rs ++ (f.before tail).yields) →
      (∀ r ∈ rs, r.start ≤ s.extent) → SharedStart s

theorem SharedStart.again (h : SharedStart t) (hextent : t.extent = s.extent)
    (hstep : ∀ tail, (s.before tail).step = .again (t.before tail)) : SharedStart s := by
  cases h with
  | stops rs hyields hstarts =>
    exact .stops rs (fun tail => (yields_of_again (hstep tail)).trans (hyields tail))
      (hextent ▸ hstarts)
  | reaches rs f hend hdepth hsame hyields hstarts =>
    exact .reaches rs f hend hdepth (hsame.trans hextent)
      (fun tail => (yields_of_again (hstep tail)).trans (hyields tail)) (hextent ▸ hstarts)

theorem SharedStart.emit (h : SharedStart t) (hextent : t.extent = s.extent)
    (hstep : ∀ tail, (s.before tail).step = .emit (.ok x) (t.before tail))
    (hx : x.token ≠ .eof) (hstart : x.span.start ≤ s.extent) : SharedStart s := by
  have hnext := fun tail => yields_of_next (next_of_emit (hstep tail)) hx
  cases h with
  | stops rs hyields hstarts =>
    refine .stops (.ok x :: rs) (fun tail => ?_)
      (List.forall_mem_cons.2 ⟨hstart, hextent ▸ hstarts⟩)
    rw [hnext, hyields]
  | reaches rs f hend hdepth hsame hyields hstarts =>
    refine .reaches (.ok x :: rs) f hend hdepth (hsame.trans hextent) (fun tail => ?_)
      (List.forall_mem_cons.2 ⟨hstart, hextent ▸ hstarts⟩)
    rw [hnext, hyields, List.cons_append]

/-- The scanner reads a text behind which a line break is neither in brackets nor in a
string. -/
structure Outside (text : List Char) (s : Scanner) : Prop where
  ahead : s.Ahead
  passed : ∃ before, s.Passed text before
  spread : s.Spread 0 s.extent
  brackets : ∀ xs, s.tokens = .ok xs → depthOver s.depth (xs.map Lexeme.token) = 0
  strings : ∀ e, s.tokens = .error e → ¬ EscapesEnd text e

theorem outside_ofText (h : BreaksOutside text) : (ofText (String.ofList text)).Outside text where
  ahead := ⟨rfl, nofun⟩
  passed := by
    have hpassed := passed_ofText (String.ofList text)
    rw [String.toList_ofList] at hpassed
    exact ⟨[], hpassed⟩
  spread := ⟨Nat.zero_le _, Nat.le_refl _, nofun⟩
  brackets := h.brackets
  strings := h.strings

theorem Outside.depth_eq_zero (h : s.Outside text) (hend : s.AtEnd) : s.depth = 0 := by
  obtain ⟨xs, hxs, htokens⟩ := hend.tokens
  have hdepth := h.brackets _ htokens
  rw [List.map_append, hxs, depthOver_append,
    depthOver_of_layout fun u hu => (isSolid_of_mem_ending hu).1] at hdepth
  exact hdepth

/-- A step keeps what is known of the text behind it. -/
theorem Outside.of_step {rs : List Found} (h : s.Outside text) (hstep : TextStep s rs t)
    (ht : t.Ahead)
    (hbrackets : ∀ xs, t.tokens = .ok xs → depthOver t.depth (xs.map Lexeme.token) = 0)
    (hstrings : ∀ e, t.tokens = .error e → s.tokens = .error e) : t.Outside text where
  ahead := ht
  passed := (hstep.inText ⟨h.passed, fun x hx => (h.ahead.pending x hx).1⟩).1.passed
  spread := by
    rw [hstep.extent_eq]
    exact (hstep.spread h.spread).1
  brackets := hbrackets
  strings e he := h.strings e (hstrings e he)

theorem before_of_again (hs : s.Ahead) (hend : ¬ s.AtEnd) (hstep : s.step = .again t) :
    t.Ahead ∧ t.depth = s.depth ∧ ∀ tail, (s.before tail).step = .again (t.before tail) := by
  have hboth : ∀ tail, t.Ahead ∧ t.depth = s.depth ∧
      (s.before tail).step = .again (t.before tail) := by
    intro tail
    cases step_before tail hs with
    | finished hover => exact absurd hover hend
    | again hsame hstep' ht hdepth =>
      cases hstep.symm.trans hsame
      exact ⟨ht, hdepth, hstep'⟩
    | emit hother => cases hstep.symm.trans hother
    | fault hother => cases hstep.symm.trans hother
  exact ⟨(hboth []).1, (hboth []).2.1, fun tail => (hboth tail).2.2⟩

theorem before_of_emit (hs : s.Ahead) (hend : ¬ s.AtEnd) (hstep : s.step = .emit (.ok x) t) :
    x.token ≠ .eof ∧ t.Ahead ∧ t.depth = x.token.depthAfter s.depth ∧
      ∀ tail, (s.before tail).step = .emit (.ok x) (t.before tail) := by
  have hboth : ∀ tail, x.token ≠ .eof ∧ t.Ahead ∧ t.depth = x.token.depthAfter s.depth ∧
      (s.before tail).step = .emit (.ok x) (t.before tail) := by
    intro tail
    cases step_before tail hs with
    | finished hover => exact absurd hover hend
    | again hother => cases hstep.symm.trans hother
    | emit hsame hstep' hx ht hdepth =>
      cases hstep.symm.trans hsame
      exact ⟨hx, ht, hdepth, hstep'⟩
    | fault hother => cases hstep.symm.trans hother
  exact ⟨(hboth []).1, (hboth []).2.1, (hboth []).2.2.1, fun tail => (hboth tail).2.2.2⟩

theorem tokens_of_next_error (h : s.next = (.ok x, t)) (hx : x.token ≠ .eof)
    (ht : t.tokens = .error e) : s.tokens = .error e := by
  rw [tokens_eq, h]
  dsimp only
  rw [if_neg hx, ht]

/-- **The same up to the line break.**  Whatever lines come behind a text, a scanner
yields the same until it comes to the line break. -/
theorem Emits.sharedStart {rs : List Found} (h : Emits s rs t) (hrs : rs = s.yields)
    (hs : s.Outside text) : SharedStart s := by
  induction h with
  | refl s => exact absurd hrs.symm s.yields_ne_nil
  | @again s t u rs hstep _ ih =>
    have htext := s.step_textStep
    rw [hstep] at htext
    by_cases hend : s.AtEnd
    · exact .reaches [] s hend (hs.depth_eq_zero hend) rfl (fun _ => rfl) (by simp)
    · obtain ⟨ht, hdepth, hboth⟩ := before_of_again hs.ahead hend hstep
      have hsame := tokens_of_again hstep
      refine (ih (hrs.trans (yields_of_again hstep)) ?_).again htext.extent_eq hboth
      exact hs.of_step htext ht (fun xs hxs => hdepth ▸ hs.brackets xs (hsame.trans hxs))
        fun e he => hsame.trans he
  | @emit s t u r rs hstep _ ih =>
    have htext := s.step_textStep
    rw [hstep] at htext
    by_cases hend : s.AtEnd
    · exact .reaches [] s hend (hs.depth_eq_zero hend) rfl (fun _ => rfl) (by simp)
    · have hstart : ∀ r' ∈ [r], 0 ≤ Found.start r' ∧ Found.start r' ≤ s.extent :=
        (htext.spread hs.spread).2
      have hnext := next_of_emit hstep
      cases r with
      | error e =>
        obtain ⟨before, hpassed⟩ := hs.passed
        have hfault : s.tokens = .error e := by rw [tokens_eq, hnext]
        refine .stops [.error e] (fun tail => ?_) fun r hr => (hstart r hr).2
        -- a fault is found before the end, with anything behind it
        obtain ⟨v, hv⟩ := step_fault_before hstep hpassed (hs.strings e hfault) tail
        exact yields_of_fault (next_of_emit hv)
      | ok x =>
        obtain ⟨hx, ht, hdepth, hboth⟩ := before_of_emit hs.ahead hend hstep
        rw [yields_of_next hnext hx] at hrs
        refine (ih (List.cons.inj hrs).2 ?_).emit htext.extent_eq hboth hx
          (hstart _ List.mem_cons_self).2
        refine hs.of_step htext ht (fun xs hxs => ?_) fun e he => tokens_of_next_error hnext hx he
        rw [hdepth]
        exact hs.brackets _ (tokens_of_next hnext hx hxs)

/-- At the end of a text a line break leads to the next line. -/
theorem AtEnd.yields_before (h : s.AtEnd) (hdepth : s.depth = 0) (tail : List Char) :
    (s.before tail).yields =
      (if s.lineUsed then [.ok ⟨.newline, ⟨s.extent, s.extent + 1⟩⟩] else []) ++
        ((Place.atLine tail s.indents).scanner (s.extent + 1)).yields := by
  have hpos := h.pos
  obtain ⟨rest, pos, depth, indents, lineStart, lineUsed, ended, pending⟩ := s
  obtain ⟨⟨rfl, rfl, rfl⟩, hrest⟩ := h
  obtain rfl : depth = 0 := hdepth
  let s : Scanner := ⟨rest, pos, 0, indents, false, lineUsed, false, []⟩
  have hwithin : (s.before tail).Within := ⟨rfl, rfl, rfl⟩
  have hrest' : ((s.skipWhile isGap).before tail).rest = '\n' :: tail := by
    rw [before, hrest]
    rfl
  have hdepth' : ¬ 0 < ((s.skipWhile isGap).before tail).depth := Nat.lt_irrefl 0
  have hstep := hwithin.step_eq
  rw [skipWhile_before rfl, readOn_break hrest', if_neg hdepth'] at hstep
  rw [← hpos]
  cases lineUsed with
  | true => exact yields_of_next (next_of_emit hstep) (by simp)
  | false => exact yields_of_again hstep

end Scanner

/-! ### Inserting a line -/

/-- What is found with a bare line put in, faults included. -/
theorem yields_insert {a : List Char} (ha : EndsLine a) (w : BareLine) (b : List Char) :
    (Scanner.ofText (String.ofList (a ++ w.text ++ b))).yields =
      (Scanner.ofText (String.ofList (a ++ b))).yields.map
        (Found.movedFrom (Text.byteSize a) (Text.byteSize w.text)) := by
  cases ha with
  | nil =>
    have hstart : ∀ text, Scanner.ofText (String.ofList text) =
        (Place.atLine text [0]).scanner 0 := by
      intro text
      rw [Scanner.ofText, String.toList_ofList]
      rfl
    rw [List.nil_append, List.nil_append, hstart, hstart]
    exact w.yields_eq b [0] 0
  | @line text htext =>
    have hbefore : ∀ tail, Scanner.ofText (String.ofList (text ++ ['\n'] ++ tail)) =
        (Scanner.ofText (String.ofList text)).before tail := by
      intro tail
      simp [Scanner.ofText, Scanner.before]
    have hsize : Text.byteSize (text ++ ['\n']) =
        (Scanner.ofText (String.ofList text)).extent + 1 := by
      rw [Scanner.extent_ofText, String.toList_ofList, Cut.byteSize_append]
      rfl
    rw [List.append_assoc _ w.text, hbefore, hbefore, hsize]
    -- the two texts share the line before, up to its break
    obtain ⟨t, hrun⟩ := (Scanner.ofText (String.ofList text)).exists_emits_yields
    cases hrun.sharedStart rfl (Scanner.outside_ofText htext) with
    | stops rs hyields hstarts =>
      rw [hyields, hyields, map_movedFrom_of_lt fun r hr => Nat.lt_succ_of_le (hstarts r hr)]
    | reaches rs f hend hdepth hextent hyields hstarts =>
      rw [← hextent] at hstarts ⊢
      -- the token of the break stands in front of what is inserted
      have hbreak : ∀ r ∈ (if f.lineUsed then
          [(.ok ⟨.newline, ⟨f.extent, f.extent + 1⟩⟩ : Found)] else []),
          Found.start r < f.extent + 1 := by
        intro r hr
        split at hr
        · rw [List.mem_singleton.1 hr]
          exact Nat.lt_succ_self _
        · cases hr
      rw [hyields, hyields, hend.yields_before hdepth, hend.yields_before hdepth, w.yields_eq,
        List.map_append, List.map_append, map_movedFrom_of_lt hbreak,
        map_movedFrom_of_lt fun r hr => Nat.lt_succ_of_le (hstarts r hr)]

/-- **Bare lines are invisible.**  Behind a text that ends with a line, a bare line
changes no token and no fault: what stands behind it is further on by its length.  So
the text is parsed to the same program, or to the same failure, but for places. -/
theorem bare_lines_invisible (a b : List Char) (w : BareLine) (ha : EndsLine a) :
    tokenize (String.ofList (a ++ w.text ++ b)) =
        tokensMovedFrom (Text.byteSize a) (Text.byteSize w.text)
          (tokenize (String.ofList (a ++ b))) ∧
      erasedOutcome (parseProgram (String.ofList (a ++ w.text ++ b))) =
        erasedOutcome (parseProgram (String.ofList (a ++ b))) := by
  have hyields := yields_insert ha w b
  refine ⟨?_, parseProgram_alike ?_⟩
  · rw [tokenize, tokenize, Scanner.tokens_eq_mapM, Scanner.tokens_eq_mapM, hyields,
      mapM_movedFrom]
  · rw [hyields]
    exact alike_movedFrom _ _ _

/-- A text whose tokens leave nothing open may be followed by a line. -/
theorem breaksOutside_of_nothingOpen {text : List Char}
    (h : NothingOpen 0 (tokenize (String.ofList text))) : BreaksOutside text where
  brackets xs hxs := by
    rw [hxs] at h
    exact h
  strings e he := by
    rw [he] at h
    rintro ⟨before, quote, close, parts, -, -, -, rfl⟩
    exact h.1 rfl

/-- A comment that is set in less than the block around it. -/
theorem bare_lines_invisible_comment :
    EndsLine ("x の間:\n    y".toList ++ ['\n']) ∧
      tokenize "x の間:\n    y\n  # z\n    y" =
        tokensMovedFrom 16 6 (tokenize "x の間:\n    y\n    y") := by
  have hends : EndsLine ("x の間:\n    y".toList ++ ['\n']) :=
    .line (breaksOutside_of_nothingOpen (by decide +kernel))
  let w : BareLine := ⟨[' ', ' '], 0, ['#', ' ', 'z'], by simp [InMargin, marginColumns],
    .hash (by simp)⟩
  have htext : String.ofList ("x の間:\n    y".toList ++ ['\n'] ++ w.text ++ "    y".toList) =
      "x の間:\n    y\n  # z\n    y" := by decide
  have htext' : String.ofList ("x の間:\n    y".toList ++ ['\n'] ++ "    y".toList) =
      "x の間:\n    y\n    y" := by decide
  have hsize : Text.byteSize ("x の間:\n    y".toList ++ ['\n']) = 16 := by decide
  have hsame := (bare_lines_invisible _ "    y".toList w hends).1
  rw [htext, htext', hsize] at hsame
  exact ⟨hends, hsame⟩

end Dncl
