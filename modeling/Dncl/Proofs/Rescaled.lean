/-
Dncl/Proofs/Rescaled.lean

Only the order of the margins matters.

The lines of a text may be given other margins.  If one function that rises
strictly takes the old widths to the new ones, the tokens are the same, or the
same fault is found in the same line.

Design.  Two scanners go through the two texts in tandem.  The function takes
the open widths of one to those of the other, so a line opens and closes the
same blocks in both texts (`AtLine.beginLine`).  Within a line there is a third
scanner, which reads the rest of this line alone (`InLine`).  What it finds is
found in both texts; it leaves nothing open, so both are outside of brackets
when they come to the end of the line (`InLine.step`).
-/
import Mathlib.Data.Set.Function
import Mathlib.Order.Monotone.Basic
import Dncl.Proofs.Tandem

namespace Dncl

variable {ls ls' : List Line} {f : Nat → Nat} {W : Set Nat} {margin rest : List Char} {l l' : Line}

/-! ### Lines -/

/-- The characters of a margin, and how many columns each of them takes: blanks,
and the rulers along a block. -/
def marginColumns : List (Char × Nat) :=
  [(' ', 1), ('\t', 4), ('　', 2), ('|', 1), ('｜', 1), ('│', 1), ('⎿', 1), ('└', 1)]

/-- The character may stand in a margin. -/
def InMargin (c : Char) : Prop :=
  c ∈ marginColumns.map Prod.fst

instance (c : Char) : Decidable (InMargin c) :=
  inferInstanceAs (Decidable (c ∈ marginColumns.map Prod.fst))

/-- The width of the margin of a line. -/
def Line.columns (l : Line) : Nat :=
  l.margin.foldr (fun c n => (marginColumns.lookup c).getD 0 + n) 0

/-- The text of some lines, with line breaks between them. -/
def joinLines (ls : List Line) : List Char :=
  ['\n'].intercalate (ls.map fun l => l.margin ++ l.body)

/-- What was read leaves nothing open: in the end all brackets are closed, or the
fault is no string and no command whose end is missing. -/
def NothingOpen (depth : Nat) : Except LexError (List Lexeme) → Prop
  | .ok xs => depthOver depth (xs.map Lexeme.token) = 0
  | .error e => e.cause ≠ .unterminatedString ∧ e.cause ≠ .unterminatedCommand

instance (depth : Nat) (found : Except LexError (List Lexeme)) :
    Decidable (NothingOpen depth found) :=
  match found with
  | .ok xs => inferInstanceAs (Decidable (depthOver depth (xs.map Lexeme.token) = 0))
  | .error e => inferInstanceAs
      (Decidable (e.cause ≠ .unterminatedString ∧ e.cause ≠ .unterminatedCommand))

/-- The body of the line begins behind its margin, and leaves nothing open if it
is read by itself. -/
structure Line.StandsAlone (l : Line) : Prop where
  margin : ∀ c ∈ l.margin, InMargin c
  whole : ∀ c ∈ l.body.head?, ¬ InMargin c
  single : '\n' ∉ l.body
  closed : NothingOpen 0 (tokenize (String.ofList l.body))

instance (l : Line) : Decidable l.StandsAlone :=
  decidable_of_iff ((l.margin.all fun c => decide (InMargin c)) = true ∧
      (l.body.head?.all fun c => decide (¬ InMargin c)) = true ∧ '\n' ∉ l.body ∧
      NothingOpen 0 (tokenize (String.ofList l.body)))
    ⟨fun ⟨hmargin, hwhole, hsingle, hclosed⟩ =>
        ⟨List.all_iff_forall_prop.1 hmargin,
          fun c hc => of_decide_eq_true ((Option.all_eq_true _ _).1 hwhole c hc), hsingle, hclosed⟩,
      fun h => ⟨List.all_iff_forall_prop.2 h.margin,
        (Option.all_eq_true _ _).2 fun c hc => decide_eq_true (h.whole c hc), h.single, h.closed⟩⟩

/-- The line `l'` is `l` with another margin, whose width is given by `f`. -/
structure Line.Rescaled (f : Nat → Nat) (l l' : Line) : Prop where
  margin : ∀ c ∈ l'.margin, InMargin c
  body : l'.body = l.body
  columns : l'.columns = f l.columns

/-- The same fault in the same line. -/
def SameLine (text text' : List Char) (e e' : LexError) : Prop :=
  e'.cause = e.cause ∧
    Text.breaksBefore text' e'.span.start = Text.breaksBefore text e.span.start

/-- What stands behind a line if the lines `ls` follow. -/
def linesAfter : List Line → List Char
  | [] => []
  | l :: ls => '\n' :: joinLines (l :: ls)

section Lines

variable {p : Char → Bool}

theorem joinLines_cons (l : Line) (ls : List Line) :
    joinLines (l :: ls) = l.margin ++ (l.body ++ linesAfter ls) := by
  cases ls with
  | nil => simp [joinLines, linesAfter]
  | cons l' ls => simp [joinLines, linesAfter, List.intercalate]

theorem delimited_linesAfter (ls : List Line) : Delimited (linesAfter ls) := by
  cases ls with
  | nil => exact delimited_nil
  | cons l ls => exact delimited_cons (by decide)

theorem dropWhile_linesAfter (hp : p '\n' = false) (cs : List Char) (ls : List Line) :
    (cs ++ linesAfter ls).dropWhile p = cs.dropWhile p ++ linesAfter ls := by
  cases ls with
  | nil => rw [linesAfter, List.append_nil, List.append_nil]
  | cons l ls => exact Scanner.dropWhile_line hp cs _

theorem startsComment_linesAfter {c : Char} {cs : List Char} {b : Bool} (ls : List Line)
    (h : Scanner.startsComment (c :: cs) = b) :
    Scanner.startsComment (c :: (cs ++ linesAfter ls)) = b :=
  (Scanner.startsComment_before (delimited_linesAfter ls)).trans h

theorem isBare_linesAfter (cs : List Char) (ls : List Line) :
    Scanner.isBare (cs ++ linesAfter ls) = Scanner.isBare cs := by
  cases ls with
  | nil => rw [linesAfter, List.append_nil]
  | cons l ls => exact Scanner.isBare_line cs _

end Lines

/-! ### Margins -/

section Margins

variable {c : Char} {l : Line}

theorem marginWidth?_eq_lookup (c : Char) : Scanner.marginWidth? c = marginColumns.lookup c := by
  by_cases hc : c ∈ marginColumns.map Prod.fst
  · have hall : ((marginColumns.map Prod.fst).all fun c =>
        Scanner.marginWidth? c == marginColumns.lookup c) = true := by decide
    exact beq_iff_eq.1 (List.all_eq_true.1 hall c hc)
  · have hnone : marginColumns.lookup c = none := by
      refine List.lookup_eq_none_iff.2 fun p hp => bne_iff_ne.2 ?_
      rintro rfl
      exact hc (List.mem_map_of_mem hp)
    rw [hnone]
    simp only [marginColumns, List.map_cons, List.map_nil, List.mem_cons, List.not_mem_nil,
      or_false, not_or] at hc
    simp [Scanner.marginWidth?, hc]

theorem isMargin_iff_inMargin : Scanner.isMargin c = true ↔ InMargin c := by
  rw [Scanner.isMargin, marginWidth?_eq_lookup, List.lookup_isSome_iff, InMargin, List.mem_map]
  simp only [beq_iff_eq, eq_comm (a := c)]

theorem width_eq_columns (l : Line) : l.width = l.columns := by
  rw [Line.width, Line.columns, Scanner.marginWidth, List.foldr_map]
  simp only [marginWidth?_eq_lookup]

theorem isMargin_of_inMargin (h : ∀ c ∈ margin, InMargin c) :
    ∀ c ∈ margin, Scanner.isMargin c = true :=
  fun c hc => isMargin_iff_inMargin.2 (h c hc)

theorem Line.StandsAlone.dropWhile_body (h : l.StandsAlone) :
    l.body.dropWhile Scanner.isMargin = l.body := by
  have hwhole := h.whole
  cases hbody : l.body with
  | nil => rfl
  | cons c cs =>
    rw [hbody] at hwhole
    exact List.dropWhile_cons_of_neg fun hc => hwhole c rfl (isMargin_iff_inMargin.1 hc)

/-- There is no line break in a margin. -/
theorem count_margin (h : ∀ c ∈ margin, InMargin c) : margin.count '\n' = 0 :=
  List.count_eq_zero.2 fun hmem =>
    Bool.false_ne_true (isMargin_of_inMargin h '\n' hmem)

end Margins

/-! ### Widths -/

/-- The function rises strictly on the widths `W`, from zero on. -/
structure Rescales (f : Nat → Nat) (W : Set Nat) : Prop where
  zero_mem : 0 ∈ W
  map_zero : f 0 = 0
  rises : StrictMonoOn f W

namespace Rescales

variable {f : Nat → Nat} {W : Set Nat} {is : List Nat} {w : Nat}

theorem headD_map (h : Rescales f W) (is : List Nat) : (is.map f).headD 0 = f (is.headD 0) := by
  cases is with
  | nil => exact h.map_zero.symm
  | cons i is => rfl

theorem headD_mem (h : Rescales f W) (his : ∀ i ∈ is, i ∈ W) : is.headD 0 ∈ W := by
  cases is with
  | nil => exact h.zero_mem
  | cons i is => exact his i List.mem_cons_self

/-- The same margins stay open. -/
theorem marginsUpTo_map (h : Rescales f W) (his : ∀ i ∈ is, i ∈ W) (hw : w ∈ W) :
    Scanner.marginsUpTo (f w) (is.map f) = (Scanner.marginsUpTo w is).map f := by
  induction is with
  | nil => rfl
  | cons i is ih =>
    obtain ⟨hi, his⟩ := List.forall_mem_cons.1 his
    have hsame := h.rises.lt_iff_lt hw hi
    rw [Scanner.marginsUpTo, Scanner.marginsUpTo, List.map_cons, List.dropWhile_cons,
      List.dropWhile_cons]
    by_cases hwider : w < i
    · rw [if_pos (decide_eq_true (hsame.2 hwider)), if_pos (decide_eq_true hwider)]
      exact ih his
    · rw [if_neg (by simpa using mt hsame.1 hwider), if_neg (by simpa using hwider), List.map_cons]

theorem mem_marginsUpTo (his : ∀ i ∈ is, i ∈ W) : ∀ i ∈ Scanner.marginsUpTo w is, i ∈ W :=
  fun i hi => his i ((List.dropWhile_sublist _).mem hi)

end Rescales

/-- Two lines of the two texts that correspond. -/
structure Line.Twin (f : Nat → Nat) (W : Set Nat) (l l' : Line) : Prop where
  alone : l.StandsAlone
  rescaled : l.Rescaled f l'
  known : l.columns ∈ W

theorem count_linesAfter (h : List.Forall₂ (Line.Twin f W) ls ls') :
    (linesAfter ls').count '\n' = (linesAfter ls).count '\n' := by
  induction h with
  | nil => rfl
  | cons htwin _ ih =>
    rw [linesAfter, linesAfter, joinLines_cons, joinLines_cons]
    simp only [List.count_cons_self, List.count_append, count_margin htwin.alone.margin,
      count_margin htwin.rescaled.margin, htwin.rescaled.body, ih]

theorem count_joinLines (h : List.Forall₂ (Line.Twin f W) ls ls') :
    (joinLines ls').count '\n' = (joinLines ls).count '\n' := by
  have hcount := count_linesAfter h
  cases h with
  | nil => rfl
  | cons => simpa only [linesAfter, List.count_cons_self, Nat.add_right_cancel_iff] using hcount

/-! ### Leaving nothing open -/

namespace Scanner

variable {s t : Scanner}

theorem isClosed_of_nothingOpen {e : LexError} (hstep : s.step = .emit (.error e) t)
    (h : NothingOpen s.depth s.tokens) : isClosed (.error e) = true := by
  rw [tokens_eq, next_of_emit hstep] at h
  obtain ⟨hstring, hcommand⟩ : e.cause ≠ .unterminatedString ∧ e.cause ≠ .unterminatedCommand := h
  simp [isClosed, hstring, hcommand]

theorem nothingOpen_of_again (hstep : s.step = .again t) (hdepth : t.depth = s.depth)
    (h : NothingOpen s.depth s.tokens) : NothingOpen t.depth t.tokens := by
  rwa [hdepth, ← tokens_of_again hstep]

theorem nothingOpen_of_emit {x : Lexeme} (hstep : s.step = .emit (.ok x) t)
    (hx : x.token ≠ .eof) (hdepth : t.depth = x.token.depthAfter s.depth)
    (h : NothingOpen s.depth s.tokens) : NothingOpen t.depth t.tokens := by
  rw [tokens_eq, next_of_emit hstep] at h
  dsimp only at h
  rw [if_neg hx] at h
  rw [hdepth]
  cases hlater : t.tokens with
  | error e =>
    rw [hlater] at h
    exact h
  | ok later =>
    rw [hlater] at h
    exact h

/-- Where a text ends with nothing open, it ends outside of brackets. -/
theorem depth_eq_zero_of_finish (h : NothingOpen s.depth s.finish.tokens) : s.depth = 0 := by
  have hlayout : ∀ u ∈ s.finish.pending.map Lexeme.token, u = .newline ∨ u = .dedent := by
    rw [finish, List.map_append, List.map_replicate]
    intro u hu
    rcases List.mem_append.1 hu with hu | hu
    · cases hused : s.lineUsed with
      | true =>
        rw [hused] at hu
        exact .inl (List.mem_singleton.1 hu)
      | false =>
        rw [hused] at hu
        cases hu
    · exact .inr (List.eq_of_mem_replicate hu)
  have hover : { s.finish with pending := [] }.stream = .ended := stream_of_ended rfl rfl
  have hstream := stream_of_pending s.finish
  rw [hover] at hstream
  obtain ⟨xs, hxs, htokens⟩ := tokens_of_stream hstream fun heof => by simpa using hlayout _ heof
  rw [hxs, NothingOpen, htokens, depthOver_of_layout] at h
  · exact h
  · intro u hu
    rcases List.mem_append.1 hu with hu | hu
    · rcases hlayout u hu with rfl | rfl <;> rfl
    · rw [List.mem_singleton.1 hu]
      rfl

/-! ### Two scanners in corresponding lines -/

variable {f : Nat → Nat} {W : Set Nat} {l l' : Line} {ls ls' : List Line} {s₀ : Scanner}
  {text text' before before' : List Char} {c : Char} {cs : List Char}

/-- Both scanners stand before the lines. -/
structure AtLine (ls ls' : List Line) (s t : Scanner) : Prop where
  lineStart : s.lineStart = true
  depth : s.depth = 0
  rest : s.rest = joinLines ls
  rest' : t.rest = joinLines ls'

/-- Both scanners have the same to read up to the end of their line, and `s₀` has
only this. -/
structure InLine (ls ls' : List Line) (s₀ s t : Scanner) : Prop where
  within : s₀.Within
  single : '\n' ∉ s₀.rest
  lineStart : s.lineStart = false
  depth : s.depth = s₀.depth
  rest : s.rest = s₀.rest ++ linesAfter ls
  rest' : t.rest = s₀.rest ++ linesAfter ls'

/-- Where two scanners stand in the two texts. -/
inductive Abreast (f : Nat → Nat) (W : Set Nat) (s t : Scanner) : Prop
  | ended : s.ended = true → Abreast f W s t
  | atLine {l l' : Line} {ls ls' : List Line} :
      List.Forall₂ (Line.Twin f W) (l :: ls) (l' :: ls') → AtLine (l :: ls) (l' :: ls') s t →
      Abreast f W s t
  | inLine {ls ls' : List Line} {s₀ : Scanner} : List.Forall₂ (Line.Twin f W) ls ls' →
      NothingOpen s₀.depth s₀.tokens → InLine ls ls' s₀ s t → Abreast f W s t

/-- The function takes the open widths of one scanner to those of the other. -/
structure Scaled (f : Nat → Nat) (W : Set Nat) (s t : Scanner) : Prop where
  level : Level s t
  indents : t.indents = s.indents.map f
  known : ∀ i ∈ s.indents, i ∈ W

/-- The two scanners differ by their margins only. -/
structure Rescaled (f : Nat → Nat) (W : Set Nat) (s t : Scanner) : Prop where
  scaled : Scaled f W s t
  place : Abreast f W s t

/-- If there are as many line breaks in front of two scanners, there are as many
behind them. -/
theorem Passed.breaksBefore_eq (hs : s.Passed text before) (ht : t.Passed text' before')
    (htext : text'.count '\n' = text.count '\n') (hrest : t.rest.count '\n' = s.rest.count '\n') :
    Text.breaksBefore text' t.pos = Text.breaksBefore text s.pos := by
  rw [ht.breaksBefore, hs.breaksBefore]
  rw [ht.text_eq, hs.text_eq, List.count_append, List.count_append, hrest] at htext
  exact Nat.add_right_cancel htext

/-! ### At the start of a line -/

theorem lineWidth_line (hmargin : ∀ c ∈ l.margin, InMargin c)
    (hrest : rest.dropWhile isMargin = rest) (hs : s.rest = l.margin ++ rest) :
    s.lineWidth = l.columns := by
  rw [lineWidth, hs, (margin_split (isMargin_of_inMargin hmargin) hrest).1, ← width_eq_columns,
    Line.width]

theorem pastMargin_line (hmargin : ∀ c ∈ l.margin, InMargin c)
    (hrest : rest.dropWhile isMargin = rest) (hs : s.rest = l.margin ++ rest) :
    s.pastMargin.rest = rest := by
  show s.rest.dropWhile isMargin = rest
  rw [hs, (margin_split (isMargin_of_inMargin hmargin) hrest).2]

theorem tokens_closeBlocks (s : Scanner) (w : Nat) :
    (s.closeBlocks w).pending.map Lexeme.token =
      List.replicate (s.indents.length - (marginsUpTo w s.indents).length) .dedent := by
  rw [closeBlocks, List.map_replicate]

/-- Behind the margins there is the same body. -/
theorem AtLine.pastMargin (h : AtLine (l :: ls) (l' :: ls') s t) (htwin : l.Twin f W l') :
    InLine ls ls' ((Place.inLine l.body 0 [0] false).scanner 0) s.pastMargin t.pastMargin ∧
      s.lineWidth = l.columns ∧ t.lineWidth = f l.columns := by
  have hwhole : ∀ ls, (l.body ++ linesAfter ls).dropWhile isMargin = l.body ++ linesAfter ls := by
    intro ls
    rw [dropWhile_linesAfter rfl, htwin.alone.dropWhile_body]
  have hs := h.rest.trans (joinLines_cons l ls)
  have ht := h.rest'.trans (joinLines_cons l' ls')
  rw [htwin.rescaled.body] at ht
  refine ⟨⟨⟨rfl, rfl, rfl⟩, htwin.alone.single, rfl, h.depth, ?_, ?_⟩, ?_, ?_⟩
  · exact pastMargin_line htwin.alone.margin (hwhole ls) hs
  · exact pastMargin_line htwin.rescaled.margin (hwhole ls') ht
  · exact lineWidth_line htwin.alone.margin (hwhole ls) hs
  · rw [lineWidth_line htwin.rescaled.margin (hwhole ls') ht, htwin.rescaled.columns]

/-- Both open or close the same blocks, or both find an uneven margin. -/
theorem AtLine.beginLine (hf : Rescales f W) (h : AtLine (l :: ls) (l' :: ls') s t)
    (hlines : List.Forall₂ (Line.Twin f W) (l :: ls) (l' :: ls')) (hscaled : Scaled f W s t)
    (hbreaks : Text.breaksBefore text' t.pos = Text.breaksBefore text s.pos) :
    Progress.Alike (Rescaled f W) (SameLine text text') s.beginLine t.beginLine := by
  obtain ⟨hlevel, hindents, hknown⟩ := hscaled
  obtain ⟨htwin, hlater⟩ := List.forall₂_cons.1 hlines
  obtain ⟨hline, hwidth, hwidth'⟩ := h.pastMargin htwin
  have hclosed := nothingOpen_of_again (step_body htwin.alone.dropWhile_body) rfl htwin.alone.closed
  -- whatever becomes of the blocks, both stand behind the margin
  have hnext : ∀ is pending pending', (∀ i ∈ is, i ∈ W) →
      pending'.map Lexeme.token = pending.map Lexeme.token →
      Rescaled f W { s.pastMargin with indents := is, pending := pending }
        { t.pastMargin with indents := is.map f, pending := pending' } :=
    fun is pending pending' his hpending =>
      ⟨⟨⟨hlevel.depth, rfl, hlevel.lineUsed, hlevel.ended, hpending⟩, rfl, his⟩,
        .inLine hlater hclosed
          ⟨hline.within, hline.single, rfl, hline.depth, hline.rest, hline.rest'⟩⟩
  have hbare : isBare t.pastMargin.rest = isBare s.pastMargin.rest := by
    rw [hline.rest, hline.rest', isBare_linesAfter, isBare_linesAfter]
  have hwider : t.indents.headD 0 < t.lineWidth ↔ s.indents.headD 0 < s.lineWidth := by
    rw [hindents, hf.headD_map, hwidth, hwidth',
      hf.rises.lt_iff_lt (hf.headD_mem hknown) htwin.known]
  have hopen : marginsUpTo t.lineWidth t.indents = (marginsUpTo s.lineWidth s.indents).map f := by
    rw [hindents, hwidth, hwidth', hf.marginsUpTo_map hknown htwin.known]
  have heven : (marginsUpTo t.lineWidth t.indents).headD 0 = t.lineWidth ↔
      (marginsUpTo s.lineWidth s.indents).headD 0 = s.lineWidth := by
    rw [hopen, hf.headD_map, hwidth, hwidth']
    exact hf.rises.injOn.eq_iff (hf.headD_mem (Rescales.mem_marginsUpTo hknown)) htwin.known
  rw [Scanner.beginLine, Scanner.beginLine, hbare]
  by_cases hb : isBare s.pastMargin.rest = true
  · rw [if_pos hb, if_pos hb]
    have hsame := hnext s.indents s.pending t.pending hknown hlevel.pending
    rw [← hindents] at hsame
    exact .again hsame
  rw [if_neg hb, if_neg hb]
  by_cases hw : s.indents.headD 0 < s.lineWidth
  · rw [if_pos hw, if_pos (hwider.2 hw)]
    have hopened := hnext (l.columns :: s.indents) [⟨.indent, ⟨s.pos, s.pastMargin.pos⟩⟩]
      [⟨.indent, ⟨t.pos, t.pastMargin.pos⟩⟩] (List.forall_mem_cons.2 ⟨htwin.known, hknown⟩) rfl
    rw [List.map_cons, ← hindents, ← hwidth', ← hwidth] at hopened
    exact .again hopened
  rw [if_neg hw, if_neg (mt hwider.1 hw)]
  by_cases he : (marginsUpTo s.lineWidth s.indents).headD 0 = s.lineWidth
  · rw [if_pos he, if_pos (heven.2 he)]
    have hsame : (t.pastMargin.closeBlocks t.lineWidth).pending.map Lexeme.token =
        (s.pastMargin.closeBlocks s.lineWidth).pending.map Lexeme.token := by
      rw [tokens_closeBlocks, tokens_closeBlocks]
      show List.replicate (t.indents.length - (marginsUpTo t.lineWidth t.indents).length) _ =
        List.replicate (s.indents.length - (marginsUpTo s.lineWidth s.indents).length) _
      rw [hopen, hindents, List.length_map, List.length_map]
    have hclosing := hnext (marginsUpTo s.lineWidth s.indents) _ _
      (Rescales.mem_marginsUpTo hknown) hsame
    rw [← hopen] at hclosing
    exact .again hclosing
  · rw [if_neg he, if_neg (mt heven.1 he)]
    exact .fault ⟨rfl, hbreaks⟩

/-! ### Within a line -/

theorem InLine.skipWhile (h : InLine ls ls' s₀ s t) {p : Char → Bool} (hp : p '\n' = false) :
    InLine ls ls' (s₀.skipWhile p) (s.skipWhile p) (t.skipWhile p) where
  within := h.within.skipWhile p
  single := fun hmem => h.single ((List.dropWhile_sublist p).mem hmem)
  lineStart := h.lineStart
  depth := h.depth
  rest := by
    show s.rest.dropWhile p = s₀.rest.dropWhile p ++ linesAfter ls
    rw [h.rest, dropWhile_linesAfter hp]
  rest' := by
    show t.rest.dropWhile p = s₀.rest.dropWhile p ++ linesAfter ls'
    rw [h.rest', dropWhile_linesAfter hp]

theorem Scaled.skipWhile (h : Scaled f W s t) {p : Char → Bool} :
    Scaled f W (s.skipWhile p) (t.skipWhile p) :=
  ⟨⟨h.level.depth, h.level.lineStart, h.level.lineUsed, h.level.ended, h.level.pending⟩,
    h.indents, h.known⟩

/-- As many line breaks are in front of both. -/
theorem InLine.count_rest (h : InLine ls ls' s₀ s t)
    (hlines : List.Forall₂ (Line.Twin f W) ls ls') : t.rest.count '\n' = s.rest.count '\n' := by
  rw [h.rest, h.rest', List.count_append, List.count_append, count_linesAfter hlines]

/-- At the end of the line, both end or go on with the next line. -/
theorem InLine.readOn_end (h : InLine ls ls' s₀ s t) (hover : s₀.rest = [])
    (hdepth : s.depth = 0) (hlines : List.Forall₂ (Line.Twin f W) ls ls')
    (hscaled : Scaled f W s t) :
    Progress.Alike (Rescaled f W) (SameLine text text') s.readOn t.readOn := by
  obtain ⟨hlevel, hindents, hknown⟩ := hscaled
  have hrest := h.rest
  have hrest' := h.rest'
  rw [hover, List.nil_append] at hrest hrest'
  cases hlines with
  | nil =>
    rw [readOn, readOn, hrest, hrest']
    refine .again ⟨⟨hlevel.finish (by rw [hindents, List.length_map]), ?_, ?_⟩, .ended rfl⟩
    · show t.indents.drop (t.indents.length - 1) = (s.indents.drop (s.indents.length - 1)).map f
      rw [hindents, List.length_map, List.map_drop]
    · exact fun i hi => hknown i (List.mem_of_mem_drop hi)
  | cons htwin hlater =>
    have hnext : ∀ used, Rescaled f W
        { s.after ⟨(), ['\n'], _⟩ with lineStart := true, lineUsed := used }
        { t.after ⟨(), ['\n'], _⟩ with lineStart := true, lineUsed := used } := fun used =>
      ⟨⟨⟨hlevel.depth, rfl, rfl, hlevel.ended, hlevel.pending⟩, hindents, hknown⟩,
        .atLine (.cons htwin hlater) ⟨rfl, hdepth, rfl, rfl⟩⟩
    have hout : ¬ 0 < s.depth := by omega
    have hout' : ¬ 0 < t.depth := by rw [hlevel.depth]; exact hout
    rw [readOn_break hrest, readOn_break hrest', if_neg hout, if_neg hout', hlevel.lineUsed]
    cases hused : s.lineUsed with
    | true => exact .token rfl fun _ => hnext false
    | false =>
      have hsame := hnext s.lineUsed
      nth_rewrite 2 [← hlevel.lineUsed] at hsame
      exact .again hsame

/-- The token that the line alone has here is found in both texts. -/
theorem InLine.readToken (h : InLine ls ls' s₀ s t) (hrest : s₀.rest = c :: cs)
    (hdepth : t.depth = s.depth) (hclosed : isClosed (s₀.readToken c cs).1 = true) :
    shapeOf (t.readToken c (cs ++ linesAfter ls')).1 =
        shapeOf (s.readToken c (cs ++ linesAfter ls)).1 ∧
      shapeOf (s.readToken c (cs ++ linesAfter ls)).1 = shapeOf (s₀.readToken c cs).1 ∧
      InLine ls ls' (s₀.readToken c cs).2 (s.readToken c (cs ++ linesAfter ls)).2
        (t.readToken c (cs ++ linesAfter ls')).2 ∧
      (t.readToken c (cs ++ linesAfter ls')).2.depth =
        (s.readToken c (cs ++ linesAfter ls)).2.depth := by
  obtain ⟨hshape, hmoves⟩ :=
    readToken_local h.rest h.depth (delimited_linesAfter ls) hclosed
  obtain ⟨hshape', hmoves'⟩ :=
    readToken_local h.rest' (hdepth.trans h.depth) (delimited_linesAfter ls') hclosed
  obtain ⟨taken, htaken, -, -⟩ :=
    readToken_takes hrest (show s₀.readToken c cs = (_, (s₀.readToken c cs).2) from rfl)
  obtain ⟨-, -, rest, pos, depth, hkept⟩ := s₀.readToken_found c cs
  refine ⟨hshape'.trans hshape.symm, hshape, ⟨?_, ?_, ?_, ?_, ?_, ?_⟩, ?_⟩
  · rw [hkept]
    exact ⟨h.within.pending, h.within.ended, h.within.lineStart⟩
  · exact fun hmem => h.single (htaken ▸ List.mem_append_right taken hmem)
  · rw [hmoves]
    exact h.lineStart
  · rw [hmoves]
  · rw [hmoves]
  · rw [hmoves']
  · rw [hmoves, hmoves']

/-- Both read the token, or find the fault, that the line alone has here. -/
theorem InLine.readOn_token (h : InLine ls ls' (s₀.skipWhile isGap) s t)
    (hrest : (s₀.skipWhile isGap).rest = c :: cs) (hcomment : startsComment (c :: cs) = false)
    (hwithin : s₀.Within) (hopen : NothingOpen s₀.depth s₀.tokens)
    (hlines : List.Forall₂ (Line.Twin f W) ls ls') (hscaled : Scaled f W s t)
    (hbreaks : Text.breaksBefore text' t.pos = Text.breaksBefore text s.pos) :
    Progress.Alike (Rescaled f W) (SameLine text text') s.readOn t.readOn := by
  obtain ⟨hlevel, hindents, hknown⟩ := hscaled
  have hbreak : c ≠ '\n' := fun heq => h.single (hrest ▸ heq ▸ List.mem_cons_self)
  have hs : s.rest = c :: (cs ++ linesAfter ls) := by rw [h.rest, hrest, List.cons_append]
  have ht : t.rest = c :: (cs ++ linesAfter ls') := by rw [h.rest', hrest, List.cons_append]
  have hstep := hwithin.step_eq.trans (readOn_eq_readToken hrest hcomment hbreak)
  -- a fault of the line alone is no missing end
  have hclosed : isClosed ((s₀.skipWhile isGap).readToken c cs).1 = true := by
    rcases hfound : (s₀.skipWhile isGap).readToken c cs with ⟨e | x, u⟩
    · rw [hfound] at hstep
      exact isClosed_of_nothingOpen hstep hopen
    · rfl
  have hkeep := h.readToken hrest hlevel.depth hclosed
  obtain ⟨-, hstart, rest, pos, depth, hmoves⟩ := s.readToken_found c (cs ++ linesAfter ls)
  obtain ⟨-, hstart', rest', pos', depth', hmoves'⟩ := t.readToken_found c (cs ++ linesAfter ls')
  rw [readOn_eq_readToken hs (startsComment_linesAfter ls hcomment) hbreak,
    readOn_eq_readToken ht (startsComment_linesAfter ls' hcomment) hbreak]
  generalize s.readToken c (cs ++ linesAfter ls) = found at hkeep hstart hmoves
  generalize t.readToken c (cs ++ linesAfter ls') = found' at hkeep hstart' hmoves'
  obtain ⟨hshape', hshape, hline, hdepth⟩ := hkeep
  rcases found with ⟨e | x, u⟩
  · rcases found' with ⟨e' | x', u'⟩
    · refine .fault ⟨Except.error.inj hshape', ?_⟩
      have hat : e.span.start = s.pos := hstart
      have hat' : e'.span.start = t.pos := hstart'
      rw [hat, hat', hbreaks]
    · cases hshape'
  · rcases found' with ⟨e' | x', u'⟩
    · cases hshape'
    · obtain rfl : u = _ := hmoves
      obtain rfl : u' = _ := hmoves'
      refine .token (Except.ok.inj hshape') fun _ => ⟨⟨⟨hdepth, hlevel.lineStart, rfl, hlevel.ended,
        hlevel.pending⟩, hindents, hknown⟩, ?_⟩
      rcases hfound : (s₀.skipWhile isGap).readToken c cs with ⟨e₀ | x₀, u₀⟩
      · rw [hfound] at hshape
        cases hshape
      · rw [hfound] at hstep hline
        obtain ⟨hsolid, -, hmoves₀⟩ := readToken_eq_ok hfound
        have heof : x₀.token ≠ .eof := Token.ne_of_isSolid hsolid rfl
        refine .inLine hlines
          (nothingOpen_of_emit hstep heof (congrArg Scanner.depth hmoves₀) hopen) ?_
        exact ⟨⟨hline.within.pending, hline.within.ended, hline.within.lineStart⟩, hline.single,
          hline.lineStart, hline.depth, hline.rest, hline.rest'⟩

/-- Both do what the line alone has them do. -/
theorem InLine.step (h : InLine ls ls' s₀ s t) (hopen : NothingOpen s₀.depth s₀.tokens)
    (hlines : List.Forall₂ (Line.Twin f W) ls ls') (hscaled : Scaled f W s t)
    (hs : s.Within) (ht : t.Within)
    (htext : text'.count '\n' = text.count '\n') (hpassed : s.Passed text before)
    (hpassed' : t.Passed text' before') :
    Progress.Alike (Rescaled f W) (SameLine text text') s.step t.step := by
  have hskip := h.skipWhile (p := isGap) rfl
  rw [hs.step_eq, ht.step_eq]
  cases hrest : (s₀.skipWhile isGap).rest with
  | nil =>
    have hfinish : s₀.step = .again (s₀.skipWhile isGap).finish := by
      rw [h.within.step_eq, readOn, hrest]
    -- the line alone ends with all brackets closed, so the break is one
    have hdepth : s₀.depth = 0 :=
      depth_eq_zero_of_finish (s := s₀.skipWhile isGap) (nothingOpen_of_again hfinish rfl hopen)
    exact hskip.readOn_end hrest (h.depth.trans hdepth) hlines hscaled.skipWhile
  | cons c cs =>
    cases hcomment : startsComment (c :: cs) with
    | true =>
      have hnext := hskip.skipWhile (p := (· ≠ '\n')) rfl
      have hpass := h.within.step_eq.trans (readOn_comment hrest hcomment)
      rw [readOn_comment (by rw [hskip.rest, hrest, List.cons_append])
          (startsComment_linesAfter ls hcomment),
        readOn_comment (by rw [hskip.rest', hrest, List.cons_append])
          (startsComment_linesAfter ls' hcomment)]
      exact .again ⟨hscaled.skipWhile.skipWhile,
        .inLine hlines (nothingOpen_of_again hpass rfl hopen) hnext⟩
    | false =>
      have hbreaks := (hpassed.skipWhile isGap).breaksBefore_eq (hpassed'.skipWhile isGap) htext
        (hskip.count_rest hlines)
      exact hskip.readOn_token hrest hcomment h.within hopen hlines hscaled.skipWhile hbreaks

/-! ### The whole text -/

/-- One step in both texts. -/
theorem Rescaled.step (hf : Rescales f W) (h : Rescaled f W s t)
    (htext : text'.count '\n' = text.count '\n') (hpassed : s.Passed text before)
    (hpassed' : t.Passed text' before') :
    Progress.Alike (Rescaled f W) (SameLine text text') s.step t.step := by
  have hlevel := h.scaled.level
  refine hlevel.step_alike ?_ (fun _ => h) ?_
  · intro x xs y ys hp hp'
    have hpending := hlevel.pending
    rw [hp, hp'] at hpending
    refine ⟨⟨⟨hlevel.depth, hlevel.lineStart, hlevel.lineUsed, hlevel.ended,
      (List.cons.inj hpending).2⟩, h.scaled.indents, h.scaled.known⟩, ?_⟩
    cases h.place with
    | ended hended => exact .ended hended
    | atLine hlines hat => exact .atLine hlines ⟨hat.lineStart, hat.depth, hat.rest, hat.rest'⟩
    | inLine hlines hopen hin =>
      exact .inLine hlines hopen
        ⟨hin.within, hin.single, hin.lineStart, hin.depth, hin.rest, hin.rest'⟩
  · intro hp hp' he he'
    cases h.place with
    | ended hended => exact absurd (he.symm.trans hended) Bool.false_ne_true
    | atLine hlines hat =>
      rw [step_of_lineStart hp he hat.lineStart,
        step_of_lineStart hp' he' (hlevel.lineStart.trans hat.lineStart)]
      refine hat.beginLine hf hlines h.scaled ?_
      refine hpassed.breaksBefore_eq hpassed' htext ?_
      rw [hat.rest, hat.rest', count_joinLines hlines]
    | inLine hlines hopen hin =>
      exact hin.step hopen hlines h.scaled ⟨hp, he, hin.lineStart⟩
        ⟨hp', he', hlevel.lineStart.trans hin.lineStart⟩ htext hpassed hpassed'

/-- The scanners stay in corresponding lines, and know how far they have come. -/
theorem Rescaled.step_cameFrom (hf : Rescales f W) (htext : text'.count '\n' = text.count '\n')
    (h : Rescaled f W s t) (hs : s.CameFrom text) (ht : t.CameFrom text') :
    Progress.Alike (fun s t => Rescaled f W s t ∧ s.CameFrom text ∧ t.CameFrom text')
      (SameLine text text') s.step t.step := by
  obtain ⟨before, hpassed⟩ := hs.exists_passed
  obtain ⟨before', hpassed'⟩ := ht.exists_passed
  refine (h.step hf htext hpassed hpassed').imp ?_ ?_
  · intro u v hstep hstep' hnext
    exact ⟨hnext, hs.again hstep, ht.again hstep'⟩
  · intro x y u v hstep hstep' hsame hx hnext
    refine ⟨hnext, hs.emit hstep hx, ht.emit hstep' ?_⟩
    rw [hsame]
    exact hx

end Scanner

/-- Lines that stand alone and are given other margins. -/
theorem twins_of_rescaled (halone : ∀ l ∈ ls, l.StandsAlone) (hknown : ∀ l ∈ ls, l.columns ∈ W)
    (hlines : List.Forall₂ (Line.Rescaled f) ls ls') : List.Forall₂ (Line.Twin f W) ls ls' := by
  induction hlines with
  | nil => exact .nil
  | cons hrescaled _ ih =>
    obtain ⟨hl, hls⟩ := List.forall_mem_cons.1 halone
    obtain ⟨hw, hws⟩ := List.forall_mem_cons.1 hknown
    exact .cons ⟨hl, hrescaled, hw⟩ (ih hls hws)

/-- Both scanners begin before their first line. -/
theorem Scanner.rescaled_ofText (hf : Rescales f W)
    (h : List.Forall₂ (Line.Twin f W) (l :: ls) (l' :: ls')) :
    Rescaled f W (ofText (String.ofList (joinLines (l :: ls))))
      (ofText (String.ofList (joinLines (l' :: ls')))) := by
  refine ⟨⟨⟨rfl, rfl, rfl, rfl, rfl⟩, ?_, ?_⟩, .atLine h ⟨rfl, rfl, ?_, ?_⟩⟩
  · show [0] = [f 0]
    rw [hf.map_zero]
  · intro i hi
    rw [List.mem_singleton.1 hi]
    exact hf.zero_mem
  · exact String.toList_ofList
  · exact String.toList_ofList

/-- The same is yielded for both texts. -/
theorem yields_rescaled (hf : Rescales f W)
    (h : List.Forall₂ (Line.Twin f W) (l :: ls) (l' :: ls')) :
    List.Forall₂ (Item.Alike (SameLine (joinLines (l :: ls)) (joinLines (l' :: ls'))))
      (Scanner.ofText (String.ofList (joinLines (l :: ls)))).yields
      (Scanner.ofText (String.ofList (joinLines (l' :: ls')))).yields := by
  have hs := Scanner.cameFrom_ofText (String.ofList (joinLines (l :: ls)))
  have ht := Scanner.cameFrom_ofText (String.ofList (joinLines (l' :: ls')))
  rw [String.toList_ofList] at hs ht
  exact Scanner.yields_alike
    (R := fun s t => Scanner.Rescaled f W s t ∧ s.CameFrom (joinLines (l :: ls)) ∧
      t.CameFrom (joinLines (l' :: ls')))
    (fun _ _ hst => hst.1.step_cameFrom hf (count_joinLines h) hst.2.1 hst.2.2)
    ⟨Scanner.rescaled_ofText hf h, hs, ht⟩

/-- **Only the order of the margins matters.**  If the lines of a text stand alone,
and are given other margins by a function that rises strictly from zero on over the
widths that occur, the tokens are the same, or the same fault is found in the same
line. -/
theorem margins_matter_by_order (f : Nat → Nat) (ls ls' : List Line) (hzero : f 0 = 0)
    (hrises : StrictMonoOn f {w | w = 0 ∨ ∃ l ∈ ls, l.columns = w})
    (halone : ∀ l ∈ ls, l.StandsAlone) (hlines : List.Forall₂ (Line.Rescaled f) ls ls') :
    ReadAlike (SameLine (joinLines ls) (joinLines ls')) (tokenize (String.ofList (joinLines ls)))
      (tokenize (String.ofList (joinLines ls'))) := by
  have hf : Rescales f {w | w = 0 ∨ ∃ l ∈ ls, l.columns = w} := ⟨.inl rfl, hzero, hrises⟩
  have hknown : ∀ l ∈ ls, l.columns ∈ {w | w = 0 ∨ ∃ l ∈ ls, l.columns = w} :=
    fun l hl => .inr ⟨l, hl, rfl⟩
  have htwins := twins_of_rescaled halone hknown hlines
  cases hlines with
  | nil =>
    have hempty : tokenize (String.ofList (joinLines [])) = .ok [⟨.eof, ⟨0, 0⟩⟩] := by
      decide +kernel
    rw [hempty]
    exact .tokens rfl
  | cons => exact Scanner.tokens_alike (yields_rescaled hf htwins)

/-- Lines of the widths 0, 4, 6, 2 and 2, with an uneven margin in the end. -/
def steppedLines : List Line :=
  [⟨[], "a = [1] # (".toList⟩, ⟨['\t'], ['b']⟩, ⟨['　', '　', '　'], ['c']⟩, ⟨[' ', ' '], []⟩,
    ⟨['　'], ['d']⟩]

/-- The same lines of the widths 0, 2, 8, 1 and 1. -/
def steppedRescaled : List Line :=
  [⟨[], "a = [1] # (".toList⟩, ⟨[' ', '|'], ['b']⟩, ⟨['\t', '\t'], ['c']⟩, ⟨[' '], []⟩,
    ⟨['└'], ['d']⟩]

/-- Blocks are closed before the uneven margin is found, wider in one place and
narrower in others. -/
theorem margins_matter_by_order_uneven :
    tokenize "a = [1] # (\n\tb\n　　　c\n  \n　d" = .error ⟨.unevenIndent, ⟨29, 32⟩⟩ ∧
      ∃ e, tokenize "a = [1] # (\n |b\n\t\tc\n \n└d" = .error e ∧ e.cause = .unevenIndent ∧
        Text.breaksBefore (joinLines steppedRescaled) e.span.start = 4 := by
  let f : Nat → Nat := fun w => if w = 6 then 8 else w / 2
  have hwidths : ∀ w, (w = 0 ∨ ∃ l ∈ steppedLines, l.columns = w) → w ∈ [0, 2, 4, 6] := by
    have hall : (steppedLines.all fun l => decide (l.columns ∈ [0, 2, 4, 6])) = true := by decide
    rintro w (rfl | ⟨l, hl, rfl⟩)
    · decide
    · exact of_decide_eq_true (List.all_eq_true.1 hall l hl)
  have hrises : StrictMonoOn f {w | w = 0 ∨ ∃ l ∈ steppedLines, l.columns = w} := by
    have hpairs : ∀ v ∈ [0, 2, 4, 6], ∀ w ∈ [0, 2, 4, 6], v < w → f v < f w := by decide
    exact fun v hv w hw => hpairs v (hwidths v hv) w (hwidths w hw)
  have halone : ∀ l ∈ steppedLines, l.StandsAlone := by decide +kernel
  have hlines : List.Forall₂ (Line.Rescaled f) steppedLines steppedRescaled := by
    refine .cons ?_ (.cons ?_ (.cons ?_ (.cons ?_ (.cons ?_ .nil))))
    all_goals exact ⟨List.all_iff_forall_prop.1 rfl, rfl, by decide⟩
  have hfault : tokenize "a = [1] # (\n\tb\n　　　c\n  \n　d" =
      .error ⟨.unevenIndent, ⟨29, 32⟩⟩ := by decide +kernel
  have halike := margins_matter_by_order f steppedLines steppedRescaled rfl hrises halone hlines
  refine ⟨hfault, ?_⟩
  have htext : String.ofList (joinLines steppedLines) = "a = [1] # (\n\tb\n　　　c\n  \n　d" := by
    decide +kernel
  have htext' : String.ofList (joinLines steppedRescaled) = "a = [1] # (\n |b\n\t\tc\n \n└d" := by
    decide +kernel
  rw [htext, htext', hfault] at halike
  generalize tokenize _ = found at halike ⊢
  cases halike with
  | @fault _ e hsame => exact ⟨e, rfl, hsame.1, hsame.2.trans (by decide +kernel)⟩

end Dncl
