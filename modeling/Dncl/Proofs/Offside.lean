/-
Dncl/Proofs/Offside.lean

The offside rule.

The widths of the margins decide where blocks begin and end.  `openMargins`
goes through the lines of a text and keeps the widths that are open: a wider
line opens a block, a line of an open width closes the blocks that are deeper,
and any other line is uneven.  A scanner agrees with it:

* it reports an uneven margin where `openMargins` finds the first one, and
  nowhere before;
* up to the first token of any other line, as many blocks are open as there
  are positive open widths.

Lines that are blank or hold a comment only have no margin in this sense.

Design.  A line is *complete* if its body, read by itself, comes to its end
with no bracket, string or command open.  Then the body is read in the same way
within a text, side by side with the body alone (`Beside`), and a scanner goes
from the start of a line to the start of the next.  Blocks are counted by the
ledger of `Blocks`, not here.
-/
import Dncl.Proofs.Blocks
import Dncl.Proofs.Locality
import Dncl.Proofs.Tiling

namespace Dncl

open Scanner (OpensToken Emits Ledger)

/-! ### Lines and their widths -/

/-- A line of a text, without its line break. -/
structure Line where
  margin : List Char
  body : List Char

namespace Line

def text (l : Line) : List Char :=
  l.margin ++ (l.body ++ ['\n'])

def width (l : Line) : Nat :=
  Scanner.marginWidth l.margin

/-- The line stands on its own: a body that is read by itself comes to its end
with no bracket, string or command open. -/
structure IsComplete (l : Line) : Prop where
  margin : ∀ c ∈ l.margin, Scanner.isMargin c = true
  whole : l.body.dropWhile Scanner.isMargin = l.body
  single : '\n' ∉ l.body
  complete : ∃ n, ((Scanner.ofText (String.ofList l.body)).calls n).2.ended = true ∧
    ((Scanner.ofText (String.ofList l.body)).calls n).2.depth = 0 ∧
    ∀ r ∈ ((Scanner.ofText (String.ofList l.body)).calls n).1, Scanner.isClosed r = true

end Line

/-- The text of some lines. -/
def linesText (ls : List Line) : List Char :=
  ls.flatMap Line.text

/-- The open widths after a line of width `w`, if it is even. -/
def nextMargins (ws : List Nat) (w : Nat) : Option (List Nat) :=
  if ws.headD 0 < w then some (w :: ws)
  else if w ∈ ws then some (ws.dropWhile (w < ·))
  else none

/-- The open widths after a line, if it is even; a bare line changes nothing. -/
def Line.marginsAfter (l : Line) (ws : List Nat) : Option (List Nat) :=
  if Scanner.isBare l.body then some ws else nextMargins ws l.width

/-- The open widths after some lines, if they are even. -/
def openMargins : List Nat → List Line → Option (List Nat)
  | ws, [] => some ws
  | ws, l :: ls => (l.marginsAfter ws).bind (openMargins · ls)

/-- The spans of the uneven margins that are reported. -/
def reports (rs : List Found) : List Span :=
  rs.filterMap fun
    | .error ⟨.unevenIndent, span⟩ => some span
    | _ => none

theorem reports_append (rs rs' : List Found) : reports (rs ++ rs') = reports rs ++ reports rs' :=
  List.filterMap_append

theorem reports_ok (xs : List Lexeme) : reports (xs.map .ok) = [] := by
  rw [reports, List.filterMap_map, List.filterMap_eq_nil_iff]
  exact fun _ _ => rfl

theorem reports_of_isSolid {r : Found} (h : r.isSolid = true) : reports [r] = [] := by
  rcases r with ⟨cause, span⟩ | x
  · cases cause with
    | unevenIndent => cases h
    | _ => rfl
  · rfl

/-! ### Within a line -/

namespace Scanner

variable {s s' t : Scanner} {rs : List Found} {c : Char} {cs tail : List Char}
  {stop : Nat} {is : List Nat}

theorem Within.readToken (h : s.Within) (c : Char) (cs : List Char) (used : Bool) :
    Within { (s.readToken c cs).2 with lineUsed := used } := by
  obtain ⟨-, -, rest, pos, depth, hmoves⟩ := s.readToken_found c cs
  rw [hmoves]
  exact ⟨h.pending, h.ended, h.lineStart⟩

/-- The scanner `s` reads the rest of a line alone, and `s'` reads it in a text
that goes on with `tail`; the line ends at the offset `stop`. -/
structure Beside (tail : List Char) (stop : Nat) (is : List Nat) (s s' : Scanner) : Prop where
  within : s.Within
  within' : s'.Within
  single : '\n' ∉ s.rest
  rest : s'.rest = s.rest ++ '\n' :: tail
  depth : s'.depth = s.depth
  stop : s'.pos + Text.byteSize s.rest = stop
  indents : s'.indents = is

theorem takeWhile_line {p : Char → Bool} (hp : p '\n' = false) (cs tail : List Char) :
    (cs ++ '\n' :: tail).takeWhile p = cs.takeWhile p := by
  induction cs with
  | nil => exact List.takeWhile_cons_of_neg (by simp [hp])
  | cons c cs ih => rw [List.cons_append, List.takeWhile_cons, List.takeWhile_cons, ih]

theorem dropWhile_line {p : Char → Bool} (hp : p '\n' = false) (cs tail : List Char) :
    (cs ++ '\n' :: tail).dropWhile p = cs.dropWhile p ++ '\n' :: tail := by
  induction cs with
  | nil => exact List.dropWhile_cons_of_neg (by simp [hp])
  | cons c cs ih =>
    rw [List.cons_append, List.dropWhile_cons, List.dropWhile_cons, ih]
    split <;> rfl

namespace Beside

/-- Both skip the same characters. -/
theorem skipWhile (h : Beside tail stop is s s') {p : Char → Bool} (hp : p '\n' = false) :
    Beside tail stop is (s.skipWhile p) (s'.skipWhile p) where
  within := ⟨h.within.pending, h.within.ended, h.within.lineStart⟩
  within' := ⟨h.within'.pending, h.within'.ended, h.within'.lineStart⟩
  single := fun hmem => h.single ((List.dropWhile_sublist p).mem hmem)
  rest := by
    show s'.rest.dropWhile p = s.rest.dropWhile p ++ '\n' :: tail
    rw [h.rest, dropWhile_line hp]
  depth := h.depth
  indents := h.indents
  stop := by
    show s'.pos + Text.byteSize (s'.rest.takeWhile p) + Text.byteSize (s.rest.dropWhile p) = stop
    rw [h.rest, takeWhile_line hp, Nat.add_assoc, ← Cut.byteSize_append,
      List.takeWhile_append_dropWhile, h.stop]

/-- Both read the same token. -/
theorem readToken (h : Beside tail stop is s s') (hs : s.rest = c :: cs)
    (hclosed : isClosed (s.readToken c cs).1 = true) (used used' : Bool) :
    Beside tail stop is { (s.readToken c cs).2 with lineUsed := used }
      { (s'.readToken c (cs ++ '\n' :: tail)).2 with lineUsed := used' } := by
  have hlocal := (readToken_local h.rest h.depth (delimited_cons (by decide)) hclosed).2
  obtain ⟨taken, htaken, hpos, -⟩ :=
    readToken_takes hs (show s.readToken c cs = (_, (s.readToken c cs).2) from rfl)
  refine ⟨h.within.readToken c cs used, h.within'.readToken c _ used', ?_, ?_, ?_, ?_, ?_⟩
  · exact fun hmem => h.single (htaken ▸ List.mem_append_right taken hmem)
  · rw [hlocal]
  · rw [hlocal]
  · have hstop := h.stop
    rw [htaken, Cut.byteSize_append] at hstop
    rw [hlocal, hpos, Nat.add_sub_cancel_left]
    exact (Nat.add_assoc _ _ _).trans hstop
  · rw [hlocal]
    exact h.indents

end Beside

/-- A line break outside brackets leads to the next line; it is a token if the
line has one. -/
theorem emits_break (h : s.Within) (hrest : (s.skipWhile isGap).rest = '\n' :: tail)
    (hdepth : s.depth = 0) : ∃ xs : List Lexeme,
      xs.map Lexeme.token = (if s.lineUsed then [.newline] else []) ∧
      Emits s (xs.map .ok) ((Place.atLine tail s.indents).scanner
        ((s.skipWhile isGap).pos + Char.utf8Size '\n')) := by
  obtain ⟨rest, pos, depth, indents, lineStart, lineUsed, ended, pending⟩ := s
  obtain ⟨rfl, rfl, rfl⟩ := h
  obtain rfl : depth = 0 := hdepth
  have hstep := Within.step_eq (s := ⟨rest, pos, 0, indents, false, lineUsed, false, []⟩)
    ⟨rfl, rfl, rfl⟩
  rw [readOn, hrest] at hstep
  cases lineUsed with
  | true => exact ⟨[_], rfl, .single hstep⟩
  | false => exact ⟨[], rfl, .again hstep (.refl _)⟩

/-- Once the text has ended no bracket is opened or closed. -/
theorem Emits.depth_of_ended (h : Emits s rs t) (hs : s.ended = true) : t.depth = s.depth := by
  induction h using Emits.induction with
  | refl s => rfl
  | step s rs u _ ih =>
    have hcase := s.step_case
    generalize s.step = p at hcase ih
    cases hcase with
    | waiting | ended => exact ih hs
    | margin h | line h => exact absurd (h.ended.symm.trans hs) Bool.false_ne_true

/-- A step of the body alone and one in the text: the body is over, or both pass
a comment, or both read a token. -/
inductive BothStep (tail : List Char) (stop : Nat) (is : List Nat) (s s' : Scanner) : Prop
  | finished {t : Scanner} : s.step = .again t → t.ended = true → t.depth = s.depth →
      (s'.skipWhile isGap).rest = '\n' :: tail → (s'.skipWhile isGap).pos = stop →
      BothStep tail stop is s s'
  | again {t t' : Scanner} : s.step = .again t → s'.step = .again t' → Beside tail stop is t t' →
      BothStep tail stop is s s'
  | emit {t t' : Scanner} {r r' : Found} : s.step = .emit r t → s'.step = .emit r' t' →
      r'.isSolid = true → (isClosed r = true → Beside tail stop is t t') → BothStep tail stop is s s'

theorem Beside.step (h : Beside tail stop is s s') : BothStep tail stop is s s' := by
  have hskip := h.skipWhile (p := isGap) rfl
  have hstep := h.within.step_eq
  have hstep' := h.within'.step_eq
  have hrest' := hskip.rest
  cases hrest : (s.skipWhile isGap).rest with
  | nil =>
    rw [readOn, hrest] at hstep
    rw [hrest] at hrest'
    have hstop := hskip.stop
    rw [hrest] at hstop
    exact .finished hstep rfl rfl hrest' hstop
  | cons c cs =>
    rw [hrest] at hrest'
    have hbreak : c ≠ '\n' := fun heq => hskip.single (hrest ▸ heq ▸ List.mem_cons_self)
    have hsame : startsComment (c :: (cs ++ '\n' :: tail)) = startsComment (c :: cs) :=
      startsComment_before (delimited_cons (by decide))
    cases hcomment : startsComment (c :: cs) with
    | true =>
      rw [readOn_comment hrest hcomment] at hstep
      rw [readOn_comment hrest' (hsame.trans hcomment)] at hstep'
      exact .again hstep hstep' (hskip.skipWhile rfl)
    | false =>
      obtain ⟨used, htoken⟩ := readOn_token hrest hcomment hbreak
      obtain ⟨used', htoken'⟩ := readOn_token hrest' (hsame.trans hcomment) hbreak
      exact .emit (hstep.trans htoken) (hstep'.trans htoken') (readToken_found _ c _).1
        fun hclosed => hskip.readToken hrest hclosed used used'

/-- Where the body alone comes to its end, the text goes on with the next line. -/
theorem Beside.emits (h : Beside tail stop is s s') (hrun : Emits s rs t) (hended : t.ended = true)
    (hdepth : t.depth = 0) (hclosed : ∀ r ∈ rs, isClosed r = true) :
    ∃ rs', reports rs' = [] ∧
      Emits s' rs' ((Place.atLine tail is).scanner (stop + Char.utf8Size '\n')) := by
  induction hrun generalizing s' with
  | refl s => exact absurd (h.within.ended.symm.trans hended) Bool.false_ne_true
  | again hstep hrun ih =>
    cases h.step with
    | finished hover hend hsame hrest hstop =>
      cases hstep.symm.trans hover
      rw [hrun.depth_of_ended hend, hsame] at hdepth
      -- here the line alone is over, and the longer text has its break
      rw [← hstop, ← h.indents]
      obtain ⟨xs, -, hbreak⟩ := emits_break h.within' hrest (h.depth.trans hdepth)
      exact ⟨_, reports_ok xs, hbreak⟩
    | again hboth hstep' hbeside =>
      cases hstep.symm.trans hboth
      obtain ⟨rs', hreports, hrun'⟩ := ih hbeside hended hdepth hclosed
      exact ⟨rs', hreports, .again hstep' hrun'⟩
    | emit hboth => cases hstep.symm.trans hboth
  | emit hstep hrun ih =>
    cases h.step with
    | finished hover => cases hstep.symm.trans hover
    | again hboth => cases hstep.symm.trans hboth
    | emit hboth hstep' hsolid hbeside =>
      cases hstep.symm.trans hboth
      obtain ⟨rs', hreports, hrun'⟩ := ih (hbeside (hclosed _ List.mem_cons_self)) hended hdepth
        fun r hr => hclosed r (List.mem_cons_of_mem _ hr)
      refine ⟨_ :: rs', ?_, .emit hstep' hrun'⟩
      rw [← List.singleton_append, reports_append, reports_of_isSolid hsolid, hreports]
      rfl

/-! ### At the start of a line -/

section LineStart

variable {margin rest : List Char} {ws : List Nat} {pos : Nat}

theorem emits_pending (s : Scanner) : Emits s (s.pending.map .ok) { s with pending := [] } := by
  obtain ⟨rest, pos, depth, indents, lineStart, lineUsed, ended, pending⟩ := s
  induction pending with
  | nil => exact .refl _
  | cons x later ih => exact .emit (step_of_pending rfl) ih

/-- A margin that is not wider than the innermost one is found among the open
ones exactly if it is open. -/
theorem headD_marginsUpTo_eq (his : Rising is) (hbottom : is.getLast? = some 0) (w : Nat) :
    (marginsUpTo w is).headD 0 = w ↔ w ∈ is := by
  refine ⟨fun hhead => ?_, his.headD_marginsUpTo⟩
  have hlast := getLast?_marginsUpTo hbottom w
  cases hopen : marginsUpTo w is with
  | nil =>
    rw [hopen] at hlast
    cases hlast
  | cons m ms =>
    rw [hopen] at hhead
    obtain rfl : m = w := hhead
    exact (List.dropWhile_suffix _).mem (hopen ▸ List.mem_cons_self)

/-- A bare line leaves the blocks alone. -/
theorem emits_bare (hmargin : ∀ c ∈ margin, isMargin c = true)
    (hrest : rest.dropWhile isMargin = rest) (hbare : isBare rest = true) :
    Emits ((Place.atLine (margin ++ rest) is).scanner pos) []
      ((Place.inLine rest 0 is false).scanner (pos + Text.byteSize margin)) := by
  refine .again ?_ (.refl _)
  show beginLine _ = _
  rw [beginLine, pastMargin_atLine hmargin hrest]
  exact if_pos hbare

/-- A line whose margin is even opens a block or closes blocks. -/
theorem emits_even (hmargin : ∀ c ∈ margin, isMargin c = true)
    (hrest : rest.dropWhile isMargin = rest) (hbare : isBare rest = false) (his : Rising is)
    (hws : nextMargins is (marginWidth margin) = some ws) :
    ∃ rs, reports rs = [] ∧ Emits ((Place.atLine (margin ++ rest) is).scanner pos) rs
      ((Place.inLine rest 0 ws false).scanner (pos + Text.byteSize margin)) := by
  suffices hstep : ∃ xs, ((Place.atLine (margin ++ rest) is).scanner pos).step = .again
      { (Place.inLine rest 0 ws false).scanner (pos + Text.byteSize margin) with pending := xs } by
    obtain ⟨xs, hstep⟩ := hstep
    exact ⟨_, reports_ok xs, .again hstep (emits_pending _)⟩
  show ∃ xs, beginLine _ = _
  rw [beginLine, pastMargin_atLine hmargin hrest, lineWidth_atLine hmargin hrest,
    if_neg (by simp [Place.scanner, hbare])]
  rw [nextMargins] at hws
  split at hws
  · rename_i hwider
    cases hws
    exact ⟨_, if_pos hwider⟩
  · rename_i hnarrow
    split at hws
    · rename_i hopen
      cases hws
      exact ⟨_, (if_neg hnarrow).trans (if_pos (his.headD_marginsUpTo hopen))⟩
    · cases hws

/-- A line whose margin is uneven is reported. -/
theorem emits_uneven (hmargin : ∀ c ∈ margin, isMargin c = true)
    (hrest : rest.dropWhile isMargin = rest) (hbare : isBare rest = false) (his : Rising is)
    (hbottom : is.getLast? = some 0) (hws : nextMargins is (marginWidth margin) = none) :
    ∃ rs ws, reports rs = [⟨pos, pos + Text.byteSize margin⟩] ∧
      Emits ((Place.atLine (margin ++ rest) is).scanner pos) rs
        ((Place.inLine rest 0 ws false).scanner (pos + Text.byteSize margin)) := by
  have hstep : ((Place.atLine (margin ++ rest) is).scanner pos).step =
      .emit (.error ⟨.unevenIndent, ⟨pos, pos + Text.byteSize margin⟩⟩)
        (((Place.inLine rest 0 is false).scanner (pos + Text.byteSize margin)).closeBlocks
          (marginWidth margin)) := by
    rw [nextMargins] at hws
    split at hws
    · cases hws
    · rename_i hnarrow
      split at hws
      · cases hws
      · rename_i hopen
        show beginLine _ = _
        rw [beginLine, pastMargin_atLine hmargin hrest, lineWidth_atLine hmargin hrest,
          if_neg (by simp [Place.scanner, hbare])]
        exact (if_neg hnarrow).trans
          (if_neg (mt (headD_marginsUpTo_eq his hbottom _).1 hopen))
  refine ⟨_, _, ?_, .emit hstep (emits_pending _)⟩
  exact congrArg ([_] ++ ·) (reports_ok _)

/-- The margin of a line decides about its blocks. -/
theorem emits_margin (hmargin : ∀ c ∈ margin, isMargin c = true)
    (hrest : rest.dropWhile isMargin = rest) (hbare : isBare rest = false) (his : Rising is)
    (hbottom : is.getLast? = some 0) (pos : Nat) :
    ∃ rs ws, Emits ((Place.atLine (margin ++ rest) is).scanner pos) rs
        ((Place.inLine rest 0 ws false).scanner (pos + Text.byteSize margin)) ∧
      (nextMargins is (marginWidth margin) = none →
        reports rs = [⟨pos, pos + Text.byteSize margin⟩]) ∧
      ∀ ws', nextMargins is (marginWidth margin) = some ws' → reports rs = [] ∧ ws = ws' := by
  cases hnext : nextMargins is (marginWidth margin) with
  | none =>
    obtain ⟨rs, ws, hreports, hline⟩ := emits_uneven hmargin hrest hbare his hbottom hnext
    exact ⟨rs, ws, hline, fun _ => hreports, nofun⟩
  | some ws =>
    obtain ⟨rs, hreports, hline⟩ := emits_even hmargin hrest hbare his hnext
    exact ⟨rs, ws, hline, nofun, fun ws' heq => ⟨hreports, Option.some.inj heq⟩⟩

/-- At the end of the text the layout tokens that are left are yielded, and the
end mark. -/
theorem emits_end (is : List Nat) (pos : Nat) :
    ∃ xs x t, x.token = .eof ∧
      Emits ((Place.atLine [] is).scanner pos) ((xs ++ [x]).map .ok) t := by
  let s := ((Place.inLine [] 0 is false).scanner pos).finish
  have hover : step { s with pending := [] } = .emit (.ok ⟨.eof, ⟨pos, pos⟩⟩) _ := rfl
  refine ⟨s.pending, ⟨.eof, ⟨pos, pos⟩⟩, { s with pending := [] }, rfl, ?_⟩
  rw [List.map_append]
  exact .again rfl (.again rfl ((emits_pending s).trans (.single hover)))

end LineStart

/-! ### From line to line -/

section Lines

variable {l : Line} {ls : List Line} {ws : List Nat} {pos : Nat}

/-- The first step of the body alone passes its empty margin. -/
theorem step_body (hwhole : l.body.dropWhile isMargin = l.body) :
    (ofText (String.ofList l.body)).step =
      .again ((Place.inLine l.body 0 [0] false).scanner 0) := by
  have hstart : ofText (String.ofList l.body) = (Place.atLine ([] ++ l.body) [0]).scanner 0 := by
    rw [ofText, String.toList_ofList]
    rfl
  have hnone : ∀ c ∈ ([] : List Char), isMargin c = true := nofun
  rw [hstart]
  show beginLine _ = _
  rw [beginLine, pastMargin_atLine hnone hwhole, lineWidth_atLine hnone hwhole]
  split
  · rfl
  · rfl

/-- A complete body is read up to the next line. -/
theorem emits_body (hl : l.IsComplete) (tail : List Char) (is : List Nat) (pos : Nat) :
    ∃ rs, reports rs = [] ∧
      Emits ((Place.inLine (l.body ++ '\n' :: tail) 0 is false).scanner pos) rs
        ((Place.atLine tail is).scanner
          (pos + Text.byteSize l.body + Char.utf8Size '\n')) := by
  have hbeside : Beside tail (pos + Text.byteSize l.body) is
      ((Place.inLine l.body 0 [0] false).scanner 0)
      ((Place.inLine (l.body ++ '\n' :: tail) 0 is false).scanner pos) :=
    ⟨⟨rfl, rfl, rfl⟩, ⟨rfl, rfl, rfl⟩, hl.single, rfl, rfl, rfl, rfl⟩
  obtain ⟨n, hended, hdepth, hclosed⟩ := hl.complete
  have hrun := emits_calls n (ofText (String.ofList l.body))
  have hstep := step_body hl.whole
  generalize (ofText (String.ofList l.body)).calls n = found at hended hdepth hclosed hrun
  obtain ⟨rs, t⟩ := found
  cases hrun with
  | refl => cases hended
  | again hfirst hrun =>
    cases hfirst.symm.trans hstep
    exact hbeside.emits hrun hended hdepth hclosed
  | emit hfirst => cases hfirst.symm.trans hstep

theorem byteSize_text (l : Line) : Text.byteSize l.text =
    Text.byteSize l.margin + (Text.byteSize l.body + Char.utf8Size '\n') := by
  rw [Line.text, Cut.byteSize_append, Cut.byteSize_append]
  rfl

/-- A complete line that is even, or bare, leads to the next line. -/
theorem emits_line (hl : l.IsComplete) (his : Rising is)
    (hws : l.marginsAfter is = some ws)
    (tail : List Char) (pos : Nat) :
    ∃ rs, reports rs = [] ∧ Emits ((Place.atLine (l.text ++ tail) is).scanner pos) rs
      ((Place.atLine tail ws).scanner (pos + Text.byteSize l.text)) := by
  have hsplit : l.text ++ tail = l.margin ++ (l.body ++ '\n' :: tail) := by
    rw [Line.text, List.append_assoc, List.append_assoc]
    rfl
  have hwhole : (l.body ++ '\n' :: tail).dropWhile isMargin = l.body ++ '\n' :: tail := by
    rw [dropWhile_line rfl, hl.whole]
  obtain ⟨rs', hreports', hbody⟩ := emits_body hl tail ws (pos + Text.byteSize l.margin)
  rw [Line.marginsAfter] at hws
  rw [hsplit, byteSize_text, ← Nat.add_assoc, ← Nat.add_assoc]
  cases hbare : isBare l.body with
  | true =>
    rw [hbare] at hws
    cases hws
    have hbare' := (isBare_line l.body tail).trans hbare
    exact ⟨rs', hreports', (emits_bare hl.margin hwhole hbare').trans hbody⟩
  | false =>
    rw [hbare] at hws
    have hbare' := (isBare_line l.body tail).trans hbare
    obtain ⟨rs, hreports, hline⟩ := emits_even hl.margin hwhole hbare' his hws
    refine ⟨rs ++ rs', ?_, hline.trans hbody⟩
    rw [reports_append, hreports, hreports']
    rfl

/-- Complete lines that are even are read without a report. -/
theorem emits_lines {rs₀ : List Found} {tail : List Char} (hls : ∀ l ∈ ls, l.IsComplete)
    (hws : openMargins is ls = some ws)
    (hledger : Ledger rs₀ ((Place.atLine (linesText ls ++ tail) is).scanner pos)) :
    ∃ rs, reports rs = [] ∧ Emits ((Place.atLine (linesText ls ++ tail) is).scanner pos) rs
      ((Place.atLine tail ws).scanner (pos + Text.byteSize (linesText ls))) := by
  induction ls generalizing is pos rs₀ with
  | nil =>
    cases hws
    exact ⟨[], rfl, .refl _⟩
  | cons l ls ih =>
    have htext : linesText (l :: ls) = l.text ++ linesText ls := List.flatMap_cons
    rw [htext, List.append_assoc] at hledger ⊢
    obtain ⟨is', his', hws⟩ := Option.bind_eq_some_iff.1 hws
    obtain ⟨rs, hreports, hline⟩ := emits_line (hls l List.mem_cons_self) hledger.rising his'
      (linesText ls ++ tail) pos
    obtain ⟨rs', hreports', hlines⟩ := ih (fun l hl => hls l (List.mem_cons_of_mem _ hl)) hws
      (hledger.emits hline)
    refine ⟨rs ++ rs', ?_, ?_⟩
    · rw [reports_append, hreports, hreports']
      rfl
    · rw [Cut.byteSize_append, ← Nat.add_assoc]
      exact hline.trans hlines

end Lines

/-- The next call finds something of a line at the offset `p`. -/
def FindsAt (s : Scanner) (p : Nat) : Prop :=
  Found.isSolid s.next.1 = true ∧ Found.start s.next.1 = p

theorem Within.findsAt (h : s.Within) (hrest : OpensToken s.rest) : s.FindsAt s.pos := by
  obtain ⟨c, cs, hs, hmargin, hbreak, hreturn, hcomment⟩ := hrest.exists_cons
  rw [hs] at hcomment
  have hstep := h.step_eq
  rw [skipWhile_eq_self hs (isGap_eq_false hmargin hreturn)] at hstep
  obtain ⟨used, htoken⟩ := readOn_token hs hcomment hbreak
  rw [FindsAt, next_of_emit (hstep.trans htoken)]
  exact ⟨(s.readToken_found c cs).1, (s.readToken_found c cs).2.1⟩

end Scanner

/-- Of the open widths only the outermost is zero. -/
theorem Rising.countP_pos {ws : List Nat} (h : Rising ws) (hbottom : ws.getLast? = some 0) :
    ws.countP (0 < ·) = ws.length - 1 := by
  induction ws with
  | nil => rfl
  | cons w ws ih =>
    cases ws with
    | nil =>
      cases hbottom
      rfl
    | cons v vs =>
      have hpos : 0 < w := Nat.lt_of_le_of_lt (Nat.zero_le v)
        (List.rel_of_pairwise_cons h List.mem_cons_self)
      rw [List.countP_cons_of_pos (by simpa using hpos), ih h.of_cons hbottom]
      rfl

/-! ### The offside rule -/

/-- Blocks are in balance in a scanner that has yielded `rs` since the start of
the text. -/
structure Balanced (rs : List Found) (s : Scanner) : Prop where
  rising : Rising s.indents
  bottom : s.indents.getLast? = some 0
  balance : opened (rs ++ s.pending.map .ok) =
    closed (rs ++ s.pending.map .ok) + (s.indents.length - 1)
  prefixes : ∀ rs', rs' <+: rs → closed rs' ≤ opened rs'
  atEnd : ∀ x, .ok x ∈ rs → x.token = .eof → opened rs = closed rs

theorem balanced_calls (text : String) (n : Nat) :
    Balanced ((Scanner.ofText text).calls n).1 ((Scanner.ofText text).calls n).2 := by
  have h := Scanner.ledger_calls text n
  refine ⟨h.rising, h.bottom, h.balance, fun rs' hrs' => ?_, fun x hx heof => h.opened_eq hx heof⟩
  have hshort := Scanner.ledger_calls text rs'.length
  rw [Scanner.calls_prefix n _ hrs'] at hshort
  exact hshort.closed_le

/-- What is found before the first token of a line of the given width whose
margin covers `span`, if the widths `ws` are open before it. -/
def FollowsMargin (ws : List Nat) (width : Nat) (span : Span) (rs : List Found) : Prop :=
  match nextMargins ws width with
  | none => reports rs = [span]
  | some ws' => reports rs = [] ∧ opened rs = closed rs + ws'.countP (0 < ·)

section Text

variable {ls : List Line} {ws : List Nat} {tail margin rest : List Char}

theorem ofText_lines (cs : List Char) :
    Scanner.ofText (String.ofList cs) = (Place.atLine cs [0]).scanner 0 := by
  rw [Scanner.ofText, String.toList_ofList]
  rfl

/-- Complete lines that are even are read from the start of the text. -/
theorem emits_text (hls : ∀ l ∈ ls, l.IsComplete) (hws : openMargins [0] ls = some ws)
    (tail : List Char) :
    ∃ rs, reports rs = [] ∧ Emits (Scanner.ofText (String.ofList (linesText ls ++ tail))) rs
      ((Place.atLine tail ws).scanner (Text.byteSize (linesText ls))) := by
  have hledger := Scanner.ledger_ofText (String.ofList (linesText ls ++ tail))
  rw [ofText_lines] at hledger ⊢
  rw [← Nat.zero_add (Text.byteSize _)]
  exact Scanner.emits_lines hls hws hledger

/-- Even lines are read up to the end mark without a report. -/
theorem reports_even (hls : ∀ l ∈ ls, l.IsComplete) (hws : openMargins [0] ls = some ws) :
    ∃ n x, .ok x ∈ ((Scanner.ofText (String.ofList (linesText ls))).calls n).1 ∧
      x.token = .eof ∧
      reports ((Scanner.ofText (String.ofList (linesText ls))).calls n).1 = [] := by
  obtain ⟨rs, hreports, hlines⟩ := emits_text hls hws []
  rw [List.append_nil] at hlines
  obtain ⟨xs, x, t, heof, hend⟩ := Scanner.emits_end ws (Text.byteSize (linesText ls))
  obtain ⟨n, u, hcalls, -⟩ := (hlines.trans hend).exists_calls
  refine ⟨n, x, ?_, heof, ?_⟩
  · rw [hcalls]
    exact List.mem_append_right _ (List.mem_map_of_mem (List.mem_append_right xs List.mem_cons_self))
  · rw [hcalls, reports_append, hreports, reports_ok]
    rfl

/-- Up to the first token of a line the margins decide. -/
theorem followsMargin (hls : ∀ l ∈ ls, l.IsComplete) (hws : openMargins [0] ls = some ws)
    (hmargin : ∀ c ∈ margin, Scanner.isMargin c = true) (hrest : OpensToken rest) :
    ∃ n, ((Scanner.ofText (String.ofList (linesText ls ++ (margin ++ rest)))).calls n).2.FindsAt
        (Text.byteSize (linesText ls) + Text.byteSize margin) ∧
      FollowsMargin ws (Scanner.marginWidth margin)
        ⟨Text.byteSize (linesText ls), Text.byteSize (linesText ls) + Text.byteSize margin⟩
        ((Scanner.ofText (String.ofList (linesText ls ++ (margin ++ rest)))).calls n).1 := by
  obtain ⟨rs, hreports, hlines⟩ := emits_text hls hws (margin ++ rest)
  have hledger := (Scanner.ledger_ofText _).emits hlines
  obtain ⟨rs', ws', hline, huneven, heven⟩ := Scanner.emits_margin hmargin hrest.2 hrest.1
    hledger.rising hledger.bottom (Text.byteSize (linesText ls))
  -- so many calls bring what was emitted up to the margin
  obtain ⟨n, u, hcalls, hnext⟩ := (hlines.trans hline).exists_calls
  refine ⟨n, ?_, ?_⟩
  · have hwithin : ((Place.inLine rest 0 ws' false).scanner
        (Text.byteSize (linesText ls) + Text.byteSize margin)).Within := ⟨rfl, rfl, rfl⟩
    rw [hcalls, Scanner.FindsAt, hnext]
    exact hwithin.findsAt hrest
  · rw [hcalls, FollowsMargin]
    split
    · rename_i hnone
      rw [reports_append, hreports, huneven hnone]
      rfl
    · rename_i ws'' hsome
      obtain ⟨hreports', rfl⟩ := heven ws'' hsome
      have hledger' := hledger.emits hline
      have hcount : ws'.countP (0 < ·) = ws'.length - 1 :=
        hledger'.rising.countP_pos hledger'.bottom
      refine ⟨by rw [reports_append, hreports, hreports']; rfl, ?_⟩
      rw [hcount]
      exact hledger'.balance_of_nil rfl

end Text

/-- **Blocks follow the margins.**  After any number of calls on any text, whatever
the faults, the blocks are in balance.  In a text of complete lines the first
uneven margin is reported, and up to the first token of each line before it as
many blocks are open as there are positive open widths. -/
theorem blocks_follow_margins :
    (∀ (text : String) (n : Nat),
      Balanced ((Scanner.ofText text).calls n).1 ((Scanner.ofText text).calls n).2) ∧
    ∀ (lines : List Line) (ws : List Nat), (∀ l ∈ lines, l.IsComplete) →
      openMargins [0] lines = some ws →
      (∃ n x, .ok x ∈ ((Scanner.ofText (String.ofList (linesText lines))).calls n).1 ∧
        x.token = .eof ∧
        reports ((Scanner.ofText (String.ofList (linesText lines))).calls n).1 = []) ∧
      ∀ margin rest : List Char, (∀ c ∈ margin, Scanner.isMargin c = true) → OpensToken rest →
        ∃ n, ((Scanner.ofText (String.ofList (linesText lines ++ (margin ++ rest)))).calls
            n).2.FindsAt (Text.byteSize (linesText lines) + Text.byteSize margin) ∧
          FollowsMargin ws (Scanner.marginWidth margin)
            ⟨Text.byteSize (linesText lines), Text.byteSize (linesText lines) + Text.byteSize margin⟩
            ((Scanner.ofText (String.ofList (linesText lines ++ (margin ++ rest)))).calls n).1 :=
  ⟨balanced_calls, fun _ _ hlines hws =>
    ⟨reports_even hlines hws, fun _ _ hmargin hrest => followsMargin hlines hws hmargin hrest⟩⟩

/-- Two lines and a comment, before a line that is set in by two. -/
def unevenLines : List Line :=
  [⟨[], "f(1)".toList⟩, ⟨"    ".toList, "x = [2]".toList⟩, ⟨"  ".toList, "# y".toList⟩]

theorem unevenLines_complete : ∀ l ∈ unevenLines, l.IsComplete := by
  intro l hl
  simp only [unevenLines, List.mem_cons, List.not_mem_nil, or_false] at hl
  rcases hl with rfl | rfl | rfl
  · exact ⟨List.all_eq_true.1 rfl, by decide, by decide, 7, by decide +kernel⟩
  · exact ⟨List.all_eq_true.1 rfl, by decide, by decide, 7, by decide +kernel⟩
  · exact ⟨List.all_eq_true.1 rfl, by decide, by decide, 1, by decide +kernel⟩

theorem blocks_follow_margins_uneven :
    openMargins [0] unevenLines = some [4, 0] ∧ nextMargins [4, 0] 2 = none ∧
      ∃ n, reports ((Scanner.ofText (String.ofList (linesText unevenLines ++ "  z".toList))).calls
        n).1 = [⟨23, 25⟩] := by
  have hopen : openMargins [0] unevenLines = some [4, 0] := by decide
  obtain ⟨n, -, hfollows⟩ := (blocks_follow_margins.2 unevenLines [4, 0] unevenLines_complete
    hopen).2 "  ".toList "z".toList (List.all_eq_true.1 rfl) ⟨by decide, by decide⟩
  exact ⟨hopen, by decide, n, hfollows⟩

/-- A comment that is set in like none of the open blocks is not reported. -/
theorem uneven_comment_unreported :
    nextMargins [4, 0] 2 = none ∧ ∃ ts, tokenize "a\n    b\n  # c" = .ok ts := by
  have hok : (tokenize "a\n    b\n  # c").toOption.isSome = true := by decide +kernel
  refine ⟨by decide, ?_⟩
  cases htokens : tokenize "a\n    b\n  # c" with
  | ok ts => exact ⟨ts, rfl⟩
  | error fault =>
    rw [htokens] at hok
    cases hok

end Dncl
