/-
Dncl/Proofs/Lines.lean

Reading from place to place.

`Runs p ts q` says that a scanner at the place `p` yields the tokens `ts` and
is at the place `q` then.  Runs compose:

    Runs p ts q  →  Runs q us r  →  Runs p (ts ++ us) r.

Within a line a run takes a token or a blank.  At the start of a line, where
the margin decides, one block is opened or closed at a time; the end of the
text closes blocks like a line without any margin.

Design.  A place is a scanner but for the offset, which no token depends on.
The open margins rise strictly towards the innermost one (`Rising`), so a line
whose margin is among them closes exactly the blocks that are deeper.
-/
import Dncl.Proofs.Spelling

namespace Dncl

open Scanner (OpensToken)

/-! ### Places -/

/-- Where a scanner that has not come to the end stands. -/
structure Place where
  rest : List Char
  depth : Nat
  indents : List Nat
  /-- Whether the line has a token already. -/
  used : Bool
  /-- Whether a margin comes next. -/
  start : Bool

namespace Place

/-- A place within a line. -/
abbrev inLine (rest : List Char) (depth : Nat) (indents : List Nat) (used : Bool) : Place :=
  ⟨rest, depth, indents, used, false⟩

/-- The start of a line, outside brackets. -/
abbrev atLine (rest : List Char) (indents : List Nat) : Place :=
  ⟨rest, 0, indents, false, true⟩

/-- The scanner at a place and an offset. -/
def scanner (p : Place) (pos : Nat) : Scanner where
  rest := p.rest
  pos := pos
  depth := p.depth
  indents := p.indents
  lineUsed := p.used
  lineStart := p.start

end Place

/-- From the place `p` the tokens `ts` are yielded up to the place `q`. -/
def Runs (p : Place) (ts : List Token) (q : Place) : Prop :=
  ∀ pos, ∃ pos', (p.scanner pos).stream = .prepend ts (q.scanner pos').stream

theorem Runs.refl (p : Place) : Runs p [] p :=
  fun pos => ⟨pos, rfl⟩

theorem Runs.trans {p q r : Place} {ts us : List Token} (h₁ : Runs p ts q) (h₂ : Runs q us r) :
    Runs p (ts ++ us) r := by
  intro pos
  obtain ⟨pos₁, hp⟩ := h₁ pos
  obtain ⟨pos₂, hq⟩ := h₂ pos₁
  exact ⟨pos₂, by rw [hp, hq, Stream.prepend_append]⟩

/-! ### Within a line -/

section InLine

variable {cs tail : List Char} {d e : Nat} {is : List Nat} {used : Bool} {t : Token}

/-- A token is read. -/
theorem runs_token (h : Spells cs t tail) (hd : t.depthAfter d = e) :
    Runs (.inLine (cs ++ tail) d is used) [t] (.inLine tail e is true) := by
  subst hd
  intro pos
  obtain ⟨c, rest, heq, -⟩ := h.opens.exists_cons
  obtain ⟨span, pos', hread⟩ := h.reads ((Place.inLine (cs ++ tail) d is used).scanner pos) c rest
    heq heq
  have hstep := Scanner.step_of_opensToken
    (s := (Place.inLine (cs ++ tail) d is used).scanner pos) rfl rfl rfl heq (heq ▸ h.opens)
  rw [hread] at hstep
  exact ⟨pos', Scanner.stream_of_emit hstep⟩

/-- A blank is passed. -/
theorem runs_gap : Runs (.inLine (' ' :: tail) d is used) [] (.inLine tail d is used) := by
  intro pos
  refine ⟨pos + Char.utf8Size ' ', Scanner.stream_of_step ?_⟩
  show (Scanner.skipWhile _ Scanner.isGap).readOn = (Scanner.skipWhile _ Scanner.isGap).readOn
  simp [Scanner.skipWhile, Scanner.after, Place.scanner, Scanner.isGap, Text.byteSize,
    Nat.add_assoc]

theorem runs_gaps (n : Nat) :
    Runs (.inLine (List.replicate n ' ' ++ tail) d is used) [] (.inLine tail d is used) := by
  induction n with
  | zero => exact .refl _
  | succ n ih => exact runs_gap.trans ih

/-- Inside brackets a line break is passed. -/
theorem runs_break_inside (hd : 0 < d) :
    Runs (.inLine ('\n' :: tail) d is used) [] (.inLine tail d is used) := by
  intro pos
  exact ⟨pos + Char.utf8Size '\n', Scanner.stream_of_again (if_pos hd)⟩

/-- Outside brackets a line break ends the line. -/
theorem runs_break : Runs (.inLine ('\n' :: tail) 0 is true) [.newline] (.atLine tail is) := by
  intro pos
  have hstep : ((Place.inLine ('\n' :: tail) 0 is true).scanner pos).step =
      .emit (.ok ⟨.newline, ⟨pos, pos + Char.utf8Size '\n'⟩⟩)
        ((Place.atLine tail is).scanner (pos + Char.utf8Size '\n')) := rfl
  exact ⟨_, Scanner.stream_of_emit hstep⟩

end InLine

/-! ### Margins -/

/-- The margins rise strictly towards the innermost one. -/
def Rising (is : List Nat) : Prop :=
  is.Pairwise (· > ·)

section Margins

variable {rest cs : List Char} {is ms : List Nat} {m n w : Nat}

theorem Rising.le_headD (h : Rising is) (hw : w ∈ is) : w ≤ is.headD 0 := by
  cases is with
  | nil => cases hw
  | cons m ms =>
    rcases List.mem_cons.1 hw with rfl | hw
    · exact Nat.le_refl _
    · exact Nat.le_of_lt (List.rel_of_pairwise_cons h hw)

/-- A margin that is open closes the blocks that are deeper, and no other. -/
theorem Rising.headD_marginsUpTo (h : Rising is) (hw : w ∈ is) :
    (Scanner.marginsUpTo w is).headD 0 = w := by
  induction is with
  | nil => cases hw
  | cons m ms ih =>
    rw [Scanner.marginsUpTo]
    rcases List.mem_cons.1 hw with rfl | hw
    · rw [List.dropWhile_cons_of_neg (by simp)]
      rfl
    · rw [List.dropWhile_cons_of_pos (by simpa using List.rel_of_pairwise_cons h hw)]
      exact ih h.of_cons hw

/-- The margin of a line is measured. -/
theorem margin_split {margin : List Char} (hmargin : ∀ c ∈ margin, Scanner.isMargin c = true)
    (hrest : rest.dropWhile Scanner.isMargin = rest) :
    (margin ++ rest).takeWhile Scanner.isMargin = margin ∧
      (margin ++ rest).dropWhile Scanner.isMargin = rest := by
  have hsplit := List.takeWhile_append_dropWhile (p := Scanner.isMargin) (l := rest)
  rw [hrest, List.append_left_eq_self] at hsplit
  rw [List.takeWhile_append_of_pos hmargin, List.dropWhile_append_of_pos hmargin, hsplit, hrest]
  exact ⟨List.append_nil _, rfl⟩

theorem isMargin_blanks (w : Nat) : ∀ c ∈ List.replicate w ' ', Scanner.isMargin c = true := by
  intro c hc
  rw [List.eq_of_mem_replicate hc]
  rfl

theorem marginWidth_replicate (w : Nat) : Scanner.marginWidth (List.replicate w ' ') = w := by
  show ((List.replicate w ' ').map fun c => (Scanner.marginWidth? c).getD 0).sum = w
  simp [Scanner.marginWidth?]

theorem pastMargin_atLine {margin : List Char} (hmargin : ∀ c ∈ margin, Scanner.isMargin c = true)
    (hrest : rest.dropWhile Scanner.isMargin = rest) (pos : Nat) :
    ((Place.atLine (margin ++ rest) is).scanner pos).pastMargin =
      (Place.inLine rest 0 is false).scanner (pos + Text.byteSize margin) := by
  obtain ⟨htake, hdrop⟩ := margin_split hmargin hrest
  rw [Scanner.pastMargin, Place.scanner, htake, hdrop]
  rfl

theorem lineWidth_atLine {margin : List Char} (hmargin : ∀ c ∈ margin, Scanner.isMargin c = true)
    (hrest : rest.dropWhile Scanner.isMargin = rest) (pos : Nat) :
    ((Place.atLine (margin ++ rest) is).scanner pos).lineWidth = Scanner.marginWidth margin := by
  rw [Scanner.lineWidth, Place.scanner, (margin_split hmargin hrest).1]

/-- A line whose margin is open closes the blocks that are deeper. -/
theorem stream_atLine (hrest : OpensToken rest) (his : Rising is) (hw : w ∈ is) (pos : Nat) :
    ((Place.atLine (List.replicate w ' ' ++ rest) is).scanner pos).stream =
      .prepend (List.replicate (is.length - (Scanner.marginsUpTo w is).length) .dedent)
        ((Place.inLine rest 0 (Scanner.marginsUpTo w is) false).scanner
          (pos + Text.byteSize (List.replicate w ' '))).stream := by
  have hstep : ((Place.atLine (List.replicate w ' ' ++ rest) is).scanner pos).step =
      .again (((Place.inLine rest 0 is false).scanner
        (pos + Text.byteSize (List.replicate w ' '))).closeBlocks w) := by
    show Scanner.beginLine _ = _
    rw [Scanner.beginLine, pastMargin_atLine (isMargin_blanks _) hrest.2,
      lineWidth_atLine (isMargin_blanks _) hrest.2, marginWidth_replicate,
      if_neg (by simp [Place.scanner, hrest.1])]
    exact (if_neg (Nat.not_lt.2 (his.le_headD hw))).trans (if_pos (his.headD_marginsUpTo hw))
  rw [Scanner.stream_of_again hstep, Scanner.stream_of_pending, Scanner.closeBlocks,
    List.map_replicate]
  rfl

theorem stream_finish (p : Place) (pos : Nat) :
    (p.scanner pos).finish.stream = .prepend ((if p.used then [.newline] else []) ++
      List.replicate (p.indents.length - 1) .dedent) .ended := by
  rw [Scanner.stream_of_pending, Scanner.stream_of_ended rfl rfl, Scanner.finish, List.map_append,
    List.map_replicate, Place.scanner]
  cases p.used <;> rfl

/-- The end of the text closes all blocks. -/
theorem stream_atLine_nil (is : List Nat) (pos : Nat) :
    ((Place.atLine [] is).scanner pos).stream =
      .prepend (List.replicate (is.length - 1) .dedent) .ended := by
  have hmargin : ((Place.atLine [] is).scanner pos).step =
      .again ((Place.inLine [] 0 is false).scanner pos) := rfl
  have hend : ((Place.inLine [] 0 is false).scanner pos).step =
      .again ((Place.inLine [] 0 is false).scanner pos).finish := rfl
  rw [Scanner.stream_of_again hmargin, Scanner.stream_of_again hend, stream_finish]
  rfl

/-- The end of the text ends the line. -/
theorem runs_end : Runs (.inLine [] 0 is true) [.newline] (.atLine [] is) := by
  intro pos
  have hend : ((Place.inLine [] 0 is true).scanner pos).step =
      .again ((Place.inLine [] 0 is true).scanner pos).finish := rfl
  refine ⟨pos, ?_⟩
  rw [Scanner.stream_of_again hend, stream_finish, stream_atLine_nil]
  rfl

theorem runs_margin (hrest : OpensToken rest) (his : Rising (m :: ms)) :
    Runs (.atLine (List.replicate m ' ' ++ rest) (m :: ms)) []
      (.inLine rest 0 (m :: ms) false) := by
  intro pos
  have hstay : Scanner.marginsUpTo m (m :: ms) = m :: ms :=
    List.dropWhile_cons_of_neg (by simp)
  have hstream := stream_atLine hrest his List.mem_cons_self pos
  rw [hstay, Nat.sub_self] at hstream
  exact ⟨_, hstream⟩

/-- A line with a wider margin opens a block. -/
theorem runs_indent (hrest : OpensToken rest) (hn : m < n) :
    Runs (.atLine (List.replicate n ' ' ++ rest) (m :: ms)) [.indent]
      (.inLine rest 0 (n :: m :: ms) false) := by
  intro pos
  have hstep : ((Place.atLine (List.replicate n ' ' ++ rest) (m :: ms)).scanner pos).step =
      .again (((Place.inLine rest 0 (m :: ms) false).scanner
        (pos + Text.byteSize (List.replicate n ' '))).openBlock pos n) := by
    show Scanner.beginLine _ = _
    rw [Scanner.beginLine, pastMargin_atLine (isMargin_blanks _) hrest.2,
      lineWidth_atLine (isMargin_blanks _) hrest.2, marginWidth_replicate,
      if_neg (by simp [Place.scanner, hrest.1])]
    exact if_pos hn
  refine ⟨pos + Text.byteSize (List.replicate n ' '), ?_⟩
  rw [Scanner.stream_of_again hstep, Scanner.stream_of_pending]
  rfl

/-- The line goes back to a margin that is open, or the text ends. -/
def GoesBack (is : List Nat) (cs : List Char) : Prop :=
  is ≠ [] ∧ (cs = [] ∨ ∃ w ∈ is, ∃ rest, OpensToken rest ∧ cs = List.replicate w ' ' ++ rest)

/-- A line that goes back closes a block. -/
theorem runs_dedent (his : Rising (n :: is)) (hcs : GoesBack is cs) :
    Runs (.atLine cs (n :: is)) [.dedent] (.atLine cs is) := by
  intro pos
  refine ⟨pos, ?_⟩
  obtain ⟨hopen, rfl | ⟨w, hw, rest, hrest, rfl⟩⟩ := hcs
  · have hlength : (n :: is).length - 1 = is.length - 1 + 1 :=
      (Nat.sub_add_cancel (List.length_pos_of_ne_nil hopen)).symm
    rw [stream_atLine_nil, stream_atLine_nil, hlength]
    rfl
  · have hclose : Scanner.marginsUpTo w (n :: is) = Scanner.marginsUpTo w is :=
      List.dropWhile_cons_of_pos (by simpa using List.rel_of_pairwise_cons his hw)
    have hle : (Scanner.marginsUpTo w is).length ≤ is.length :=
      (List.dropWhile_sublist _).length_le
    rw [stream_atLine hrest his (List.mem_cons_of_mem n hw), stream_atLine hrest his.of_cons hw,
      hclose, List.length_cons, Nat.succ_sub hle]
    rfl

end Margins

end Dncl
