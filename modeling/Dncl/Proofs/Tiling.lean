/-
Dncl/Proofs/Tiling.lean

Tokens tile the text.

A *cut* is a place between two characters of a text.  From one cut to a later
one the text is *skipped* if it is made of blanks, line breaks, comments that
run to the end of their line, and margins at the start of a line (`Skips`).
The tokens of a text lie one behind the other, with skipped text between them:

    text = skipped ++ token ++ skipped ++ token ++ … ++ skipped

so no other character is passed over.

Design.  The invariant of a scanner (`Scanner.TiledFrom`) starts at the end of
the token that was yielded last.  From there the pending tokens tile the text
up to the cut where the scanner stands.  A step that yields nothing keeps it,
a step that yields a token takes one tile off; the readers lose no character.
-/
import Mathlib.Logic.Relation
import Dncl.Proofs.Scan

namespace Dncl

variable {p q : Cut} {cs rest : List Char} {x : Lexeme}

/-! ### Cuts -/

/-- A place between two characters of a text. -/
structure Cut where
  before : List Char
  after : List Char

namespace Cut

/-- The text that is cut. -/
def text (p : Cut) : List Char :=
  p.before ++ p.after

/-- The bytes before the cut. -/
def offset (p : Cut) : Nat :=
  Text.byteSize p.before

/-- The cut is at the start of the text, or behind a line break. -/
def AtLineStart (p : Cut) : Prop :=
  p.before = [] ∨ p.before.getLast? = some '\n'

/-- The cut is at the end of the text, or before a line break. -/
def AtLineEnd (p : Cut) : Prop :=
  p.after = [] ∨ p.after.head? = some '\n'

/-- The characters `cs` lie between the cuts `p` and `q`. -/
def Takes (p : Cut) (cs : List Char) (q : Cut) : Prop :=
  p.after = cs ++ q.after ∧ q.before = p.before ++ cs

variable {p q : Cut} {cs : List Char}

theorem takes_nil (p : Cut) : p.Takes [] p :=
  ⟨rfl, (List.append_nil _).symm⟩

theorem takes_of_after (h : p.after = cs ++ rest) : p.Takes cs ⟨p.before ++ cs, rest⟩ :=
  ⟨h, rfl⟩

theorem Takes.text_eq (h : p.Takes cs q) : q.text = p.text := by
  rw [text, text, h.1, h.2, List.append_assoc]

theorem byteSize_append (cs ds : List Char) :
    Text.byteSize (cs ++ ds) = Text.byteSize cs + Text.byteSize ds := by
  show ((cs ++ ds).map Char.utf8Size).sum =
    (cs.map Char.utf8Size).sum + (ds.map Char.utf8Size).sum
  simp

theorem Takes.offset_eq (h : p.Takes cs q) : q.offset = p.offset + Text.byteSize cs := by
  rw [offset, offset, h.2, byteSize_append]

theorem Takes.offset_le (h : p.Takes cs q) : p.offset ≤ q.offset := by
  rw [h.offset_eq]
  exact Nat.le_add_right _ _

theorem offset_le_byteSize (p : Cut) : p.offset ≤ Text.byteSize p.text := by
  rw [text, byteSize_append]
  exact Nat.le_add_right _ _

theorem offset_of_after_nil (h : p.after = []) : p.offset = Text.byteSize p.text := by
  rw [text, h, List.append_nil]
  rfl

end Cut

/-! ### Skipped text -/

/-- Blanks and line breaks. -/
def skippedChars : List Char :=
  [' ', '\t', '　', '\r', '\n']

/-- One blank, margin or comment lies between two cuts. -/
inductive Skip : Cut → Cut → Prop
  | blank {p q : Cut} {c : Char} : c ∈ skippedChars → p.Takes [c] q → Skip p q
  | margin {p q : Cut} {cs : List Char} : p.AtLineStart →
      (∀ c ∈ cs, Scanner.isMargin c = true) → p.Takes cs q → Skip p q
  | comment {p q : Cut} {cs : List Char} : Scanner.startsComment cs = true → '\n' ∉ cs →
      q.AtLineEnd → p.Takes cs q → Skip p q

/-- Between two cuts there are only blanks, line breaks, margins and
comments. -/
def Skips : Cut → Cut → Prop :=
  Relation.ReflTransGen Skip

theorem Skip.exists_takes (h : Skip p q) : ∃ cs, p.Takes cs q := by
  cases h with
  | blank _ h => exact ⟨_, h⟩
  | margin _ _ h => exact ⟨_, h⟩
  | comment _ _ _ h => exact ⟨_, h⟩

theorem Skips.text_eq (h : Skips p q) : q.text = p.text := by
  induction h with
  | refl => rfl
  | tail _ hstep ih =>
    obtain ⟨cs, hcs⟩ := hstep.exists_takes
    rw [hcs.text_eq, ih]

theorem Skips.offset_le (h : Skips p q) : p.offset ≤ q.offset := by
  induction h with
  | refl => exact Nat.le_refl _
  | tail _ hstep ih =>
    obtain ⟨cs, hcs⟩ := hstep.exists_takes
    exact ih.trans hcs.offset_le

theorem skips_blanks (hcs : ∀ c ∈ cs, c ∈ skippedChars) (h : p.Takes cs q) : Skips p q := by
  induction cs generalizing p with
  | nil =>
    obtain ⟨before, after⟩ := p
    obtain ⟨before', after'⟩ := q
    obtain ⟨rfl, hbefore⟩ := h
    rw [List.append_nil] at hbefore
    cases hbefore
    exact .refl
  | cons c cs ih =>
    have hfirst : p.Takes [c] ⟨p.before ++ [c], cs ++ q.after⟩ := Cut.takes_of_after h.1
    have hrest : Cut.Takes ⟨p.before ++ [c], cs ++ q.after⟩ cs q :=
      ⟨rfl, by rw [h.2, List.append_assoc]; rfl⟩
    exact .head (.blank (hcs c List.mem_cons_self) hfirst)
      (ih (fun d hd => hcs d (List.mem_cons_of_mem c hd)) hrest)

/-! ### Tiles -/

/-- From `p` to `q` the tokens lie one behind the other, and the text between
them is skipped.  What a layout token covers could be skipped as well. -/
inductive Tiles : Cut → List Lexeme → Cut → Prop
  | nil {p q : Cut} : Skips p q → Tiles p [] q
  | cons {p a b q : Cut} {cs : List Char} {x : Lexeme} {xs : List Lexeme} :
      Skips p a → a.Takes cs b → x.span = ⟨a.offset, b.offset⟩ →
      (x.token.isSolid = false → Skips a b) → Tiles b xs q → Tiles p (x :: xs) q

theorem Tiles.text_eq {xs : List Lexeme} (h : Tiles p xs q) : q.text = p.text := by
  induction h with
  | nil h => exact h.text_eq
  | cons hskip htake _ _ _ ih => rw [ih, htake.text_eq, hskip.text_eq]

/-- Tokens that cover nothing. -/
theorem tiles_marks {xs : List Lexeme} (h : Skips p q)
    (hxs : ∀ x ∈ xs, x.span = ⟨q.offset, q.offset⟩) : Tiles p xs q := by
  induction xs generalizing p with
  | nil => exact .nil h
  | cons x xs ih =>
    exact .cons h q.takes_nil (hxs x List.mem_cons_self) (fun _ => .refl)
      (ih .refl fun y hy => hxs y (List.mem_cons_of_mem x hy))

/-! ### Readers lose nothing -/

theorem readString_taken (close : Char) (cs : List Char) :
    (readString close cs).taken ++ (readString close cs).rest = cs := by
  fun_induction readString close cs with
  | case1 => rfl
  | case2 => rfl
  | case3 c cs r ih => exact congrArg (fun ds => '\\' :: c :: ds) ih
  | case4 => rfl
  | case5 => rfl
  | case6 c cs _ _ _ _ r ih => exact congrArg (c :: ·) ih

theorem readCommand_taken (cs : List Char) :
    (readCommand cs).taken ++ (readCommand cs).rest = cs := by
  fun_induction readCommand cs with
  | case1 => rfl
  | case2 => rfl
  | case3 => rfl
  | case4 c cs _ _ r ih => exact congrArg (c :: ·) ih

theorem readNameTail_taken (cs : List Char) :
    (readNameTail cs).taken ++ (readNameTail cs).rest = cs := by
  fun_induction readNameTail cs with
  | case1 => rfl
  | case2 => rfl
  | case3 c cs _ r ih => exact congrArg (c :: ·) ih

theorem readWord_taken (c : Char) (cs : List Char) :
    (readWord c cs).taken ++ (readWord c cs).rest = c :: cs := by
  rw [readWord]
  split
  · exact List.take_append_drop _ _
  · exact congrArg (c :: ·) (readNameTail_taken cs)

theorem readMark_taken {c : Char} {r : Reading Symbol} (h : readMark? c cs = some r) :
    r.taken ++ r.rest = c :: cs := by
  -- a mark of one character
  have single : ∀ r, ((Symbol.singles.lookup c).map fun s => (⟨s, [c], cs⟩ : Reading Symbol))
      = some r → r.taken ++ r.rest = c :: cs := by
    intro r hr
    obtain ⟨s, _, rfl⟩ := Option.map_eq_some_iff.1 hr
    rfl
  rw [readMark?.eq_def] at h
  split at h
  · exact single r h
  · split at h
    · split at h
      · cases h
        rfl
      · exact single r h
    · exact single r h

namespace Scanner

variable {s t : Scanner}

/-- What is read is taken off the text, and the offset moves on by it. -/
theorem readToken_takes {c : Char} {result : Except LexError Lexeme} (hs : s.rest = c :: cs)
    (h : s.readToken c cs = (result, t)) :
    ∃ taken, s.rest = taken ++ t.rest ∧ t.pos = s.pos + Text.byteSize taken ∧
      ∀ lexeme, result = .ok lexeme → lexeme.span = s.spanTo t := by
  have quoted : ∀ close : Char, c :: cs = (c :: (readString close cs).taken) ++ _ :=
    fun close => (congrArg (c :: ·) (readString_taken close cs)).symm
  have command : c :: cs = (c :: (readCommand cs).taken) ++ _ :=
    (congrArg (c :: ·) (readCommand_taken cs)).symm
  have digits : c :: cs = s.rest.takeWhile isDigit ++ s.rest.dropWhile isDigit :=
    hs.symm.trans List.takeWhile_append_dropWhile.symm
  rw [hs]
  cases tokenCase_of_eq h with
  | string _ _ ht =>
    subst ht
    exact ⟨_, quoted _, rfl, by rintro _ ⟨⟩; rfl⟩
  | openString => exact ⟨_, quoted _, rfl, by simp⟩
  | command _ _ ht =>
    subst ht
    exact ⟨_, command, rfl, by rintro _ ⟨⟩; rfl⟩
  | openCommand => exact ⟨_, command, rfl, by simp⟩
  | integer _ _ ht =>
    subst ht
    exact ⟨_, digits, rfl, by rintro _ ⟨⟩; rfl⟩
  | largeInteger _ _ ht =>
    subst ht
    exact ⟨_, digits, rfl, by simp⟩
  | mark _ hmark ht =>
    subst ht
    exact ⟨_, (readMark_taken hmark).symm, rfl, by rintro _ ⟨⟩; rfl⟩
  | word _ _ _ ht =>
    subst ht
    exact ⟨_, (readWord_taken c cs).symm, rfl, by rintro _ ⟨⟩; rfl⟩
  | stray => exact ⟨[], hs.symm, rfl, by simp⟩

/-! ### The invariant of a scanner -/

/-- The scanner stands at the cut `q`. -/
structure StandsAt (s : Scanner) (q : Cut) : Prop where
  rest : s.rest = q.after
  pos : s.pos = q.offset
  lineStart : s.lineStart = true → q.AtLineStart
  ended : s.ended = true → q.after = []

/-- The pending tokens tile the text from `p` to where the scanner stands, and
the end mark is not among them. -/
def TiledFrom (p : Cut) (s : Scanner) : Prop :=
  ∃ q, s.StandsAt q ∧ Tiles p s.pending q ∧ ∀ x ∈ s.pending, x.token ≠ .eof

/-- The cut behind the next characters. -/
theorem StandsAt.takes (h : s.StandsAt q) (hs : s.rest = cs ++ rest) :
    ∃ r : Cut, q.Takes cs r ∧ r.after = rest ∧ r.offset = s.pos + Text.byteSize cs ∧
      r.before = q.before ++ cs := by
  have htakes : q.Takes cs ⟨q.before ++ cs, rest⟩ := Cut.takes_of_after (h.rest.symm.trans hs)
  refine ⟨_, htakes, rfl, ?_, rfl⟩
  rw [htakes.offset_eq, h.pos]

theorem tiledFrom_of_skips (h : s.StandsAt q) (hp : Skips p q) (hpending : s.pending = []) :
    s.TiledFrom p := by
  refine ⟨q, h, ?_, ?_⟩
  · rw [hpending]
    exact .nil hp
  · rw [hpending]
    exact nofun

theorem mem_skippedChars_of_isGap {c : Char} (h : isGap c = true) : c ∈ skippedChars := by
  rw [isGap] at h
  simp only [skippedChars, List.mem_cons]
  grind

/-- Within a line, blanks are skipped. -/
theorem StandsAt.skipGaps (h : s.StandsAt q) (hp : Skips p q) (hl : s.lineStart = false) :
    ∃ r, (s.skipWhile isGap).StandsAt r ∧ Skips p r := by
  obtain ⟨r, htakes, hafter, hoffset, -⟩ :=
    h.takes (List.takeWhile_append_dropWhile (p := isGap)).symm
  refine ⟨r, ⟨hafter.symm, hoffset.symm, ?_, ?_⟩, hp.trans (skips_blanks ?_ htakes)⟩
  · exact fun hstart => absurd (hl.symm.trans hstart) Bool.false_ne_true
  · intro hend
    rw [hafter, h.rest, h.ended hend]
    rfl
  · exact fun c hc => mem_skippedChars_of_isGap (List.mem_takeWhile_imp hc)

/-- A comment begins with its own first characters. -/
theorem startsComment_takeWhile (h : startsComment cs = true) :
    startsComment (cs.takeWhile (· ≠ '\n')) = true := by
  rw [startsComment.eq_def] at h
  split at h
  · rfl
  · rfl
  · rfl
  · cases h

/-- A comment is skipped up to the end of its line. -/
theorem StandsAt.skipComment (h : s.StandsAt q) (hp : Skips p q) (hl : s.lineStart = false)
    (hcomment : startsComment s.rest = true) :
    ∃ r, (s.skipWhile (· ≠ '\n')).StandsAt r ∧ Skips p r := by
  obtain ⟨r, htakes, hafter, hoffset, -⟩ :=
    h.takes (List.takeWhile_append_dropWhile (p := (· ≠ '\n'))).symm
  have hend : r.AtLineEnd := by
    rw [Cut.AtLineEnd, hafter]
    cases hrest : s.rest.dropWhile (· ≠ '\n') with
    | nil => exact .inl rfl
    | cons c cs =>
      have hc := List.head?_dropWhile_not (· ≠ '\n') s.rest
      rw [hrest] at hc
      exact .inr (by simpa using hc)
  have hskip : Skip q r := by
    refine .comment (startsComment_takeWhile hcomment) (fun hmem => ?_) hend htakes
    simpa using List.mem_takeWhile_imp hmem
  refine ⟨r, ⟨hafter.symm, hoffset.symm, ?_, ?_⟩, hp.tail hskip⟩
  · exact fun hstart => absurd (hl.symm.trans hstart) Bool.false_ne_true
  · intro hend
    rw [hafter, h.rest, h.ended hend]
    rfl

/-- A margin is passed; blocks are opened behind the text that was skipped, and
closed behind the margin. -/
theorem MarginCase.tiles (hcase : MarginCase s (.again t)) (h : s.StandsAt q) (hp : Skips p q)
    (hs : s.AtMargin) : t.TiledFrom p := by
  obtain ⟨r, htakes, hafter, hoffset, -⟩ :=
    h.takes (List.takeWhile_append_dropWhile (p := isMargin)).symm
  have hskip : Skip q r :=
    .margin (h.lineStart hs.lineStart) (fun c hc => List.mem_takeWhile_imp hc) htakes
  -- whatever becomes of the blocks, the scanner stands behind the margin
  have hstands : ∀ indents pending,
      { s.pastMargin with indents := indents, pending := pending }.StandsAt r :=
    fun _ _ => ⟨hafter.symm, hoffset.symm, by rintro ⟨⟩,
      fun hend => absurd (hs.ended.symm.trans hend) Bool.false_ne_true⟩
  cases hcase with
  | bare => exact tiledFrom_of_skips (hstands _ _) (hp.tail hskip) hs.pending
  | opens =>
    refine ⟨r, hstands _ _, .cons hp htakes ?_ (fun _ => .single hskip) (.nil .refl), ?_⟩
    · rw [h.pos, pastMargin, hoffset]
    · intro x hx
      rw [List.mem_singleton.1 hx]
      simp
  | closes =>
    refine ⟨r, hstands _ _, tiles_marks (hp.tail hskip) ?_, ?_⟩
    · intro x hx
      rw [List.eq_of_mem_replicate hx, hoffset]
      rfl
    · intro x hx
      rw [List.eq_of_mem_replicate hx]
      simp

/-- What is left at the end of the text is layout, where the scanner stands. -/
theorem layout_of_finish (h : x ∈ s.finish.pending) :
    x.token.isSolid = false ∧ x.token ≠ .eof ∧ x.span = ⟨s.pos, s.pos⟩ := by
  rw [finish] at h
  rcases List.mem_append.1 h with h | h
  · split at h
    · rw [List.mem_singleton.1 h]
      exact ⟨rfl, by simp, rfl⟩
    · cases h
  · rw [List.eq_of_mem_replicate h]
    exact ⟨rfl, by simp, rfl⟩

/-- The end of the text: the layout tokens that are left cover nothing. -/
theorem finish_tiles (h : s.StandsAt q) (hp : Skips p q) (hl : s.lineStart = false)
    (hrest : s.rest = []) : s.finish.TiledFrom p := by
  refine ⟨q, ⟨h.rest, h.pos, ?_, fun _ => h.rest.symm.trans hrest⟩,
    tiles_marks hp fun x hx => ?_, fun x hx => (layout_of_finish hx).2.1⟩
  · exact fun hstart => absurd (hl.symm.trans hstart) Bool.false_ne_true
  · rw [(layout_of_finish hx).2.2, h.pos]

/-- What a step that yields a token has tiled: skipped text, and the token. -/
def YieldsTile (p : Cut) (x : Lexeme) (t : Scanner) : Prop :=
  ∃ a cs b, Skips p a ∧ Cut.Takes a cs b ∧ x.span = ⟨a.offset, b.offset⟩ ∧ x.token ≠ .eof ∧
    (x.token.isSolid = false → Skips a b) ∧ t.TiledFrom b

/-- What a step that yields the end mark has seen: all the text that is left is
skipped. -/
def YieldsEnd (p : Cut) (x : Lexeme) : Prop :=
  ∃ q, Skips p q ∧ q.after = [] ∧ x = ⟨.eof, ⟨q.offset, q.offset⟩⟩

/-- The cut behind a line break is at the start of a line. -/
theorem StandsAt.lineBreak (h : s.StandsAt q) (hs : s.rest = '\n' :: cs) :
    ∃ r : Cut, q.Takes ['\n'] r ∧ Skip q r ∧ r.after = cs ∧
      r.offset = s.pos + Text.byteSize ['\n'] ∧ r.AtLineStart := by
  obtain ⟨r, htakes, hafter, hoffset, hbefore⟩ := h.takes (show s.rest = ['\n'] ++ cs from hs)
  exact ⟨r, htakes, .blank (by decide) htakes, hafter, hoffset, .inr (by rw [hbefore]; simp)⟩

/-- Reading on within a line without yielding anything. -/
theorem LineCase.tiles (hcase : LineCase s (.again t)) (h : s.StandsAt q) (hp : Skips p q)
    (hs : s.Within) : t.TiledFrom p := by
  -- behind a line break, be it the end of a line or not
  have hbreak : ∀ cs lineStart, s.rest = '\n' :: cs →
      { s.after ⟨(), ['\n'], cs⟩ with lineStart := lineStart }.TiledFrom p := by
    intro cs lineStart hrest
    obtain ⟨r, -, hskip, hafter, hoffset, hline⟩ := h.lineBreak hrest
    refine tiledFrom_of_skips ⟨hafter.symm, hoffset.symm, fun _ => hline, ?_⟩ (hp.tail hskip)
      hs.pending
    exact fun hend => absurd (hs.ended.symm.trans hend) Bool.false_ne_true
  cases hcase with
  | finishes hrest => exact finish_tiles h hp hs.lineStart hrest
  | comment hcomment =>
    obtain ⟨r, hr, hskip⟩ := h.skipComment hp hs.lineStart hcomment
    exact tiledFrom_of_skips hr hskip hs.pending
  | inner hrest => exact hbreak _ s.lineStart hrest
  | empty hrest => exact hbreak _ true hrest

/-- Reading on within a line up to a token. -/
theorem LineCase.yieldsTile (hcase : LineCase s (.emit (.ok x) t)) (h : s.StandsAt q)
    (hp : Skips p q) (hs : s.Within) : YieldsTile p x t := by
  cases hcase with
  | @ends cs _ hrest _ _ ht =>
    subst ht
    obtain ⟨r, htakes, hskip, hafter, hoffset, hline⟩ := h.lineBreak hrest
    refine ⟨q, ['\n'], r, hp, htakes, ?_, by simp, fun _ => .single hskip,
      tiledFrom_of_skips ⟨hafter.symm, hoffset.symm, fun _ => hline, ?_⟩ .refl hs.pending⟩
    · rw [hoffset, ← h.pos]
      rfl
    · exact fun hend => absurd (hs.ended.symm.trans hend) Bool.false_ne_true
  | @token c cs _ u hrest _ _ htoken =>
    obtain ⟨taken, hcut, hpos, hspan⟩ := readToken_takes hrest htoken
    obtain ⟨hsolid, -, hu⟩ := readToken_eq_ok htoken
    obtain ⟨r, htakes, hafter, hoffset, -⟩ := h.takes hcut
    refine ⟨q, taken, r, hp, htakes, ?_, Token.ne_of_isSolid hsolid rfl, ?_,
      tiledFrom_of_skips ⟨hafter.symm, ?_, ?_, ?_⟩ .refl ?_⟩
    · rw [hspan x rfl, spanTo, h.pos, hpos, hoffset, h.pos]
    · exact fun hlayout => absurd (hsolid.symm.trans hlayout) Bool.false_ne_true.symm
    · exact hpos.trans hoffset.symm
    · rw [hu]
      exact fun hstart => absurd (hs.lineStart.symm.trans hstart) Bool.false_ne_true
    · rw [hu]
      exact fun hend => absurd (hs.ended.symm.trans hend) Bool.false_ne_true
    · rw [hu]
      exact hs.pending

/-! ### Steps and streams -/

/-- Where nothing is pending all text up to the scanner is skipped. -/
theorem TiledFrom.of_pending (h : s.TiledFrom p) (hp : s.pending = []) :
    ∃ q, s.StandsAt q ∧ Skips p q := by
  obtain ⟨q, hstands, htiles, -⟩ := h
  rw [hp] at htiles
  cases htiles with
  | nil hskip => exact ⟨q, hstands, hskip⟩

/-- A step that yields nothing keeps the invariant. -/
theorem step_tiles (h : s.TiledFrom p) (hstep : s.step = .again t) : t.TiledFrom p := by
  cases stepCase_of_eq hstep with
  | margin hs hcase =>
    obtain ⟨q, hstands, hp⟩ := h.of_pending hs.pending
    exact hcase.tiles hstands hp hs
  | line hs hcase =>
    obtain ⟨q, hstands, hp⟩ := h.of_pending hs.pending
    obtain ⟨r, hr, hskip⟩ := hstands.skipGaps hp hs.lineStart
    exact hcase.tiles hr hskip (hs.skipWhile isGap)

/-- A step that yields a token takes one tile off; the end mark is yielded when
only skipped text is left. -/
theorem step_yields (h : s.TiledFrom p) (hstep : s.step = .emit (.ok x) t) :
    YieldsTile p x t ∨ YieldsEnd p x := by
  cases stepCase_of_eq hstep with
  | waiting hpending =>
    obtain ⟨q, hstands, htiles, hpendings⟩ := h
    rw [hpending] at htiles hpendings
    cases htiles with
    | cons hskip htake hspan hlayout hrest =>
      exact .inl ⟨_, _, _, hskip, htake, hspan, hpendings x List.mem_cons_self, hlayout, q,
        ⟨hstands.rest, hstands.pos, hstands.lineStart, hstands.ended⟩, hrest,
        fun y hy => hpendings y (List.mem_cons_of_mem x hy)⟩
  | ended hpending he =>
    obtain ⟨q, hstands, hp⟩ := h.of_pending hpending
    exact .inr ⟨q, hp, hstands.ended he, by rw [hstands.pos]⟩
  | margin _ hcase =>
    -- at the start of a line only a fault is yielded
    cases hcase
  | line hs hcase =>
    obtain ⟨q, hstands, hp⟩ := h.of_pending hs.pending
    obtain ⟨r, hr, hskip⟩ := hstands.skipGaps hp hs.lineStart
    exact .inl (hcase.yieldsTile hr hskip (hs.skipWhile isGap))

theorem next_yields (h : s.TiledFrom p) (hnext : s.next = (.ok x, t)) :
    YieldsTile p x t ∨ YieldsEnd p x := by
  fun_induction next s with
  | case1 s result u hstep =>
    cases hnext
    exact step_yields h hstep
  | case2 s u hstep ih => exact ih (step_tiles h hstep) hnext

/-- The tokens that a scanner yields tile the text up to its end, where the
only end mark is. -/
theorem tokens_tile {ts : List Lexeme} (h : s.TiledFrom p) (hts : s.tokens = .ok ts) :
    ∃ q xs, Tiles p ts q ∧ q.after = [] ∧ ts = xs ++ [⟨.eof, ⟨q.offset, q.offset⟩⟩] ∧
      ∀ x ∈ xs, x.token ≠ .eof := by
  fun_induction tokens s generalizing p ts with
  | case1 => cases hts
  | case2 s x t hnext heof =>
    cases hts
    rcases next_yields h hnext with ⟨_, _, _, _, _, _, hne, _⟩ | ⟨q, hskip, hafter, rfl⟩
    · exact absurd heof hne
    · refine ⟨q, [], tiles_marks hskip ?_, hafter, rfl, nofun⟩
      intro x hx
      rw [List.mem_singleton.1 hx]
  | case3 => cases hts
  | case4 s x t hnext hne later hlater ih =>
    cases hts
    rcases next_yields h hnext with ⟨a, cs, b, hskip, htake, hspan, heof, hlayout, ht⟩ |
      ⟨q, _, _, rfl⟩
    · obtain ⟨q, xs, htiles, hafter, rfl, hxs⟩ := ih ht hlater
      exact ⟨q, x :: xs, .cons hskip htake hspan hlayout htiles, hafter, rfl,
        List.forall_mem_cons.2 ⟨heof, hxs⟩⟩
    · exact absurd rfl hne

theorem tiledFrom_ofText (text : String) : (ofText text).TiledFrom ⟨[], text.toList⟩ :=
  tiledFrom_of_skips ⟨rfl, rfl, fun _ => .inl rfl, nofun⟩ .refl rfl

end Scanner

/-! ### Main result -/

/-- The offset lies between two characters of the text. -/
def IsBoundary (text : List Char) (n : Nat) : Prop :=
  ∃ p : Cut, p.text = text ∧ p.offset = n

/-- Between two offsets of the text there are only blanks, line breaks, margins
at the start of a line, and comments up to the end of their line. -/
def SkippedBetween (text : List Char) (start stop : Nat) : Prop :=
  ∃ p q : Cut, p.text = text ∧ q.text = text ∧ p.offset = start ∧ q.offset = stop ∧ Skips p q

/-- Where the last of some tokens ends, or the start of the text. -/
def lastStop (xs : List Lexeme) : Nat :=
  (xs.getLast?.map fun x => x.span.stop).getD 0

theorem SkippedBetween.le {text : List Char} {start stop : Nat}
    (h : SkippedBetween text start stop) : start ≤ stop := by
  obtain ⟨p, q, -, -, rfl, rfl, hskip⟩ := h
  exact hskip.offset_le

namespace Tiles

variable {p q : Cut} {xs us vs : List Lexeme} {x : Lexeme}

/-- A token of some tiles lies between two cuts of the text. -/
theorem exists_takes (h : Tiles p xs q) (hx : x ∈ xs) :
    ∃ a cs b, a.text = p.text ∧ Cut.Takes a cs b ∧ x.span = ⟨a.offset, b.offset⟩ ∧
      (x.token.isSolid = false → Skips a b) := by
  induction h with
  | nil => cases hx
  | cons hskip htake hspan hlayout _ ih =>
    rcases List.mem_cons.1 hx with rfl | hx
    · exact ⟨_, _, _, hskip.text_eq, htake, hspan, hlayout⟩
    · obtain ⟨a, cs, b, htext, hrest⟩ := ih hx
      exact ⟨a, cs, b, by rw [htext, htake.text_eq, hskip.text_eq], hrest⟩

/-- The text between a token and the one before it is skipped. -/
theorem skippedBetween (h : Tiles p (us ++ x :: vs) q) :
    SkippedBetween p.text ((us.getLast?.map fun y => y.span.stop).getD p.offset) x.span.start := by
  induction us generalizing p with
  | nil =>
    cases h with
    | cons hskip htake hspan _ _ =>
      rw [hspan]
      exact ⟨p, _, rfl, hskip.text_eq, rfl, rfl, hskip⟩
  | cons u us ih =>
    cases h with
    | cons hskip htake hspan _ hrest =>
      have hskipped := ih hrest
      rw [htake.text_eq, hskip.text_eq] at hskipped
      rw [List.getLast?_cons]
      cases hlast : us.getLast? with
      | none =>
        rw [hlast] at hskipped
        show SkippedBetween p.text u.span.stop x.span.start
        rw [hspan]
        exact hskipped
      | some y =>
        rw [hlast] at hskipped
        exact hskipped

end Tiles

/-- **Tokens tile the text.**  Let `ts` be the tokens of a text.

* The ends of every token are boundaries of the text, in order.
* Every token ends where the next one starts, or before.
* The list ends with the only end mark, at the end of the text.
* All text between two neighbours, and before the first token, is skipped:
  it consists of blanks, line breaks, comments that run to the end of their
  line, and margins at the start of a line.
* What a layout token covers is such text as well. -/
theorem tokens_tile_text (text : String) (ts : List Lexeme) (h : tokenize text = .ok ts) :
    (∀ x ∈ ts, x.span.start ≤ x.span.stop ∧ x.span.stop ≤ Text.byteSize text.toList ∧
      IsBoundary text.toList x.span.start ∧ IsBoundary text.toList x.span.stop) ∧
    (∀ us x y vs, ts = us ++ x :: y :: vs → x.span.stop ≤ y.span.start) ∧
    (∃ xs, ts = xs ++ [⟨.eof, ⟨Text.byteSize text.toList, Text.byteSize text.toList⟩⟩] ∧
      ∀ x ∈ xs, x.token ≠ .eof) ∧
    (∀ us x vs, ts = us ++ x :: vs → SkippedBetween text.toList (lastStop us) x.span.start) ∧
    ∀ x ∈ ts, x.token.isSolid = false →
      SkippedBetween text.toList x.span.start x.span.stop := by
  obtain ⟨q, xs, htiles, hafter, hts, hxs⟩ :=
    Scanner.tokens_tile (Scanner.tiledFrom_ofText text) h
  have hgap : ∀ us x vs, ts = us ++ x :: vs →
      SkippedBetween text.toList (lastStop us) x.span.start := by
    rintro us x vs rfl
    exact htiles.skippedBetween
  refine ⟨?_, ?_, ⟨xs, ?_, hxs⟩, hgap, ?_⟩
  · intro x hx
    obtain ⟨a, cs, b, htext, htake, hspan, -⟩ := htiles.exists_takes hx
    rw [hspan]
    refine ⟨htake.offset_le, ?_, ⟨a, htext, rfl⟩, ⟨b, htake.text_eq.trans htext, rfl⟩⟩
    rw [← show b.text = text.toList from htake.text_eq.trans htext]
    exact b.offset_le_byteSize
  · rintro us x y vs rfl
    -- what is skipped behind `x` lies between its end and the start of `y`
    have hskipped := hgap (us ++ [x]) y vs (by simp)
    rw [lastStop, List.getLast?_concat] at hskipped
    exact hskipped.le
  · rw [hts, Cut.offset_of_after_nil hafter, htiles.text_eq]
    rfl
  · intro x hx hlayout
    obtain ⟨a, cs, b, htext, htake, hspan, hskips⟩ := htiles.exists_takes hx
    rw [hspan]
    exact ⟨a, b, htext, htake.text_eq.trans htext, rfl, rfl, hskips hlayout⟩

/-- A comment before a carriage return, and a line with a ruler along it. -/
theorem tokens_tile_text_ruler :
    ∃ ts, tokenize "もし x ならば: # 見出し\r\n｜　y\n" = .ok ts ∧
      ts.map (fun x => (x.span.start, x.span.stop)) = [(0, 6), (7, 8), (9, 18), (18, 19), (32, 33),
        (33, 39), (39, 40), (40, 41), (41, 41), (41, 41)] ∧
      SkippedBetween "もし x ならば: # 見出し\r\n｜　y\n".toList 19 32 ∧
      SkippedBetween "もし x ならば: # 見出し\r\n｜　y\n".toList 33 39 := by
  have h : tokenize "もし x ならば: # 見出し\r\n｜　y\n" =
      .ok [⟨.keyword .ifWord, ⟨0, 6⟩⟩, ⟨.ident "x", ⟨7, 8⟩⟩, ⟨.keyword .thenWord, ⟨9, 18⟩⟩,
        ⟨.symbol .colon, ⟨18, 19⟩⟩, ⟨.newline, ⟨32, 33⟩⟩, ⟨.indent, ⟨33, 39⟩⟩,
        ⟨.ident "y", ⟨39, 40⟩⟩, ⟨.newline, ⟨40, 41⟩⟩, ⟨.dedent, ⟨41, 41⟩⟩, ⟨.eof, ⟨41, 41⟩⟩] := by
    decide +kernel
  obtain ⟨-, -, -, hgap, hlayout⟩ := tokens_tile_text _ _ h
  refine ⟨_, h, rfl, ?_, ?_⟩
  · exact hgap [_, _, _, _] ⟨.newline, ⟨32, 33⟩⟩ _ rfl
  · exact hlayout ⟨.indent, ⟨33, 39⟩⟩ (by simp) rfl

end Dncl
