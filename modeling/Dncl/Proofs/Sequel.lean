/-
Dncl/Proofs/Sequel.lean

One text behind another.

The tokens of a text `cs` behind which, in a new line, a text `ds` follows are
those of `cs` without the end mark, and then those of `ds`, which have moved by
the length of what stands before them.  Only layout tokens are found at another
place.

Design.  A scanner in `cs` alone and one in both texts take the same steps
until the first comes to its end (`step_before`).  There the second passes a
line break, and keeps the blocks of `cs` open as long as lines are bare
(`Waiting`); the first line of `ds` with a token closes them.  From then on its
steps are those of a scanner in `ds` alone, further on in the text
(`tokens_moved`).
-/
import Dncl.Proofs.Followed
import Dncl.Proofs.Moved
import Dncl.Proofs.Offside

namespace Dncl

/-! ### Tokens by steps -/

namespace Scanner

variable {s t : Scanner} {rs : List Found} {xs ys : List Lexeme}

theorem tokens_eq (s : Scanner) : s.tokens = match s.next with
    | (.error fault, _) => .error fault
    | (.ok x, t) => if x.token = .eof then .ok [x] else
      match t.tokens with
      | .error fault => .error fault
      | .ok later => .ok (x :: later) := by
  rw [tokens]
  split
  · rename_i heq
    rw [heq]
  · rename_i heq
    rw [heq]
    rfl

theorem tokens_congr (h : s.next = t.next) : s.tokens = t.tokens := by
  rw [tokens_eq, tokens_eq t, h]

theorem tokens_of_again (h : s.step = .again t) : s.tokens = t.tokens :=
  tokens_congr (next_of_again h)

/-- Steps put the tokens that they yield in front. -/
theorem Emits.tokens (h : Emits s rs t) (hrs : rs = xs.map .ok)
    (hxs : ∀ x ∈ xs, x.token ≠ .eof) (ht : t.tokens = .ok ys) : s.tokens = .ok (xs ++ ys) := by
  induction h generalizing xs with
  | refl s =>
    obtain rfl := List.map_eq_nil_iff.1 hrs.symm
    exact ht
  | again hstep _ ih =>
    rw [tokens_of_again hstep]
    exact ih hrs hxs ht
  | emit hstep _ ih =>
    cases xs with
    | nil => cases hrs
    | cons x xs =>
      obtain ⟨rfl, hrest⟩ := List.cons.inj hrs
      obtain ⟨hx, hxs⟩ := List.forall_mem_cons.1 hxs
      exact tokens_of_next (next_of_emit hstep) hx (ih hrest hxs ht)

/-- A scanner whose tokens are known yields them, up to the end mark. -/
theorem exists_emits (h : s.tokens = .ok xs) :
    (∃ x ∈ xs, x.token = .eof) ∧ ∃ t, Emits s (xs.map .ok) t := by
  fun_induction tokens s generalizing xs with
  | case1 => cases h
  | case2 s x t hnext heof =>
    cases h
    have hrun := emits_next s
    rw [hnext] at hrun
    exact ⟨⟨x, List.mem_cons_self, heof⟩, t, hrun⟩
  | case3 => cases h
  | case4 s x t hnext _ later hlater ih =>
    cases h
    have hrun := emits_next s
    rw [hnext] at hrun
    obtain ⟨⟨y, hy, heof⟩, u, hrest⟩ := ih hlater
    exact ⟨⟨y, List.mem_cons_of_mem _ hy, heof⟩, u, hrun.trans hrest⟩

end Scanner

/-! ### Up to the end of the first text -/

/-- A token of the layout opens and closes no bracket. -/
theorem Token.depthAfter_of_layout {t : Token} (h : t.isSolid = false) (d : Nat) :
    t.depthAfter d = d := by
  cases t with
  | symbol s => cases h
  | _ => rfl

/-- What a step leads to, changed by `f`. -/
def Progress.map (f : Scanner → Scanner) : Progress → Progress
  | .again t => .again (f t)
  | .emit r t => .emit r (f t)

namespace Scanner

variable {s t : Scanner} {tail : List Char}

/-- The scanner in a text that goes on with a line break and `tail`. -/
def before (tail : List Char) (s : Scanner) : Scanner :=
  { s with rest := s.rest ++ '\n' :: tail }

/-- The offset of the end of the text. -/
def extent (s : Scanner) : Nat :=
  s.pos + Text.byteSize s.rest

/-- The end of the text has not been seen, and only layout is pending. -/
structure Ahead (s : Scanner) : Prop where
  ended : s.ended = false
  pending : ∀ x ∈ s.pending, x.token.isSolid = false ∧ x.token ≠ .eof

/-- Only blanks are left in the last line. -/
structure AtEnd (s : Scanner) : Prop where
  within : s.Within
  rest : (s.skipWhile isGap).rest = []

theorem skipWhile_before {p : Char → Bool} (hp : p '\n' = false) (s : Scanner) :
    (s.before tail).skipWhile p = (s.skipWhile p).before tail := by
  simp only [skipWhile, before, after, takeWhile_line hp, dropWhile_line hp]

theorem extent_after {α : Type} {r : Reading α} (h : s.rest = r.taken ++ r.rest) :
    (s.after r).extent = s.extent := by
  rw [extent, extent, h, Cut.byteSize_append, ← Nat.add_assoc]
  rfl

theorem extent_skipWhile (s : Scanner) (p : Char → Bool) : (s.skipWhile p).extent = s.extent :=
  extent_after List.takeWhile_append_dropWhile.symm

theorem pastMargin_before (s : Scanner) :
    (s.before tail).pastMargin = s.pastMargin.before tail := by
  simp only [pastMargin, before, takeWhile_line (show isMargin '\n' = false from rfl),
    dropWhile_line (show isMargin '\n' = false from rfl)]

theorem beginLine_before (s : Scanner) :
    (s.before tail).beginLine = s.beginLine.map (before tail) := by
  have hwidth : (s.before tail).lineWidth = s.lineWidth := by
    rw [lineWidth, lineWidth, before, takeWhile_line (show isMargin '\n' = false from rfl)]
  have hbare : isBare (s.pastMargin.before tail).rest = isBare s.pastMargin.rest :=
    isBare_line _ _
  rw [beginLine, beginLine, pastMargin_before, hwidth, hbare]
  show (if _ then _ else if s.indents.headD 0 < s.lineWidth then _ else
    if (marginsUpTo s.lineWidth s.indents).headD 0 = s.lineWidth then _ else _) = _
  split
  · rfl
  · split
    · rfl
    · split <;> rfl

/-- A token is read in the same way. -/
theorem readToken_before {c : Char} {cs : List Char} {x : Lexeme} (hs : s.rest = c :: cs)
    (h : s.readToken c cs = (.ok x, t)) :
    (s.before tail).readToken c (cs ++ '\n' :: tail) = (.ok x, t.before tail) := by
  have hlocal : Mirrors ('\n' :: tail) s (s.before tail) (s.readToken c cs)
      ((s.before tail).readToken c (cs ++ '\n' :: tail)) :=
    readToken_local rfl rfl (delimited_cons (by decide)) (by rw [h]; rfl)
  -- the shape is that of `x`; the place is known from what was taken
  obtain ⟨taken, -, hpos, hspan⟩ := readToken_takes hs h
  have hs' : (s.before tail).rest = c :: (cs ++ '\n' :: tail) := by
    rw [before, hs, List.cons_append]
  obtain ⟨-, -, rest, pos, depth, hmoves⟩ := s.readToken_found c cs
  rw [h] at hlocal hmoves
  obtain rfl : t = _ := hmoves
  obtain ⟨hshape, hscanner⟩ := hlocal
  have hmove : s.pos + (pos - s.pos) = pos :=
    Nat.add_sub_of_le ((Nat.le_add_right _ _).trans_eq hpos.symm)
  cases hfound : (s.before tail).readToken c (cs ++ '\n' :: tail) with
  | mk result t' =>
    rw [hfound] at hshape hscanner
    obtain rfl : t' = before tail { s with rest := rest, pos := pos, depth := depth } :=
      hscanner.trans (by simp only [before, hmove])
    cases result with
    | error fault => cases hshape
    | ok x' =>
      obtain ⟨-, -, -, hspan'⟩ := readToken_takes hs' hfound
      have hplace : x'.span = x.span := (hspan' x' rfl).trans (hspan x rfl).symm
      have htoken : x'.token = x.token := Except.ok.inj hshape
      obtain ⟨token, span⟩ := x
      obtain ⟨token', span'⟩ := x'
      cases htoken
      cases hplace
      rfl

/-- A step of a scanner in the first text alone, and one in both texts: there is
nothing left of the first text, or both do the same, or there is a fault. -/
inductive BeforeStep (tail : List Char) (s : Scanner) : Prop
  | finished : s.AtEnd → BeforeStep tail s
  | again {t : Scanner} : s.step = .again t → (s.before tail).step = .again (t.before tail) →
      t.Ahead → t.depth = s.depth → t.lineUsed = s.lineUsed → t.extent = s.extent →
      BeforeStep tail s
  | emit {x : Lexeme} {t : Scanner} : s.step = .emit (.ok x) t →
      (s.before tail).step = .emit (.ok x) (t.before tail) → x.token ≠ .eof → t.Ahead →
      t.depth = x.token.depthAfter s.depth → (x.token.isSolid = true → t.lineUsed = true) →
      t.extent = s.extent → BeforeStep tail s
  | fault {fault : LexError} {t : Scanner} : s.step = .emit (.error fault) t → BeforeStep tail s

theorem extent_pastMargin (s : Scanner) : s.pastMargin.extent = s.extent :=
  s.extent_skipWhile isMargin

theorem AtMargin.beforeStep (h : s.AtMargin) : BeforeStep tail s := by
  have hstep := step_of_lineStart h.pending h.ended h.lineStart
  have hstep' := step_of_lineStart (s := s.before tail) h.pending h.ended h.lineStart
  rw [beginLine_before] at hstep'
  have hextent := s.extent_pastMargin
  have hcase := s.beginLine_case
  generalize s.beginLine = p at hstep hstep' hcase
  cases hcase with
  | bare =>
    refine .again hstep hstep' ⟨h.ended, ?_⟩ rfl rfl hextent
    simp [pastMargin, h.pending]
  | opens =>
    refine .again hstep hstep' ⟨h.ended, ?_⟩ rfl rfl hextent
    exact List.forall_mem_singleton.2 ⟨rfl, by simp⟩
  | closes =>
    refine .again hstep hstep' ⟨h.ended, fun x hx => ?_⟩ rfl rfl hextent
    rw [List.eq_of_mem_replicate hx]
    exact ⟨rfl, by simp⟩
  | uneven => exact .fault hstep

/-- Inside a line of the first text, a scanner of both texts does the same. -/
theorem Within.beforeStep (h : s.Within) : BeforeStep tail s := by
  have hwithin' : (s.before tail).Within := ⟨h.pending, h.ended, h.lineStart⟩
  have hstep := h.step_eq
  have hstep' := hwithin'.step_eq
  rw [skipWhile_before rfl] at hstep'
  have hextent := s.extent_skipWhile isGap
  have hpending : ∀ x ∈ s.pending, x.token.isSolid = false ∧ x.token ≠ .eof := by
    rw [h.pending]
    simp
  have hrest' : ∀ {c cs}, (s.skipWhile isGap).rest = c :: cs →
      ((s.skipWhile isGap).before tail).rest = c :: (cs ++ '\n' :: tail) := by
    intro c cs hrest
    rw [before, hrest, List.cons_append]
  have hsame : ∀ c cs, startsComment (c :: (cs ++ '\n' :: tail)) = startsComment (c :: cs) :=
    fun c cs => startsComment_before (delimited_cons (by decide))
  have hout : (s.skipWhile isGap).depth = 0 → ¬ 0 < ((s.skipWhile isGap).before tail).depth :=
    fun hdepth => Nat.not_lt.2 (Nat.le_of_eq hdepth)
  -- the cases are those of the first text; its end is the one that differs
  have hcase := (s.skipWhile isGap).readOn_case
  generalize (s.skipWhile isGap).readOn = p at hstep hcase
  cases hcase with
  | finishes hrest => exact .finished ⟨h, hrest⟩
  | comment hcomment =>
    cases hrest : (s.skipWhile isGap).rest with
    | nil => exact .finished ⟨h, hrest⟩
    | cons c cs =>
      rw [readOn_comment (hrest' hrest) ((hsame c cs).trans (hrest ▸ hcomment)),
        skipWhile_before rfl] at hstep'
      -- the comment ends before the line break that was added
      exact .again hstep hstep' ⟨h.ended, hpending⟩ rfl rfl ((extent_skipWhile _ _).trans hextent)
  | inner hrest hdepth =>
    rw [readOn_break (hrest' hrest), if_pos (by exact hdepth)] at hstep'
    exact .again hstep hstep' ⟨h.ended, hpending⟩ rfl rfl ((extent_after hrest).trans hextent)
  | ends hrest hdepth hused ht =>
    subst ht
    rw [readOn_break (hrest' hrest), if_neg (hout hdepth), if_pos (by exact hused)] at hstep'
    exact .emit hstep hstep' (by simp) ⟨h.ended, hpending⟩ rfl (by rintro ⟨⟩)
      ((extent_after hrest).trans hextent)
  | empty hrest hdepth hused =>
    rw [readOn_break (hrest' hrest), if_neg (hout hdepth),
      if_neg (by exact Bool.eq_false_iff.1 hused)] at hstep'
    exact .again hstep hstep' ⟨h.ended, hpending⟩ rfl rfl ((extent_after hrest).trans hextent)
  | @token c cs x t hrest hcomment hbreak htoken =>
    rw [readOn_eq_readToken (hrest' hrest) ((hsame c cs).trans hcomment) hbreak,
      readToken_before hrest htoken] at hstep'
    obtain ⟨taken, htaken, hpos, -⟩ := readToken_takes hrest htoken
    obtain ⟨hsolid, -, hmoves⟩ := readToken_eq_ok htoken
    have hcut : t.extent = s.extent := by
      rw [← hextent, extent, extent, htaken, hpos, Cut.byteSize_append, Nat.add_assoc]
    refine .emit hstep hstep' (Token.ne_of_isSolid hsolid rfl) ⟨?_, ?_⟩ ?_ (fun _ => rfl) hcut
    · rw [hmoves]
      exact h.ended
    · rw [hmoves]
      exact hpending
    · rw [hmoves]
      rfl
  | fault => exact .fault hstep

theorem step_before (tail : List Char) (h : s.Ahead) : BeforeStep tail s := by
  have hcase := s.step_case
  generalize s.step = p at hcase
  cases hcase with
  | waiting hp =>
    obtain ⟨hx, hlater⟩ := List.forall_mem_cons.1 (hp ▸ h.pending)
    refine .emit (step_of_pending hp) (step_of_pending hp) hx.2 ⟨h.ended, hlater⟩ ?_ ?_ rfl
    · exact (Token.depthAfter_of_layout hx.1 _).symm
    · exact fun hsolid => absurd (hx.1.symm.trans hsolid) Bool.false_ne_true
  | ended _ he => exact absurd (h.ended.symm.trans he) Bool.false_ne_true
  | margin hs => exact hs.beforeStep
  | line hs => exact hs.beforeStep

/-- The scanner `s` in the first text alone yields the tokens `xs` until it comes to
the end, and so does the one in both texts. -/
structure UpToEnd (tail : List Char) (s : Scanner) (xs : List Lexeme) (f : Scanner) : Prop where
  atEnd : f.AtEnd
  alone : Emits s (xs.map .ok) f
  both : Emits (s.before tail) (xs.map .ok) (f.before tail)
  eof : ∀ x ∈ xs, x.token ≠ .eof
  depth : f.depth = depthOver s.depth (xs.map Lexeme.token)
  extent : f.extent = s.extent
  /-- A line that has no token is the first one, or comes behind layout. -/
  unused : f.lineUsed = false → Sealed (xs.map Lexeme.token) ∧ (xs = [] → s.lineUsed = false)

namespace UpToEnd

variable {f : Scanner} {x : Lexeme} {xs : List Lexeme}

theorem refl (h : s.AtEnd) : UpToEnd tail s [] s where
  atEnd := h
  alone := .refl s
  both := .refl _
  eof := nofun
  depth := rfl
  extent := rfl
  unused := fun hused => ⟨nofun, fun _ => hused⟩

theorem emit (hstep : s.step = .emit (.ok x) t)
    (hstep' : (s.before tail).step = .emit (.ok x) (t.before tail)) (hx : x.token ≠ .eof)
    (hdepth : t.depth = x.token.depthAfter s.depth)
    (hused : x.token.isSolid = true → t.lineUsed = true) (hextent : t.extent = s.extent)
    (h : UpToEnd tail t xs f) : UpToEnd tail s (x :: xs) f where
  atEnd := h.atEnd
  alone := .emit hstep h.alone
  both := .emit hstep' h.both
  eof := List.forall_mem_cons.2 ⟨hx, h.eof⟩
  depth := by
    rw [List.map_cons, depthOver_cons, ← hdepth]
    exact h.depth
  extent := h.extent.trans hextent
  unused := by
    intro hunused
    obtain ⟨hsealed, hnone⟩ := h.unused hunused
    refine ⟨fun t' ht' => ?_, nofun⟩
    cases xs with
    | nil =>
      obtain rfl : x.token = t' := Option.some.inj ht'
      exact Bool.eq_false_iff.2 fun hsolid =>
        absurd ((hnone rfl).symm.trans (hused hsolid)) Bool.false_ne_true
    | cons y ys => exact hsealed t' ht'

end UpToEnd

/-- Up to the end of the first text both scanners yield the same tokens. -/
theorem Emits.upToEnd {rs : List Found} {u : Scanner} (tail : List Char) (h : Emits s rs u)
    (hs : s.Ahead) {ts : List Lexeme} (hrs : rs = ts.map .ok) (hend : ∃ x ∈ ts, x.token = .eof) :
    ∃ xs f, UpToEnd tail s xs f := by
  -- along the steps of the scanner in the first text alone, which come to the end mark
  induction h generalizing ts with
  | refl s =>
    obtain rfl := List.map_eq_nil_iff.1 hrs.symm
    obtain ⟨x, hx, -⟩ := hend
    cases hx
  | again hstep _ ih =>
    cases step_before tail hs with
    | finished hover => exact ⟨[], _, .refl hover⟩
    | again hboth hstep' ht hdepth hused hextent =>
      cases hstep.symm.trans hboth
      obtain ⟨xs, f, hf⟩ := ih ht hrs hend
      exact ⟨xs, f, hf.atEnd, .again hstep hf.alone, .again hstep' hf.both, hf.eof,
        hdepth ▸ hf.depth, hf.extent.trans hextent, hused ▸ hf.unused⟩
    | emit hboth => cases hstep.symm.trans hboth
    | fault hboth => cases hstep.symm.trans hboth
  | emit hstep _ ih =>
    cases ts with
    | nil => cases hrs
    | cons x ts =>
      obtain ⟨rfl, hrest⟩ := List.cons.inj hrs
      cases step_before tail hs with
      | finished hover => exact ⟨[], _, .refl hover⟩
      | again hboth => cases hstep.symm.trans hboth
      | emit hboth hstep' hx ht hdepth hused hextent =>
        cases hstep.symm.trans hboth
        have hlater : ∃ y ∈ ts, y.token = .eof := by
          obtain ⟨y, hy, heof⟩ := hend
          rcases List.mem_cons.1 hy with rfl | hy
          · exact absurd heof hx
          · exact ⟨y, hy, heof⟩
        obtain ⟨xs, f, hf⟩ := ih ht hrest hlater
        exact ⟨x :: xs, f, hf.emit hstep hstep' hx hdepth hused hextent⟩
      | fault hboth => cases hstep.symm.trans hboth

theorem AtEnd.pos (h : s.AtEnd) : (s.skipWhile isGap).pos = s.extent := by
  rw [← s.extent_skipWhile isGap, extent, h.rest]
  rfl

/-- The layout that ends the line and closes the blocks. -/
def ending (s : Scanner) : List Token :=
  (if s.lineUsed then [.newline] else []) ++ List.replicate (s.indents.length - 1) .dedent

theorem isSolid_of_mem_ending {t : Token} (h : t ∈ s.ending) : t.isSolid = false ∧ t ≠ .eof := by
  rcases List.mem_append.1 h with hbreak | hdedent
  · split at hbreak
    · rw [List.mem_singleton.1 hbreak]
      exact ⟨rfl, nofun⟩
    · cases hbreak
  · rw [List.eq_of_mem_replicate hdedent]
    exact ⟨rfl, nofun⟩

/-- At the end of the text the line is ended and the blocks are closed. -/
theorem AtEnd.tokens (h : s.AtEnd) : ∃ xs : List Lexeme, xs.map Lexeme.token = s.ending ∧
    s.tokens = .ok (xs ++ [⟨.eof, ⟨s.extent, s.extent⟩⟩]) := by
  have hstep : s.step = .again (s.skipWhile isGap).finish := by
    rw [h.within.step_eq, readOn, h.rest]
  have hover : step { (s.skipWhile isGap).finish with pending := [] } =
      .emit (.ok ⟨.eof, ⟨(s.skipWhile isGap).pos, (s.skipWhile isGap).pos⟩⟩) _ := rfl
  rw [h.pos] at hover
  have htokens : (s.skipWhile isGap).finish.pending.map Lexeme.token = s.ending := by
    rw [finish, List.map_append, List.map_replicate, ending]
    show (if s.lineUsed then [_] else []).map _ ++ _ = _
    cases s.lineUsed <;> rfl
  refine ⟨_, htokens, ?_⟩
  rw [tokens_of_again hstep]
  refine (emits_pending _).tokens rfl (fun x hx => ?_) (tokens_of_eof (next_of_emit hover) rfl)
  exact (isSolid_of_mem_ending (htokens ▸ List.mem_map_of_mem hx)).2

end Scanner

/-! ### Up to the first token of the second text -/

/-- Only the outermost margin is not above 0. -/
theorem marginsUpTo_zero {is : List Nat} (his : Rising is) (hbottom : is.getLast? = some 0) :
    Scanner.marginsUpTo 0 is = [0] := by
  induction is with
  | nil => cases hbottom
  | cons m ms ih =>
    cases ms with
    | nil =>
      cases hbottom
      rfl
    | cons m' ms =>
      rw [List.getLast?_cons_cons] at hbottom
      have hm : 0 < m := List.rel_of_pairwise_cons his (List.mem_of_getLast? hbottom)
      rw [Scanner.marginsUpTo, List.dropWhile_cons_of_pos (by simpa using hm)]
      exact ih his.of_cons hbottom

namespace Scanner

variable {s t : Scanner} {is : List Nat} {ts : List Lexeme}

/-- No token of the text has been read: the scanner is at the start of a line, or
in a bare one. -/
structure Waiting (s : Scanner) : Prop where
  pending : s.pending = []
  ended : s.ended = false
  depth : s.depth = 0
  indents : s.indents = [0]
  lineUsed : s.lineUsed = false
  bare : s.lineStart = false → isBare s.rest = true
  noReturn : '\r' ∉ s.rest

/-- The scanner with the margins `is` open. -/
def under (is : List Nat) (s : Scanner) : Scanner :=
  { s with indents := is }

theorem head?_tokens {x : Lexeme} (h : s.tokens = .ok ts) (hnext : s.next = (.ok x, t)) :
    ts.head? = some x := by
  rw [tokens_eq, hnext] at h
  dsimp only at h
  split at h
  · cases h
    rfl
  · split at h <;> cases h
    rfl

/-- The tokens are the same, but that open blocks are closed first. -/
def ClosesFirst (is : List Nat) (s : Scanner) (ts : List Lexeme) : Prop :=
  ts.head?.map Lexeme.token ≠ some .newline ∧
    ∃ ds : List Lexeme, ds.map Lexeme.token = List.replicate (is.length - 1) .dedent ∧
      (s.under is).tokens = .ok (ds ++ ts)

/-- A line with a token that is not set in closes the blocks. -/
theorem Waiting.step_margin (h : s.Waiting) (hl : s.lineStart = true)
    (hbare : isBare s.pastMargin.rest = false) (hwidth : s.lineWidth = 0) (his : Rising is)
    (hbottom : is.getLast? = some 0) : (s.under is).step = .again { s.pastMargin with
      pending := List.replicate (is.length - 1)
        ⟨.dedent, ⟨s.pastMargin.pos, s.pastMargin.pos⟩⟩ } := by
  have hmargins := marginsUpTo_zero his hbottom
  have hwidth' : (s.under is).lineWidth = 0 := hwidth
  have hbare' : isBare (s.under is).pastMargin.rest = false := hbare
  rw [step_of_lineStart (s := s.under is) h.pending h.ended hl, beginLine, hwidth',
    if_neg (Bool.eq_false_iff.1 hbare'), if_neg (Nat.not_lt_zero _), if_pos (by rw [under, hmargins]; rfl)]
  simp only [closeBlocks, pastMargin, under, hmargins, h.indents]
  rfl

/-- Where a token that is not set in comes first. -/
theorem Waiting.closes_margin (h : s.Waiting) (hl : s.lineStart = true) (his : Rising is)
    (hbottom : is.getLast? = some 0) (hts : s.tokens = .ok ts)
    (hbare : isBare s.pastMargin.rest = false) (hwidth : s.lineWidth = 0) :
    s.ClosesFirst is ts := by
  have hself : s.under [0] = s := by
    rw [under, ← h.indents]
  have hwithin : s.pastMargin.Within := ⟨h.pending, h.ended, rfl⟩
  have hsame : { s.pastMargin with pending := [] } = s.pastMargin := by rw [← hwithin.pending]
  have hclosed : s.step = .again s.pastMargin := by
    have hstep : (s.under [0]).step = .again { s.pastMargin with pending := [] } :=
      h.step_margin hl hbare hwidth (List.pairwise_singleton _ _) rfl
    rwa [hself, hsame] at hstep
  rw [tokens_of_again hclosed] at hts
  obtain ⟨hsolid, -⟩ := hwithin.findsAt ⟨hbare, List.dropWhile_idempotent _ _⟩
  refine ⟨?_, ?_⟩
  · cases hnext : s.pastMargin.next with
    | mk result t =>
      rw [hnext] at hsolid
      cases result with
      | error fault =>
        rw [tokens_eq, hnext] at hts
        cases hts
      | ok x =>
        rw [head?_tokens hts hnext]
        exact fun heq => Token.ne_of_isSolid hsolid rfl (Option.some.inj heq)
  · -- what waits are as many ends of blocks as the first text has left open
    let place : Span := ⟨s.pastMargin.pos, s.pastMargin.pos⟩
    refine ⟨List.replicate (is.length - 1) ⟨.dedent, place⟩, List.map_replicate, ?_⟩
    rw [tokens_of_again (h.step_margin hl hbare hwidth his hbottom)]
    refine (emits_pending _).tokens rfl (fun x hx => ?_) (hsame ▸ hts)
    rw [List.eq_of_mem_replicate hx]
    exact nofun

/-- Comments do not begin with a blank. -/
theorem isGap_of_startsComment {c : Char} {cs : List Char} (h : startsComment (c :: cs) = true) :
    isGap c = false := by
  refine Bool.eq_false_iff.2 fun hgap => ?_
  simp only [isGap, Bool.or_eq_true, beq_iff_eq] at hgap
  rcases hgap with ((rfl | rfl) | rfl) | rfl <;> cases h

/-- Behind a comment nothing is left of the line. -/
theorem isBare_dropWhile (cs : List Char) : isBare (cs.dropWhile (· ≠ '\n')) = true := by
  cases hrest : cs.dropWhile (· ≠ '\n') with
  | nil => rfl
  | cons c rest =>
    have hc := List.head?_dropWhile_not (· ≠ '\n') cs
    rw [hrest] at hc
    obtain rfl : c = '\n' := by simpa using hc
    rfl

/-- The text is over, or a line with a token comes, or a bare line is passed in the
same way whichever margins are open. -/
theorem Waiting.step_cases (h : s.Waiting) :
    s.AtEnd ∨ (s.lineStart = true ∧ isBare s.pastMargin.rest = false) ∨
      ∃ t : Scanner, t.Waiting ∧ ∀ is, (s.under is).step = .again (t.under is) := by
  cases hl : s.lineStart with
  | true =>
    cases hbare : isBare s.pastMargin.rest with
    | false => exact .inr (.inl ⟨rfl, rfl⟩)
    | true =>
      -- a bare line is passed before any margin is compared
      refine .inr (.inr ⟨s.pastMargin, ?_, fun is => ?_⟩)
      · exact ⟨h.pending, h.ended, h.depth, h.indents, h.lineUsed, fun _ => hbare,
          fun hmem => h.noReturn ((List.dropWhile_suffix _).mem hmem)⟩
      · rw [step_of_lineStart (s := s.under is) h.pending h.ended hl, beginLine]
        exact if_pos hbare
  | false =>
    have hbare := h.bare hl
    have hstep : ∀ is, (s.under is).step = ((s.skipWhile isGap).under is).readOn := fun is =>
      Within.step_eq ⟨h.pending, h.ended, hl⟩
    cases hrest : s.rest with
    | nil => exact .inl ⟨⟨h.pending, h.ended, hl⟩, by rw [skipWhile, after, hrest]; rfl⟩
    | cons c cs =>
      have hnot := h.noReturn
      rw [hrest] at hbare hnot
      obtain ⟨hreturn, hnone⟩ := not_or.1 (mt List.mem_cons.2 hnot)
      by_cases hbreak : c = '\n'
      · subst hbreak
        refine .inr (.inr ⟨{ s.after ⟨(), ['\n'], cs⟩ with lineStart := true }, ?_, fun is => ?_⟩)
        · exact ⟨h.pending, h.ended, h.depth, h.indents, h.lineUsed, by simp, hnone⟩
        · have hdepth : ¬0 < (s.under is).depth := Nat.not_lt.2 h.depth.le
          have hused : ¬(s.under is).lineUsed = true := Bool.eq_false_iff.1 h.lineUsed
          rw [hstep, skipWhile_eq_self hrest rfl, readOn,
            show (s.under is).rest = '\n' :: cs from hrest]
          exact (if_neg hdepth).trans (if_neg hused)
      · rw [isBare_cons hbreak (Ne.symm hreturn)] at hbare
        refine .inr (.inr ⟨s.skipWhile (· ≠ '\n'), ?_, fun is => ?_⟩)
        · refine ⟨h.pending, h.ended, h.depth, h.indents, h.lineUsed, fun _ => ?_,
            fun hmem => h.noReturn ((List.dropWhile_suffix _).mem hmem)⟩
          exact isBare_dropWhile s.rest
        · rw [hstep, skipWhile_eq_self hrest (isGap_of_startsComment hbare)]
          exact readOn_comment hrest hbare

/-- A line that is set in opens a block. -/
theorem Waiting.head?_of_margin (h : s.Waiting) (hl : s.lineStart = true)
    (hbare : isBare s.pastMargin.rest = false) (hwidth : s.lineWidth ≠ 0)
    (hts : s.tokens = .ok ts) : ts.head?.map Lexeme.token = some .indent := by
  have hwide : s.indents.headD 0 < s.lineWidth := by
    rw [h.indents]
    exact Nat.pos_of_ne_zero hwidth
  have hstep := step_of_lineStart h.pending h.ended hl
  rw [beginLine, if_neg (Bool.eq_false_iff.1 hbare), if_pos hwide] at hstep
  rw [tokens_of_again hstep] at hts
  rw [head?_tokens hts (next_of_emit (step_of_pending rfl))]
  rfl

/-- **Open blocks are closed before the first token.**  A scanner that waits for it
yields the same tokens behind those that close blocks, if the first line with a token
is not set in. -/
theorem Waiting.closesFirst (h : s.Waiting) (his : Rising is) (hbottom : is.getLast? = some 0)
    (hts : s.tokens = .ok ts) (hfirst : ts.head?.map Lexeme.token ≠ some .indent) :
    s.ClosesFirst is ts := by
  -- a step over a bare line lowers `effort`
  induction heffort : s.effort using Nat.strong_induction_on generalizing s with | _ n ih
  subst heffort
  have hself : s.under [0] = s := by rw [under, ← h.indents]
  rcases h.step_cases with hend | ⟨hl, hbare⟩ | ⟨t, ht, hstep⟩
  · obtain ⟨xs, hxs, htokens⟩ := hend.tokens
    have hend' : (s.under is).AtEnd := ⟨⟨h.pending, h.ended, hend.within.lineStart⟩, hend.rest⟩
    obtain ⟨ds, hds, htokens'⟩ := hend'.tokens
    rw [ending, h.lineUsed, h.indents] at hxs
    obtain rfl : xs = [] := List.map_eq_nil_iff.1 hxs
    obtain rfl : [_] = ts := Except.ok.inj (htokens.symm.trans hts)
    refine ⟨nofun, ds, hds.trans ?_, htokens'⟩
    rw [ending, show (s.under is).lineUsed = false from h.lineUsed]
    rfl
  · by_cases hwidth : s.lineWidth = 0
    · exact h.closes_margin hl his hbottom hts hbare hwidth
    · exact absurd (h.head?_of_margin hl hbare hwidth hts) hfirst
  · have hstep₀ : s.step = .again t := by
      have hstep₀ := hstep [0]
      rwa [hself, under, ← ht.indents] at hstep₀
    rw [tokens_of_again hstep₀] at hts
    rw [ClosesFirst, tokens_of_again (hstep is)]
    exact ih _ (effort_lt_of_step hstep₀) ht hts rfl

end Scanner

/-! ### Both texts -/

/-- The tokens `ts` but for the end mark, found again in `ys`, where layout may stand
at another place. -/
structure Again (ts ys : List Lexeme) : Prop where
  tokens : ts.map Lexeme.token = ys.map Lexeme.token ++ [.eof]
  words : ts.filter (·.token.isWord) = ys.filter (·.token.isWord)
  isSealed : Sealed (ys.map Lexeme.token)

theorem depthOver_append (d : Nat) (ts us : List Token) :
    depthOver d (ts ++ us) = depthOver (depthOver d ts) us :=
  List.foldl_append

theorem depthOver_of_layout {us : List Token} (h : ∀ t ∈ us, t.isSolid = false) (d : Nat) :
    depthOver d us = d := by
  induction us with
  | nil => rfl
  | cons t us ih =>
    obtain ⟨ht, hus⟩ := List.forall_mem_cons.1 h
    rw [depthOver_cons, Token.depthAfter_of_layout ht, ih hus]

theorem Sealed.append_layout {ts us : List Token} (hus : ∀ t ∈ us, t.isSolid = false)
    (h : us = [] → Sealed ts) : Sealed (ts ++ us) := by
  intro t ht
  cases hlast : us.getLast? with
  | none =>
    obtain rfl := List.getLast?_eq_none_iff.1 hlast
    rw [List.append_nil] at ht
    exact h rfl t ht
  | some u =>
    rw [List.getLast?_append, hlast] at ht
    obtain rfl : u = t := Option.some.inj ht
    exact hus u (List.mem_of_getLast? hlast)

theorem Token.isSolid_of_isWord {t : Token} (h : t.isWord = true) : t.isSolid = true := by
  cases t with
  | newline | indent | dedent | eof => cases h
  | _ => rfl

theorem filter_isWord_of_layout {us : List Lexeme}
    (h : ∀ t ∈ us.map Lexeme.token, t.isSolid = false) : us.filter (·.token.isWord) = [] := by
  refine List.filter_eq_nil_iff.2 fun x hx hword => ?_
  have hsolid := Token.isSolid_of_isWord hword
  exact absurd ((h _ (List.mem_map_of_mem hx)).symm.trans hsolid) Bool.false_ne_true

namespace Scanner

variable {s : Scanner} {text text' : String} {ts ts' : List Lexeme}

/-- Behind the end of the first text come the same layout and the tokens of the second
text. -/
theorem AtEnd.tokens_before (h : s.AtEnd) (hdepth : s.depth = 0) (his : Rising s.indents)
    (hbottom : s.indents.getLast? = some 0) (h' : (ofText text').tokens = .ok ts')
    (hreturn : '\r' ∉ text'.toList) (hfirst : ts'.head?.map Lexeme.token ≠ some .indent) :
    ts'.head?.map Lexeme.token ≠ some .newline ∧
      ∃ us : List Lexeme, us.map Lexeme.token = s.ending ∧
        (s.before text'.toList).tokens = .ok (us ++ ts'.map (Lexeme.moved (s.extent + 1))) := by
  have hwaiting : (ofText text').Waiting := ⟨rfl, rfl, rfl, rfl, rfl, nofun, hreturn⟩
  obtain ⟨hbreak, ds, hds, htokens⟩ := hwaiting.closesFirst his hbottom h' hfirst
  have hwithin : (s.before text'.toList).Within :=
    ⟨h.within.pending, h.within.ended, h.within.lineStart⟩
  have hrest : ((s.before text'.toList).skipWhile isGap).rest = '\n' :: text'.toList := by
    rw [skipWhile_before rfl, before, h.rest]
    rfl
  obtain ⟨vs, hvs, hrun⟩ := emits_break hwithin hrest hdepth
  have hplace : (Place.atLine text'.toList s.indents).scanner (s.extent + 1) =
      ((ofText text').under s.indents).moved (s.extent + 1) := by
    simp [Place.scanner, ofText, under, moved]
  have hpos : ((s.before text'.toList).skipWhile isGap).pos + Char.utf8Size '\n' =
      s.extent + 1 := by
    rw [skipWhile_before rfl]
    exact congrArg (· + 1) h.pos
  rw [hpos] at hrun
  -- the line break ends the line, and the next line with a token closes the blocks
  refine ⟨hbreak, vs ++ ds.map (Lexeme.moved (s.extent + 1)), ?_, ?_⟩
  · rw [List.map_append, map_token_moved, hvs, hds]
    rfl
  · have hmoved := tokens_moved (s.extent + 1) htokens
    rw [← hplace, List.map_append] at hmoved
    rw [List.append_assoc]
    refine hrun.tokens rfl (fun x hx => ?_) hmoved
    have hmem : x.token ∈ s.ending := List.mem_append_left _ (hvs ▸ List.mem_map_of_mem hx)
    exact (isSolid_of_mem_ending hmem).2

/-- Up to the end of a text, and the layout there. -/
theorem exists_upToEnd (tail : List Char) (h : (ofText text).tokens = .ok ts) :
    ∃ (xs us : List Lexeme) (f : Scanner), UpToEnd tail (ofText text) xs f ∧
      us.map Lexeme.token = f.ending ∧ ts = xs ++ (us ++ [⟨.eof, ⟨f.extent, f.extent⟩⟩]) := by
  obtain ⟨hend, t, hrun⟩ := exists_emits h
  obtain ⟨xs, f, hf⟩ := hrun.upToEnd tail ⟨rfl, nofun⟩ rfl hend
  obtain ⟨us, hus, htokens⟩ := hf.atEnd.tokens
  exact ⟨xs, us, f, hf, hus, Except.ok.inj (h.symm.trans (hf.alone.tokens rfl hf.eof htokens))⟩

theorem ending_eq_nil (h : s.ending = []) : s.lineUsed = false := by
  rw [ending] at h
  split at h
  · cases h
  · rename_i hused
    exact Bool.eq_false_iff.2 hused

/-- The offset of the end of the text. -/
theorem extent_ofText (text : String) : (ofText text).extent = Text.byteSize text.toList :=
  Nat.zero_add _

theorem ofText_append (text text' : String) :
    ofText (text ++ "\n" ++ text') = (ofText text).before text'.toList := by
  simp [ofText, before]

/-- **The tokens of two texts.**  Behind those of the first text, without its end
mark, come those of the second, which have moved by the length of the first and the line
break. -/
theorem tokens_sequel (h : (ofText text).tokens = .ok ts) (h' : (ofText text').tokens = .ok ts')
    (hdepth : depthOver 0 (ts.map Lexeme.token) = 0) (hreturn : '\r' ∉ text'.toList)
    (hfirst : ts'.head?.map Lexeme.token ≠ some .indent) :
    ts'.head?.map Lexeme.token ≠ some .newline ∧ ∃ ys, Again ts ys ∧
      (ofText (text ++ "\n" ++ text')).tokens =
        .ok (ys ++ ts'.map (Lexeme.moved (Text.byteSize text.toList + 1))) := by
  obtain ⟨xs, us, f, hf, hus, rfl⟩ := exists_upToEnd text'.toList h
  -- the accounts of the blocks say that `f.indents` can be closed down to 0
  have hledger := (ledger_ofText text).emits hf.alone
  have hlayout : ∀ t ∈ f.ending, t.isSolid = false := fun t ht => (isSolid_of_mem_ending ht).1
  have hclosed : f.depth = 0 := by
    rw [List.map_append, List.map_append, hus, depthOver_append, depthOver_append,
      depthOver_of_layout hlayout] at hdepth
    exact hf.depth.trans hdepth
  obtain ⟨hbreak, us', hus', htokens⟩ :=
    hf.atEnd.tokens_before hclosed hledger.rising hledger.bottom h' hreturn hfirst
  refine ⟨hbreak, xs ++ us', ⟨?_, ?_, ?_⟩, ?_⟩
  · rw [List.map_append, List.map_append, List.map_append, hus, hus', List.append_assoc]
    rfl
  · have hnone : us.filter (·.token.isWord) = [] := filter_isWord_of_layout (hus ▸ hlayout)
    have hnone' : us'.filter (·.token.isWord) = [] := filter_isWord_of_layout (hus' ▸ hlayout)
    rw [List.filter_append, List.filter_append, List.filter_append, hnone, hnone']
    rfl
  · rw [List.map_append, hus']
    exact .append_layout hlayout fun hnone => (hf.unused (ending_eq_nil hnone)).1
  · rw [ofText_append, List.append_assoc, ← extent_ofText, ← hf.extent]
    exact hf.both.tokens rfl hf.eof htokens

end Scanner

end Dncl
