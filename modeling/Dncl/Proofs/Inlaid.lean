/-
Dncl/Proofs/Inlaid.lean

A line of one text within another.

If a text is a single line, and its last token ends with it, then its tokens are
found again wherever the line stands: in any block, behind other tokens of a
line, and before any delimiter (`Scanner.runs_solids`).

Design.  A scanner in the line alone and one in the other text have the same
line before them, so each token is read by both (`readToken_local`).  The other
scanner is at a `Place`; how far on it is has no influence on the tokens
(`stream_place`).  That the last token ends with the line is told from its span,
so a comment or blanks behind it are excluded.
-/
import Dncl.Proofs.BareLines

namespace Dncl

open Scanner (OpensToken)

variable {text : String}

/-- The tokens that are no layout. -/
def solids (xs : List Lexeme) : List Token :=
  (xs.map Lexeme.token).filter Token.isSolid

section Solids

variable {x : Lexeme} {xs : List Lexeme}

theorem solids_cons (h : x.token.isSolid = true) : solids (x :: xs) = x.token :: solids xs := by
  rw [solids, List.map_cons, List.filter_cons_of_pos h]
  rfl

theorem solids_eq_nil (h : ∀ x ∈ xs, x.token.isSolid = false) : solids xs = [] := by
  rw [solids, List.filter_eq_nil_iff]
  simpa using h

theorem isSolid_of_mem_solids {t : Token} (h : t ∈ solids xs) : t.isSolid = true :=
  (List.mem_filter.1 h).2

end Solids

/-! ### Wherever a scanner is -/

namespace Scanner

/-- A token does not depend on how far on the scanner is. -/
theorem stream_moved {s : Scanner} {k n : Nat} {u : Token} :
    (s.moved k).stream n = .ok u ↔ s.stream n = .ok u := by
  induction n generalizing s with
  | zero =>
    show (Feed.text (s.moved k)).item = .ok u ↔ (Feed.text s).item = .ok u
    rw [Feed.item, Feed.item, Feed.pull, Feed.pull, next_moved]
    cases s.next.1 with
    | error e => exact iff_of_false (by rintro ⟨⟩) (by rintro ⟨⟩)
    | ok x => exact Iff.rfl
  | succ n ih =>
    show (s.moved k).next.2.stream n = .ok u ↔ s.next.2.stream n = .ok u
    rw [next_moved]
    exact ih

end Scanner

theorem Stream.exists_prepend_ended (us : List Token) :
    ∀ n, ∃ u, Stream.prepend us .ended n = .ok u := by
  induction us with
  | nil => exact fun _ => ⟨.eof, rfl⟩
  | cons u us ih =>
    intro n
    cases n with
    | zero => exact ⟨u, rfl⟩
    | succ n => exact ih n

theorem Place.scanner_eq_moved (p : Place) (pos : Nat) :
    p.scanner pos = (p.scanner 0).moved pos := by
  simp [Place.scanner, Scanner.moved]

/-- What is yielded at a place, if there is no fault, does not depend on the
offset. -/
theorem stream_place {p : Place} {pos : Nat} {us : List Token}
    (h : (p.scanner pos).stream = .prepend us .ended) (pos' : Nat) :
    (p.scanner pos').stream = .prepend us .ended := by
  funext n
  obtain ⟨u, hu⟩ := Stream.exists_prepend_ended us n
  rw [hu, p.scanner_eq_moved, Scanner.stream_moved, ← @Scanner.stream_moved _ pos,
    ← p.scanner_eq_moved, h, hu]

/-! ### Tokens of a line -/

namespace Scanner

variable {s t : Scanner} {x : Lexeme} {xs : List Lexeme} {c : Char} {cs tail : List Char}

theorem skipWhile_skipWhile (s : Scanner) (p : Char → Bool) :
    (s.skipWhile p).skipWhile p = s.skipWhile p := by
  cases hrest : (s.skipWhile p).rest with
  | nil =>
    generalize s.skipWhile p = t at hrest
    obtain ⟨rest, pos, depth, indents, lineStart, lineUsed, ended, pending⟩ := t
    obtain rfl : rest = [] := hrest
    rfl
  | cons c cs =>
    have hc := List.head?_dropWhile_not p s.rest
    rw [show s.rest.dropWhile p = c :: cs from hrest] at hc
    exact skipWhile_eq_self hrest (by simpa using hc)

/-- Blanks are passed before the tokens of a line. -/
theorem Within.tokens_skipWhile (h : s.Within) : (s.skipWhile isGap).tokens = s.tokens := by
  refine tokens_congr (next_of_step ?_)
  rw [h.step_eq, (h.skipWhile isGap).step_eq, skipWhile_skipWhile]

theorem AtEnd.isSolid_eq_false (h : s.AtEnd) (htokens : s.tokens = .ok xs) (hx : x ∈ xs) :
    x.token.isSolid = false := by
  obtain ⟨ys, hys, hends⟩ := h.tokens
  obtain rfl := Except.ok.inj (htokens.symm.trans hends)
  rcases List.mem_append.1 hx with hx | hx
  · exact (isSolid_of_mem_ending (hys ▸ List.mem_map_of_mem hx)).1
  · rw [List.mem_singleton.1 hx]
    rfl

/-- If there is a token in the rest of a line, one comes next, behind blanks. -/
theorem Within.exists_token (h : s.Within) (hbreak : '\n' ∉ s.rest) (htokens : s.tokens = .ok xs)
    (hx : x ∈ xs) (hsolid : x.token.isSolid = true) :
    ∃ c cs, (s.skipWhile isGap).rest = c :: cs ∧ isGap c = false ∧
      startsComment (c :: cs) = false ∧ c ≠ '\n' := by
  have hfalse : ∀ t : Scanner, t.AtEnd → t.tokens ≠ .ok xs := fun t ht heq =>
    Bool.false_ne_true ((ht.isSolid_eq_false heq hx).symm.trans hsolid)
  cases hrest : (s.skipWhile isGap).rest with
  | nil => exact absurd htokens (hfalse s ⟨h, hrest⟩)
  | cons c cs =>
    have hgap := List.head?_dropWhile_not isGap s.rest
    rw [show s.rest.dropWhile isGap = c :: cs from hrest] at hgap
    have hline : '\n' ∉ c :: cs := fun hmem =>
      hbreak ((List.dropWhile_suffix isGap).subset (show '\n' ∈ (s.skipWhile isGap).rest from
        hrest ▸ hmem))
    refine ⟨c, cs, rfl, by simpa using hgap, Bool.eq_false_iff.2 fun hcomment => ?_, ?_⟩
    · -- a comment takes the rest of the line
      have hstep := h.step_eq.trans (readOn_comment hrest hcomment)
      rw [tokens_of_again hstep] at htokens
      refine hfalse ((s.skipWhile isGap).skipWhile _) ⟨(h.skipWhile isGap).skipWhile _, ?_⟩ htokens
      have hall : (c :: cs).dropWhile (· ≠ '\n') = [] := by
        rw [List.dropWhile_eq_nil_iff]
        rintro d hd
        exact decide_eq_true fun heq => hline (heq ▸ hd)
      show ((s.skipWhile isGap).rest.dropWhile (· ≠ '\n')).dropWhile isGap = []
      rw [hrest, hall]
      rfl
    · rintro rfl
      exact hline List.mem_cons_self

/-- A step finds tokens between the offset of the scanner and the end of the text. -/
theorem TextStep.bounds {rs : List Found} (h : TextStep s rs t)
    (hs : ∀ x ∈ s.pending, x.token.isSolid = false) :
    s.pos ≤ t.pos ∧ (∀ x ∈ t.pending, x.token.isSolid = false) ∧
      ∀ r ∈ rs, r.isSolid = true → s.pos ≤ r.start ∧ r.start < s.extent := by
  cases h with
  | waiting hp =>
    obtain ⟨hx, hlater⟩ := List.forall_mem_cons.1 (hp ▸ hs)
    refine ⟨Nat.le_refl _, hlater, List.forall_mem_singleton.2 fun hsolid => ?_⟩
    exact absurd (hx.symm.trans hsolid) Bool.false_ne_true
  | layout taken hrest hpos hfound hpending =>
    refine ⟨by omega, fun x hx => (hpending x hx).1, fun r hr hsolid => ?_⟩
    exact absurd ((hfound r hr).1.symm.trans hsolid) Bool.false_ne_true
  | @token _ c cs taken hrest htaken hpos hpending =>
    obtain ⟨-, hstart, -⟩ := (s.skipWhile isGap).readToken_found c cs
    have hskip : s.pos ≤ (s.skipWhile isGap).pos := Nat.le_add_right _ _
    have hfirst : (s.skipWhile isGap).pos < s.extent := by
      rw [← s.extent_skipWhile isGap, extent, hrest]
      exact Nat.lt_add_of_pos_right (Nat.add_pos_left c.utf8Size_pos _)
    refine ⟨by omega, by simp [hpending], List.forall_mem_singleton.2 fun _ => ?_⟩
    rw [hstart]
    exact ⟨hskip, hfirst⟩

theorem Emits.bounds {rs : List Found} (h : Emits s rs t)
    (hs : ∀ x ∈ s.pending, x.token.isSolid = false) :
    ∀ r ∈ rs, r.isSolid = true → s.pos ≤ r.start ∧ r.start < s.extent := by
  induction h using Emits.induction with
  | refl s => simp
  | step s rs u _ ih =>
    obtain ⟨hpos, hpending, hfound⟩ := s.step_textStep.bounds hs
    refine List.forall_mem_append.2 ⟨hfound, ?_⟩
    rw [← s.step_textStep.extent_eq]
    exact fun r hr hsolid => (ih hpending r hr hsolid).imp_left hpos.trans

/-- The tokens of a text begin between the offset of the scanner and the end of the
text. -/
theorem bounds_of_tokens (hs : ∀ x ∈ s.pending, x.token.isSolid = false)
    (h : s.tokens = .ok xs) (hx : x ∈ xs) (hsolid : x.token.isSolid = true) :
    s.pos ≤ x.span.start ∧ x.span.start < s.extent := by
  obtain ⟨-, t, hrun⟩ := exists_emits h
  exact hrun.bounds hs (.ok x) (List.mem_map_of_mem hx) hsolid

theorem eq_nil_of_byteSize (h : Text.byteSize cs = 0) : cs = [] := by
  cases cs with
  | nil => rfl
  | cons c cs =>
    have hpos : 0 < c.utf8Size + Text.byteSize cs := Nat.add_pos_left c.utf8Size_pos _
    exact absurd h (Nat.ne_of_gt hpos)

/-- A scanner that has not moved has passed nothing. -/
theorem dropWhile_of_byteSize {p : Char → Bool} (h : Text.byteSize (cs.takeWhile p) = 0) :
    cs.dropWhile p = cs := by
  have hsplit := List.takeWhile_append_dropWhile (p := p) (l := cs)
  rw [eq_nil_of_byteSize h] at hsplit
  exact hsplit

/-- A text that is a single line, and of which a token begins at its start, opens
with a token. -/
theorem opensToken_of_start (hbreak : '\n' ∉ text.toList) (h : tokenize text = .ok xs) (hx : x ∈ xs)
    (hsolid : x.token.isSolid = true) (hstart : x.span.start = 0) : OpensToken text.toList := by
  -- no scanner that yields the token stands behind the start of the text
  have hbehind : ∀ s : Scanner, (∀ x ∈ s.pending, x.token.isSolid = false) →
      s.tokens = .ok xs → s.pos = 0 := fun s hs htokens =>
    Nat.eq_zero_of_le_zero (hstart ▸ (bounds_of_tokens hs htokens hx hsolid).1)
  let s := ofText text
  have hstep : s.step = s.beginLine := step_of_lineStart rfl rfl rfl
  have hpast : s.pastMargin.pos = Text.byteSize (text.toList.takeWhile isMargin) := Nat.zero_add _
  have hmargin : s.pastMargin.pos = 0 := by
    have hcase := s.beginLine_case
    generalize s.beginLine = p at hstep hcase
    cases hcase with
    | bare => exact hbehind s.pastMargin (by rintro _ ⟨⟩) (tokens_of_again hstep ▸ h)
    | opens =>
      exact hbehind (s.pastMargin.openBlock s.pos s.lineWidth)
        (List.forall_mem_singleton.2 rfl) (tokens_of_again hstep ▸ h)
    | closes =>
      refine hbehind (s.pastMargin.closeBlocks s.lineWidth) (fun x hx => ?_)
        (tokens_of_again hstep ▸ h)
      rw [List.eq_of_mem_replicate hx]
      rfl
    | uneven =>
      rw [tokenize, tokens_eq, next_of_emit hstep] at h
      cases h
  have hrest : text.toList.dropWhile isMargin = text.toList :=
    dropWhile_of_byteSize (hpast ▸ hmargin)
  refine ⟨Bool.eq_false_iff.2 fun hbare => ?_, hrest⟩
  have hbare' : isBare s.pastMargin.rest = true :=
    (congrArg isBare (show s.pastMargin.rest = text.toList from hrest)).trans hbare
  have hwithin : s.pastMargin.Within := ⟨rfl, rfl, rfl⟩
  have htokens : s.pastMargin.tokens = .ok xs := by
    rw [← tokens_of_again (hstep.trans (if_pos hbare'))]
    exact h
  obtain ⟨c, cs, hcs, hgap, hcomment, hne⟩ := hwithin.exists_token
    (fun hmem => hbreak (hrest ▸ hmem)) htokens hx hsolid
  have hskip : (s.pastMargin.skipWhile isGap).pos = 0 :=
    hbehind _ (by rintro _ ⟨⟩) (hwithin.tokens_skipWhile.trans htokens)
  have hblanks : s.pastMargin.rest.dropWhile isGap = s.pastMargin.rest :=
    dropWhile_of_byteSize (Nat.add_eq_zero_iff.1 hskip).2
  have htext : text.toList = c :: cs := hrest.symm.trans (hblanks.symm.trans hcs)
  have hreturn : c ≠ '\r' := by
    rintro rfl
    cases hgap
  rw [htext, isBare_cons hne hreturn, hcomment] at hbare
  cases hbare

/-- The token that comes next in a line is yielded at any place where the line
stands, if a delimiter comes behind it. -/
theorem runs_readToken (hrest : (s.skipWhile isGap).rest = c :: cs)
    (hcomment : startsComment (c :: cs) = false) (hbreak : c ≠ '\n')
    (hread : (s.skipWhile isGap).readToken c cs = (.ok x, t)) (htail : Delimited tail)
    (is : List Nat) (used : Bool) :
    Runs (.inLine (s.rest ++ tail) s.depth is used) [x.token]
      (.inLine (t.rest ++ tail) t.depth is true) := by
  intro pos
  let s' := (Place.inLine (s.rest ++ tail) s.depth is used).scanner pos
  have hs' : s'.Within := ⟨rfl, rfl, rfl⟩
  have hdrop : (s.rest ++ tail).dropWhile isGap = c :: (cs ++ tail) := by
    rw [List.dropWhile_append, show s.rest.dropWhile isGap = c :: cs from hrest]
    rfl
  -- a delimiter behind the token keeps the reader from going on
  have hlocal : Mirrors tail (s.skipWhile isGap) (s'.skipWhile isGap)
      ((s.skipWhile isGap).readToken c cs) ((s'.skipWhile isGap).readToken c (cs ++ tail)) := by
    refine readToken_local ?_ rfl htail (by rw [hread]; rfl)
    show (s.rest ++ tail).dropWhile isGap = _
    rw [hdrop, hrest, List.cons_append]
  have hstep := hs'.step_eq.trans
    (readOn_eq_readToken hdrop ((startsComment_before htail).trans hcomment) hbreak)
  obtain ⟨hshape, hscanner⟩ := hlocal
  rw [hread] at hshape hscanner
  rcases hfound : (s'.skipWhile isGap).readToken c (cs ++ tail) with ⟨fault | y, u⟩
  · rw [hfound] at hshape
    cases hshape
  · rw [hfound] at hshape hscanner hstep
    have htoken : y.token = x.token := Except.ok.inj hshape
    rw [← htoken]
    refine ⟨u.pos, (stream_of_emit hstep).trans ?_⟩
    obtain rfl : u = _ := hscanner
    rfl

/-- The token that comes next in a line is the first of its tokens. -/
theorem Within.exists_readToken (h : s.Within) (hrest : (s.skipWhile isGap).rest = c :: cs)
    (hcomment : startsComment (c :: cs) = false) (hbreak : c ≠ '\n') (htokens : s.tokens = .ok xs) :
    ∃ y t ys, (s.skipWhile isGap).readToken c cs = (.ok y, t) ∧ xs = y :: ys ∧
      tokens { t with lineUsed := true } = .ok ys := by
  have hstep := h.step_eq.trans (readOn_eq_readToken hrest hcomment hbreak)
  rcases hread : (s.skipWhile isGap).readToken c cs with ⟨fault | y, t⟩
  · rw [hread] at hstep
    rw [tokens_eq, next_of_emit hstep] at htokens
    cases htokens
  · rw [hread] at hstep
    have heof : y.token ≠ .eof := Token.ne_of_isSolid (readToken_eq_ok hread).1 rfl
    rw [tokens_eq, next_of_emit hstep] at htokens
    dsimp only at htokens
    rw [if_neg heof] at htokens
    cases hlater : tokens { t with lineUsed := true } with
    | error fault =>
      rw [hlater] at htokens
      cases htokens
    | ok ys =>
      rw [hlater] at htokens
      exact ⟨y, t, ys, rfl, (Except.ok.inj htokens).symm, hlater⟩

/-- **A line is read wherever it stands.**  If the last token of a text ends with it,
and there is no line break in it, its tokens are yielded at any place where the text
stands before a delimiter. -/
theorem runs_solids (htail : Delimited tail) (is : List Nat) {used : Bool} (hs : s.Within)
    (hbreak : '\n' ∉ s.rest) (htokens : s.tokens = .ok xs) (hused : s.rest = [] → used = true)
    (hends : s.rest = [] ∨ ∃ x ∈ xs, x.token.isSolid = true ∧ x.span.stop = s.extent) :
    Runs (.inLine (s.rest ++ tail) s.depth is used) (solids xs)
      (.inLine tail (depthOver s.depth (solids xs)) is true) := by
  induction hlength : s.rest.length using Nat.strong_induction_on generalizing s xs used with
  | _ n ih =>
    subst hlength
    by_cases hnil : s.rest = []
    · have hover : s.AtEnd := ⟨hs, by rw [skipWhile, hnil]; rfl⟩
      have hnone : solids xs = [] :=
        solids_eq_nil fun x hx => hover.isSolid_eq_false htokens hx
      rw [hnone, hnil, hused hnil]
      exact .refl _
    · obtain ⟨x, hx, hsolid, hstop⟩ := hends.resolve_left hnil
      obtain ⟨c, cs, hrest, -, hcomment, hne⟩ := hs.exists_token hbreak htokens hx hsolid
      obtain ⟨y, t, ys, hread, rfl, hlater⟩ := hs.exists_readToken hrest hcomment hne htokens
      obtain ⟨hsolid', -, hmoves⟩ := readToken_eq_ok hread
      obtain ⟨taken, htaken, hpos, hspan⟩ := readToken_takes hrest hread
      have hextent : t.extent = s.extent := by
        rw [← s.extent_skipWhile isGap, extent, extent, htaken, hpos, Cut.byteSize_append,
          Nat.add_assoc]
      have hsuffix : t.rest <:+ s.rest := by
        have htoken : t.rest <:+ (s.skipWhile isGap).rest := ⟨taken, htaken.symm⟩
        exact htoken.trans (List.dropWhile_suffix isGap)
      have hshorter : t.rest.length < s.rest.length := by
        have hle := (readToken_ok hrest hread).1
        have hskip := (List.dropWhile_suffix isGap (l := s.rest)).length_le
        rw [show s.rest.dropWhile isGap = c :: cs from hrest, List.length_cons] at hskip
        omega
      have hwithin : Within { t with lineUsed := true } := by
        rw [hmoves]
        exact ⟨hs.pending, hs.ended, hs.lineStart⟩
      have hdepth : t.depth = y.token.depthAfter s.depth := by
        rw [hmoves]
        rfl
      -- the token that ends with the line is this one, or a later one
      have hends' : t.rest = [] ∨ ∃ x ∈ ys, x.token.isSolid = true ∧ x.span.stop = t.extent := by
        rcases List.mem_cons.1 hx with rfl | hx
        · refine .inl (eq_nil_of_byteSize ?_)
          have hlast : t.pos = t.pos + Text.byteSize t.rest := by
            rw [hspan x rfl, ← hextent] at hstop
            exact hstop
          exact Nat.add_eq_left.1 hlast.symm
        · exact .inr ⟨x, hx, hsolid, hstop.trans hextent.symm⟩
      have hothers := ih _ hshorter hwithin (fun hmem => hbreak (hsuffix.subset hmem)) hlater
        (fun _ => rfl) hends' rfl
      rw [solids_cons hsolid', depthOver_cons, ← hdepth]
      exact (runs_readToken hrest hcomment hne hread htail is used).trans hothers

end Scanner

/-- The text is read as the tokens `ts` in any line that it stands in. -/
structure Inlays (cs : List Char) (ts : List Token) : Prop where
  opens : OpensToken cs
  solid : ∀ t ∈ ts, t.isSolid = true
  runs : ∀ {tail : List Char} {is : List Nat} {used : Bool}, Delimited tail →
    Runs (.inLine (cs ++ tail) 0 is used) ts (.inLine tail (depthOver 0 ts) is true)

theorem Scanner.OpensToken.append {cs tail : List Char} (h : OpensToken cs)
    (htail : Delimited tail) : OpensToken (cs ++ tail) := by
  obtain ⟨c, rest, rfl, hmargin, hbreak, hreturn, hcomment⟩ := h.exists_cons
  refine ⟨?_, ?_⟩
  · rw [List.cons_append, Scanner.isBare_cons hbreak hreturn,
      Scanner.startsComment_before htail, hcomment]
  · exact List.dropWhile_cons_of_neg (by simp [hmargin])

/-- The first step of a text that opens with a token passes no margin. -/
theorem step_ofText (h : OpensToken text.toList) :
    (Scanner.ofText text).step = .again ((Place.inLine text.toList 0 [0] false).scanner 0) := by
  have hmargin : text.toList.takeWhile Scanner.isMargin = [] := by
    have hsplit := List.takeWhile_append_dropWhile (p := Scanner.isMargin) (l := text.toList)
    rw [h.2, List.append_left_eq_self] at hsplit
    exact hsplit
  have hpast : (Scanner.ofText text).pastMargin =
      (Place.inLine text.toList 0 [0] false).scanner 0 := by
    rw [Scanner.pastMargin, Scanner.ofText, h.2, hmargin]
    rfl
  have hwidth : (Scanner.ofText text).lineWidth = 0 := by
    rw [Scanner.lineWidth, Scanner.ofText, hmargin]
    rfl
  rw [Scanner.step_of_lineStart rfl rfl rfl, Scanner.beginLine, hpast, hwidth,
    if_neg (by simp [Place.scanner, h.1])]
  rfl

/-- The end of the text ends the line, also inside brackets. -/
theorem stream_lineEnd (d pos : Nat) :
    ((Place.inLine [] d [0] true).scanner pos).stream = .prepend [.newline] .ended := by
  have hend : ((Place.inLine [] d [0] true).scanner pos).step =
      .again ((Place.inLine [] d [0] true).scanner pos).finish := rfl
  rw [Scanner.stream_of_again hend, stream_finish]
  rfl

/-- A text without line breaks whose first token begins at its start, and whose last
token ends at its end, is read in the same way in any line. -/
theorem inlays_of_tokens {xs : List Lexeme} {x y : Lexeme} (hbreak : '\n' ∉ text.toList)
    (h : tokenize text = .ok xs) (hx : x ∈ xs) (hxsolid : x.token.isSolid = true)
    (hstart : x.span.start = 0) (hy : y ∈ xs) (hysolid : y.token.isSolid = true)
    (hstop : y.span.stop = Text.byteSize text.toList) :
    Inlays text.toList (solids xs) ∧ xs.map Lexeme.token = solids xs ++ [.newline, .eof] := by
  have hopens := Scanner.opensToken_of_start hbreak h hx hxsolid hstart
  let s := (Place.inLine text.toList 0 [0] false).scanner 0
  have htokens : s.tokens = .ok xs :=
    (Scanner.tokens_of_again (step_ofText hopens)).symm.trans h
  have hrest : s.rest ≠ [] := by
    obtain ⟨c, rest, heq, -⟩ := hopens.exists_cons
    show text.toList ≠ []
    rw [heq]
    exact List.cons_ne_nil _ _
  have hextent : y.span.stop = s.extent := hstop.trans (Nat.zero_add _).symm
  have hruns : ∀ {tail : List Char} {is : List Nat} {used : Bool}, Delimited tail →
      Runs (.inLine (text.toList ++ tail) 0 is used) (solids xs)
        (.inLine tail (depthOver 0 (solids xs)) is true) := fun htail =>
    Scanner.runs_solids htail _ ⟨rfl, rfl, rfl⟩ hbreak htokens (fun hnil => absurd hnil hrest)
      (.inr ⟨y, hy, hysolid, hextent⟩)
  refine ⟨⟨hopens, fun t => isSolid_of_mem_solids, hruns⟩, ?_⟩
  -- alone, the text is read to its end
  have halone : Runs (.inLine (text.toList ++ []) 0 [0] false) (solids xs)
      (.inLine [] (depthOver 0 (solids xs)) [0] true) := hruns delimited_nil
  obtain ⟨pos, hstream⟩ := halone 0
  rw [List.append_nil, stream_lineEnd, ← Stream.prepend_append] at hstream
  have heof : .eof ∉ solids xs ++ [.newline] := by
    intro hmem
    rcases List.mem_append.1 hmem with hmem | hmem
    · cases isSolid_of_mem_solids hmem
    · cases List.mem_singleton.1 hmem
  obtain ⟨ys, hys, hmap⟩ := Scanner.tokens_of_stream hstream heof
  obtain rfl := Except.ok.inj (htokens.symm.trans hys)
  rw [hmap, List.append_assoc]
  rfl

/-- A token that ends with the text is the last one. -/
theorem getLast?_solids {xs : List Lexeme} {y : Lexeme} (h : tokenize text = .ok xs)
    (hordered : xs.Pairwise fun a b => a.span.stop ≤ b.span.start) (hy : y ∈ xs)
    (hsolid : y.token.isSolid = true) (hstop : y.span.stop = Text.byteSize text.toList) :
    (solids xs).getLast? = some y.token := by
  obtain ⟨front, back, rfl⟩ := List.append_of_mem hy
  have hback : solids back = [] := by
    refine solids_eq_nil fun z hz => Bool.eq_false_iff.2 fun hzsolid => ?_
    obtain ⟨hbehind, -⟩ := List.pairwise_cons.1 (List.pairwise_append.1 hordered).2.1
    have hmem : z ∈ front ++ y :: back :=
      List.mem_append_right _ (List.mem_cons_of_mem _ hz)
    have hbefore := (Scanner.bounds_of_tokens (by rintro _ ⟨⟩) h hmem hzsolid).2
    have hextent : (Scanner.ofText text).extent = Text.byteSize text.toList := Nat.zero_add _
    have hle := hbehind z hz
    omega
  rw [solids, List.map_append, List.filter_append, List.map_cons, List.filter_cons_of_pos hsolid,
    show ((back.map Lexeme.token).filter Token.isSolid) = [] from hback]
  exact List.getLast?_concat

end Dncl
