/-
Dncl/Proofs/Locations.lean

All places lie in the text.

The places of the tokens of a text and the places of its faults lie between two
boundaries of the text, and the tokens lie one behind the other.  So the trail
of a text is good, and what is parsed from it is located: the spans of all
nodes lie in the text, each inside that of the node above it, and statements
lie one behind the other; and so does the span of a failure lie in the text.
-/
import Dncl.Proofs.Placed
import Dncl.Proofs.Tiling

namespace Dncl

variable {fault : LexError}

/-! ### Spans of a text -/

/-- The span lies between two boundaries of the text. -/
structure Span.FitsIn (text : List Char) (s : Span) : Prop where
  le : s.start ≤ s.stop
  inside : s.stop ≤ Text.byteSize text
  start : IsBoundary text s.start
  stop : IsBoundary text s.stop

theorem spanLaw_fitsIn (text : List Char) : SpanLaw (Span.FitsIn text) where
  le hs := hs.le
  join hs ht hle := ⟨hle, ht.inside, hs.start, ht.stop⟩

/-- What lies between two cuts of the text fits in it. -/
theorem Cut.Takes.fitsIn {text cs : List Char} {a b : Cut} (h : a.Takes cs b)
    (ha : a.text = text) : Span.FitsIn text ⟨a.offset, b.offset⟩ := by
  have hb : b.text = text := h.text_eq.trans ha
  refine ⟨h.offset_le, ?_, ⟨a, ha, rfl⟩, ⟨b, hb, rfl⟩⟩
  rw [← hb]
  exact b.offset_le_byteSize

theorem fitsIn_start (text : List Char) : Span.FitsIn text ⟨0, 0⟩ :=
  (Cut.takes_nil ⟨[], text⟩).fitsIn rfl

/-! ### The trail of a text -/

namespace Scanner

variable {s t : Scanner} {p q : Cut} {text : List Char}

/-- A fault within a line is at the first character of a token, or at all of
it. -/
theorem readToken_fault {c : Char} {cs : List Char} (h : s.readToken c cs = (.error fault, t)) :
    fault.span = ⟨s.pos, s.pos + c.utf8Size⟩ ∨ fault.span = s.spanTo t := by
  cases tokenCase_of_eq h with
  | openString | openCommand | stray => exact .inl rfl
  | largeInteger => exact .inr rfl

theorem LineCase.fitsIn (hcase : LineCase s (.emit (.error fault) t)) (h : s.StandsAt q)
    (hq : q.text = text) : fault.span.FitsIn text := by
  cases hcase with
  | @fault c cs _ _ hrest _ _ htoken =>
    rcases readToken_fault htoken with hspan | hspan
    · obtain ⟨r, htakes, -, hoffset, -⟩ := h.takes (show s.rest = [c] ++ cs from hrest)
      have hfits := htakes.fitsIn hq
      rw [hoffset, ← h.pos] at hfits
      rw [hspan]
      exact hfits
    · obtain ⟨taken, hcut, hpos, -⟩ := readToken_takes hrest htoken
      obtain ⟨r, htakes, -, hoffset, -⟩ := h.takes hcut
      have hfits := htakes.fitsIn hq
      rw [hoffset, ← hpos, ← h.pos] at hfits
      rw [hspan]
      exact hfits

/-- A fault lies in the text. -/
theorem step_fault (h : s.TiledFrom p) (hp : p.text = text)
    (hstep : s.step = .emit (.error fault) t) : fault.span.FitsIn text := by
  cases stepCase_of_eq hstep with
  | margin hs hcase =>
    obtain ⟨q, hstands, hskip⟩ := h.of_pending hs.pending
    cases hcase with
    | uneven =>
      obtain ⟨r, htakes, -, hoffset, -⟩ :=
        hstands.takes (List.takeWhile_append_dropWhile (p := isMargin)).symm
      have hfits := htakes.fitsIn (hskip.text_eq.trans hp)
      rw [hoffset, ← hstands.pos] at hfits
      exact hfits
  | line hs hcase =>
    obtain ⟨q, hstands, hskip⟩ := h.of_pending hs.pending
    obtain ⟨r, hr, hskip'⟩ := hstands.skipGaps hskip hs.lineStart
    exact hcase.fitsIn hr (hskip'.text_eq.trans hp)

theorem next_fault (h : s.TiledFrom p) (hp : p.text = text) (hnext : s.next = (.error fault, t)) :
    fault.span.FitsIn text := by
  fun_induction next s with
  | case1 s result u hstep =>
    cases hnext
    exact step_fault h hp hstep
  | case2 s u hstep ih => exact ih (step_tiles h hstep) hnext

/-- Behind the end mark the scanner stays where it is. -/
theorem step_end {x : Lexeme} (h : s.TiledFrom p) (hstep : s.step = .emit (.ok x) t)
    (hx : x.token = .eof) :
    ∃ q, Skips p q ∧ x.span = ⟨q.offset, q.offset⟩ ∧ t.TiledFrom q := by
  cases stepCase_of_eq hstep with
  | waiting hpending =>
    obtain ⟨-, -, -, hpendings⟩ := h
    exact absurd hx (hpendings x (hpending ▸ List.mem_cons_self))
  | ended hpending =>
    obtain ⟨q, hstands, hp⟩ := h.of_pending hpending
    exact ⟨q, hp, by rw [hstands.pos], tiledFrom_of_skips hstands .refl hpending⟩
  | margin _ hcase => cases hcase
  | line hs hcase =>
    obtain ⟨q, hstands, hp⟩ := h.of_pending hs.pending
    obtain ⟨r, hr, hskip⟩ := hstands.skipGaps hp hs.lineStart
    obtain ⟨_, _, _, _, _, _, hne, _⟩ := hcase.yieldsTile hr hskip (hs.skipWhile isGap)
    exact absurd hx hne

/-- A token lies in the text, behind those before it, and the scanner goes on
behind the token. -/
theorem next_fits {x : Lexeme} (h : s.TiledFrom p) (hp : p.text = text)
    (hnext : s.next = (.ok x, t)) :
    p.offset ≤ x.span.start ∧ x.span.FitsIn text ∧
      ∃ b : Cut, b.text = text ∧ b.offset = x.span.stop ∧ t.TiledFrom b := by
  fun_induction next s with
  | case2 s u hstep ih => exact ih (step_tiles h hstep) hnext
  | case1 s result u hstep =>
    cases hnext
    rcases step_yields h hstep with ⟨a, cs, b, hskip, htake, hspan, -, -, ht⟩ | hend
    · have ha := hskip.text_eq.trans hp
      rw [hspan]
      exact ⟨hskip.offset_le, htake.fitsIn ha, b, htake.text_eq.trans ha, rfl, ht⟩
    · obtain ⟨_, _, _, hx⟩ := hend
      obtain ⟨q, hskip, hspan, ht⟩ := step_end h hstep (congrArg Lexeme.token hx)
      have hq := hskip.text_eq.trans hp
      rw [hspan]
      exact ⟨hskip.offset_le, q.takes_nil.fitsIn hq, q, hq, rfl, ht⟩

/-- The trail of a text is good. -/
theorem good_trail (h : s.TiledFrom p) (hp : p.text = text) :
    s.trail.Good (Span.FitsIn text) := by
  -- the three conditions on the item `k`, from wherever the scanner stands
  have hitem : ∀ (k : Nat) {s : Scanner} {p : Cut}, s.TiledFrom p → p.text = text →
      (∀ x, s.trail k = .ok x → x.span.FitsIn text) ∧
      (∀ fault, s.trail k = .error fault → fault.span.FitsIn text) ∧
      ∀ x y, s.trail k = .ok x → s.trail (k + 1) = .ok y → x.span.stop ≤ y.span.start := by
    intro k
    induction k with
    | zero =>
      intro s p h hp
      refine ⟨fun x hx => ?_, fun fault hf => ?_, fun x y hx hy => ?_⟩
      · exact (next_fits h hp (Prod.ext hx rfl)).2.1
      · have hnext : s.next = (.error fault, s.next.2) := Prod.ext hf rfl
        exact next_fault h hp hnext
      · have hnext : s.next = (.ok x, s.next.2) := Prod.ext hx rfl
        obtain ⟨-, -, b, hb, hstop, ht⟩ := next_fits h hp hnext
        have hy' : s.next.2.trail 0 = .ok y := by
          rw [← tail_trail hnext]
          exact hy
        rw [← hstop]
        exact (next_fits ht hb (Prod.ext hy' rfl)).1
    | succ k ih =>
      intro s p h hp
      cases hnext : s.next with
      | mk result t =>
        cases result with
        | ok x =>
          obtain ⟨-, -, b, hb, -, ht⟩ := next_fits h hp hnext
          have hrest := ih ht hb
          rw [← tail_trail hnext] at hrest
          exact hrest
        | error fault =>
          have hstuck : s.trail (k + 1) = .error fault := by
            rw [trail, hnext]
          rw [hstuck]
          refine ⟨by simp, ?_, fun _ _ hx => by cases hx⟩
          rintro _ ⟨⟩
          exact next_fault h hp hnext
  exact ⟨spanLaw_fitsIn text, fun hx => (hitem _ h hp).1 _ hx, fun hf => (hitem _ h hp).2.1 _ hf,
    fun hx hy => (hitem _ h hp).2.2 _ _ hx hy⟩

theorem good_trail_ofText (text : String) :
    (ofText text).trail.Good (Span.FitsIn text.toList) :=
  good_trail (tiledFrom_ofText text) rfl

end Scanner

/-! ### Main result -/

/-- **All places are valid.**  If a text is parsed, then of every node of its
tree

* the span lies between two boundaries of the text,
* the spans of the nodes right below it lie inside its own, and
* the statements, if it is a program or a block, lie one behind the other.

If the text is not parsed, the span of the failure lies between two boundaries
of the text. -/
theorem parsed_spans_valid (text : String) :
    match parseProgram text with
    | .ok p => ∀ n : Node, n.IsIn (.program p) →
        n.span.FitsIn text.toList ∧ (∀ c ∈ n.children, c.span.Within n.span) ∧
          n.statements.Pairwise fun a b => a.span.stop ≤ b.span.start
    | .error e => e.span.FitsIn text.toList := by
  have hgood := Scanner.good_trail_ofText text
  have hplaces := parseFeed_places hgood (fitsIn_start _)
  rw [← parseProgram] at hplaces
  cases hparse : parseProgram text with
  | error e =>
    rw [hparse] at hplaces
    exact hplaces
  | ok p =>
    rw [hparse] at hplaces
    obtain ⟨xs, x, tr', hpass, -, -, -, hgives⟩ := hplaces
    have hordered := (hgood.ordered hpass).sublist (places_sublist xs)
    have hplace := hgives []
    rw [List.append_nil] at hplace
    obtain ⟨-, -, hlocated⟩ := p.place_located hgood.law (fitsIn_start _) hordered hplace
    intro n hn
    obtain ⟨hspan, hwithin, hapart, -⟩ := hlocated.of_isIn hn
    exact ⟨hspan, hwithin, hapart⟩

/-- A function in the brackets of a call, behind characters of several bytes; and a
string in a block that is not closed. -/
theorem parsed_spans_valid_nested :
    parseProgram "もし x ならば: f(関数(y) を: y と定義する)" = .ok callInBlock ∧
    (∃ n : Node, n.IsIn (.program callInBlock) ∧ n.span = ⟨22, 54⟩ ∧
      n.span.FitsIn "もし x ならば: f(関数(y) を: y と定義する)".toList ∧
      n.children.map Node.span = [⟨29, 30⟩, ⟨35, 38⟩] ∧ ∀ c ∈ n.children, c.span.Within n.span) ∧
    parseProgram "もし あ ならば:\n  い = 「う" =
      .error ⟨.lexical ⟨.unterminatedString, ⟨30, 33⟩⟩, ⟨30, 33⟩⟩ ∧
    Span.FitsIn "もし あ ならば:\n  い = 「う".toList ⟨30, 33⟩ := by
  refine ⟨parseProgram_callInBlock, ?_, ?_⟩
  · have hvalid := parsed_spans_valid "もし x ならば: f(関数(y) を: y と定義する)"
    rw [parseProgram_callInBlock] at hvalid
    -- through the conditional, its block, the call and its argument
    have hin : (Node.function ⟨[⟨"y", ⟨29, 30⟩⟩],
        ⟨[.expr (.ident ⟨"y", ⟨37, 38⟩⟩)], ⟨35, 38⟩⟩, ⟨22, 54⟩⟩).IsIn (.program callInBlock) :=
      .tail (.tail (.tail (.tail (.tail (.tail (.tail .refl
        List.mem_cons_self) List.mem_cons_self) (List.mem_cons_of_mem _ List.mem_cons_self))
        List.mem_cons_self) List.mem_cons_self) (List.mem_cons_of_mem _ List.mem_cons_self))
        List.mem_cons_self
    obtain ⟨hfits, hwithin, -⟩ := hvalid _ hin
    exact ⟨_, hin, rfl, hfits, rfl, hwithin⟩
  · have hvalid := parsed_spans_valid "もし あ ならば:\n  い = 「う"
    have hparse : parseProgram "もし あ ならば:\n  い = 「う" =
        .error ⟨.lexical ⟨.unterminatedString, ⟨30, 33⟩⟩, ⟨30, 33⟩⟩ := by decide +kernel
    rw [hparse] at hvalid
    exact ⟨hparse, hvalid⟩

end Dncl
