/-
Dncl/Proofs/Scan.lean

What a scanner yields.

A step that yields nothing does not change the stream of a scanner, and one
that yields a token puts it in front:

    s.step = .again t            →  s.stream = t.stream
    s.step = .emit (.ok x) t     →  s.stream = .cons x.token t.stream

So the tokens of a text are followed step by step, up to the end mark or a
fault, and they are in order (`Layout`).

Design.  Tokens that are pending come off the front of the stream at once, so
only scanners without pending tokens are reasoned about.  Each of their steps
takes characters, or passes the start of a line.
-/
import Dncl.Proofs.Digits
import Dncl.Proofs.Layout
import Dncl.Proofs.Stream
import Mathlib.Data.List.DropRight

namespace Dncl

variable {cs rest : List Char} {c : Char}

namespace Scanner

/-! ### Streams of scanners -/

/-- The stream of what the scanner yields. -/
def stream (s : Scanner) : Stream :=
  (Feed.text s).stream

variable {s t : Scanner}

theorem stream_congr (h : s.next = t.next) : s.stream = t.stream := by
  funext k
  cases k with
  | zero =>
    show (Feed.text s).item = (Feed.text t).item
    rw [Feed.item, Feed.item, Feed.pull, Feed.pull, h]
  | succ k =>
    show (Feed.text s.next.2).stream k = (Feed.text t.next.2).stream k
    rw [h]

theorem next_of_again (h : s.step = .again t) : s.next = t.next := by
  rw [next]
  split
  · rename_i heq
    rw [h] at heq
    cases heq
  · rename_i heq
    rw [h] at heq
    cases heq
    rfl

theorem next_of_emit {result : Except LexError Lexeme} (h : s.step = .emit result t) :
    s.next = (result, t) := by
  rw [next]
  split
  · rename_i heq
    rw [h] at heq
    cases heq
    rfl
  · rename_i heq
    rw [h] at heq
    cases heq

theorem next_of_step (h : s.step = t.step) : s.next = t.next := by
  cases hstep : t.step with
  | again u => rw [next_of_again (h.trans hstep), next_of_again hstep]
  | emit result u => rw [next_of_emit (h.trans hstep), next_of_emit hstep]

theorem stream_of_again (h : s.step = .again t) : s.stream = t.stream :=
  stream_congr (next_of_again h)

theorem stream_of_step (h : s.step = t.step) : s.stream = t.stream :=
  stream_congr (next_of_step h)

theorem stream_of_emit {lexeme : Lexeme} (h : s.step = .emit (.ok lexeme) t) :
    s.stream = .cons lexeme.token t.stream := by
  have hnext := next_of_emit h
  funext k
  cases k with
  | zero =>
    show (Feed.text s).item = .ok lexeme.token
    rw [Feed.item, Feed.pull, hnext]
  | succ k =>
    show (Feed.text s.next.2).stream k = t.stream k
    rw [hnext]
    rfl

theorem stream_of_fault {fault : LexError} (h : s.step = .emit (.error fault) t) :
    s.stream 0 = .error fault := by
  show (Feed.text s).item = .error fault
  rw [Feed.item, Feed.pull, next_of_emit h]

/-- Pending tokens are yielded first. -/
theorem stream_of_pending (s : Scanner) :
    s.stream = .prepend (s.pending.map Lexeme.token) { s with pending := [] }.stream := by
  obtain ⟨rest, pos, depth, indents, lineStart, lineUsed, ended, pending⟩ := s
  induction pending with
  | nil => rfl
  | cons lexeme later ih =>
    rw [stream_of_emit (step_of_pending rfl), ih]
    rfl

theorem stream_of_ended (hp : s.pending = []) (he : s.ended = true) : s.stream = .ended := by
  have hstream := stream_of_emit (step_of_ended hp he)
  funext k
  induction k with
  | zero => exact congrFun hstream 0
  | succ k ih =>
    rw [hstream]
    exact ih

end Scanner

/-! ### What readers read -/

/-- A keyword at the start of a text is there however the text goes on. -/
theorem Keyword.startOf?_of_append (h : Keyword.startOf? (cs ++ rest) = none) :
    Keyword.startOf? cs = none := by
  rw [Keyword.startOf?, List.find?_eq_none] at h ⊢
  intro k hk hstart
  have hprefix : k.spelling.toList <+: cs := by simpa using hstart
  exact h k hk (by simpa using hprefix.trans (List.prefix_append cs rest))

theorem endsName_of_append (h : endsName (c :: (cs ++ rest)) = false) :
    endsName (c :: cs) = false := by
  rw [endsName, Bool.or_eq_false_iff, Bool.and_eq_false_iff] at h ⊢
  refine ⟨h.1, h.2.imp_right fun hkeyword => ?_⟩
  rw [Option.isSome_eq_false_iff, Option.isNone_iff_eq_none] at hkeyword ⊢
  exact Keyword.startOf?_of_append hkeyword

theorem readNameTail_append (cs : List Char) :
    (readNameTail cs).value ++ (readNameTail cs).rest = cs := by
  induction cs with
  | nil => rfl
  | cons c cs ih =>
    rw [readNameTail]
    split
    · rfl
    · exact congrArg (c :: ·) ih

theorem goesOn_readNameTail (cs : List Char) : GoesOn (readNameTail cs).value := by
  induction cs with
  | nil => trivial
  | cons c cs ih =>
    rw [readNameTail]
    split
    · trivial
    · rename_i hgoes
      rw [Bool.not_eq_true, ← readNameTail_append cs] at hgoes
      exact ⟨endsName_of_append hgoes, ih⟩

theorem readWord_isWritten (hstart : isNameStart c = true) (hdigit : isDigit c = false)
    (hmark : Symbol.singles.lookup c = none) : (readWord c cs).value.IsWritten := by
  rw [readWord]
  split
  · trivial
  · rename_i hkeyword
    show IsName (String.ofList (c :: (readNameTail cs).value)).toList
    rw [String.toList_ofList]
    refine ⟨hstart, hdigit, hmark, ?_, goesOn_readNameTail cs⟩
    rw [← readNameTail_append cs, ← List.cons_append] at hkeyword
    exact Keyword.startOf?_of_append hkeyword

theorem readCommand_value {v : List Char} (h : (readCommand cs).value = some v) :
    ∀ c ∈ v, c ≠ '\n' ∧ c ≠ '】' := by
  induction cs generalizing v with
  | nil => cases h
  | cons c cs ih =>
    rw [readCommand] at h
    split at h
    · cases h
    · split at h
      · cases h
        simp
      · rename_i hbreak hclose
        obtain ⟨v', hv', rfl⟩ := Option.map_eq_some_iff.1 h
        intro x hx
        rcases List.mem_cons.1 hx with rfl | hx
        · exact ⟨hbreak, hclose⟩
        · exact ih hv' x hx

theorem Text.trim_eq (cs : List Char) :
    Text.trim cs = (cs.dropWhile Text.isBlank).rdropWhile Text.isBlank :=
  rfl

theorem Text.mem_of_mem_trim (h : c ∈ Text.trim cs) : c ∈ cs :=
  (List.dropWhile_sublist _).mem ((List.rdropWhile_prefix _ _).mem h)

theorem Text.trim_trim (cs : List Char) : Text.trim (Text.trim cs) = Text.trim cs := by
  have hfirst : (Text.trim cs).dropWhile Text.isBlank = Text.trim cs := by
    rw [List.dropWhile_eq_self_iff]
    intro hpos
    -- the first character is that of the text without the blanks before it
    obtain ⟨rest, hrest⟩ : Text.trim cs <+: cs.dropWhile Text.isBlank := List.rdropWhile_prefix _ _
    have hkept := List.dropWhile_get_zero_not Text.isBlank cs
      (hrest ▸ hpos.trans_le (List.length_append ▸ Nat.le_add_right _ _))
    simpa [← hrest, List.getElem_append_left hpos] using hkept
  rw [Text.trim_eq (Text.trim cs), hfirst, Text.trim_eq]
  exact List.rdropWhile_idempotent _ _

theorem readWord_solid (c : Char) (cs : List Char) :
    (readWord c cs).value.isSolid = true ∧ ∀ d, (readWord c cs).value.depthAfter d = d := by
  rw [readWord]
  split
  · exact ⟨rfl, fun _ => rfl⟩
  · exact ⟨rfl, fun _ => rfl⟩

theorem lookup_of_readMark (h : readMark? c cs = none) : Symbol.singles.lookup c = none := by
  rw [readMark?.eq_def] at h
  split at h
  · exact Option.map_eq_none_iff.1 h
  · split at h
    · split at h
      · cases h
      · exact Option.map_eq_none_iff.1 h
    · exact Option.map_eq_none_iff.1 h

namespace Scanner

/-- A token that is read can be written, and counts the brackets. -/
theorem readToken_eq_ok {s t : Scanner} {lexeme : Lexeme} (h : s.readToken c cs = (.ok lexeme, t)) :
    lexeme.token.isSolid = true ∧ lexeme.token.IsWritten ∧
      t = { s with rest := t.rest, pos := t.pos, depth := lexeme.token.depthAfter s.depth } := by
  cases tokenCase_of_eq h with
  | string hquote hvalue ht =>
    subst ht
    exact ⟨rfl, trivial, rfl⟩
  | @command value _ hc hvalue ht =>
    subst ht
    refine ⟨rfl, ?_, rfl⟩
    show IsCommandText (String.ofList (Text.trim value)).toList
    rw [String.toList_ofList]
    exact ⟨fun x hx => readCommand_value hvalue x (Text.mem_of_mem_trim hx), Text.trim_trim value⟩
  | integer hdigit hfits ht =>
    subst ht
    exact ⟨rfl, value_readTally hfits, rfl⟩
  | mark hdigit hmark ht =>
    subst ht
    exact ⟨rfl, trivial, rfl⟩
  | word hdigit hmark hstart ht =>
    subst ht
    obtain ⟨hsolid, hdepth⟩ := readWord_solid c cs
    refine ⟨hsolid, readWord_isWritten hstart hdigit (lookup_of_readMark hmark), ?_⟩
    rw [hdepth]
    rfl

/-! ### Where a token begins -/

/-- A token begins here: neither the end of the line, a comment nor a blank. -/
def OpensToken (cs : List Char) : Prop :=
  isBare cs = false ∧ cs.dropWhile isMargin = cs

theorem OpensToken.exists_cons (h : OpensToken cs) :
    ∃ c rest, cs = c :: rest ∧ isMargin c = false ∧ c ≠ '\n' ∧ c ≠ '\r' ∧
      startsComment cs = false := by
  obtain ⟨hbare, hmargin⟩ := h
  rw [isBare.eq_def] at hbare
  split at hbare
  · cases hbare
  · cases hbare
  · cases hbare
  · rename_i hnil hbreak hreturn
    obtain ⟨c, rest, rfl⟩ := List.exists_cons_of_ne_nil hnil
    refine ⟨c, rest, rfl, ?_, fun heq => hbreak rest (heq ▸ rfl),
      fun heq => hreturn rest (heq ▸ rfl),
      hbare⟩
    rw [List.dropWhile_cons] at hmargin
    split at hmargin
    · have hle := (List.dropWhile_sublist isMargin (l := rest)).length_le
      rw [hmargin, List.length_cons] at hle
      exact absurd hle (Nat.not_succ_le_self _)
    · rename_i hnot
      exact Bool.eq_false_iff.2 hnot

theorem isGap_eq_false (hmargin : isMargin c = false) (hreturn : c ≠ '\r') : isGap c = false := by
  rw [isMargin, marginWidth?.eq_def] at hmargin
  rw [isGap]
  grind

variable {s t : Scanner}

theorem skipWhile_eq_self {p : Char → Bool} (hs : s.rest = c :: cs) (hc : p c = false) :
    s.skipWhile p = s := by
  obtain ⟨rest, pos, depth, indents, lineStart, lineUsed, ended, pending⟩ := s
  obtain rfl : rest = c :: cs := hs
  rw [skipWhile, List.takeWhile_cons_of_neg (by simp [hc]),
    List.dropWhile_cons_of_neg (by simp [hc])]
  rfl

/-- Where a token begins the step reads it. -/
theorem step_of_opensToken (hp : s.pending = []) (he : s.ended = false) (hl : s.lineStart = false)
    (hs : s.rest = c :: cs) (h : OpensToken (c :: cs)) :
    s.step = match s.readToken c cs with
      | (.ok lexeme, t) => .emit (.ok lexeme) { t with lineUsed := true }
      | (.error fault, t) => .emit (.error fault) t := by
  obtain ⟨c, cs, heq, hmargin, hbreak, hreturn, hcomment⟩ := h.exists_cons
  cases heq
  rw [Within.step_eq ⟨hp, he, hl⟩, skipWhile_eq_self hs (isGap_eq_false hmargin hreturn)]
  exact readOn_eq_readToken hs hcomment hbreak

end Scanner

/-! ### The tokens of a text -/

/-- The stream yields tokens in order, and then nothing more; `d` brackets are
open before them. -/
def InOrder (d : Nat) (s : Stream) : Prop :=
  ∃ ts s', s'.IsOver ∧ s = .prepend ts s' ∧ Layout d ts

namespace InOrder

variable {d : Nat} {s : Stream} {t : Token}

theorem of_isOver (h : s.IsOver) : InOrder d s :=
  ⟨[], s, h, rfl, trivial⟩

theorem cons (h : InOrder (t.depthAfter d) s) (ht : t.IsWritten) (hindent : t ≠ .indent)
    (hbreak : t = .newline → d = 0) : InOrder d (.cons t s) := by
  obtain ⟨ts, s', hover, rfl, hlayout⟩ := h
  refine ⟨t :: ts, s', hover, rfl, fun heq => absurd heq hindent, ?_, ht, hlayout⟩
  exact fun heq hpos => absurd (hbreak heq) (Nat.pos_iff_ne_zero.1 hpos)

/-- Blocks are closed anywhere. -/
theorem dedents (h : InOrder d s) (n : Nat) :
    InOrder d (.prepend (List.replicate n .dedent) s) := by
  induction n with
  | zero => exact h
  | succ n ih => exact cons (t := .dedent) ih trivial nofun nofun

/-- The last line ends even inside brackets, since no token follows. -/
theorem lastBreak (d n : Nat) :
    InOrder d (.cons .newline (.prepend (List.replicate n .dedent) .ended)) := by
  obtain ⟨ts, s', hover, hstream, hlayout⟩ :=
    (of_isOver (d := d) (s := .ended) (.inl rfl)).dedents n
  refine ⟨.newline :: ts, s', hover, congrArg (Stream.cons .newline) hstream,
    nofun, fun _ _ => ?_, trivial, hlayout⟩
  have hfirst := congrFun hstream.symm 0
  cases n with
  | zero => rw [Stream.inView_eq hover hfirst, Token.isSolid]
  | succ n => rw [Stream.inView_eq hover hfirst, Token.isSolid]

end InOrder

namespace Scanner

variable {s t : Scanner}

/-- The scanner has not come to the end, and measures margins outside brackets
only. -/
structure IsReading (s : Scanner) : Prop where
  pending : s.pending = []
  ended : s.ended = false
  depth : s.lineStart = true → s.depth = 0

/-- Where a token begins nothing else is yielded first. -/
theorem isSolid_of_opensToken (hp : s.pending = []) (he : s.ended = false)
    (hl : s.lineStart = false) (h : OpensToken s.rest) {ts : List Token} {s' : Stream}
    (hstream : s.stream = .prepend ts s') (hts : ts ≠ []) : (inView ts).isSolid = true := by
  obtain ⟨t, ts, rfl⟩ := List.exists_cons_of_ne_nil hts
  obtain ⟨c, cs, hs, -⟩ := h.exists_cons
  have hstep := step_of_opensToken hp he hl hs (hs ▸ h)
  split at hstep
  · rename_i lexeme u htoken
    have hfirst := congrFun (stream_of_emit hstep) 0
    rw [hstream] at hfirst
    obtain rfl : t = lexeme.token := Except.ok.inj hfirst
    exact (readToken_eq_ok htoken).1
  · rename_i fault u htoken
    have hfault := stream_of_fault hstep
    rw [hstream] at hfault
    cases hfault

/-- What a scanner yields at the start of a line. -/
theorem inOrder_of_margin {p : Progress} (hs : s.IsReading) (hl : s.lineStart = true)
    (hstep : s.step = p) (hcase : MarginCase s p)
    (ih : ∀ t : Scanner, t.IsReading → t.effort < s.effort → InOrder t.depth t.stream) :
    InOrder s.depth s.stream := by
  cases hcase with
  | bare =>
    rw [stream_of_again hstep]
    exact ih s.pastMargin ⟨hs.pending, hs.ended, by rintro ⟨⟩⟩ (effort_lt_of_step hstep)
  | opens hbare =>
    -- a block opens, and a token follows
    have hlt := effort_lt_of_step hstep
    rw [stream_of_again hstep, stream_of_pending]
    obtain ⟨ts, s', hover, hstream, hlayout⟩ :=
      ih { s.pastMargin.openBlock s.pos s.lineWidth with pending := [] }
        ⟨rfl, hs.ended, by rintro ⟨⟩⟩ hlt
    refine ⟨.indent :: ts, s', hover, congrArg (Stream.cons .indent) hstream,
      fun _ => ⟨hs.depth hl, ?_⟩, by simp, trivial, hlayout⟩
    exact isSolid_of_opensToken
      (s := { s.pastMargin.openBlock s.pos s.lineWidth with pending := [] })
      rfl hs.ended rfl ⟨hbare, List.dropWhile_idempotent _ _⟩ hstream
  | closes =>
    have hlt := effort_lt_of_step hstep
    rw [stream_of_again hstep, stream_of_pending, closeBlocks, List.map_replicate]
    have hrest := ih { s.pastMargin.closeBlocks s.lineWidth with pending := [] }
      ⟨rfl, hs.ended, by rintro ⟨⟩⟩ hlt
    exact hrest.dedents _
  | uneven => exact .of_isOver (.inr ⟨_, stream_of_fault hstep⟩)

/-- What a scanner yields at the end of the text: the end of the line, and the
ends of the blocks. -/
theorem inOrder_finish (s : Scanner) : InOrder s.depth s.finish.stream := by
  rw [stream_of_pending, finish, stream_of_ended rfl rfl, List.map_append, List.map_replicate,
    Stream.prepend_append]
  split
  · exact .lastBreak _ _
  · exact (InOrder.of_isOver (.inl rfl)).dedents _

/-- What a scanner yields within a line. -/
theorem inOrder_of_line {p : Progress} (hs : s.IsReading) (hl : s.lineStart = false)
    (hstep : s.step = p) (hcase : LineCase (s.skipWhile isGap) p)
    (ih : ∀ t : Scanner, t.IsReading → t.effort < s.effort → InOrder t.depth t.stream) :
    InOrder s.depth s.stream := by
  have hgap := s.length_rest_skipWhile isGap
  cases hcase with
  | finishes =>
    rw [stream_of_again hstep]
    exact inOrder_finish (s.skipWhile isGap)
  | comment =>
    rw [stream_of_again hstep]
    exact ih _ ⟨hs.pending, hs.ended, hs.depth⟩ (effort_lt_of_step hstep)
  | inner =>
    rw [stream_of_again hstep]
    exact ih _ ⟨hs.pending, hs.ended, hs.depth⟩ (effort_lt_of_step hstep)
  | ends hrest hzero hused ht =>
    subst ht
    rw [stream_of_emit hstep]
    -- a break ends a line only where no bracket is open
    refine .cons (t := .newline) (ih _ ⟨hs.pending, hs.ended, fun _ => hzero⟩ ?_) trivial
      (by simp) fun _ => hzero
    rw [hrest, List.length_cons] at hgap
    simp only [effort, after, skipWhile, hl, Bool.toNat_true, Bool.toNat_false]
    omega
  | empty hrest hzero =>
    rw [stream_of_again hstep]
    exact ih _ ⟨hs.pending, hs.ended, fun _ => hzero⟩ (effort_lt_of_step hstep)
  | token hrest hcomment hbreak htoken =>
    obtain ⟨hsolid, hwritten, hu⟩ := readToken_eq_ok htoken
    obtain ⟨hlength, -⟩ := readToken_ok hrest htoken
    rw [stream_of_emit hstep, hu]
    refine .cons (ih _ ⟨hs.pending, hs.ended, fun hline => ?_⟩ ?_) hwritten
      (Token.ne_of_isSolid hsolid rfl) fun heq => absurd heq (Token.ne_of_isSolid hsolid rfl)
    · exact absurd (hl.symm.trans hline) Bool.false_ne_true
    · rw [hrest, List.length_cons] at hgap
      simp only [effort, skipWhile, after]
      omega
  | fault => exact .of_isOver (.inr ⟨_, stream_of_fault hstep⟩)

/-- A scanner yields tokens in order. -/
theorem inOrder (hs : s.IsReading) : InOrder s.depth s.stream := by
  induction hn : s.effort using Nat.strong_induction_on generalizing s with
  | _ n ih =>
    subst hn
    have ih' : ∀ t : Scanner, t.IsReading → t.effort < s.effort → InOrder t.depth t.stream :=
      fun t ht hlt => ih t.effort hlt ht rfl
    generalize hstep : s.step = p
    cases stepCase_of_eq hstep with
    | waiting hp => exact absurd (hs.pending.symm.trans hp) (List.cons_ne_nil _ _).symm
    | ended hp he => exact absurd (hs.ended.symm.trans he) Bool.false_ne_true
    | margin h hcase => exact inOrder_of_margin hs h.lineStart hstep hcase ih'
    | line h hcase => exact inOrder_of_line hs h.lineStart hstep hcase ih'

theorem isReading_ofText (text : String) : (ofText text).IsReading :=
  ⟨rfl, rfl, fun _ => rfl⟩

end Scanner

end Dncl
