/-
Dncl/Proofs/Matching.lean

Blocks close with their own end.

The scanner opens and closes blocks in balance, and what the parser reads between
the two ends of a block is nested in it.  So where the statements of a block have
been read, its own end is in view, and where those of a program have been read, none
is.

Design.  `Nested` says of tokens that they hold whole blocks.  A phrase passes nested
tokens only (`Reads.crosses`, by induction on the derivation); nested tokens close as
many blocks as they open.  Before the end of a block more blocks have been opened than
closed, and before the end mark as many (`Ledger`): the two accounts leave one token
that can be in view.
-/
import Dncl.Proofs.Blocks
import Dncl.Proofs.Headway

namespace Dncl

/-! ### Nested tokens -/

/-- The tokens hold whole blocks: every block that is opened among them is closed
among them, and no other. -/
inductive Nested : List Token → Prop
  | nil : Nested []
  | plain {t : Token} {ts : List Token} : t ≠ .indent → t ≠ .dedent → Nested ts → Nested (t :: ts)
  | block {ts us : List Token} : Nested ts → Nested us → Nested (.indent :: (ts ++ .dedent :: us))

namespace Nested

variable {ts us : List Token}

theorem append (h : Nested ts) (h' : Nested us) : Nested (ts ++ us) := by
  induction h with
  | nil => exact h'
  | plain hindent hdedent _ ih => exact .plain hindent hdedent ih
  | block h _ _ ih =>
    rw [List.cons_append, List.append_assoc]
    exact .block h ih

theorem count_eq (h : Nested ts) : ts.count .dedent = ts.count .indent := by
  induction h with
  | nil => rfl
  | plain hindent hdedent _ ih =>
    rw [List.count_cons_of_ne hindent, List.count_cons_of_ne hdedent, ih]
  | block _ _ ih ih' =>
    simp only [List.count_cons, List.count_append, ih, ih']
    simp
    omega

end Nested

/-- The tokens `ts` are nested ones and then `ts'`. -/
def Crosses (ts ts' : List Token) : Prop :=
  ∃ inner, Nested inner ∧ ts = inner ++ ts'

namespace Crosses

variable {t : Token} {ts ts' ts'' : List Token}

theorem refl (ts : List Token) : Crosses ts ts :=
  ⟨[], .nil, rfl⟩

theorem trans (h : Crosses ts ts') (h' : Crosses ts' ts'') : Crosses ts ts'' := by
  obtain ⟨us, hus, rfl⟩ := h
  obtain ⟨vs, hvs, rfl⟩ := h'
  exact ⟨us ++ vs, hus.append hvs, (List.append_assoc us vs ts'').symm⟩

theorem cons (hindent : t ≠ .indent) (hdedent : t ≠ .dedent) (ts : List Token) :
    Crosses (t :: ts) ts :=
  ⟨[t], .plain hindent hdedent .nil, rfl⟩

theorem block (h : Crosses ts (.dedent :: ts')) : Crosses (.indent :: ts) ts' := by
  obtain ⟨us, hus, rfl⟩ := h
  exact ⟨.indent :: (us ++ [.dedent]), hus.block .nil, by simp⟩

theorem passToken (hindent : t ≠ .indent) (hdedent : t ≠ .dedent) (ts : List Token) :
    Crosses ts (passToken t ts) := by
  rw [Dncl.passToken]
  split
  · rename_i hnow
    cases ts with
    | nil => exact .refl _
    | cons u ts =>
      obtain rfl : u = t := hnow
      exact .cons hindent hdedent ts
  · exact .refl ts

theorem passBreak (continues : Token → Bool) (ts : List Token) :
    Crosses ts (passBreak continues ts) := by
  rw [Dncl.passBreak]
  split
  · rename_i hbreak
    obtain ⟨rest, rfl⟩ := eq_cons_of_inView hbreak.1 (by simp)
    exact .cons (by simp) (by simp) rest
  · exact .refl ts

theorem dropBreaks (ts : List Token) : Crosses ts (ts.dropWhile (· = .newline)) := by
  induction ts with
  | nil => exact .refl _
  | cons t ts ih =>
    by_cases hbreak : t = .newline
    · subst hbreak
      rw [List.dropWhile_cons_of_pos (by simp)]
      exact (Crosses.cons (by simp) (by simp) ts).trans ih
    · rw [List.dropWhile_cons_of_neg (by simpa using hbreak)]
      exact .refl _

theorem passEnd {closed : Bool} (h : passEnd closed ts = some ts') : Crosses ts ts' := by
  rcases passEnd_eq_some.1 h with (rfl | rfl) | ⟨rfl, -⟩
  · exact .cons (by simp) (by simp) _
  · exact .cons (by simp) (by simp) _
  · exact .refl _

end Crosses

/-- **A phrase passes no part of a block without the rest.** -/
theorem Reads.crosses {f : Form} {c c' : Bool} {ts ts' : List Token} {t : f.Tree}
    (h : Reads f c ts t c' ts') : Crosses ts ts' := by
  have hcounting (direction : Direction) :
      direction.countingToken ≠ .indent ∧ direction.countingToken ≠ .dedent := by
    cases direction <;> simp [Direction.countingToken]
  have hchanging (direction : Direction) :
      direction.changingToken ≠ .indent ∧ direction.changingToken ≠ .dedent := by
    cases direction <;> simp [Direction.changingToken]
  have hoperator {op : Token} (h : op.isOperator = true) : op ≠ .indent ∧ op ≠ .dedent := by
    constructor <;> rintro rfl <;> cases h
  induction h <;>
    grind [→ Crosses.trans, Crosses.refl, Crosses.cons, → Crosses.block, Crosses.passToken,
      Crosses.passBreak, Crosses.dropBreaks, → Crosses.passEnd]

/-! ### The accounts of a text -/

namespace Scanner

/-- What is yielded first is what the first calls find. -/
theorem calls_of_stream {s : Scanner} {ts : List Token} {r : Stream}
    (h : s.stream = .prepend ts r) :
    ∃ xs : List Lexeme, (s.calls ts.length).1 = xs.map .ok ∧ xs.map Lexeme.token = ts := by
  induction ts generalizing s with
  | nil => exact ⟨[], rfl, rfl⟩
  | cons t ts ih =>
    obtain ⟨x, u, hnext, rfl, hrest⟩ := next_of_stream (congrFun h 0)
    rw [h, Stream.prepend, Stream.tail_cons] at hrest
    obtain ⟨xs, hcalls, htokens⟩ := ih hrest
    refine ⟨x :: xs, ?_, congrArg (x.token :: ·) htokens⟩
    rw [List.length_cons, calls, hnext, List.map_cons, hcalls]

theorem opened_map (xs : List Lexeme) :
    opened (xs.map .ok) = (xs.map Lexeme.token).count .indent := by
  rw [opened, List.countP_map, List.count, List.countP_map]
  rfl

theorem closed_map (xs : List Lexeme) :
    closed (xs.map .ok) = (xs.map Lexeme.token).count .dedent := by
  rw [closed, List.countP_map, List.count, List.countP_map]
  rfl

variable {text : String} {ts : List Token} {r : Stream}

/-- At no place of a text have more blocks been closed than opened. -/
theorem count_le_of_stream (h : (ofText text).stream = .prepend ts r) :
    ts.count .dedent ≤ ts.count .indent := by
  obtain ⟨xs, hcalls, rfl⟩ := calls_of_stream h
  have hle := (ledger_calls text (xs.map Lexeme.token).length).closed_le
  rwa [hcalls, opened_map, closed_map] at hle

/-- Behind the end mark all blocks are closed. -/
theorem count_eq_of_stream (h : (ofText text).stream = .prepend (ts ++ [.eof]) r) :
    ts.count .dedent = ts.count .indent := by
  obtain ⟨xs, hcalls, htokens⟩ := calls_of_stream h
  obtain ⟨x, hx, heof⟩ := List.mem_map.1 (htokens ▸ List.mem_append_right ts List.mem_cons_self)
  have heq := (ledger_calls text (ts ++ [Token.eof]).length).opened_eq
    (hcalls ▸ List.mem_map_of_mem hx) heof
  rw [hcalls, opened_map, closed_map, htokens, List.count_append, List.count_append] at heq
  exact heq.symm

end Scanner

/-! ### Windows on a text -/

/-- A stream that is over stays so. -/
theorem Stream.exists_prepend {t : Token} {ts : List Token} {r s : Stream} (hs : s.IsOver)
    (h : prepend ts s = cons t r) : ∃ ts', prepend ts' s = r := by
  cases ts with
  | cons u ts => exact ⟨ts, congrArg tail h⟩
  | nil =>
    rcases hs with rfl | ⟨fault, hfault⟩
    · exact ⟨[], congrArg tail h⟩
    · have hfirst : (.error fault : Except LexError Token) = .ok t :=
        hfault.symm.trans (congrFun h 0)
      cases hfirst

/-- The window stands in the text, behind the tokens `before`. -/
def Window.StandsBehind (w : Window) (text : String) (before : List Token) : Prop :=
  (Scanner.ofText text).stream = .prepend before w.stream

namespace Window.StandsBehind

variable {text : String} {w w' : Window} {before inner : List Token}

theorem ofFeed (h : Window.ofFeed (.text (.ofText text)) = .ok w) : w.StandsBehind text [] :=
  (Window.stream_ofFeed h).2.symm

theorem advance {x : Lexeme} (h : w.StandsBehind text before)
    (done : Parse.advance w = .ok x w') : w'.StandsBehind text (before ++ [x.token]) := by
  obtain ⟨rfl, -, hstream⟩ := Parse.advance_eq_ok done
  rw [StandsBehind, Stream.prepend_append, hstream]
  exact h

theorem shows (h : w.StandsBehind text before) : ∃ ts s, w.Shows w.closedBlock ts s := by
  obtain ⟨ts, s, hover, hstream, -⟩ := Scanner.inOrder (Scanner.isReading_ofText text)
  rw [StandsBehind, hstream] at h
  clear hstream
  induction before generalizing ts with
  | nil => exact ⟨ts, s, hover, rfl, h.symm⟩
  | cons t before ih =>
    obtain ⟨ts', h'⟩ := Stream.exists_prepend hover h
    exact ih ts' h'

/-- Statements are nested tokens, up to one at which they stop. -/
theorem statements {n : Nat} {stops : List Token} {body : List Stmt}
    (h : w.StandsBehind text before) (done : parse n (.statements stops) w = .ok body w') :
    ∃ inner, Nested inner ∧ w.stream = .prepend inner w'.stream ∧
      w'.StandsBehind text (before ++ inner) ∧ w'.current.token ∈ stops := by
  obtain ⟨ts, s, hw⟩ := h.shows
  obtain ⟨c', ts', hw', hread⟩ := (parse_faithful n).statements stops hw done
  obtain ⟨inner, hinner, rfl⟩ := hread.crosses
  have hstream : w.stream = .prepend inner w'.stream := by
    rw [hw.stream, hw'.stream, Stream.prepend_append]
  refine ⟨inner, hinner, hstream, ?_, ?_⟩
  · rw [StandsBehind, Stream.prepend_append, ← hstream]
    exact h
  · rw [hw'.current]
    exact hread.inView_mem

/-- The token in view is passed in the text. -/
theorem stream_eq (h : w.StandsBehind text before) {t : Token} (ht : w.current.token = t) :
    (Scanner.ofText text).stream = .prepend (before ++ [t]) w.stream.tail := by
  rw [Stream.prepend_append, ← ht]
  exact h

/-- The text does not end within a block. -/
theorem current_ne_eof (h : w.StandsBehind text before)
    (h' : w'.StandsBehind text (before ++ .indent :: inner)) (hinner : Nested inner) :
    w'.current.token ≠ .eof := by
  intro heof
  have hle := Scanner.count_le_of_stream h
  have heq := Scanner.count_eq_of_stream (h'.stream_eq heof)
  rw [List.count_append, List.count_append, List.count_cons_self,
    List.count_cons_of_ne (by simp), hinner.count_eq] at heq
  omega

/-- Outside of all blocks none ends. -/
theorem current_ne_dedent (h : w.StandsBehind text inner) (hinner : Nested inner) :
    w.current.token ≠ .dedent := by
  intro hdedent
  have hle := Scanner.count_le_of_stream (h.stream_eq hdedent)
  rw [List.count_append, List.count_append, hinner.count_eq] at hle
  exact absurd hle (by simp)

end Window.StandsBehind

/-! ### Passing the end of a block -/

/-- A token that is in view is passed, unless a fault comes into view. -/
theorem Parse.expect_of_current {w : Window} {t : Token} (h : w.current.token = t) :
    (∃ w', expect t w = .ok w.current.span w') ∨
      ∃ fault w', w.stream 2 = .error fault ∧
        expect t w = .error ⟨.lexical fault, fault.span⟩ w' := by
  have hexpect : expect t w = (advance >>= fun x => pure x.span : Parse Span) w := by
    show (if w.current.token = t then _ else _ : Parse Span) w = _
    rw [if_pos h]
  cases hthird : w.stream 2 with
  | ok u =>
    obtain ⟨x, w', hpass⟩ := exists_advance hthird
    obtain ⟨rfl, -, -⟩ := advance_eq_ok hpass
    exact .inl ⟨w', hexpect.trans (bind_of_ok hpass)⟩
  | error fault =>
    have hpull : w.feed.pull.1 = some (.error fault) := by
      have hitem : w.feed.item = .error fault := hthird
      rw [Feed.item] at hitem
      split at hitem <;> cases hitem
      assumption
    exact .inr ⟨fault, _, rfl, hexpect.trans (bind_of_error (advance_of_fault hpull))⟩

theorem Rules.exists_program {rules : Rules} {w w' : Window} {body : List Stmt}
    (hbody : rules (.statements [.eof, .dedent]) w = .ok body w')
    (hlast : w'.current.token ≠ .dedent) : ∃ p, rules.program w = .ok p w' := by
  show ∃ p, (rules (.statements [.eof, .dedent]) >>= _ : Parse Program) w = .ok p w'
  rw [Parse.bind_of_ok hbody]
  show ∃ p, (if w'.current.token = .dedent then _ else _ : Parse Program) w' = .ok p w'
  rw [if_neg hlast]
  cases body.head? <;> cases body.getLast? <;> exact ⟨_, rfl⟩

/-- No program is said to end at the end of a block. -/
theorem parseProgram_ne_stray (text : String) (token : Token) (span : Span) :
    parseProgram text ≠ .error ⟨.unexpected token ["文"], span⟩ := by
  intro h
  rw [parseProgram, parseFeed] at h
  rcases Window.ofFeed_brings (brings_of_text text) with
    ⟨fault, -, hfail⟩ | ⟨-, w, hopen, -, hw⟩
  · rw [hfail] at h
    cases h
  · rw [hopen] at h
    dsimp only at h
    -- the window beside itself, where no program may end so
    have hbeside : Pace.Beside { Pace.facing True fun _ => True with Stray := False } _ w w :=
      ⟨rfl, _, _, hw, hw, .refl _, rfl, fun _ _ => trivial⟩
    have hagree := (agree_fuel hbeside).statements hbeside (Nat.le_refl _) [.eof, .dedent]
    rcases Parse.Alike.cases hagree with
      ⟨body, -, w', -, -, hbody, -⟩ | ⟨e, -, w', -, hfail, -, -, hgenuine, -⟩
    · obtain ⟨inner, hinner, -, hstands, -⟩ :=
        (Window.StandsBehind.ofFeed hopen).statements hbody
      obtain ⟨p, hp⟩ := Rules.exists_program hbody (hstands.current_ne_dedent hinner)
      have hrun : (Parse.withRules Rules.program).run w = .ok p w' := hp
      rw [hrun] at h
      cases h
    · have hprogram : (parse w.fuel).program w = .error e w' := Parse.bind_of_error hfail
      have hrun : (Parse.withRules Rules.program).run w = .error e w' := hprogram
      rw [hrun] at h
      cases h
      exact hgenuine.stray token rfl

/-! ### Main result -/

/-- **Blocks close with their own end.**  Let a window stand anywhere in a text.

* Every window that parsing opens or moves by a token stands in the text.
* If it passes the start of a block and the statements of the block are read, what was
  passed since is nested, so that the end in view is that of the block.  This end is
  passed, or a fault of scanning comes into view two tokens behind it, and the failure
  is that fault.
* Where the statements of the whole program have been read no block ends, and no
  program is said to end at the end of a block. -/
theorem blocks_close_with_own_end (text : String) :
    (∀ w, Window.ofFeed (.text (.ofText text)) = .ok w → w.StandsBehind text []) ∧
    (∀ before w x w', w.StandsBehind text before → Parse.advance w = .ok x w' →
      w'.StandsBehind text (before ++ [x.token])) ∧
    (∀ before w x w₁ n body w₂, w.StandsBehind text before → Parse.advance w = .ok x w₁ →
      x.token = .indent → parse n (.statements [.dedent, .eof]) w₁ = .ok body w₂ →
      (∃ inner, Nested inner ∧ w₁.stream = .prepend inner w₂.stream) ∧
      w₂.current.token = .dedent ∧
      ((∃ w₃, Parse.expect .dedent w₂ = .ok w₂.current.span w₃) ∨
        ∃ fault w₃, w₂.stream 2 = .error fault ∧
          Parse.expect .dedent w₂ = .error ⟨.lexical fault, fault.span⟩ w₃)) ∧
    (∀ w n body w', Window.ofFeed (.text (.ofText text)) = .ok w →
      parse n (.statements [.eof, .dedent]) w = .ok body w' → w'.current.token = .eof) ∧
    ∀ token span, parseProgram text ≠ .error ⟨.unexpected token ["文"], span⟩ := by
  refine ⟨fun w => .ofFeed, fun before w x w' h => h.advance, ?_, ?_, parseProgram_ne_stray text⟩
  · intro before w x w₁ n body w₂ h hpass hindent hbody
    obtain ⟨inner, hinner, hstream, hstands, hstop⟩ := (h.advance hpass).statements hbody
    rw [hindent, List.append_assoc] at hstands
    have hdedent : w₂.current.token = .dedent := by
      simpa [h.current_ne_eof hstands hinner] using hstop
    exact ⟨⟨inner, hinner, hstream⟩, hdedent, Parse.expect_of_current hdedent⟩
  · intro w n body w' hopen hbody
    obtain ⟨inner, hinner, -, hstands, hstop⟩ := (Window.StandsBehind.ofFeed hopen).statements hbody
    simpa [hstands.current_ne_dedent hinner] using hstop

/-- The window with these tokens in view, and what is left to the scanner. -/
def Window.onText (current next : Lexeme) (s : Scanner) : Window :=
  ⟨current, next, false, .text s, s.pos⟩

/-- The window before a block of one statement, with the text behind the line after
it. -/
def Window.atBlock (later : List Char) : Window :=
  .onText ⟨.indent, ⟨2, 4⟩⟩ ⟨.ident "a", ⟨4, 5⟩⟩
    { rest := '\n' :: 'b' :: later, pos := 5, indents := [2, 0], lineStart := false,
      lineUsed := true }

/-- The window before the statement of the block. -/
def Window.inBlock (later : List Char) : Window :=
  .onText ⟨.ident "a", ⟨4, 5⟩⟩ ⟨.newline, ⟨5, 6⟩⟩
    { rest := 'b' :: later, pos := 6, indents := [2, 0] }

/-- The window behind the statement of the block. -/
def Window.behindBlock (later : List Char) : Window :=
  .onText ⟨.dedent, ⟨6, 6⟩⟩ ⟨.ident "b", ⟨6, 7⟩⟩
    { rest := later, pos := 7, lineStart := false, lineUsed := true }

theorem Window.standsBehind_atBlock {later : List Char} (h : later = [] ∨ later = " \"".toList) :
    (Window.atBlock later).StandsBehind (.ofList (":\n  a\nb".toList ++ later))
      [.symbol .colon, .newline] := by
  have hopen : Window.ofFeed (.text { rest := ":\n  a\nb".toList ++ later }) =
      .ok (.onText ⟨.symbol .colon, ⟨0, 1⟩⟩ ⟨.newline, ⟨1, 2⟩⟩
        { rest := "  a\nb".toList ++ later, pos := 2 }) := by
    rcases h with rfl | rfl <;> decide +kernel
  have hcolon : Parse.advance (.onText ⟨.symbol .colon, ⟨0, 1⟩⟩ ⟨.newline, ⟨1, 2⟩⟩
        { rest := "  a\nb".toList ++ later, pos := 2 }) =
      .ok ⟨.symbol .colon, ⟨0, 1⟩⟩ (.onText ⟨.newline, ⟨1, 2⟩⟩ ⟨.indent, ⟨2, 4⟩⟩
        { rest := "a\nb".toList ++ later, pos := 4, indents := [2, 0], lineStart := false }) := by
    rcases h with rfl | rfl <;> decide +kernel
  have hbreak : Parse.advance (.onText ⟨.newline, ⟨1, 2⟩⟩ ⟨.indent, ⟨2, 4⟩⟩
        { rest := "a\nb".toList ++ later, pos := 4, indents := [2, 0], lineStart := false }) =
      .ok ⟨.newline, ⟨1, 2⟩⟩ (.atBlock later) := by
    rcases h with rfl | rfl <;> decide +kernel
  have htext : Scanner.ofText (.ofList (":\n  a\nb".toList ++ later)) =
      { rest := ":\n  a\nb".toList ++ later } := by
    rw [Scanner.ofText, String.toList_ofList]
  exact ((StandsBehind.ofFeed (htext ▸ hopen)).advance hcolon).advance hbreak

/-- A block and another line behind it: the end of the block is passed. -/
theorem blocks_close_with_own_end_line :
    ∃ x body w', Parse.advance (.atBlock []) = .ok x (.inBlock []) ∧ x.token = .indent ∧
      parse 9 (.statements [.dedent, .eof]) (.inBlock []) = .ok body (.behindBlock []) ∧
      Parse.expect .dedent (.behindBlock []) = .ok ⟨6, 6⟩ w' := by
  have hindent : Parse.advance (.atBlock []) = .ok ⟨.indent, ⟨2, 4⟩⟩ (.inBlock []) := by decide +kernel
  have hbody : parse 9 (.statements [.dedent, .eof]) (.inBlock []) =
      .ok [.expr (.ident ⟨"a", ⟨4, 5⟩⟩)] (.behindBlock []) := by decide +kernel
  obtain ⟨-, -, ⟨w', hpassed⟩ | ⟨fault, -, hfault, -⟩⟩ :=
    (blocks_close_with_own_end _).2.2.1 _ _ _ _ 9 _ _ (Window.standsBehind_atBlock (.inl rfl)) hindent
      rfl hbody
  · exact ⟨_, _, w', hindent, rfl, hbody, hpassed⟩
  · have hthird : (Window.behindBlock []).stream 2 = .ok .newline := by decide +kernel
    cases hthird.symm.trans hfault

/-- **The end of a block is not always passed.**  Behind the same block stands a line
with a string that is not closed.  The end of the block is in view, and yet the parser
that expects it fails. -/
theorem block_end_refused :
    (Window.atBlock " \"".toList).StandsBehind ":\n  a\nb \"" [.symbol .colon, .newline] ∧
      ∃ x body w', Parse.advance (.atBlock " \"".toList) = .ok x (.inBlock " \"".toList) ∧
        x.token = .indent ∧
        parse 9 (.statements [.dedent, .eof]) (.inBlock " \"".toList) =
          .ok body (.behindBlock " \"".toList) ∧
        (Window.behindBlock " \"".toList).current.token = .dedent ∧
        Parse.expect .dedent (.behindBlock " \"".toList) =
          .error ⟨.lexical ⟨.unterminatedString, ⟨8, 9⟩⟩, ⟨8, 9⟩⟩ w' := by
  refine ⟨Window.standsBehind_atBlock (.inr rfl), ⟨.indent, ⟨2, 4⟩⟩,
    [.expr (.ident ⟨"a", ⟨4, 5⟩⟩)], ⟨⟨.dedent, ⟨6, 6⟩⟩, ⟨.ident "b", ⟨6, 7⟩⟩, false,
      .text { rest := [], pos := 9, lineStart := false, lineUsed := true }, 7⟩,
    ?_, rfl, ?_, rfl, ?_⟩
  · decide +kernel
  · decide +kernel
  · decide +kernel

end Dncl
