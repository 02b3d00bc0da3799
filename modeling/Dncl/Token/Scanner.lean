/-
Dncl/Token/Scanner.lean

The scanner: a program text as a stream of tokens, by the offside rule.

Design.  A scanner holds the text not yet read and what it knows about the
lines before: the widths of the open blocks, the number of open brackets, and
whether the current line has a token already.  One step (`Scanner.step`)
either yields a token or a fault, or merely moves on; `Scanner.next` repeats
the step until something is yielded.

* At the start of a line its margin is measured.  A wider margin than that of
  the innermost open block opens a block, a narrower one closes blocks until
  one of its width is found.  Blank lines and comment lines do neither.
* A line break ends a line only if the line has a token and no bracket is
  open.
* At the end of the text the last line is ended and all blocks are closed;
  from then on every further token is the end mark.

A fault does not end the stream: reading goes on where the fault left the
scanner.  A character that begins no token is never passed.

Offsets, depths and widths are natural numbers.  In words of 32 bits they would
end at `2 ^ 32` bytes and at margins of `2 ^ 32` columns; what is said here is
meant for texts within both limits, as every text of fewer than `2 ^ 30` bytes is.

Each step that yields nothing lowers `Scanner.effort`, and each token other
than the end mark lowers `Scanner.supply`; so both loops end.
-/
import Dncl.Text.Blank
import Dncl.Text.Utf8
import Dncl.Token.Error
import Dncl.Token.Literal
import Dncl.Token.Mark
import Dncl.Token.Word

namespace Dncl

/-! ### The state -/

/-- A program text that is being read. -/
structure Scanner where
  /-- The text not yet read. -/
  rest : List Char
  /-- The offset of `rest` in the text, in bytes. -/
  pos : Nat := 0
  /-- How many brackets are open. -/
  depth : Nat := 0
  /-- The margins of the open blocks, the innermost first; the last is 0. -/
  indents : List Nat := [0]
  /-- Whether a margin comes next. -/
  lineStart : Bool := true
  /-- Whether the line has a token already. -/
  lineUsed : Bool := false
  /-- Whether the end of the text has been seen. -/
  ended : Bool := false
  /-- Tokens that were found and not yet yielded. -/
  pending : List Lexeme := []

/-- What one step of the scanner comes to. -/
inductive Progress where
  /-- Nothing yet. -/
  | again (s : Scanner)
  /-- A token, or a fault. -/
  | emit (result : Except LexError Lexeme) (s : Scanner)

namespace Scanner

/-- The scanner at the start of a text. -/
def ofText (text : String) : Scanner :=
  { rest := text.toList }

/-- The scanner after it took some characters. -/
def after (s : Scanner) {α : Type} (r : Reading α) : Scanner :=
  { s with rest := r.rest, pos := s.pos + Text.byteSize r.taken }

/-- The scanner after the longest run of characters that satisfy `p`. -/
def skipWhile (s : Scanner) (p : Char → Bool) : Scanner :=
  s.after ⟨(), s.rest.takeWhile p, s.rest.dropWhile p⟩

/-! ### Lines -/

/-- The width of a character of the margin: blanks, and the rulers that are
printed along a block. -/
def marginWidth? (c : Char) : Option Nat :=
  if c = ' ' then some 1
  else if c = '\t' then some 4
  else if c = '　' then some 2
  else if c = '|' || c = '｜' || c = '│' || c = '⎿' || c = '└' then some 1
  else none

/-- Whether `c` may stand in a margin. -/
def isMargin (c : Char) : Bool :=
  (marginWidth? c).isSome

/-- The width of a margin. -/
def marginWidth (cs : List Char) : Nat :=
  (cs.map fun c => (marginWidth? c).getD 0).foldr (· + ·) 0

/-- Whether a comment begins here. -/
def startsComment : List Char → Bool
  | '#' :: _ | '＃' :: _ | '/' :: '/' :: _ => true
  | _ => false

/-- Whether a line has nothing after its margin: it ends, or a comment
begins. -/
def isBare : List Char → Bool
  | [] | '\n' :: _ | '\r' :: _ => true
  | cs => startsComment cs

/-- The width of the margin at the start of a line. -/
def lineWidth (s : Scanner) : Nat :=
  marginWidth (s.rest.takeWhile isMargin)

/-- The scanner behind the margin of its line. -/
def pastMargin (s : Scanner) : Scanner :=
  { s with
    rest := s.rest.dropWhile isMargin
    pos := s.pos + Text.byteSize (s.rest.takeWhile isMargin)
    lineStart := false }

/-- Opens a block of the given width, whose margin was read since `start`. -/
def openBlock (s : Scanner) (start width : Nat) : Scanner :=
  { s with
    indents := width :: s.indents
    pending := [⟨.indent, ⟨start, s.pos⟩⟩] }

/-- The open margins that are not wider than `width`. -/
def marginsUpTo (width : Nat) (indents : List Nat) : List Nat :=
  indents.dropWhile (width < ·)

/-- Closes the blocks that are wider than `width`. -/
def closeBlocks (s : Scanner) (width : Nat) : Scanner :=
  { s with
    indents := marginsUpTo width s.indents
    pending := List.replicate (s.indents.length - (marginsUpTo width s.indents).length)
      ⟨.dedent, ⟨s.pos, s.pos⟩⟩ }

/-- Measures the margin at the start of a line, and opens or closes blocks
accordingly. -/
def beginLine (s : Scanner) : Progress :=
  if isBare s.pastMargin.rest then .again s.pastMargin
  else if s.indents.headD 0 < s.lineWidth then
    .again (s.pastMargin.openBlock s.pos s.lineWidth)
  else if (marginsUpTo s.lineWidth s.indents).headD 0 = s.lineWidth then
    .again (s.pastMargin.closeBlocks s.lineWidth)
  else
    .emit (.error ⟨.unevenIndent, ⟨s.pos, s.pastMargin.pos⟩⟩)
      (s.pastMargin.closeBlocks s.lineWidth)

/-- Ends the last line and closes all blocks. -/
def finish (s : Scanner) : Scanner :=
  let place : Span := ⟨s.pos, s.pos⟩
  { s with
    ended := true
    lineUsed := false
    indents := s.indents.drop (s.indents.length - 1)
    pending := (if s.lineUsed then [⟨.newline, place⟩] else [])
      ++ List.replicate (s.indents.length - 1) ⟨.dedent, place⟩ }

/-! ### Tokens within a line -/

/-- The blanks between the tokens of a line. -/
def isGap (c : Char) : Bool :=
  c == ' ' || c == '\t' || c == '\r' || c == '　'

/-- The span from where `s` stands to where `t` stands. -/
def spanTo (s t : Scanner) : Span :=
  ⟨s.pos, t.pos⟩

/-- Reads an integer. -/
def readInteger (s : Scanner) : Except LexError Lexeme × Scanner :=
  let r := readTally s.rest
  let t := s.after r
  if r.value.overflow then (.error ⟨.integerTooLarge, s.spanTo t⟩, t)
  else (.ok ⟨.int r.value.value, s.spanTo t⟩, t)

/-- Reads a string that opens with the quote `quote`, up to `close`. -/
def readQuoted (s : Scanner) (quote close : Char) (cs : List Char) :
    Except LexError Lexeme × Scanner :=
  let r := readString close cs
  let t := s.after ⟨(), quote :: r.taken, r.rest⟩
  match r.value with
  | some value => (.ok ⟨.str (String.ofList value), s.spanTo t⟩, t)
  | none => (.error ⟨.unterminatedString, ⟨s.pos, s.pos + quote.utf8Size⟩⟩, t)

/-- Reads a command that opens with the bracket `bracket`. -/
def readBracketed (s : Scanner) (bracket : Char) (cs : List Char) :
    Except LexError Lexeme × Scanner :=
  let r := readCommand cs
  let t := s.after ⟨(), bracket :: r.taken, r.rest⟩
  match r.value with
  | some value => (.ok ⟨.command (String.ofList (Text.trim value)), s.spanTo t⟩, t)
  | none => (.error ⟨.unterminatedCommand, ⟨s.pos, s.pos + bracket.utf8Size⟩⟩, t)

/-- Reads the token that begins with `c` and goes on in `cs`. -/
def readToken (s : Scanner) (c : Char) (cs : List Char) : Except LexError Lexeme × Scanner :=
  if c = '"' then s.readQuoted c '"' cs
  else if c = '「' then s.readQuoted c '」' cs
  else if c = '【' then s.readBracketed c cs
  else if isDigit c then s.readInteger
  else
    match readMark? c cs with
    | some r =>
      let t := { s.after r with depth := bracketDepth s.depth r.value }
      (.ok ⟨.symbol r.value, s.spanTo t⟩, t)
    | none =>
      if isNameStart c then
        let r := readWord c cs
        let t := s.after r
        (.ok ⟨r.value, s.spanTo t⟩, t)
      else (.error ⟨.unrecognized c, ⟨s.pos, s.pos + c.utf8Size⟩⟩, s)

/-- Reads on within a line, where a token, a comment or the end of the line
comes next. -/
def readOn (s : Scanner) : Progress :=
  match s.rest with
  | [] => .again s.finish
  | c :: cs =>
    if startsComment (c :: cs) then .again (s.skipWhile (· ≠ '\n'))
    else if c = '\n' then
      let t := s.after ⟨(), [c], cs⟩
      if 0 < s.depth then .again t
      else if s.lineUsed then
        .emit (.ok ⟨.newline, s.spanTo t⟩) { t with lineStart := true, lineUsed := false }
      else .again { t with lineStart := true }
    else
      match s.readToken c cs with
      | (.ok lexeme, t) => .emit (.ok lexeme) { t with lineUsed := true }
      | (.error fault, t) => .emit (.error fault) t

/-! ### Stepping -/

/-- One step: yields a pending token, the end mark, or what comes next in the
text. -/
def step (s : Scanner) : Progress :=
  match s.pending with
  | lexeme :: later => .emit (.ok lexeme) { s with pending := later }
  | [] =>
    if s.ended then .emit (.ok ⟨.eof, ⟨s.pos, s.pos⟩⟩) s
    else if s.lineStart then s.beginLine
    else (s.skipWhile isGap).readOn

/-- A bound on the steps that yield nothing. -/
def effort (s : Scanner) : Nat :=
  3 * s.rest.length + s.lineStart.toNat + (!s.ended).toNat

/-- A bound on the tokens before the end mark. -/
def supply (s : Scanner) : Nat :=
  3 * s.rest.length + s.pending.length + s.indents.length + s.lineUsed.toNat

end Scanner

end Dncl
