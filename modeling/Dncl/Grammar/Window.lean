/-
Dncl/Grammar/Window.lean

The window: two tokens of a program in view, and the tokens still to come.

A feed delivers tokens one by one, either from a text that is scanned on
demand or from a list.  Parsing actions (`Parse`) look at the two tokens in
view and move the window on.  A failed action leaves the window where the
failure was found, so that parsing can be taken up again from there.
-/
import Dncl.Grammar.Error
import Dncl.Syntax
import Dncl.Token.Stream

namespace Dncl

/-! ### Feeds -/

/-- Where tokens come from. -/
inductive Feed where
  /-- A text, scanned token by token. -/
  | text (scanner : Scanner)
  /-- Tokens and faults that were found before. -/
  | items (rest : List (Except LexError Lexeme))

namespace Feed

/-- The next token or fault, if there is one, and the feed after it. -/
def pull : Feed → Option (Except LexError Lexeme) × Feed
  | text scanner => (some scanner.next.1, text scanner.next.2)
  | items [] => (none, items [])
  | items (item :: rest) => (some item, items rest)

/-- A bound on the tokens that are still to come before the end mark. -/
def bound : Feed → Nat
  | text scanner => scanner.supply
  | items rest => rest.length

end Feed

/-! ### The window -/

/-- Two tokens in view, and what comes after them. -/
structure Window where
  /-- The token to be read next. -/
  current : Lexeme
  /-- The token after it. -/
  next : Lexeme
  /-- Whether the last block ended with its lines, so that the statement that
  owns it needs no further end. -/
  closedBlock : Bool
  feed : Feed
  /-- The greatest end offset of a token so far. -/
  ending : Nat

/-- A parsing action: it gives a result or fails, and moves the window. -/
abbrev Parse : Type → Type :=
  EStateM SyntaxError Window

namespace Parse

variable {α : Type}

/-- Fails at a place. -/
def fail (cause : SyntaxCause) (span : Span) : Parse α :=
  throw ⟨cause, span⟩

/-- The token to be read next. -/
def current : Parse Token :=
  return (← get).current.token

/-- The token after the current one. -/
def peek : Parse Token :=
  return (← get).next.token

/-- The place of the current token. -/
def currentSpan : Parse Span :=
  return (← get).current.span

/-- Records whether the last block ended with its lines. -/
def setClosed (closed : Bool) : Parse Unit :=
  modify fun w => { w with closedBlock := closed }

/-- Moves the window by one token, and gives the token that left it.  After
the last token of a list the end mark is repeated. -/
def advance : Parse Lexeme := fun w =>
  match w.feed.pull with
  | (some (.ok lexeme), feed) =>
    .ok w.current { w with
      current := w.next
      next := lexeme
      feed := feed
      ending := max w.ending lexeme.span.stop }
  | (some (.error fault), feed) =>
    .error ⟨.lexical fault, fault.span⟩ { w with feed := feed }
  | (none, feed) =>
    .ok w.current { w with
      current := w.next
      next := ⟨.eof, ⟨w.ending, w.ending⟩⟩
      feed := feed }

/-- Fails because the current token is none of what was expected. -/
def unexpected (expected : List String) : Parse α := do
  let w ← get
  match w.current.token with
  | .eof => fail .endOfProgram w.current.span
  | .indent => fail .indented w.current.span
  | token => fail (.unexpected token expected) w.current.span

/-- Passes one token, and gives its place. -/
def expect (token : Token) : Parse Span := do
  if (← current) = token then
    return (← advance).span
  else unexpected [token.spelling]

/-- Passes a name. -/
def expectIdent : Parse Ident := do
  match ← current with
  | .ident name => return ⟨name, (← advance).span⟩
  | .eof => fail .endOfProgram (← currentSpan)
  | _ => fail .nameNeeded (← currentSpan)

/-- Passes the end of a statement, if it needs one. -/
def expectStatementEnd : Parse Unit := do
  match ← current with
  | .newline | .symbol .comma => discard advance
  | .dedent | .eof => pure ()
  | _ => if (← get).closedBlock then pure () else unexpected ["改行"]

/-- Passes a line break if the next line goes on with the statement. -/
def skipNewlineIf (continues : Token → Bool) : Parse Unit := do
  if (← current) = .newline && continues (← peek) then discard advance

/-- Passes one token if it is the current one. -/
def skipToken (token : Token) : Parse Unit := do
  if (← current) = token then discard advance

end Parse

namespace Window

/-- The window on the first two tokens of a feed. -/
def ofFeed (feed : Feed) : Except SyntaxError Window :=
  let start : Lexeme := ⟨.eof, ⟨0, 0⟩⟩
  match (do discard Parse.advance; discard Parse.advance : Parse Unit).run
      ⟨start, start, false, feed, 0⟩ with
  | .ok _ w => .ok w
  | .error e _ => .error e

/-- How often the grammar must be unfolded to parse what is left: no phrase
unfolds eight others before it reads a token. -/
def fuel (w : Window) : Nat :=
  8 * (w.feed.bound + 4)

end Window

end Dncl
