/-
Dncl/Grammar.lean

Parsing: the rules of the grammar applied to each other.

`parse n` reads phrases with the grammar unfolded `n` times.  As many times as
`Window.fuel` says are enough for what is left of a program, so the parsers
that are used (`Parse.withRules`) take that many.
-/
import Dncl.Grammar.Phrase

namespace Dncl

/-- Parsers for all phrases, by `n` unfoldings of the grammar. -/
def parse : Nat → Rules
  | 0, _ => do Parse.fail .outOfFuel (← Parse.currentSpan)
  | n + 1, p => rule (parse n) p

/-- Reads with the grammar, unfolded often enough. -/
def Parse.withRules {α : Type} (reader : Rules → Parse α) : Parse α := do
  reader (parse (← get).fuel)

/-- Reads a phrase. -/
def Parse.phrase (p : Phrase) : Parse p.Tree :=
  Parse.withRules fun rules => rules p

/-- The program that a feed of tokens stands for. -/
def parseFeed (feed : Feed) : Except SyntaxError Program :=
  match Window.ofFeed feed with
  | .error e => .error e
  | .ok w =>
    match (Parse.withRules Rules.program).run w with
    | .ok p _ => .ok p
    | .error e _ => .error e

/-- The program that a text stands for. -/
def parseProgram (text : String) : Except SyntaxError Program :=
  parseFeed (.text (Scanner.ofText text))

end Dncl
