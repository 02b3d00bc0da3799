/-
Dncl/Shell/Reply.lean

Replies: what is written about a line, an entry or a state of affairs.
-/
import Dncl.Grammar
import Dncl.Report.Diagnostic
import Dncl.Syntax.Printer
import Dncl.Token.Listing
import Dncl.Token.Stream

namespace Dncl.Reply

/-! ### Status lines -/

/-- What the shell is about to do, or has done. -/
inductive Status where
  | running
  | finished
  | checking
  | checked

/-- The word for a status. -/
def Status.word : Status → String
  | running => "Running"
  | finished => "Finished"
  | checking => "Checking"
  | checked => "Checked"

/-- The number of a status's colour: magenta, green or cyan. -/
def Status.colour : Status → String
  | running => "13"
  | finished | checked => "10"
  | checking => "14"

/-- A status line: the word is set flush right in eleven columns. -/
def statusLine (p : Palette) (status : Status) (text : String) : String :=
  let word := status.word
  p.bold ++ p.escape ("38;5;" ++ status.colour)
    ++ String.ofList (List.replicate (11 - word.length) ' ') ++ word ++ p.reset
    ++ " " ++ text ++ "\n"

/-! ### Tokens and programs -/

/-- A token or a fault in a listing. -/
def listed : Except LexError Lexeme → String
  | .ok l => l.span.text ++ " " ++ l.token.listing ++ "\n"
  | .error fault =>
    "[at " ++ fault.span.text ++ "] Lexical Error: " ++ fault.cause.message ++ "\n"
      ++ String.join (fault.cause.details.map (· ++ "\n"))

/-- The tokens of a line. -/
def tokens (line : String) : String :=
  String.join ((Scanner.ofText line).yields.map listed)

/-- A line as a program in its normal form. -/
def grammar (line : String) : String :=
  match parseProgram line with
  | .ok program => program.text ++ "\n"
  | .error e =>
    "[at " ++ e.span.text ++ "] Parse error: " ++ e.cause.message ++ ".\n\t"
      ++ Text.joinWith ";\n\t" e.cause.details ++ "\n"

/-! ### Entries -/

/-- Whether a line ends with a colon, so that more lines belong to it. -/
def opensBlock (line : List Char) : Bool :=
  match (line.reverse.dropWhile Text.isBlank).head? with
  | some c => c == ':' || c == '：'
  | none => false

end Dncl.Reply
