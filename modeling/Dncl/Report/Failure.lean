/-
Dncl/Report/Failure.lean

Failures: all that a user can be told instead of a result.
-/
import Dncl.Grammar.Error
import Dncl.Host
import Dncl.Report.Diagnostic
import Dncl.Report.Excerpt

namespace Dncl

/-- Why reading or writing failed. -/
inductive IoFault where
  | notFound
  | permissionDenied
  | invalidData
  | unexpectedEnd
  | brokenPipe
  | alreadyExists
  | other
  deriving DecidableEq

/-- The text of a fault. -/
def IoFault.message : IoFault → String
  | notFound => "entity not found"
  | permissionDenied => "permission denied"
  | invalidData => "invalid data"
  | unexpectedEnd => "unexpected end of file"
  | brokenPipe => "broken pipe"
  | alreadyExists => "entity already exists"
  | other => "other error"

/-- What went wrong, with the source that it is about. -/
inductive Failure where
  | grammar (path : String) (src : List Char) (error : SyntaxError)
  /-- The program came to a value that is no result. -/
  | runtime (src : List Char) (value : Value)
  | fatal (failure : Fatal)
  | io (fault : IoFault)

namespace Failure

/-- The failure in one line. -/
def headline : Failure → String
  | grammar _ _ _ => "failed to parse source code"
  | runtime _ _ => "program stopped with a runtime error"
  | fatal failure => "evaluation aborted: " ++ failure.message
  | io _ => "IO operation failed"

/-- Where a fault of the grammar is shown: at the end of the source, if the
program ends too early. -/
def shownSpan (src : List Char) (error : SyntaxError) : Span :=
  match error.cause with
  | .endOfProgram => ⟨Text.byteSize src, Text.byteSize src⟩
  | _ => error.span

/-- The title and the message for a value that is no result. -/
def describe : Value → String × String
  | .typeError message _ => ("Type error", message)
  | .error message _ => ("Runtime error", message)
  | _ => ("Runtime error", "unexpected program result")

/-- The report on a failure. -/
def diagnostic : Failure → Diagnostic
  | grammar path src error =>
    { title := "Syntax error"
      text := Text.joinWith "\n" error.cause.details
      location := some ⟨path, src, ⟨error.cause.message, shownSpan src error⟩, []⟩ }
  | runtime src value =>
    match describe value with
    | (title, message) =>
      { title := title, text := excerpt src message value.span, location := none }
  | fatal failure =>
    { title := "Internal interpreter error", text := failure.message, location := none }
  | io fault => { title := "Standard IO error", text := fault.message, location := none }

/-- The failure as it is written. -/
def render (p : Palette) (f : Failure) : String :=
  f.diagnostic.render p ++ "\n"

end Failure

end Dncl
