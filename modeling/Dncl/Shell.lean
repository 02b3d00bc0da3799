/-
Dncl/Shell.lean

The command line as a function: from a request, the source that it names and
the input, to all that is written and the exit code.
-/
import Dncl.Shell.Stage
import Dncl.Syntax.Outline

namespace Dncl

/-- The name and the version of the program. -/
def versionLine : String :=
  "dnclc 0.1.0\n"

/-- What reading a source gave. -/
abbrev SourceBytes : Type :=
  Except IoFault (List UInt8)

/-- The text of a source. -/
def sourceText (bytes : SourceBytes) : Except IoFault (List Char) :=
  match bytes with
  | .error fault => .error fault
  | .ok bytes =>
    match Text.decode bytes with
    | .ok text => .ok text
    | .error .malformed => .error .invalidData
    | .error .truncated => .error .unexpectedEnd

/-- The source of a program, and the program. -/
def load (path : String) (bytes : SourceBytes) : Except Failure (List Char × Program) :=
  match sourceText bytes with
  | .error fault => .error (.io fault)
  | .ok src =>
    match parseProgram (String.ofList src) with
    | .ok program => .ok (src, program)
    | .error e => .error (.grammar path src e)

/-- The path that a request names. -/
def Request.path? : Request → Option String
  | .run path _ _ => some path
  | .check path _ => some path
  | _ => none

/-- The path that stands for the input. -/
def inputPath : String :=
  "-"

namespace Shell

/-- A shell that has only text to write. -/
def ofText (palette : Palette) (text : String) : Shell :=
  ⟨palette, {}, .program, .closed { out := text } (.success none), ""⟩

/-- A shell that runs a program. -/
def ofProgram (palette : Palette) (path : String) (origin : Origin) (console : Console)
    (bytes : SourceBytes) : Shell :=
  let session := Session.new console
  let start : Shell := ⟨palette, { origin := origin }, .program, .asking session, ""⟩
  match load path bytes with
  | .error f => start.fail console f
  | .ok (src, program) =>
    { start with
      stage := .running src session.env (Machine.load session program)
      errors := Reply.statusLine palette .running path }

/-- A shell that checks a program and writes it. -/
def ofCheck (palette : Palette) (path : String) (asTree : Bool) (bytes : SourceBytes) : Shell :=
  let start : Shell :=
    ⟨palette, {}, .program, .closed {} .failure, Reply.statusLine palette .checking path⟩
  match load path bytes with
  | .error f => start.fail {} f
  | .ok (_, program) =>
    let text := if asTree then program.outline.render 0 else program.text
    start.goTo (.closed { out := text ++ "\n" } (.success (some .checked)))

/-- A shell that asks for entries. -/
def ofLoop (palette : Palette) (kind : LoopKind) (input : List InputLine) : Shell :=
  let origin := match kind with
    | .evaluate origin => origin
    | .tokens | .grammar => .one
  let session := Session.new { input := input : Console }
  ⟨palette, { origin := origin }, .loop kind, .asking session, ""⟩

/-- The shell for a request.  `bytes` is the source that the request names, and
`input` is the rest of the input. -/
def ofRequest (palette : Palette) (bytes : SourceBytes) (input : List InputLine) :
    Request → Shell
  | .run path origin separator =>
    ofProgram palette path origin { separator := separator, input := input } bytes
  | .check path asTree => ofCheck palette path asTree bytes
  | .loop kind => ofLoop palette kind input
  | .help page => ofText palette page.text
  | .version => ofText palette versionLine

/-- The status line at the end, if there is one. -/
def closing (sh : Shell) (elapsed : String) : String :=
  match sh.stage with
  | .closed _ (.success (some status)) =>
    Reply.statusLine sh.palette status ("in " ++ elapsed)
  | _ => ""

/-- The exit code, once the shell is closed. -/
def code? (sh : Shell) : Option Nat :=
  match sh.stage with
  | .closed _ ending => some ending.code
  | _ => none

end Shell

/-! ### The whole run -/

/-- What a run of the command line leaves behind. -/
structure Transcript where
  code : Nat
  out : String
  errors : String

/-- The exit code for wrong arguments. -/
def misuse : Nat :=
  2

/-- Serves a request to its end, in at most `steps` steps.  `sources` gives the
bytes of a file, and `elapsed` is the time that a status line tells.  A source
that is read from the input leaves nothing of it. -/
def serve (palette : Palette) (sources : String → SourceBytes) (input : List UInt8)
    (elapsed : String) (steps : Nat) (request : Request) : Option Transcript :=
  let (bytes, rest) := match request.path? with
    | some path => if path = inputPath then (.ok input, []) else (sources path, input)
    | none => (.ok [], input)
  let sh := (Shell.ofRequest palette bytes (inputLines rest) request).runUntil (fun _ => false) steps
  sh.code?.map fun code => ⟨code, sh.console.out, sh.errors ++ sh.closing elapsed⟩

end Dncl
