/-
Dncl/Shell/Stage.lean

The shell: what the command line does, step by step.

Design.  A shell is at one of a few stages.  It asks for an entry, waits for a
line, runs a program, or is closed.  Each step is a function of the stage
alone.  Lines of input wait in the console.  A shell that needs a line and
finds none takes this for the end of the input; whoever talks to a person
hands in a line whenever `Shell.isWaiting`.
-/
import Dncl.Console
import Dncl.Machine
import Dncl.Report.Failure
import Dncl.Shell.Reply
import Dncl.Shell.Request

namespace Dncl

/-- How a shell ends. -/
inductive Ending where
  /-- With a status line that tells how long it took, or without one. -/
  | success (status : Option Reply.Status)
  | failure
  deriving Inhabited

/-- The exit code. -/
def Ending.code : Ending → Nat
  | success _ => 0
  | failure => 1

/-- What a shell is doing. -/
inductive Stage where
  /-- About to ask for an entry. -/
  | asking (session : Session Console)
  /-- Waits for a line; `entry` is what the lines before it were, if any. -/
  | reading (session : Session Console) (entry : Option (List Char))
  | running (src : List Char) (env : Env) (machine : Machine Console)
  | closed (console : Console) (ending : Ending)

/-- What a shell is for. -/
inductive Purview where
  /-- To run one program. -/
  | program
  | loop (kind : LoopKind)

/-- The command line at work. -/
structure Shell where
  palette : Palette
  settings : Settings
  purview : Purview
  stage : Stage
  /-- What was written to the error output. -/
  errors : String

namespace Shell

/-! ### Small moves -/

/-- The shell at another stage. -/
@[inline] def goTo (sh : Shell) (stage : Stage) : Shell :=
  { sh with stage := stage }

/-- Writes about a failure. -/
def complain (sh : Shell) (f : Failure) : Shell :=
  { sh with errors := sh.errors ++ f.render sh.palette }

/-- Closes the shell because of a failure. -/
def fail (sh : Shell) (c : Console) (f : Failure) : Shell :=
  (sh.complain f).goTo (.closed c .failure)

/-- Closes the shell without a failure. -/
def close (sh : Shell) (c : Console) : Shell :=
  sh.goTo (.closed c (.success none))

/-! ### Entries -/

/-- Takes a program in. -/
def evaluate (sh : Shell) (s : Session Console) (src : List Char) : Shell :=
  match parseProgram (String.ofList src) with
  | .error e => (sh.complain (.grammar "<repl>" src e)).goTo (.asking s)
  | .ok program => sh.goTo (.running src s.env (Machine.load s program))

/-- Takes an entry of the evaluating loop in. -/
def acceptProgram (sh : Shell) (s : Session Console) (src : List Char) : Shell :=
  let entry := String.ofList (Text.trim src)
  if entry = "" then sh.goTo (.asking s)
  else if entry = ".exit" then sh.close s.world
  else sh.evaluate s src

/-- Takes a line of the other loops in. -/
def acceptLine (sh : Shell) (s : Session Console) (reply : String → String)
    (line : List Char) : Shell :=
  let entry := String.ofList (withoutBreak line)
  if entry = "" then sh.goTo (.asking s)
  else if entry = ".exit" then sh.close s.world
  else sh.goTo (.asking { s with world := s.world.write (reply entry) })

/-- Takes the first line of an entry in. -/
def acceptFirst (sh : Shell) (s : Session Console) (line : List Char) : Shell :=
  match sh.purview with
  | .loop .tokens => sh.acceptLine s Reply.tokens line
  | .loop .grammar => sh.acceptLine s Reply.grammar line
  | .loop (.evaluate _) | .program =>
    if Reply.opensBlock line then
      sh.goTo (.reading { s with world := s.world.write ".. " } (some line))
    else sh.acceptProgram s line

/-- Takes a further line of a block in; a blank line ends it. -/
def acceptNext (sh : Shell) (s : Session Console) (entry line : List Char) : Shell :=
  if (Text.trim line).isEmpty then sh.acceptProgram s entry
  else sh.goTo (.reading { s with world := s.world.write ".. " } (some (entry ++ line)))

/-- Takes the next line of input in, or its end. -/
def read (sh : Shell) (s : Session Console) (entry : Option (List Char)) : Shell :=
  match s.world.take, entry with
  | none, none => sh.close s.world
  | none, some entry => sh.acceptProgram s entry
  | some (.garbled, c), _ => sh.fail c (.io .invalidData)
  | some (.text line, c), none => sh.acceptFirst { s with world := c } line
  | some (.text line, c), some entry => sh.acceptNext { s with world := c } entry line

/-! ### Results -/

/-- Ends the run of the one program. -/
def endProgram (sh : Shell) (src : List Char) (c : Console) : Except Fatal Value → Shell
  | .ok v =>
    if v.isError then sh.fail c (.runtime src v)
    else sh.goTo (.closed c (.success (some .finished)))
  | .error failure => sh.fail c (.fatal failure)

/-- Writes about the value of an entry. -/
def endEntry (sh : Shell) (src : List Char) (s : Session Console) : Except Fatal Value → Shell
  | .ok v =>
    if v.isError then (sh.complain (.runtime src v)).goTo (.asking s)
    else if v.isNull then sh.goTo (.asking s)
    else sh.goTo (.asking { s with world := s.world.write (s.store.text v ++ "\n") })
  | .error failure => (sh.complain (.fatal failure)).goTo (.asking s)

/-- Goes on after a program has halted. -/
def endRun (sh : Shell) (src : List Char) (env : Env) (m : Machine Console) : Shell :=
  match m.outcome? with
  | some result =>
    match sh.purview with
    | .program => sh.endProgram src m.world result
    | .loop _ => sh.endEntry src ⟨m.store, env, m.world⟩ result
  | none => sh.close m.world

/-! ### Steps -/

/-- Whether the shell is at its end. -/
def isClosed (sh : Shell) : Bool :=
  match sh.stage with
  | .closed _ _ => true
  | _ => false

/-- One step.  A shell that is closed stays as it is. -/
def step (sh : Shell) : Shell :=
  match sh.stage with
  | .asking s => sh.goTo (.reading { s with world := s.world.write ">> " } none)
  | .reading s entry => sh.read s entry
  | .running src env m =>
    if m.isHalted then sh.endRun src env m
    else sh.goTo (.running src env (m.step Console.host sh.settings))
  | .closed _ _ => sh

/-- The console. -/
def console (sh : Shell) : Console :=
  match sh.stage with
  | .asking s | .reading s _ => s.world
  | .running _ _ m => m.world
  | .closed c _ => c

/-- The shell with a changed console. -/
def mapConsole (f : Console → Console) (sh : Shell) : Shell :=
  match sh.stage with
  | .asking s => sh.goTo (.asking { s with world := f s.world })
  | .reading s entry => sh.goTo (.reading { s with world := f s.world } entry)
  | .running src env m => sh.goTo (.running src env { m with world := f m.world })
  | .closed c ending => sh.goTo (.closed (f c) ending)

/-- Whether the next step takes a line of input. -/
def takesLine (sh : Shell) : Bool :=
  match sh.stage with
  | .reading _ _ => true
  | .running _ _ m =>
    match m.control with
    | .expr (.command .input _) _ => true
    | _ => false
  | .asking _ | .closed _ _ => false

/-- Whether the next step takes a line of input, and there is none. -/
def isWaiting (sh : Shell) : Bool :=
  sh.takesLine && sh.console.input.isEmpty

/-- Steps until the shell is closed or `stop` holds, at most `n` times. -/
def runUntil (stop : Shell → Bool) : Nat → Shell → Shell
  | 0, sh => sh
  | n + 1, sh => if sh.isClosed || stop sh then sh else runUntil stop n sh.step

end Shell

end Dncl
