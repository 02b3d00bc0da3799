/-
Dncl/Main.lean

The command line on a real terminal.

This module only reads and writes.  It hands lines to the shell when the
shell waits for one, and writes what the shell has written so far.
-/
import Dncl.Shell

namespace Dncl.Terminal

/-- The fault behind an error of the system. -/
def faultOf : IO.Error → IoFault
  | .noFileOrDirectory .. => .notFound
  | .permissionDenied .. => .permissionDenied
  | .alreadyExists .. => .alreadyExists
  | .unexpectedEof => .unexpectedEnd
  | _ => .other

/-- All bytes up to the end of the input. -/
partial def readAll (input : IO.FS.Stream) (soFar : ByteArray) : IO ByteArray := do
  let chunk ← input.read 65536
  if chunk.isEmpty then return soFar else readAll input (soFar ++ chunk)

/-- The bytes up to a line break or the end of the input. -/
partial def readLine (input : IO.FS.Stream) (soFar : ByteArray) : IO ByteArray := do
  let chunk ← input.read 1
  let line := soFar ++ chunk
  if chunk.isEmpty || chunk.toList == [10] then return line else readLine input line

/-- The bytes of a source. -/
def readSource (path : String) : IO SourceBytes := do
  if path = inputPath then
    return .ok (← readAll (← IO.getStdin) .empty).toList
  try
    return .ok (← IO.FS.readBinFile path).toList
  catch e => return .error (faultOf e)

/-- Seconds with two decimals. -/
def seconds (milliseconds : Nat) : String :=
  let hundredths := (milliseconds + 5) / 10
  let rest := hundredths % 100
  toString (hundredths / 100) ++ "." ++ (if rest < 10 then "0" else "") ++ toString rest ++ "s"

/-- Writes what the shell has written, and takes it from the shell. -/
def flush (sh : Shell) : IO Shell := do
  let out ← IO.getStdout
  out.putStr sh.console.out
  out.flush
  (← IO.getStderr).putStr sh.errors
  return { sh.mapConsole (fun c => { c with out := "" }) with errors := "" }

/-- Lets the shell run to its end.  After the end of the input it is never
asked again. -/
partial def drive (started : Nat) (ended : Bool) (sh : Shell) : IO UInt32 := do
  let sh ← flush (sh.runUntil (fun sh => !ended && sh.isWaiting) 10000)
  match sh.code? with
  | some code =>
    let elapsed := (← IO.monoMsNow) - started
    (← IO.getStderr).putStr (sh.closing (seconds elapsed))
    return code.toUInt32
  | none =>
    if !ended && sh.isWaiting then
      let line ← readLine (← IO.getStdin) .empty
      if line.isEmpty then drive started true sh
      else
        let next := InputLine.ofBytes line.toList
        drive started false (sh.mapConsole fun c => { c with input := [next] })
    else drive started ended sh

/-- Whether messages are coloured: when that is forced, and on a terminal that
can show colours unless they are not wanted. -/
def palette : IO Palette := do
  let forced := ((← IO.getEnv "FORCE_COLOR").getD "") != ""
  let term := (← IO.getEnv "TERM").getD "dumb"
  let unwanted := (← IO.getEnv "NO_COLOR").isSome
  let able := (← (← IO.getStderr).isTty) && term != "dumb" && !unwanted
  return if forced || able then .coloured else .plain

/-- Serves the arguments of the command line. -/
def start (arguments : List String) : IO UInt32 := do
  match Request.ofArguments? arguments with
  | none =>
    (← IO.getStderr).putStr HelpPage.overview.text
    return misuse.toUInt32
  | some request =>
    let started ← IO.monoMsNow
    let bytes ← match request.path? with
      | some path => readSource path
      | none => pure (.ok [])
    let ended := request.path? == some inputPath
    drive started ended (Shell.ofRequest (← palette) bytes [] request)

end Dncl.Terminal

/-- The command line. -/
def main (arguments : List String) : IO UInt32 :=
  Dncl.Terminal.start arguments
