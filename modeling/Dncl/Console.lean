/-
Dncl/Console.lean

The console: the host that prints lines and reads input.

* `表示する` prints its arguments as one line.
* `要素数` gives the length of an array, `差分` the place of a character
  behind `a`, and `戻り値` gives back its argument.
* The input command takes one line of input.  A line that is an integer is
  one, any other is a string.  Other commands come to null.
-/
import Dncl.Host
import Dncl.Operation
import Dncl.Text.Blank
import Dncl.Text.Utf8

namespace Dncl

/-! ### Input -/

/-- A line of input with its line break, or one that is no text. -/
inductive InputLine where
  | text (line : List Char)
  | garbled
  deriving DecidableEq

/-- The lines of some bytes.  Each ends after a line break, and the last may
have none. -/
def byteLines : List UInt8 → List (List UInt8)
  | [] => []
  | b :: bytes =>
    if b = 10 then [b] :: byteLines bytes
    else match byteLines bytes with
      | [] => [[b]]
      | line :: lines => (b :: line) :: lines

/-- The line that some bytes stand for. -/
def InputLine.ofBytes (bytes : List UInt8) : InputLine :=
  match Text.decode bytes with
  | .ok line => .text line
  | .error _ => .garbled

/-- The lines of input that some bytes stand for. -/
def inputLines (bytes : List UInt8) : List InputLine :=
  (byteLines bytes).map InputLine.ofBytes

/-- A line without the carriage returns and line breaks at its end. -/
def withoutBreak (line : List Char) : List Char :=
  Text.dropEndWhile (fun c => c == '\r' || c == '\n') line

/-- The value of a line of input: an integer if it is one between blanks, and
the line as it is otherwise. -/
def inputValue (line : List Char) (span : Span) : Value :=
  match Text.integer? (Text.trim line) with
  | some n => .int n span
  | none => .str (String.ofList line) span

/-! ### The console -/

/-- What is known of a console. -/
structure Console where
  /-- What was printed so far. -/
  out : String := ""
  /-- What stands between the arguments of one line. -/
  separator : String := ", "
  /-- How many more lines it takes, if not any number. -/
  capacity : Option Nat := none
  /-- Why it takes no further line. -/
  refusal : String := ""
  /-- The input that is left. -/
  input : List InputLine := []

namespace Console

/-- Writes text that is no line of a program. -/
def write (c : Console) (text : String) : Console :=
  { c with out := c.out ++ text }

/-- The next line of input and the console after it. -/
def take (c : Console) : Option (InputLine × Console) :=
  match c.input with
  | [] => none
  | line :: rest => some (line, { c with input := rest })

/-- Whether the console takes no further line. -/
def isFull (c : Console) : Bool :=
  c.capacity == some 0

/-- Prints a line. -/
def printLine (c : Console) (line : String) : Console :=
  { c with out := c.out ++ line ++ "\n", capacity := c.capacity.map (· - 1) }

/-- Prints values as one line, unless the console is full. -/
def print (st : Store) (arguments : List Value) (span : Span) (c : Console) : Value × Console :=
  if c.isFull then ((Fault.printFailed c.refusal).valueAt span, c)
  else
    let line := Text.joinWith c.separator (arguments.map st.text)
    (.null span, c.printLine line)

/-- The length of an array. -/
def length (st : Store) (arguments : List Value) (span : Span) : Value :=
  match arguments with
  | [.array ref _] => .int (st.elements ref).size span
  | [other] => (Fault.arrayNeeded .length other.kind).valueAt span
  | _ => (Fault.builtinArity .length 1 arguments.length).valueAt span

/-- How far a character lies behind `a`.  A blank comes before every letter. -/
def diff (arguments : List Value) (span : Span) : Value :=
  match arguments with
  | [.str text _] =>
    match text.toList with
    | [c] => .int (if c = ' ' then -1 else (c.toNat : Int) - 97) span
    | _ => (Fault.notOneCharacter .diff text).valueAt span
  | [other] => (Fault.stringNeeded .diff other.kind).valueAt span
  | _ => (Fault.builtinArity .diff 1 arguments.length).valueAt span

/-- Gives back a value. -/
def giveBack (arguments : List Value) (span : Span) : Value :=
  match arguments with
  | [value] => .returned value span
  | _ => (Fault.builtinArity .giveBack 1 arguments.length).valueAt span

/-- The value of a built-in function. -/
def builtin (function : Builtin) (arguments : List Value) (span : Span) (st : Store)
    (c : Console) : Value × Console :=
  match function with
  | .print => c.print st arguments span
  | .length => (length st arguments span, c)
  | .diff => (diff arguments span, c)
  | .giveBack => (giveBack arguments span, c)

/-- Takes a line of input. -/
def readLine (span : Span) (c : Console) : Value × Console :=
  match c.take with
  | none => (Fault.noInput.valueAt span, c)
  | some (.text line, c) => (inputValue (withoutBreak line) span, c)
  | some (.garbled, c) =>
    ((Fault.inputFailed "stream did not contain valid UTF-8").valueAt span, c)

/-- The value of a command. -/
def command (command : Command) (span : Span) (c : Console) : Value × Console :=
  match command with
  | .input => c.readLine span
  | .other _ => (.null span, c)

/-- The console as a host. -/
def host : Host Console where
  builtin function arguments span st c :=
    match c.builtin function arguments span st with
    | (value, c) => (value, st, c)
  command command span st c :=
    match c.command command span with
    | (value, c) => (value, st, c)

end Console

end Dncl
