/-
Dncl/Shell/Request.lean

Requests: what the arguments of the command line ask for.

Options may stand anywhere behind the command.  The value of an option follows
it or is attached with `=`.  Arguments are read from left to right, and the
first one that asks for help, or is wrong, decides.  Behind `--` nothing is
read as an option.
-/
import Dncl.Host
import Dncl.Shell.Help
import Dncl.Text.Decimal

namespace Dncl

/-- The loops that read a line and write a reply. -/
inductive LoopKind where
  /-- Evaluates programs. -/
  | evaluate (origin : Origin)
  /-- Lists tokens. -/
  | tokens
  /-- Writes programs in their normal form. -/
  | grammar

/-- What is asked for. -/
inductive Request where
  | run (path : String) (origin : Origin) (separator : String)
  | check (path : String) (asTree : Bool)
  | loop (kind : LoopKind)
  | help (page : HelpPage)
  | version

namespace Request

/-! ### Options -/

/-- What the options and the path of a command are, as far as they are given. -/
structure Given where
  path : Option String := none
  origin : Option Origin := none
  separator : Option String := none
  asTree : Bool := false

/-- An option with a value. -/
inductive Setting where
  | origin
  | separator

/-- How an argument is read. -/
inductive Argument where
  /-- The rest is no option. -/
  | divider
  /-- A word after two hyphens, and a value that is attached to it. -/
  | long (name : String) (value : Option String)
  /-- A letter after one hyphen. -/
  | short (letter : Char)
  | plain (text : String)

/-- Reads an argument on its own. -/
def Argument.ofString (s : String) : Argument :=
  match s.toList with
  | '-' :: '-' :: [] => .divider
  | '-' :: '-' :: cs =>
    let name := String.ofList (cs.takeWhile (· ≠ '='))
    match cs.dropWhile (· ≠ '=') with
    | [] => .long name none
    | _ :: value => .long name (some (String.ofList value))
  | '-' :: c :: _ => .short c
  | _ => .plain s

/-- The option with a value that a command has under a name. -/
def setting? (page : HelpPage) (name : String) : Option Setting :=
  match page, name with
  | .run, "origin" | .repl, "origin" => some .origin
  | .run, "separator" => some .separator
  | _, _ => none

/-- Whether a command takes a path. -/
def takesPath (page : HelpPage) : Bool :=
  page == .run || page == .check

/-- The origin that a value stands for. -/
def origin? (value : String) : Option Origin :=
  (Text.integer? value.toList).bind fun n => (Origin.ofInt n).toOption

/-- Takes note of an option, which may be given once. -/
def Given.set? (g : Given) (setting : Setting) (value : String) : Option Given :=
  match setting with
  | .origin =>
    if g.origin.isSome then none
    else (origin? value).map fun o => { g with origin := some o }
  | .separator =>
    if g.separator.isSome then none else some { g with separator := some value }

/-- Takes note of a path, which may be given once and is not empty. -/
def Given.addPath? (g : Given) (page : HelpPage) (path : String) : Option Given :=
  if takesPath page && g.path.isNone && !path.isEmpty then some { g with path := some path }
  else none

/-- The request for a command, if all that it needs is given. -/
def Given.request? (g : Given) (page : HelpPage) : Option Request :=
  match page with
  | .run => g.path.map fun p => .run p (g.origin.getD .one) (g.separator.getD ", ")
  | .check => g.path.map fun p => .check p g.asTree
  | .repl => some (.loop (.evaluate (g.origin.getD .one)))
  | .rlpl => some (.loop .tokens)
  | .rppl => some (.loop .grammar)
  | .overview | .help => none

/-! ### Reading arguments -/

/-- Reads the arguments behind `--`. -/
def readPaths (page : HelpPage) (g : Given) : List String → Option Request
  | [] => g.request? page
  | path :: rest => (g.addPath? page path).bind fun g => readPaths page g rest

/-- The value at the front of the arguments, which is no option. -/
def value? (s : String) : Option String :=
  match Argument.ofString s with
  | .plain text => some text
  | _ => none

/-- Reads the arguments of a command. -/
def readArguments (page : HelpPage) (g : Given) : List String → Option Request
  | [] => g.request? page
  | s :: rest =>
    match Argument.ofString s with
    | .divider => readPaths page g rest
    | .short c => if c = 'h' then some (.help page) else none
    | .plain path => (g.addPath? page path).bind fun g => readArguments page g rest
    | .long name (some value) =>
      (setting? page name).bind fun o =>
        (g.set? o value).bind fun g => readArguments page g rest
    | .long "help" none => some (.help page)
    | .long name none =>
      match setting? page name with
      | some o =>
        match rest with
        | [] => none
        | next :: rest =>
          ((value? next).bind (g.set? o)).bind fun g => readArguments page g rest
      | none =>
        if page = .check ∧ name = "print-ast" ∧ g.asTree = false then
          readArguments page { g with asTree := true } rest
        else none

/-- The request for help on some commands. -/
def helpOn : List String → Option Request
  | [] => some (.help .overview)
  | [name] => (HelpPage.ofCommand? name).map .help
  | _ => none

/-- What the arguments ask for, unless they are wrong. -/
def ofArguments? : List String → Option Request
  | [] => none
  | s :: rest =>
    match Argument.ofString s with
    | .long "help" none => some (.help .overview)
    | .long "version" none => some .version
    | .short 'h' => some (.help .overview)
    | .short 'V' => some .version
    | .plain "help" => helpOn rest
    | .plain name => (HelpPage.ofCommand? name).bind fun page => readArguments page {} rest
    | _ => none

end Request

end Dncl
