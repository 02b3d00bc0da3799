/-
Dncl/Shell/Help.lean

The help pages of the command line.
-/
import Dncl.Text.Line

namespace Dncl

/-- The pages of the help. -/
inductive HelpPage where
  | overview
  | run
  | check
  | repl
  | rlpl
  | rppl
  | help
  deriving DecidableEq

namespace HelpPage

/-- The command that a page describes. -/
def command : HelpPage → String
  | overview => ""
  | run => "run"
  | check => "check"
  | repl => "repl"
  | rlpl => "rlpl"
  | rppl => "rppl"
  | help => "help"

/-- The first line of a page. -/
def about : HelpPage → String
  | overview => "Interpreter for DNCL pseudocode"
  | run => "Parses and evaluates a program"
  | check => "Performs lexical and syntactical analysis only"
  | repl => "Runs Read Eval Print Loop"
  | rlpl => "Runs Read Lex Print Loop"
  | rppl => "Runs Read Parse Print Loop"
  | help => "Print this message or the help of the given subcommand(s)"

/-- All pages about a command. -/
def commands : List HelpPage :=
  [run, check, repl, rlpl, rppl, help]

/-- The page about a command. -/
def ofCommand? (name : String) : Option HelpPage :=
  commands.find? fun p => p.command == name

/-- How a command is called. -/
def usage : HelpPage → String
  | overview => "dnclc <COMMAND>"
  | run => "dnclc run [OPTIONS] <PATH>"
  | check => "dnclc check [OPTIONS] <PATH>"
  | repl => "dnclc repl [OPTIONS]"
  | rlpl => "dnclc rlpl"
  | rppl => "dnclc rppl"
  | help => "dnclc help [COMMAND]..."

/-- A table of terms and explanations under a heading; no table at all if it
has no rows. -/
def table (heading : String) (rows : List (String × String)) : String :=
  let width := (rows.map fun r => r.1.length).foldl max 0
  let row (r : String × String) : String :=
    "  " ++ r.1 ++ String.ofList (List.replicate (width - r.1.length) ' ') ++ "  " ++ r.2 ++ "\n"
  if rows.isEmpty then "" else "\n" ++ heading ++ ":\n" ++ String.join (rows.map row)

/-- The arguments of a command. -/
def arguments : HelpPage → List (String × String)
  | run | check => [("<PATH>", "Path of source file, `-` for stdin")]
  | help => [("[COMMAND]...", "Print help for the subcommand(s)")]
  | _ => []

/-- The option for the index of the first element. -/
def originOption : String × String :=
  ("    --origin <ORIGIN>", "Index of the first array element [default: 1]")

/-- The option for help. -/
def helpOption : String × String :=
  ("-h, --help", "Print help")

/-- The options of a command. -/
def options : HelpPage → List (String × String)
  | overview => [helpOption, ("-V, --version", "Print version")]
  | run =>
    [originOption,
      ("    --separator <SEPARATOR>",
        "Text placed between the values of one `表示する` call [default: \", \"]"),
      helpOption]
  | check => [("    --print-ast", "Print ast instead of parsed source code"), helpOption]
  | repl => [originOption, helpOption]
  | rlpl | rppl => [helpOption]
  | help => []

/-- The text of a page. -/
def text (p : HelpPage) : String :=
  let listed := match p with
    | overview => commands.map fun c => (c.command, c.about)
    | _ => []
  p.about ++ "\n\nUsage: " ++ p.usage ++ "\n" ++ table "Commands" listed
    ++ table "Arguments" p.arguments ++ table "Options" p.options

end HelpPage

end Dncl
