import GrammarLens.Check

/-! # Command line

What the program does for a command line.  How the words of one are taken apart is left to a reader:
it makes a command of them, or ends the program on the spot, for misuse or after telling
something. -/

namespace GrammarLens

/-- The version of the program. -/
def version : String := "0.3.0"

/-- What a command line says. -/
structure Command where
  checks : Bool := false
  strict : Bool := false
  verbose : Bool := false
  settingsFile : Option String := none
  files : List String := []
deriving DecidableEq, Repr

/-- How a program ends: its exit code, its output and its log. -/
structure Ending where
  exit : Nat
  output : List String := []
  log : Log := {}
deriving Repr

/-- What a reader makes of the words of a command line. -/
inductive Command.Reading where
  | command (command : Command)
  | ending (exit : Nat) (output : List String)
deriving DecidableEq, Repr

namespace Command

/-- The check that a command asks for. -/
def request (command : Command) : CheckRequest where
  files := command.files.map Path.ofText
  strict := command.strict
  settingsFile := command.settingsFile.map Path.ofText

/-- Does what a command asks for.  Without a check there is nothing to do. -/
def run (command : Command) (tree : FileTree) : Ending :=
  let log : Log := if command.verbose then { level := .debug } else {}
  if command.checks then
    let report := command.request.run tree
    ⟨report.exit, report.lines, log.add report.notices⟩
  else { exit := 0, log := log }

end Command

/-- Does what a command line asks for, as a reader understands it. -/
def runCommandLine (read : FileTree → List String → Command.Reading) (tree : FileTree)
    (words : List String) : Ending :=
  match read tree words with
  | .command command => command.run tree
  | .ending exit output => { exit, output }

end GrammarLens
