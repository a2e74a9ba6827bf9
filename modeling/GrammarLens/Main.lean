import GrammarLens.CommandLine

/-! # The program

Takes the words of a command line apart, looks at the files that they are about, does what they ask
for, and prints the result. -/

namespace GrammarLens

/-- The command that some words stand for, after those that led to `command`; nothing for misuse. -/
def Command.ofWords? (command : Command) : List String → Option Command
  | [] => some command
  | "--cli" :: words => { command with checks := true }.ofWords? words
  | "--strict" :: words => { command with strict := true }.ofWords? words
  | "--verbose" :: words => { command with verbose := true }.ofWords? words
  | "--validation-cfg" :: file :: words => { command with settingsFile := some file }.ofWords? words
  | word :: words =>
    if word.startsWith "-" then none
    else { command with files := command.files ++ [word] }.ofWords? words

/-- Whether everything is there that a command names. -/
def Command.isThere (command : Command) (tree : FileTree) : Bool :=
  (command.files ++ command.settingsFile.toList).all fun text => (tree.nodeAtText text).isOk

/-- Reads a command line. -/
def readWords (tree : FileTree) (words : List String) : Command.Reading :=
  if words.contains "--version" then .ending 0 [s!"main, version {version}"]
  else
    match (Command.ofWords? {} words).filter (·.isThere tree) with
    | some command => .command command
    | none => .ending 2 []

/-- The places that have to be looked at to follow a command. -/
def Command.places (command : Command) (directory : Path) : List (List String) :=
  ((command.files ++ command.settingsFile.toList).map Path.ofText).flatMap (·.places directory)

/-- What stands at a place, if there is something. -/
def look (place : List String) : IO (List (List String × FileTree.Node)) := do
  let path := (← IO.currentDir) / ("/" ++ "/".intercalate place)
  if ← path.isDir then return [(place, .directory)]
  else if ← path.pathExists then
    try
      return [(place, .file (← IO.FS.readBinFile path).toList)]
    catch e =>
      return [(place, .refused (toString e))]
  else return []

/-- The places of the grammar files below the working directory. -/
def search : IO (List (List String)) := do
  let paths ← (← IO.currentDir).walkDir
  let places := paths.toList.map fun path => (Path.ofText path.toString).parts
  return places.filter fun place => place.getLast?.any FileTree.isGrammarName

/-- The files that a command is about.  A check that names none is about all that can be found. -/
def lookAt (command : Command) : IO FileTree := do
  let directory := Path.ofText (← IO.currentDir).toString
  let found ← if command.checks && command.files.isEmpty then search else pure []
  let entries ← ((command.places directory ++ found).eraseDups).mapM look
  return ⟨directory, entries.flatten⟩

end GrammarLens

open GrammarLens in
/-- Runs the program on the words of a command line. -/
def main (words : List String) : IO UInt32 := do
  let tree ← lookAt ((Command.ofWords? {} words).getD {})
  let ending := runCommandLine readWords tree words
  for line in ending.output do
    IO.println line
  for notice in ending.log.notices do
    IO.eprintln s!"{notice.level.name} - {notice.message}"
  return ending.exit.toUInt32
