import GrammarLens.Analysis
import GrammarLens.Settings

/-! # Checking files

The check of some grammar files, one after the other: each problem is a line of output, and the
last line sums up.  A file that cannot be read counts as an error and the check goes on; a file that
is not text, or has a name that cannot be a name, gives the whole check up. -/

namespace GrammarLens

/-- How many problems of each sort there are. -/
structure Tally where
  errors : Nat := 0
  warnings : Nat := 0
  notes : Nat := 0
deriving DecidableEq, Repr

namespace Tally

/-- Counts a problem. -/
def count (tally : Tally) : Severity → Tally
  | .error => { tally with errors := tally.errors + 1 }
  | .warning => { tally with warnings := tally.warnings + 1 }
  | .information | .hint => { tally with notes := tally.notes + 1 }

/-- Whether there are no problems. -/
def isClean (tally : Tally) : Bool :=
  tally.errors == 0 && tally.warnings == 0 && tally.notes == 0

end Tally

/-- What a check has brought so far. -/
structure Progress where
  lines : List String := []
  notices : List Notice := []
  tally : Tally := {}
deriving Repr

/-- What a check is asked for: the files, whether warnings make it fail, and a file with lint
settings. -/
structure CheckRequest where
  files : List Path
  strict : Bool := false
  settingsFile : Option Path := none
deriving Repr

/-- What a check brings: the lines of output, the notices and the exit code. -/
structure Report where
  lines : List String
  notices : List Notice
  exit : Nat
deriving Repr

/-- The line of output for a problem.  Lines and columns are counted from one. -/
def Problem.line (p : Problem) (path : Path) : String :=
  let start := p.span.start
  s!"{path.render}:{start.line + 1}:{start.column + 1}: {p.severity.name}: {p.message}"

namespace Progress

/-- Goes on by the problems of a file. -/
def report (progress : Progress) (path : Path) (problems : List Problem) : Progress where
  lines := progress.lines ++ problems.map (·.line path)
  notices := progress.notices
  tally := problems.foldl (fun tally p => tally.count p.severity) progress.tally

/-- Tells something. -/
def tell (progress : Progress) (notices : List Notice) : Progress :=
  { progress with notices := progress.notices ++ notices }

/-- The check given up. -/
def giveUp (progress : Progress) : Report :=
  ⟨progress.lines, progress.notices ++ [.checkFailed], 1⟩

/-- The last line of output, after an empty one. -/
def summary (progress : Progress) (files : Nat) : List String :=
  let tally := progress.tally
  if tally.isClean then ["", s!"All {files} files analyzed successfully"]
  else ["", s!"Summary: {tally.errors} errors, {tally.warnings} warnings, {tally.notes} notes"]

/-- The check done. -/
def finish (progress : Progress) (files : Nat) (strict : Bool) : Report :=
  let tally := progress.tally
  let failed := 0 < tally.errors ∨ (strict ∧ 0 < tally.warnings)
  ⟨progress.lines ++ progress.summary files, progress.notices, if failed then 1 else 0⟩

end Progress

/-- Checks files one after the other.  The result is an error if the check is given up. -/
def checkFiles (policy : Policy) (ruleSettings : Json) (progress : Progress) :
    List (Path × Except FileError String) → Except Progress Progress
  | [] => .ok progress
  | (path, .ok text) :: files =>
    match analyze policy ruleSettings text with
    | (notices, .ok analysis) =>
      checkFiles policy ruleSettings ((progress.tell notices).report path analysis.problems) files
    | (notices, .error _) => .error (progress.tell notices)
  | (_, .error .notUtf8) :: _ => .error progress
  | (_, .error (.path _)) :: _ => .error progress
  | (path, .error _) :: files =>
    let counted := { progress with tally := progress.tally.count .error }
    checkFiles policy ruleSettings (counted.tell [.fileUnreadable path.render]) files

/-- The check of some files under some settings. -/
def checkUnder (settings : Settings) (notices : List Notice) (strict : Bool)
    (files : Except FileError (List (Path × Except FileError String))) : Report :=
  let start : Progress := { notices := notices }
  match settings.policy, files with
  | .error _, _ => start.giveUp
  | _, .error _ => start.giveUp
  | .ok policy, .ok files =>
    if files.isEmpty then ⟨[], notices ++ [.noFiles], 0⟩
    else
      match checkFiles policy settings.ruleSettings start files with
      | .error progress => progress.giveUp
      | .ok progress => progress.finish files.length strict

/-- The files that a check is about: all grammar files below the working directory unless some are
named. -/
def CheckRequest.paths (request : CheckRequest) (tree : FileTree) :
    Except FileError (List Path) :=
  if request.files.isEmpty then tree.grammars tree.directory else .ok request.files

/-- Makes a check. -/
def CheckRequest.run (request : CheckRequest) (tree : FileTree) : Report :=
  let settings : List Notice × Except LoadError Settings :=
    match request.settingsFile with
    | none => ([], .ok {})
    | some path => Settings.load {} tree path
  match settings with
  | (notices, .error _) => Progress.giveUp { notices := notices }
  | (notices, .ok settings) =>
    let files := (request.paths tree).map fun paths =>
      paths.map fun path => (path, tree.readText path)
    checkUnder settings notices request.strict files

end GrammarLens
