import GrammarLens.Json

/-! # Notices

What is told besides the answers: each `Notice` has a cause, a level and a wording.  A `Log` keeps
the notices whose level is at least its own. -/

namespace GrammarLens

/-- The levels of a log. -/
inductive Log.Level where
  | debug
  | info
  | warning
  | error
deriving DecidableEq, Repr

namespace Log.Level

/-- The name of a level. -/
def name : Log.Level → String
  | debug => "DEBUG"
  | info => "INFO"
  | warning => "WARNING"
  | error => "ERROR"

/-- The place of a level in their order. -/
def rank : Log.Level → Nat
  | debug => 10
  | info => 20
  | warning => 30
  | error => 40

end Log.Level

/-- Something worth telling. -/
inductive Notice where
  /-- A file with settings cannot be loaded. -/
  | settingsUnreadable (path : String)
  /-- The settings stay as they were. -/
  | settingsKept
  /-- There is no such log level. -/
  | unknownLogLevel (value : Json)
  /-- There is no such severity for the findings of a rule. -/
  | unknownSeverity (rule : String) (value : Json)
  /-- The root of the workspace is no file. -/
  | rootIgnored (reason : String)
  /-- A grammar file cannot be read. -/
  | fileUnreadable (path : String)
  /-- There is nothing to check. -/
  | noFiles
  /-- The check of some files was given up. -/
  | checkFailed
  /-- A request was given up. -/
  | requestFailed (request : String)
  /-- Something else went wrong. -/
  | internal (message : String)
deriving Repr

namespace Notice

/-- The level of a notice. -/
def level : Notice → Log.Level
  | settingsKept | unknownLogLevel _ | unknownSeverity _ _ | rootIgnored _ | noFiles => .warning
  | _ => .error

/-- The wording of a notice. -/
def message : Notice → String
  | settingsUnreadable path => s!"Failed to load validation config from {path}"
  | settingsKept => "Continuing with default validation settings"
  | unknownLogLevel value => s!"Invalid log level: {value.render}"
  | unknownSeverity rule value => s!"Invalid level for rule {rule}: {value.render}"
  | rootIgnored reason => s!"Ignoring workspace root: {reason}"
  | fileUnreadable path => s!"Failed to read {path}"
  | noFiles => "No grammar files found in current directory"
  | checkFailed => "CLI analysis failed"
  | requestFailed request => s!"Error in {request}"
  | internal message => s!"Internal Error: {message}"

end Notice

/-- The notices that were kept, and the level that a notice needs to be kept. -/
structure Log where
  level : Log.Level := .info
  notices : List Notice := []
deriving Repr

namespace Log

/-- Adds notices, those below the level of the log left out. -/
def add (log : Log) (notices : List Notice) : Log :=
  { log with notices := log.notices ++ notices.filter (log.level.rank ≤ ·.level.rank) }

/-- Changes the level for the notices to come. -/
def setLevel (log : Log) (level : Log.Level) : Log := { log with level := level }

end Log

end GrammarLens
