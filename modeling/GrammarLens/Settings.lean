import GrammarLens.FileTree
import GrammarLens.Lint.Settings
import GrammarLens.Log

/-! # Settings

What the client of a server or the caller of a check has set: the root of the workspace, the options
of the client, and the lint settings from a file.  Options come from outside and keep their values
as they are, except for the log level and the path of the file with the lint settings. -/

namespace GrammarLens

/-- How much is told. -/
inductive Verbosity where
  | error
  | warn
  | info
  | debug
  | trace
deriving DecidableEq, Repr

namespace Verbosity

/-- All degrees of verbosity. -/
def all : List Verbosity := [error, warn, info, debug, trace]

/-- The name of a degree of verbosity. -/
def name : Verbosity → String
  | error => "error"
  | warn => "warn"
  | info => "info"
  | debug => "debug"
  | trace => "trace"

/-- The degree of verbosity with this name. -/
def ofName? (n : String) : Option Verbosity := all.find? (·.name == n)

/-- The level of the log for a degree of verbosity. -/
def level : Verbosity → Log.Level
  | error => .error
  | warn => .warning
  | info => .info
  | debug => .debug
  | trace => .debug

end Verbosity

/-- The options of a client. -/
structure Options where
  diagnosticsEnabled : Json := .bool true
  reportUnusedRules : Json := .bool true
  maxDiagnostics : Json := .int 100
  settingsFile : Option Path := none
  verbosity : Verbosity := .info
deriving Repr

namespace Options

/-- The verbosity that some options ask for.  One that does not exist is told and left out. -/
def verbosityOf (v : Json) : Except Json.Fault (List Notice × Verbosity) := do
  if ← v.mentions "log_level" then
    let level ← v.field "log_level"
    match level.text?.bind Verbosity.ofName? with
    | some verbosity => return ([], verbosity)
    | none => return ([.unknownLogLevel level], .info)
  else return ([], .info)

/-- The path that a value spells, if it counts as true. -/
def pathOf? (v : Json) : Except Json.Fault (Option Path) :=
  if v.isTrue then
    match v.text? with
    | some s => .ok (some (Path.ofText s))
    | none => .error .noPath
  else .ok none

/-- The options that an object holds, with a given verbosity. -/
def withVerbosity (v : Json) (verbosity : Verbosity) : Except Json.Fault Options := do
  let enabled ← v.fieldD "diagnostics_enabled" (.bool true)
  let unused ← v.fieldD "report_unused_rules" (.bool true)
  let most ← v.fieldD "max_diagnostics_per_file" (.int 100)
  let file ← v.fieldD "validation_config_file" .null
  return ⟨enabled, unused, most, ← pathOf? file, verbosity⟩

/-- The options that a value from outside holds, and what there is to tell. -/
def ofJson (v : Json) : List Notice × Except Json.Fault Options :=
  if v.isTrue then
    match verbosityOf v with
    | .error fault => ([], .error fault)
    | .ok (notices, verbosity) => (notices, withVerbosity v verbosity)
  else ([], .ok {})

end Options

/-- Why lint settings cannot be loaded. -/
inductive LoadError where
  /-- There is no such text. -/
  | file (error : FileError)
  /-- The text cannot be read. -/
  | text (error : Json.ReadError)
  /-- The value is of the wrong type. -/
  | fault (fault : Json.Fault)
deriving DecidableEq, Repr

/-- The lint settings that a file holds. -/
def LintSettings.load (tree : FileTree) (path : Path) : Except LoadError LintSettings := do
  let text ← (tree.readText path).mapError .file
  let v ← (Json.read text.toList).mapError .text
  (LintSettings.ofJson v).mapError .fault

/-- Everything that is set. -/
structure Settings where
  root : Option Path := none
  options : Option Options := none
  lint : Option LintSettings := none
deriving Repr

namespace Settings

/-- Sets the root of the workspace. -/
def setRoot (settings : Settings) (tree : FileTree) (path : Option Path) :
    Except PathError Settings := do
  match path with
  | none => return { settings with root := none }
  | some path => return { settings with root := some (← path.resolve tree.directory) }

/-- Loads lint settings from a file. -/
def load (settings : Settings) (tree : FileTree) (path : Path) :
    List Notice × Except LoadError Settings :=
  match LintSettings.load tree path with
  | .ok lint => ([], .ok { settings with lint := some lint })
  | .error e => ([.settingsUnreadable path.render], .error e)

/-- Loads lint settings from a file, if it can be done. -/
def tryLoad (settings : Settings) (tree : FileTree) (path : Path) : List Notice × Settings :=
  match settings.load tree path with
  | (notices, .ok loaded) => (notices, loaded)
  | (notices, .error _) => (notices ++ [.settingsKept], settings)

/-- Sets the options of the client.  The log first tells about the options at its old level; then it
takes the new one, and the file with the lint settings is loaded. -/
def setOptions (settings : Settings) (tree : FileTree) (log : Log) (v : Json) :
    Log × Except Json.Fault Settings :=
  match Options.ofJson v with
  | (notices, .error fault) => (log.add notices, .error fault)
  | (notices, .ok options) =>
    let told := (log.add notices).setLevel options.verbosity.level
    let changed := { settings with options := some options }
    match options.settingsFile with
    | none => (told, .ok changed)
    | some path =>
      let loaded := changed.tryLoad tree path
      (told.add loaded.1, .ok loaded.2)

/-- The settings for single rules. -/
def ruleSettings (settings : Settings) : Json :=
  match settings.lint with
  | some lint => lint.ruleSettings
  | none => .object []

/-- The policy that the settings ask for. -/
def policy (settings : Settings) : Except Json.Fault Policy := do
  let base ← match settings.lint with
    | some lint => Policy.ofSettings lint
    | none => .ok .default
  return match settings.options with
    | some options => if options.reportUnusedRules.isTrue then base else base.disable .unusedRule
    | none => base

/-- Whether problems are published, as the options have it. -/
def diagnosticsEnabled (settings : Settings) : Json :=
  match settings.options with
  | some options => options.diagnosticsEnabled
  | none => .bool true

/-- How many problems of a file are published, as the options have it. -/
def maxDiagnostics (settings : Settings) : Json :=
  match settings.options with
  | some options => options.maxDiagnostics
  | none => .int 100

end Settings

end GrammarLens
