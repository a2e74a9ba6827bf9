import GrammarLens.Text.Position

/-! # Problems

What is reported about a grammar file: a span, a message, the kind of problem and how serious it
is. -/

namespace GrammarLens

/-- How serious a problem is. -/
inductive Severity where
  | error
  | warning
  | information
  | hint
deriving DecidableEq, Repr

namespace Severity

/-- All severities, the most serious first. -/
def all : List Severity := [error, warning, information, hint]

/-- The name of a severity. -/
def name : Severity → String
  | error => "error"
  | warning => "warning"
  | information => "information"
  | hint => "hint"

/-- The severity with this name. -/
def ofName? (n : String) : Option Severity := all.find? (·.name == n)

/-- The number under which editors know a severity. -/
def number : Severity → Nat
  | error => 1
  | warning => 2
  | information => 3
  | hint => 4

end Severity

/-- The kinds of problems. -/
inductive Problem.Kind where
  | undefinedSymbol
  | unusedRule
deriving DecidableEq, Repr

namespace Problem.Kind

/-- All kinds of problems. -/
def all : List Problem.Kind := [undefinedSymbol, unusedRule]

/-- The code of a kind of problem, which is also the name of the rule that finds it. -/
def code : Problem.Kind → String
  | undefinedSymbol => "undefined-symbol"
  | unusedRule => "unused-rule"

/-- The kind of problem with this code. -/
def ofCode? (c : String) : Option Problem.Kind := all.find? (·.code == c)

/-- How serious a kind of problem is, unless the settings say otherwise. -/
def severity : Problem.Kind → Severity
  | undefinedSymbol => .warning
  | unusedRule => .information

end Problem.Kind

/-- A problem in a grammar file. -/
structure Problem where
  kind : Problem.Kind
  message : String
  span : Span
  severity : Severity
deriving DecidableEq, Repr

namespace Problem

/-- A problem as serious as its kind usually is. -/
def ofKind (kind : Problem.Kind) (message : String) (span : Span) : Problem :=
  ⟨kind, message, span, kind.severity⟩

/-- The code of a problem. -/
def code (p : Problem) : String := p.kind.code

/-- Where all problems are said to come from. -/
def source : String := "lrama"

end Problem

end GrammarLens
