import GrammarLens.Lint.Policy
import GrammarLens.Problem
import GrammarLens.Symbol.Table

/-! # Lint rules

A lint rule looks at a complete symbol table and finds problems of one kind.  There are two: a name
that is used and never defined, and a rule that is defined and never used. -/

namespace GrammarLens

namespace Lint

/-- Where something was found, and what. -/
structure Finding where
  span : Span
  message : String
deriving DecidableEq, Repr

/-- Why a rule cannot look at a table. -/
inductive Failure where
  /-- The rule has no check. -/
  | noCheck
  /-- The policy has a value that cannot be used. -/
  | policy (fault : Json.Fault)
deriving DecidableEq, Repr

/-- A lint rule: what it finds, how serious that is, and whether it is switched on. -/
structure Rule where
  kind : Problem.Kind
  description : String
  severity : Severity
  enabled : Bool := true
  check : Table → Policy → Except Failure (List Finding) := fun _ _ => .error .noCheck

/-- The name of a rule. -/
def Rule.name (rule : Rule) : String := rule.kind.code

/-- The uses of a symbol that nothing defines. -/
def undefinedUses (s : Symbol) : List Finding :=
  s.references.map (⟨·, s!"Symbol '{s.name}' is not defined"⟩)

/-- The uses of undefined symbols among some symbols, when `known` are the parameters of the
templates in their file. -/
def undefinedAmong (policy : Policy) (known : List String) :
    List Symbol → Except Json.Fault (List Finding)
  | [] => .ok []
  | s :: symbols =>
    if s.references.isEmpty || s.isDefined then undefinedAmong policy known symbols
    else do
      let excused ← policy.excuses known s.name
      let more ← undefinedAmong policy known symbols
      return if excused then more else undefinedUses s ++ more

/-- Whether a symbol is a rule that is defined and never used. -/
def isUnused (s : Symbol) : Bool :=
  s.kind == .rule && s.isDefined && s.references.isEmpty && s.calls.isEmpty &&
    !Policy.isLiteral s.name

/-- The finding about a symbol that is never used. -/
def unused? (s : Symbol) : Option Finding :=
  if isUnused s then
    s.definition.map (⟨·.nameSpan, s!"Rule '{s.name}' is defined but never used"⟩)
  else none

/-- The rule against names that are used and never defined. -/
def undefinedSymbol : Rule where
  kind := .undefinedSymbol
  description := "Symbol is used but never defined"
  severity := .warning
  check := fun table policy =>
    (undefinedAmong policy table.parameterNames table.symbols).mapError .policy

/-- The rule against rules that are defined and never used. -/
def unusedRule : Rule where
  kind := .unusedRule
  description := "Rule is defined but never used"
  severity := .information
  check := fun table _ => .ok (table.symbols.filterMap unused?)

/-- All rules, in the order in which they look at a table. -/
def rules : List Rule := [undefinedSymbol, unusedRule]

/-- The problem that a finding of a rule is. -/
def Rule.problem (rule : Rule) (finding : Finding) : Problem :=
  ⟨rule.kind, finding.message, finding.span, rule.severity⟩

end Lint

end GrammarLens
