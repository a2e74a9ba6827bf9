import GrammarLens.Lint.Rule
import GrammarLens.Log

/-! # Validation

A validator is the list of lint rules as the policy and the rule settings leave them.  The rule
settings are a value from outside: for the name of a rule they may have an object with a severity
(`level`) and a switch (`enabled`), which overrides the policy.  A severity that does not exist is
told and left out. -/

namespace GrammarLens

/-- The lint rules as they are set, and the policy that they follow. -/
structure Validator where
  policy : Policy
  rules : List Lint.Rule

namespace Lint.Rule

/-- The rule with the severity that its settings give. -/
def withLevel (rule : Rule) (settings : Json) : Except Json.Fault (List Notice × Rule) := do
  if ← settings.mentions "level" then
    let level ← settings.field "level"
    match level.text?.bind Severity.ofName? with
    | some severity => return ([], { rule with severity := severity })
    | none => return ([.unknownSeverity rule.name level], rule)
  else return ([], rule)

/-- The rule with the switch that its settings give. -/
def withSwitch (rule : Rule) (settings : Json) : Except Json.Fault Rule := do
  if ← settings.mentions "enabled" then
    let switch ← settings.field "enabled"
    return { rule with enabled := switch.isTrue }
  else return rule

/-- The rule as a policy and the rule settings leave it. -/
def configured (rule : Rule) (policy : Policy) (settings : Json) :
    Except Json.Fault (List Notice × Rule) := do
  let switched :=
    if Policy.lists policy.disabled rule.name then { rule with enabled := false } else rule
  if settings.isTrue then
    if ← settings.mentions rule.name then
      let own ← settings.field rule.name
      let leveled ← switched.withLevel own
      let final ← leveled.2.withSwitch own
      return (leveled.1, final)
    else return ([], switched)
  else return ([], switched)

end Lint.Rule

namespace Validator

/-- Some rules as a policy and the rule settings leave them, and what there is to tell.  Settings
that cannot be used for one rule end the matter. -/
def configure (policy : Policy) (settings : Json) :
    List Lint.Rule → List Notice × Except Json.Fault (List Lint.Rule)
  | [] => ([], .ok [])
  | rule :: rules =>
    match rule.configured policy settings with
    | .error fault => ([], .error fault)
    | .ok (notices, configured) =>
      let more := configure policy settings rules
      (notices ++ more.1, more.2.map (configured :: ·))

/-- The validator for a policy and rule settings. -/
def make (policy : Policy) (settings : Json) : List Notice × Except Json.Fault Validator :=
  let configured := configure policy settings Lint.rules
  (configured.1, configured.2.map (⟨policy, ·⟩))

/-- What one rule finds in a table.  A rule that fails finds nothing. -/
def runRule (policy : Policy) (table : Table) (rule : Lint.Rule) : List Notice × List Problem :=
  if rule.enabled then
    match rule.check table policy with
    | .ok findings => ([], findings.map rule.problem)
    | .error _ => ([.internal s!"validation rule {rule.name} failed"], [])
  else ([], [])

/-- The problems in a table, in the order of the rules. -/
def run (validator : Validator) (table : Table) : List Notice × List Problem :=
  let results := validator.rules.map (runRule validator.policy table)
  (results.flatMap (·.1), results.flatMap (·.2))

end Validator

end GrammarLens
