import GrammarLens.Json.Read
import GrammarLens.Lint.Policy
import GrammarLens.Problem

/-! # Lint settings

Additions to the exclusion lists, and settings for single rules, as a file holds them.  The values
are kept as they are; what cannot be used shows when the policy is built. -/

namespace GrammarLens

/-- What a file can set for validation. -/
structure LintSettings where
  disabledRules : Json := .list []
  extraBuiltins : Json := .list []
  extraPlaceholders : Json := .list []
  extraTokenStarts : Json := .list []
  ruleSettings : Json := .object []
deriving Repr

namespace LintSettings

/-- The settings that an object holds. -/
def ofJson (v : Json) : Except Json.Fault LintSettings := do
  return {
    disabledRules := ← v.fieldD "disabled_rules" (.list [])
    extraBuiltins := ← v.fieldD "extra_builtin_functions" (.list [])
    extraPlaceholders := ← v.fieldD "extra_common_parameters" (.list [])
    extraTokenStarts := ← v.fieldD "extra_token_prefixes" (.list [])
    ruleSettings := ← v.fieldD "rule_configs" (.object []) }

end LintSettings

namespace Policy

/-- Adds a value to a list, unless an equal one is there. -/
def addNew (values : List Json) (v : Json) : List Json :=
  if values.contains v then values else values ++ [v]

/-- Adds keys to a list that has no key twice. -/
def addKeys (keys : List Json) : List Json → Except Json.Fault (List Json)
  | [] => .ok keys
  | v :: values => do
    let key ← v.key
    addKeys (addNew keys key) values

/-- Adds the elements of a value to a list that has no key twice. -/
def extend (keys : List Json) (v : Json) : Except Json.Fault (List Json) := do
  addKeys keys (← v.elements)

/-- The default policy with the additions of some settings. -/
def ofSettings (settings : LintSettings) : Except Json.Fault Policy := do
  let disabled ← extend default.disabled settings.disabledRules
  let builtins ← extend default.builtins settings.extraBuiltins
  let placeholders ← extend default.placeholders settings.extraPlaceholders
  let starts ← settings.extraTokenStarts.elements
  return ⟨builtins, placeholders, starts.foldl addNew default.tokenStarts, disabled⟩

/-- The policy with one more rule switched off. -/
def disable (policy : Policy) (kind : Problem.Kind) : Policy :=
  { policy with disabled := addNew policy.disabled (.text kind.code) }

end Policy

/-- Keys in order: texts by their characters and numbers by size.  Keys of both sorts have no order,
and neither have two without a value. -/
def sortKeys (keys : List Json) : Except Json.Fault (List Json) :=
  match keys with
  | [] => .ok []
  | [v] => .ok [v]
  | _ =>
    if keys.all (·.text?.isSome) then
      .ok (keys.mergeSort fun a b => decide ((a.text?.getD "") ≤ (b.text?.getD "")))
    else if keys.all (·.number?.isSome) then
      .ok (keys.mergeSort fun a b => !(b.number?.getD (.whole 0)).lt (a.number?.getD (.whole 0)))
    else .error .noOrder

end GrammarLens
