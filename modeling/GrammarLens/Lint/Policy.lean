import GrammarLens.Json

/-! # Exclusion policy

Names that are left alone although nothing defines them: the functions of the standard library,
names that look like tokens and usual names of parameters.  The lists are heuristics.  They can be
extended from outside, so their members are values of any type; only texts can match a name. -/

namespace GrammarLens

/-- The exclusion lists, and the names of the rules that are switched off. -/
structure Policy where
  builtins : List Json
  placeholders : List Json
  tokenStarts : List Json
  disabled : List Json
deriving Repr

/-- The functions of the standard library. -/
def builtinNames : List String :=
  ["option", "ioption", "list", "nonempty_list", "separated_list", "separated_nonempty_list",
    "preceded", "terminated", "delimited"]

/-- Usual names of parameters. -/
def placeholderNames : List String :=
  ["X", "Y", "Z", "A", "B", "C", "item", "element", "separator", "value", "arg", "args", "param",
    "params", "list", "elem", "expr", "stmt"]

/-- What the names of tokens start with. -/
def tokenNameStarts : List String := ["t", "k", "TOKEN"]

namespace Policy

/-- The policy that holds unless the settings say otherwise. -/
def default : Policy :=
  ⟨builtinNames.map .text, placeholderNames.map .text, tokenNameStarts.map .text, []⟩

/-- Whether a list has a name. -/
def lists (names : List Json) (name : String) : Bool := names.any (·.isText name)

/-- A name up to its first parenthesis. -/
def baseName (name : String) : List Char := name.toList.takeWhile (· != '(')

/-- Whether a name is a function of the standard library. -/
def isBuiltin (policy : Policy) (name : String) : Bool :=
  lists policy.builtins (String.ofList (baseName name))

/-- Whether a character can stand in a name in capitals. -/
def isCapital (c : Char) : Bool := c.isUpper || c == '_'

/-- Whether a text is a name in capitals; a line feed at its end does no harm. -/
def isInCapitals (cs : List Char) : Bool :=
  let name := if cs.getLast? == some '\n' then cs.dropLast else cs
  !name.isEmpty && name.all isCapital

/-- Whether a text starts with one of some values, which are tried in order.  A value that is no
text cannot be tried. -/
def startsWithOne (cs : List Char) : List Json → Except Json.Fault Bool
  | [] => .ok false
  | .text start :: starts =>
    if start.toList.isPrefixOf cs then .ok true else startsWithOne cs starts
  | _ :: _ => .error .noNameStart

/-- Whether a name looks like the name of a token. -/
def looksLikeToken (policy : Policy) (name : String) : Except Json.Fault Bool :=
  if isInCapitals (baseName name) then .ok true
  else startsWithOne (baseName name) policy.tokenStarts

/-- Whether a name is a usual name of a parameter. -/
def isPlaceholder (policy : Policy) (name : String) : Bool := lists policy.placeholders name

/-- Whether a name is a character literal. -/
def isLiteral (name : String) : Bool :=
  let cs := name.toList
  2 ≤ cs.length && cs.head? == some '\'' && cs.getLast? == some '\''

/-- Whether a name may stay undefined, when `known` are the parameters of the templates in its
file. -/
def excuses (policy : Policy) (known : List String) (name : String) : Except Json.Fault Bool :=
  if known.contains name || isLiteral name || policy.isBuiltin name then .ok true
  else do
    let token ← policy.looksLikeToken name
    return token || policy.isPlaceholder name

end Policy

end GrammarLens
