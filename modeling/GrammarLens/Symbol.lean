import GrammarLens.Text.Position

/-! # Symbols

A named entity of a grammar file: a token, a rule, a nonterminal, a type, the start symbol or a
template, which is a rule with parameters.  A symbol collects where it is defined and every use of
it. -/

namespace GrammarLens

/-- What a symbol stands for. -/
inductive Symbol.Kind where
  | token
  | type
  | rule
  | nonterminal
  | template
  | union
  | start
deriving DecidableEq, Repr

namespace Symbol.Kind

/-- All kinds of symbols. -/
def all : List Symbol.Kind := [.token, .type, .rule, .nonterminal, .template, .union, .start]

/-- The name under which a kind is shown. -/
def name : Symbol.Kind → String
  | token => "token"
  | type => "type"
  | rule => "rule"
  | nonterminal => "nonterminal"
  | template => "parameterized_rule"
  | union => "union"
  | start => "start"

/-- The kind shown under a name. -/
def ofName? (n : String) : Option Symbol.Kind := all.find? (·.name == n)

end Symbol.Kind

/-- Where a symbol is defined: the whole definition, and the name in it. -/
structure Definition where
  span : Span
  nameSpan : Span
deriving DecidableEq, Repr

/-- One call of a template: from its name to its closing parenthesis, with its arguments. -/
structure Call where
  span : Span
  arguments : List String
deriving DecidableEq, Repr

/-- A named entity and its occurrences, in the order in which they were recorded. -/
structure Symbol where
  name : String
  kind : Symbol.Kind
  definition : Option Definition := none
  references : List Span := []
  calls : List Call := []
  parameters : Option (List String) := none
  typeTag : Option String := none
  isTemplate : Bool := false
deriving DecidableEq, Repr

namespace Symbol

/-- Whether the symbol has a definition. -/
def isDefined (s : Symbol) : Bool := s.definition.isSome

/-- How often the symbol is used. -/
def usageCount (s : Symbol) : Nat := s.references.length + s.calls.length

/-- The parameters in parentheses, or nothing if there are none. -/
def parameterList (s : Symbol) : String :=
  match s.parameters with
  | none | some [] => ""
  | some names => "(" ++ ", ".intercalate names ++ ")"

/-- The name of the symbol, with its parameters if it has any. -/
def displayName (s : Symbol) : String := s.name ++ s.parameterList

/-- The type tag, unless it is missing or empty. -/
def shownTag? (s : Symbol) : Option String := s.typeTag.filter (· ≠ "")

/-- The type tag in angle brackets after a space, or nothing if none is shown. -/
def tagSuffix (s : Symbol) : String :=
  match s.shownTag? with
  | none => ""
  | some tag => s!" <{tag}>"

/-- What is counted about the uses of the symbol. -/
def usages (s : Symbol) : List String :=
  (if s.references.isEmpty then [] else [s!"{s.references.length} refs"]) ++
    (if s.calls.isEmpty then [] else [s!"{s.calls.length} calls"])

/-- Kind, parameters, type tag and uses of the symbol in one line. -/
def detail (s : Symbol) : String :=
  let counted := if s.usages.isEmpty then "" else " [" ++ ", ".intercalate s.usages ++ "]"
  s.kind.name ++ s.parameterList ++ s.tagSuffix ++ counted

/-- Every span that the symbol covers by its uses, references before calls. -/
def useSpans (s : Symbol) : List Span := s.references ++ s.calls.map (·.span)

end Symbol

end GrammarLens
