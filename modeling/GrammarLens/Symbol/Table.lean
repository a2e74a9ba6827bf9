import GrammarLens.Symbol

/-! # Symbol table

The symbols of one grammar file.  Templates and plain symbols live apart, because a template and a
plain rule may share a name.  Both are kept in the order in which their names were first mentioned.
A symbol may be used before it is defined; the first definition counts and later ones are
ignored. -/

namespace GrammarLens

/-- The symbols with names of their own, in order of first mention. -/
abbrev SymbolList := List Symbol

namespace SymbolList

/-- The symbol with this name. -/
def get? (symbols : SymbolList) (name : String) : Option Symbol :=
  symbols.find? (·.name == name)

/-- Whether the symbol with this name has a definition. -/
def defines (symbols : SymbolList) (name : String) : Bool :=
  (get? symbols name).any (·.isDefined)

/-- Changes the symbol that has the name of `blank`; if there is none yet, `blank` is changed and
put at the end. -/
def alter (blank : Symbol) (change : Symbol → Symbol) : SymbolList → SymbolList
  | [] => [change blank]
  | s :: symbols =>
    if s.name = blank.name then change s :: symbols else s :: alter blank change symbols

end SymbolList

/-- The symbols of a grammar file, and the name that is declared to be its start. -/
structure Table where
  templates : SymbolList
  plain : SymbolList
  start : Option String
deriving DecidableEq, Repr

namespace Table

/-- The table without symbols. -/
def empty : Table := ⟨[], [], none⟩

/-- A plain symbol that nothing is known about yet. -/
def blankPlain (name : String) : Symbol := { name := name, kind := .nonterminal }

/-- A template that nothing is known about yet. -/
def blankTemplate (name : String) : Symbol :=
  { name := name, kind := .template, isTemplate := true }

/-- Records a definition of a plain symbol. -/
def define (table : Table) (name : String) (kind : Symbol.Kind) (definition : Definition) : Table :=
  { table with
    plain := table.plain.alter (blankPlain name) fun s =>
      if s.isDefined then s else { s with kind := kind, definition := some definition } }

/-- Records a definition of a template. -/
def defineTemplate (table : Table) (name : String) (parameters : List String)
    (definition : Definition) : Table :=
  { table with
    templates := table.templates.alter (blankTemplate name) fun s =>
      if s.isDefined then s
      else { s with parameters := some parameters, definition := some definition } }

/-- Records a plain use of a name. -/
def refer (table : Table) (name : String) (span : Span) : Table :=
  { table with
    plain := table.plain.alter (blankPlain name) fun s =>
      { s with references := s.references ++ [span] } }

/-- Records a call of a template. -/
def call (table : Table) (name : String) (call : Call) : Table :=
  { table with
    templates := table.templates.alter (blankTemplate name) fun s =>
      { s with calls := s.calls ++ [call] } }

/-- Gives the plain symbol with this name a type tag. -/
def tagPlain (table : Table) (name tag : String) : Table :=
  { table with
    plain := table.plain.alter (blankPlain name) fun s => { s with typeTag := some tag } }

/-- Gives the template with this name a type tag. -/
def tagTemplate (table : Table) (name tag : String) : Table :=
  { table with
    templates := table.templates.alter (blankTemplate name) fun s => { s with typeTag := some tag } }

/-- Declares the start symbol. -/
def setStart (table : Table) (name : Option String) : Table := { table with start := name }

/-- The plain symbol with this name. -/
def plain? (table : Table) (name : String) : Option Symbol := table.plain.get? name

/-- The template with this name. -/
def template? (table : Table) (name : String) : Option Symbol := table.templates.get? name

/-- The template with this name, or else the plain symbol. -/
def get? (table : Table) (name : String) : Option Symbol := table.template? name <|> table.plain? name

/-- Gives the symbol that `get?` finds a type tag, or takes its tag away; nothing if there is no such
symbol. -/
def tag? (table : Table) (name : String) (tag : Option String) : Option Table :=
  let retag (s : Symbol) : Symbol := { s with typeTag := tag }
  if (table.template? name).isSome then
    some { table with templates := table.templates.alter (blankTemplate name) retag }
  else if (table.plain? name).isSome then
    some { table with plain := table.plain.alter (blankPlain name) retag }
  else none

/-- Whether the name was mentioned. -/
def contains (table : Table) (name : String) : Bool := (table.get? name).isSome

/-- All symbols, templates first. -/
def symbols (table : Table) : List Symbol := table.templates ++ table.plain

/-- All symbols with a definition, templates first. -/
def definedSymbols (table : Table) : List Symbol := table.symbols.filter (·.isDefined)

/-- The number of symbols. -/
def size (table : Table) : Nat := table.plain.length + table.templates.length

/-- The parameters of all templates. -/
def parameterNames (table : Table) : List String :=
  (table.templates.flatMap fun s => s.parameters.getD []).eraseDups

end Table

end GrammarLens
