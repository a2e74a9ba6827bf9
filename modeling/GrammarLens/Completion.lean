import GrammarLens.Completion.Catalogue
import GrammarLens.Item
import GrammarLens.Symbol.Table
import GrammarLens.Text.Chars
import GrammarLens.Text.Lines

/-! # Completion

What is offered at a position.  It depends on the section, told by the double percent signs before
the position, and on the end of the line before it: an unfinished directive, `%prec` with a word
begun after it, or `%rule` with a blank after it. -/

namespace GrammarLens

/-- The kinds of offers. -/
inductive Offer.Kind where
  | keyword
  | constant
  | function
  | variable
  | method
deriving DecidableEq, Repr

/-- The number under which editors know a kind of offer. -/
def Offer.Kind.number : Offer.Kind → Nat
  | .keyword => 14
  | .constant => 21
  | .function => 3
  | .variable => 6
  | .method => 2

/-- What is put into the text. -/
inductive Insertion where
  /-- The label. -/
  | label
  /-- Some text as it is. -/
  | literal (text : String)
  /-- Some text with gaps to be filled in. -/
  | snippet (text : String)
deriving DecidableEq, Repr

/-- Something that is offered. -/
structure Offer where
  label : String
  kind : Offer.Kind
  detail : String
  insertion : Insertion := .label
deriving DecidableEq, Repr

/-! ### Groups of offers -/

/-- A call with a numbered gap for each parameter. -/
def snippetCall (name : String) (parameters : List String) : String :=
  let gaps := parameters.mapIdx fun i p => "$\x7b" ++ toString (i + 1) ++ ":" ++ p ++ "\x7d"
  name ++ "(" ++ ", ".intercalate gaps ++ ")"

/-- All directives. -/
def offeredDirectives : List Offer :=
  directiveOffers.map fun d => ⟨d.label, .keyword, d.detail, .snippet d.snippet⟩

/-- All functions of the standard library. -/
def offeredFunctions : List Offer :=
  functionOffers.map fun f =>
    ⟨f.name ++ "(" ++ ", ".intercalate f.parameters ++ ")", .function, f.detail,
      .snippet (snippetCall f.name f.parameters)⟩

/-- The kind of offer that a kind of symbol is. -/
def Symbol.Kind.offerKind : Symbol.Kind → Offer.Kind
  | token => .constant
  | rule => .function
  | nonterminal => .function
  | _ => .variable

namespace Table

/-- The plain symbols, and the reserved tokens. -/
def offeredSymbols (table : Table) : List Offer :=
  let symbols := table.definedSymbols.filter (·.kind ≠ .template)
  symbols.map (fun s => { label := s.name, kind := s.kind.offerKind,
                          detail := s.kind.name ++ s.tagSuffix }) ++
    reservedTokens.map fun name =>
      { label := name, kind := .constant, detail := "Reserved token" }

/-- The templates. -/
def offeredTemplates (table : Table) : List Offer :=
  let templates := table.definedSymbols.filter fun s =>
    s.kind = .template && !(s.parameters.getD []).isEmpty
  templates.map fun s =>
    ⟨s.displayName, .method, "Parameterized rule",
      .snippet (snippetCall s.name (s.parameters.getD []))⟩

/-- The tokens that a precedence can be taken from. -/
def offeredPrecedences (table : Table) : List Offer :=
  (table.definedSymbols.filter (·.kind = .token)).map fun s =>
    { label := s.name, kind := .constant, detail := "Precedence token" }

end Table

/-- The word that makes a rule inline. -/
def offeredInline : Offer := ⟨"%inline", .keyword, "Inline rule modifier", .literal "%inline"⟩

/-! ### The end of the line -/

/-- Whether a line, given in backward order, ends with a word and blanks after it. -/
def endsWithBlanksAfter (word : String) (backward : List Char) : Bool :=
  backward.head?.any isBlank && word.toList.reverse.isPrefixOf (backward.dropWhile isBlank)

/-- Whether a line ends after `%prec`, blanks and an unfinished word. -/
def endsInPrecedence (line : List Char) : Bool :=
  endsWithBlanksAfter "%prec" (line.reverse.dropWhile (!isBlank ·))

/-- Whether a line ends in an unfinished directive. -/
def endsInDirective (line : List Char) : Bool :=
  (line.reverse.dropWhile fun c => c.isLower || c == '-').head? == some '%'

/-- Whether a line ends after `%rule` and blanks. -/
def endsAfterRule (line : List Char) : Bool := endsWithBlanksAfter "%rule" line.reverse

/-! ### Offers at a position -/

/-- What is offered at a position. -/
def Table.offers (table : Table) (source : Source) (p : Position) : List Offer :=
  let line := ((source.lines[p.line]?).getD []).take p.column
  let place := Section.at? (source.before p)
  (if place = some .declarations then offeredDirectives else []) ++
    (if place = some .rules then
      table.offeredSymbols ++ table.offeredTemplates ++ offeredFunctions ++
        (if endsInPrecedence line then table.offeredPrecedences else [])
    else []) ++
    (if endsInDirective line then offeredDirectives else []) ++
    (if endsAfterRule line then [offeredInline] else [])

end GrammarLens
