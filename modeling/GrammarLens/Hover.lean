import GrammarLens.Hover.Manual
import GrammarLens.Symbol.Lookup
import GrammarLens.Text.Chars
import GrammarLens.Text.Lines
import GrammarLens.Token.Scan

/-! # Hover

The text that is shown for a position: about the symbol there, if there is one, and else about the
word there, if the manual has a page on it. -/

namespace GrammarLens

/-! ### The word at a position -/

/-- The word that ends and starts where a line is parted into `left`, the characters before in
backward order, and `right`.  A percent sign in front of the word belongs to it, and so does one
right before the parting. -/
def wordBetween (left right : List Char) : List Char :=
  let sign := left.take (if left.head? = some '%' then 1 else 0)
  let before := left.drop sign.length
  let start := (before.takeWhile isNameChar).reverse ++ sign
  let word := start ++ right.takeWhile isNameChar
  let outer := before.dropWhile isNameChar
  if outer.head? = some '%' ∧ (start ++ right).head? ≠ some '%' then '%' :: word else word

/-- The word at a position, if there is one. -/
def Source.wordAt? (source : Source) (p : Position) : Option String :=
  (source.lines[p.line]?).bind fun line =>
    let word := wordBetween (line.take p.column).reverse (line.drop p.column)
    if word.isEmpty then none else some (String.ofList word)

/-! ### What is shown about a symbol -/

/-- How a kind of symbol is called. -/
def Symbol.Kind.label : Symbol.Kind → String
  | token => "Token"
  | type => "Type Declaration"
  | rule => "Grammar Rule"
  | nonterminal => "Nonterminal"
  | template => "Parameterized Rule"
  | union => "Union Type"
  | start => "Start Symbol"

/-- How many lines a preview shows after the first. -/
def previewLines : Nat := 5

/-- How wide the lines of a preview may be. -/
def previewWidth : Nat := 80

/-- A line as a preview shows it: without the blanks at its ends, and cut if it is too wide. -/
def previewLine (line : List Char) : List Char :=
  let trimmed := trimBlanks line
  if previewWidth < trimmed.length then trimmed.take (previewWidth - 3) ++ ['.', '.', '.']
  else trimmed

/-- The lines that the preview of a definition shows. -/
def Source.preview (source : Source) (d : Definition) : List (List Char) :=
  let first := d.span.start.line
  let last := min d.span.stop.line (first + previewLines)
  let shown := ((source.lines.drop first).take (last + 1 - first)).map previewLine
  if last < d.span.stop.line then shown ++ ["    ...".toList] else shown

/-- A number of things, in words. -/
def plural (count : Nat) (noun : String) : String :=
  if count = 1 then s!"{count} {noun}" else s!"{count} {noun}s"

namespace Symbol

/-- How often a symbol is used, in words. -/
def usageLines (s : Symbol) : List String :=
  let references := s.references.length
  let calls := s.calls.length
  if references = 0 ∧ calls = 0 then []
  else
    ["\n---\n**Usage**:"] ++
      (if references = 0 then [] else ["- " ++ plural references "reference"]) ++
      (if calls = 0 then [] else ["- " ++ plural calls "parameterized call"])

/-- The definition of a symbol, unless there is nothing to show of it. -/
def definitionLines (s : Symbol) (source : Source) : List String :=
  match s.definition with
  | none => []
  | some d =>
    let preview := joinLines (source.preview d)
    if preview.isEmpty then []
    else ["\n---\n**Definition**:", "```yacc", String.ofList preview, "```"]

/-- Everything that is shown about a symbol. -/
def hoverLines (s : Symbol) (start : Option String) (source : Source) : List String :=
  [s!"**{s.kind.label}**: `{s.name}`"] ++
    (match s.shownTag? with
      | none => []
      | some tag => [s!"\n**Type**: `<{tag}>`"]) ++
    (if s.parameterList.isEmpty then [] else [s!"\n**Parameters**: `{s.parameterList}`"]) ++
    s.usageLines ++
    s.definitionLines source ++
    (if s.isTemplate then
      ["\n*This is a parameterized rule that can be called with different arguments.*"]
    else []) ++
    (if start = some s.name then ["\n**Note**: This is the start symbol of the grammar."] else [])

end Symbol

/-- The text that is shown for a position, if there is one. -/
def Table.hover? (table : Table) (source : Source) (p : Position) : Option String :=
  match table.symbolAt? p with
  | some s => some ("\n".intercalate (s.hoverLines table.start source))
  | none => (source.wordAt? p).bind manualPage?

end GrammarLens
