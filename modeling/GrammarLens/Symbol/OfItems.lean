import GrammarLens.Item.Overflow
import GrammarLens.Symbol.Table
import GrammarLens.Token.Scan

/-! # The symbol table of a grammar file

What the items of a file say is put into a table, in their order.  A rule is defined before its
body is looked at, so that its own name stands before the names it uses.  The parameters of a
template are placeholders in its body and no uses of symbols, but for the operand of `%prec`.

A token made by hand may have coordinates that name no place; the first of them that is needed
decides the outcome.  So does a call nested too deeply, where there is room for only so many open
calls. -/

namespace GrammarLens

namespace Table

/-- Whether the symbol that a rule names has a definition: a template's among the templates, any
other's among the plain symbols. -/
def definesRule (table : Table) (rule : Rule) : Bool :=
  match rule.parameters with
  | none => table.plain.defines rule.name.value
  | some _ => table.templates.defines rule.name.value

/-- Records the definition of a rule. -/
def defineRule (table : Table) (rule : Rule) (definition : Definition) : Table :=
  match rule.parameters with
  | none => table.define rule.name.value .rule definition
  | some names => table.defineTemplate rule.name.value names definition

/-- Gives the symbol that a rule names the type tag of the rule. -/
def tagRule (table : Table) (rule : Rule) : Table :=
  match rule.typeTag, rule.parameters with
  | none, _ => table
  | some tag, none => table.tagPlain rule.name.value tag
  | some tag, some _ => table.tagTemplate rule.name.value tag

end Table

/-- A use with its place. -/
inductive PlacedUse where
  | reference (name : String) (span : Span)
  | call (name : String) (call : Call)
deriving DecidableEq, Repr

/-- Where a use stands; none for a placeholder. -/
def Use.placed? (placeholders : List String) : Use → Except SpanError (Option PlacedUse)
  | .name t =>
    if placeholders.contains t.value then .ok none
    else t.span.map fun s => some (.reference t.value s)
  | .precedence t => t.span.map fun s => some (.reference t.value s)
  | .call t last arguments =>
    (t.extent last).map fun s => some (.call t.value ⟨s, arguments⟩)

/-- Where the uses in a body stand. -/
def placedUses (placeholders : List String) : List Use → Except SpanError (List PlacedUse)
  | [] => .ok []
  | use :: uses => do
    let placed ← use.placed? placeholders
    let more ← placedUses placeholders uses
    return placed.toList ++ more

namespace Table

/-- Records a use. -/
def record (table : Table) : PlacedUse → Table
  | .reference name span => table.refer name span
  | .call name call => table.call name call

/-- The places of the uses in a rule, and the place of the whole rule.  Only a rule that is not
defined yet needs the latter; it has to have a body to be larger than its name. -/
def placeRule (rule : Rule) (isDefined : Bool) (nameSpan : Span) :
    Except SpanError (List PlacedUse × Span) :=
  match rule.body with
  | none => .ok ([], nameSpan)
  | some body => do
    let uses ← placedUses (rule.parameters.getD []) body.uses
    let span ← if isDefined then .ok nameSpan else rule.first.extent body.last
    return (uses, span)

/-- Records a rule and the uses in it. -/
def recordRule (table : Table) (rule : Rule) : Except SpanError Table := do
  let nameSpan ← rule.name.span
  let placed ← placeRule rule (table.definesRule rule) nameSpan
  let defined := (table.defineRule rule ⟨placed.2, nameSpan⟩).tagRule rule
  return placed.1.foldl record defined

/-- Records what an item says. -/
def recordItem (table : Table) : Item → Except SpanError Table
  | .symbol t kind typeTag => do
    let span ← t.span
    let defined := table.define t.value kind ⟨span, span⟩
    return match typeTag with
      | none => defined
      | some tag => defined.tagPlain t.value tag
  | .start t => do
    let span ← t.span
    return (table.define t.value .start ⟨span, span⟩).setStart (some t.value)
  | .rule rule => table.recordRule rule

/-- Records what a list of items says. -/
def recordItems (table : Table) : List Item → Except SpanError Table
  | [] => .ok table
  | item :: items => do
    let next ← table.recordItem item
    next.recordItems items

/-- Records what was read before reading is given up.  The table is lost then, and all that can
come of it is an error. -/
def recordOverflow (table : Table) (overflow : Overflow) : Except SpanError Unit := do
  let _ ← table.recordItems overflow.items
  let _ ← overflow.rule.name.span
  let _ ← placedUses (overflow.rule.parameters.getD []) overflow.uses
  return ()

end Table

/-- A grammar file after reading: its symbols, and the section in which it ends. -/
structure Grammar where
  table : Table
  lastSection : Section
deriving DecidableEq, Repr

/-- Why a token list is not read. -/
inductive ReadError where
  | span (error : SpanError)
  /-- There is no room for another open call. -/
  | tooDeep
deriving DecidableEq, Repr

namespace Grammar

/-- The grammar that a token list spells. -/
def ofTokens (ts : List Token) : Except SpanError Grammar :=
  let read := readItems .declarations ts
  (Table.empty.recordItems read.1).map (⟨·, read.2⟩)

/-- The grammar that a text spells. -/
def ofText (text : String) : Except SpanError Grammar := ofTokens (scan text)

/-- The grammar that a token list spells, read with room for `limit` open calls. -/
def ofTokensWithin (limit : Nat) (ts : List Token) : Except ReadError Grammar :=
  match overflow? limit .declarations ts with
  | none => (ofTokens ts).mapError .span
  | some overflow =>
    match Table.empty.recordOverflow overflow with
    | .error e => .error (.span e)
    | .ok _ => .error .tooDeep

/-- The grammar that a text spells, read with room for `limit` open calls. -/
def ofTextWithin (limit : Nat) (text : String) : Except ReadError Grammar :=
  ofTokensWithin limit (scan text)

end Grammar

end GrammarLens
