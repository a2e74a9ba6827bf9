import GrammarLens.Symbol.Table

/-! # The symbol under a caret

Several occurrences may touch one position: the name of a call and the call itself, or two names
that meet.  Each kind of occurrence has a rank, and the first occurrence of the highest rank
decides. -/

namespace GrammarLens

/-- The kinds of occurrences. -/
inductive Occurrence where
  | reference
  | definition
  | call
  | templateDefinition
deriving DecidableEq, Repr

/-- The weight of a kind of occurrence: a template's definition outweighs calls, calls outweigh
plain definitions, and those outweigh references. -/
def Occurrence.rank : Occurrence → Nat
  | reference => 10
  | definition => 50
  | call => 90
  | templateDefinition => 100

namespace Symbol

/-- Whether the defining name of the symbol touches a position. -/
def definedAt (p : Position) (s : Symbol) : Bool := s.definition.any (·.nameSpan.contains p)

/-- The occurrences of a template at a position. -/
def templateOccurrencesAt (p : Position) (s : Symbol) : List Occurrence :=
  (if s.definedAt p then [.templateDefinition] else []) ++
    (s.calls.filter (·.span.contains p)).map fun _ => .call

/-- The occurrences of a plain symbol at a position. -/
def plainOccurrencesAt (p : Position) (s : Symbol) : List Occurrence :=
  (if s.definedAt p then [.definition] else []) ++
    (s.references.filter (·.contains p)).map fun _ => .reference

end Symbol

namespace Table

/-- Everything that touches a position, in the order of the table. -/
def occurrencesAt (table : Table) (p : Position) : List (Symbol × Occurrence) :=
  (table.templates.flatMap fun s => (s.templateOccurrencesAt p).map (s, ·)) ++
    table.plain.flatMap fun s => (s.plainOccurrencesAt p).map (s, ·)

/-- The first of the occurrences with the highest rank, or `best` if none outranks it. -/
def heaviest (best : Option (Symbol × Occurrence)) :
    List (Symbol × Occurrence) → Option (Symbol × Occurrence)
  | [] => best
  | o :: rest =>
    if best.all (·.2.rank < o.2.rank) then heaviest (some o) rest else heaviest best rest

/-- The symbol at a position. -/
def symbolAt? (table : Table) (p : Position) : Option Symbol :=
  (heaviest none (table.occurrencesAt p)).map (·.1)

end Table

end GrammarLens
