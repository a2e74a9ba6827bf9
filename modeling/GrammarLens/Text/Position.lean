/-! # Positions and spans

Places in a text.  A `Position` counts lines and characters from zero and is ordered line first.
A `Span` runs from one position to another that is not before it; that order is part of the type,
so every span that exists is well formed.  Coordinates that come from outside are integers and are
checked here: `Position.ofInts` refuses a negative one, `Span.make` two ends in the wrong order. -/

namespace GrammarLens

/-- A zero-based place in a text. -/
structure Position where
  line : Nat
  column : Nat
deriving DecidableEq, Repr

namespace Position

instance : LT Position := ⟨fun p q => p.line < q.line ∨ (p.line = q.line ∧ p.column < q.column)⟩

instance : LE Position := ⟨fun p q => p.line < q.line ∨ (p.line = q.line ∧ p.column ≤ q.column)⟩

theorem lt_def {p q : Position} :
    p < q ↔ p.line < q.line ∨ (p.line = q.line ∧ p.column < q.column) := Iff.rfl

theorem le_def {p q : Position} :
    p ≤ q ↔ p.line < q.line ∨ (p.line = q.line ∧ p.column ≤ q.column) := Iff.rfl

instance (p q : Position) : Decidable (p < q) := decidable_of_iff _ lt_def.symm

instance (p q : Position) : Decidable (p ≤ q) := decidable_of_iff _ le_def.symm

/-- Line and column with a colon between them. -/
def render (p : Position) : String := s!"{p.line}:{p.column}"

end Position

/-- Why a pair of coordinates names no position, or a pair of positions no span. -/
inductive SpanError where
  | invalidPosition (line column : Int)
  | invalidSpan (start stop : Position)
deriving DecidableEq, Repr

/-- The wording of a coordinate error. -/
def SpanError.message : SpanError → String
  | invalidPosition line column => s!"Invalid position: line={line}, column={column}"
  | invalidSpan start stop => s!"Invalid range: start={start.render} > end={stop.render}"

/-- The position with these coordinates, which must not be negative. -/
def Position.ofInts (line column : Int) : Except SpanError Position :=
  if line < 0 ∨ column < 0 then .error (.invalidPosition line column)
  else .ok ⟨line.toNat, column.toNat⟩

/-- The nearest position to these coordinates: a negative one counts as zero. -/
def Position.clamped (line column : Int) : Position := ⟨line.toNat, column.toNat⟩

/-- The stretch of a text from `start` up to `stop`. -/
structure Span where
  start : Position
  stop : Position
  start_le_stop : start ≤ stop
deriving DecidableEq, Repr

namespace Span

/-- The span between two positions, which must stand in order. -/
def make (start stop : Position) : Except SpanError Span :=
  if h : start ≤ stop then .ok ⟨start, stop, h⟩ else .error (.invalidSpan start stop)

/-- The span between two pairs of coordinates: first the start is checked, then the stop, then
their order. -/
def ofInts (startLine startColumn stopLine stopColumn : Int) : Except SpanError Span := do
  let start ← Position.ofInts startLine startColumn
  let stop ← Position.ofInts stopLine stopColumn
  make start stop

/-- The span of `length` characters of one line. -/
def onLine (line column length : Int) : Except SpanError Span :=
  ofInts line column line (column + length)

/-- Whether a caret at `p` touches the span.  Both ends belong to it: a caret right after the last
character of a name still touches that name. -/
def contains (s : Span) (p : Position) : Bool :=
  if p.line < s.start.line ∨ s.stop.line < p.line then false
  else if p.line = s.start.line ∧ p.column < s.start.column then false
  else if p.line = s.stop.line ∧ s.stop.column < p.column then false
  else true

/-- Whether two spans meet, if only in one end. -/
def overlaps (a b : Span) : Bool := !(decide (a.stop < b.start) || decide (b.stop < a.start))

/-- The two ends with a dash between them. -/
def render (s : Span) : String := s!"{s.start.render}-{s.stop.render}"

end Span

end GrammarLens
