import GrammarLens.Text.Position
import GrammarLens.Text.Printable
import GrammarLens.Text.Search

/-! # Tokens

The words of a grammar file.  A token knows its kind, its text and where it stands.  Its
coordinates are integers: a scan gives natural numbers, but a token list may also be made by hand,
and then a coordinate that names no position shows up when the token's span is asked for. -/

namespace GrammarLens

/-- The kinds of tokens. -/
inductive Token.Kind where
  | separator
  | prologueStart
  | prologueEnd
  | directive
  | identifier
  | string
  | character
  | typeTag
  | special
  | eof
deriving DecidableEq, Repr

/-- All kinds of tokens. -/
def Token.Kind.all : List Token.Kind :=
  [.separator, .prologueStart, .prologueEnd, .directive, .identifier, .string, .character,
    .typeTag, .special, .eof]

/-- The name under which a kind is shown. -/
def Token.Kind.name : Token.Kind → String
  | .separator => "separator"
  | .prologueStart => "prologue_start"
  | .prologueEnd => "prologue_end"
  | .directive => "directive"
  | .identifier => "identifier"
  | .string => "string"
  | .character => "character"
  | .typeTag => "type_tag"
  | .special => "special"
  | .eof => "eof"

/-- A word of a grammar file.  The value of a type tag leaves out its angle brackets, which the
length counts. -/
structure Token where
  kind : Token.Kind
  value : String
  line : Int
  column : Int
  length : Int
deriving DecidableEq, Repr

namespace Token

/-- Where the token stands. -/
def span (t : Token) : Except SpanError Span := Span.onLine t.line t.column t.length

/-- The span from the start of `first` to the end of `last`, or `first` alone if `last` ends
before it. -/
def extent (first last : Token) : Except SpanError Span := do
  let start ← Position.ofInts first.line first.column
  let stop ← Position.ofInts last.line (last.column + last.length)
  if stop < start then
    let own ← Position.ofInts first.line (first.column + first.length)
    Span.make start own
  else
    Span.make start stop

/-- Whether the token is a special character that stands in `chars`.  A token with no text stands
everywhere. -/
def isSpecial (t : Token) (chars : String) : Bool :=
  t.kind == .special && occursIn t.value.toList chars.toList

/-- Whether the token ends the input. -/
def isEnd (t : Token) : Bool := t.kind == .eof

/-- Whether the token can name a symbol in a declaration or a rule. -/
def isName (t : Token) : Bool := t.kind == .identifier

/-- Kind, quoted text and place of a token. -/
def render (t : Token) : String := s!"{t.kind.name}({quoted t.value}) at {t.line}:{t.column}"

end Token

end GrammarLens
