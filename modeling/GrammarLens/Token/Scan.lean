import GrammarLens.Text.Chars
import GrammarLens.Text.Lines
import GrammarLens.Token

/-! # Scanning

A line of a grammar file is cut, from left to right, into pieces: a `Piece` is a token, a comment
or one dropped character (a blank, or a character that no token starts with).  The cut never fails
and loses nothing, and it looks at one line only: a comment that does not close on its line takes
the rest of that line and ends there.  The tokens of a text are the tokens among the pieces of its
lines, followed by one that marks the end. -/

namespace GrammarLens

/-- The names that may follow a percent sign. -/
def directiveNames : List String :=
  ["rule", "inline", "token", "type", "nterm", "start", "union", "left", "right", "nonassoc",
    "precedence", "prec", "empty", "destructor", "printer", "locations", "no-stdlib", "define",
    "debug", "error-verbose", "after-shift", "before-reduce", "after-reduce",
    "after-shift-error-token", "after-pop-stack"]

/-- The characters that are tokens by themselves. -/
def specialCharacters : List Char :=
  [':', ';', '|', '(', ')', '[', ']', '{', '}', ',', '.', '?', '*', '+']

/-- Whether a name can start with the character. -/
def isNameStart (c : Char) : Bool := c.isAlpha || c == '_'

/-- Whether a name can go on with the character. -/
def isNameChar (c : Char) : Bool := c.isAlphanum || c == '_' || c == '-'

/-- Whether a text starts with a character of a name. -/
def startsInName (cs : List Char) : Bool := cs.head?.any isNameChar

/-- The directive name that a text starts with.  The name has to end there, so that no longer name
is cut short and at most one name fits. -/
def directiveAt? (cs : List Char) : Option String :=
  directiveNames.find? fun name =>
    name.toList.isPrefixOf cs && !startsInName (cs.drop name.length)

/-- How far a literal in the quotes `quote` goes, with its closing quote: the first `quote` with no
backslash before it closes it.  The character before the text is `previous`. -/
def literalLength? (quote previous : Char) : List Char → Option Nat
  | [] => none
  | c :: cs =>
    if c = quote ∧ previous ≠ '\\' then some 1 else (literalLength? quote c cs).map (· + 1)

/-- A stretch of a line, as the scan sees it. -/
inductive Piece where
  | token (kind : Token.Kind) (value : List Char) (width : Nat)
  | comment (width : Nat)
  | dropped (c : Char)
deriving DecidableEq, Repr

namespace Piece

/-- How many characters of the line a piece takes. -/
def width : Piece → Nat
  | token _ _ width => width
  | comment width => width
  | dropped _ => 1

/-- The token whose text is all that it takes. -/
def plain (kind : Token.Kind) (value : List Char) : Piece := token kind value value.length

/-- The piece that starts with a percent sign, before the characters `cs`. -/
def afterPercent (cs : List Char) : Piece :=
  match cs with
  | '%' :: _ => plain .separator ['%', '%']
  | '{' :: _ => plain .prologueStart ['%', '{']
  | '}' :: _ => plain .prologueEnd ['%', '}']
  | _ =>
    match directiveAt? cs with
    | some name => plain .directive ('%' :: name.toList)
    | none => dropped '%'

/-- The piece that starts with a slash, before the characters `cs`. -/
def afterSlash (cs : List Char) : Piece :=
  match cs with
  | '/' :: _ => comment (cs.length + 1)
  | '*' :: rest =>
    match offsetOf? ['*', '/'] rest with
    | some n => comment (n + 4)
    | none => comment (cs.length + 1)
  | _ => dropped '/'

/-- The piece that starts with the quote `quote`, before the characters `cs`. -/
def afterQuote (quote : Char) (cs : List Char) : Piece :=
  match literalLength? quote quote cs with
  | some n => plain (if quote = '"' then .string else .character) (quote :: cs.take n)
  | none => dropped quote

/-- The piece that starts with an opening angle bracket, before the characters `cs`. -/
def afterAngle (cs : List Char) : Piece :=
  match offsetOf? ['>'] cs with
  | some n => token .typeTag (cs.take n) (n + 2)
  | none => dropped '<'

/-- The first piece of a line that starts with `c` and goes on with `cs`. -/
def first (c : Char) (cs : List Char) : Piece :=
  if isBlank c then dropped c
  else if c = '/' then afterSlash cs
  else if c = '%' then afterPercent cs
  else if isNameStart c then plain .identifier (c :: cs.takeWhile isNameChar)
  else if c = '"' ∨ c = '\'' then afterQuote c cs
  else if c = '<' then afterAngle cs
  else if specialCharacters.contains c then plain .special [c]
  else dropped c

end Piece

/-- The pieces of a line after its first `skip` characters. -/
def cutAfter (skip : Nat) : List Char → List Piece
  | [] => []
  | c :: cs =>
    match skip with
    | n + 1 => cutAfter n cs
    | 0 =>
      let piece := Piece.first c cs
      piece :: cutAfter (piece.width - 1) cs

/-- The pieces of a line. -/
def cut (line : List Char) : List Piece := cutAfter 0 line

/-- The tokens among some pieces of line `line`, the first of which stands at `column`. -/
def place (line column : Nat) : List Piece → List Token
  | [] => []
  | piece :: pieces =>
    let rest := place line (column + piece.width) pieces
    match piece with
    | .token kind value width => ⟨kind, String.ofList value, line, column, width⟩ :: rest
    | .comment _ | .dropped _ => rest

/-- The tokens of one line. -/
def scanLine (n : Nat) (line : List Char) : List Token := place n 0 (cut line)

/-- The tokens of some lines, the first of which has the number `n`. -/
def scanLines (n : Nat) : List (List Char) → List Token
  | [] => []
  | line :: lines => scanLine n line ++ scanLines (n + 1) lines

/-- The mark of the end of a text: it stands after the last character of the last line. -/
def endToken (lines : List (List Char)) : Token :=
  ⟨.eof, "", (lines.length - 1 : Nat), (lines.getLast?.getD []).length, 0⟩

/-- The tokens of a text. -/
def scan (text : String) : List Token :=
  let lines := splitLines text.toList
  scanLines 0 lines ++ [endToken lines]

end GrammarLens
