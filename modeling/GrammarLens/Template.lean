import GrammarLens.Log
import GrammarLens.Text.Chars

/-! # Message templates

A message with gaps: an empty pair of braces takes the next argument, a pair with a number the
argument with that number, and a brace that is written twice stands for itself.  The gaps of one
message either all have numbers or none of them has. -/

namespace GrammarLens

/-- Why a template cannot be filled in. -/
inductive TemplateError where
  /-- There is no argument with this number. -/
  | noArgument (index : Nat)
  /-- A gap holds something else than a number. -/
  | noNumber (text : String)
  /-- A number is greater than any argument can have. -/
  | hugeNumber
  /-- A closing brace closes nothing. -/
  | strayClosing
  /-- The template ends with an opening brace. -/
  | strayOpening
  /-- The template ends inside a gap. -/
  | unclosed
  /-- A gap opens inside another. -/
  | nested
  /-- An empty gap comes after one with a number. -/
  | emptyAfterNumbered
  /-- A gap with a number comes after an empty one. -/
  | numberedAfterEmpty
deriving DecidableEq, Repr

/-- The wording of a template error. -/
def TemplateError.message : TemplateError → String
  | noArgument index => s!"there is no argument {index}"
  | noNumber text => s!"there is no number in {quoted text}"
  | hugeNumber => "Too many decimal digits in format string"
  | strayClosing => "Single '\x7d' encountered in format string"
  | strayOpening => "Single '\x7b' encountered in format string"
  | unclosed => "expected '\x7d' before end of string"
  | nested => "unexpected '\x7b' in field name"
  | emptyAfterNumbered =>
    "cannot switch from manual field specification to automatic field numbering"
  | numberedAfterEmpty =>
    "cannot switch from automatic field numbering to manual field specification"

/-- How the gaps were numbered so far. -/
inductive Numbering where
  /-- There was no gap yet. -/
  | undecided
  /-- By their order; the next one has this number. -/
  | inOrder (next : Nat)
  /-- By numbers of their own. -/
  | explicit
deriving DecidableEq, Repr

/-- The greatest number that a gap may hold. -/
def greatestNumber : Nat := 9223372036854775807

/-- The number that digits of any script spell, after digits that spell `n`, if there is nothing but
digits.  A number that grows too great shows before anything else that comes after it. -/
def numberFrom? (n : Nat) : List Char → Except TemplateError (Option Nat)
  | [] => .ok (some n)
  | c :: cs =>
    match decimalValue? c with
    | none => .ok none
    | some digit =>
      if greatestNumber < 10 * n + digit then .error .hugeNumber
      else numberFrom? (10 * n + digit) cs

/-- The number of the argument for a gap with some text in it, and the numbering after it. -/
def Numbering.number (numbering : Numbering) (gap : List Char) :
    Except TemplateError (Nat × Numbering) :=
  match gap, numbering with
  | [], .undecided => .ok (0, .inOrder 1)
  | [], .inOrder next => .ok (next, .inOrder (next + 1))
  | [], .explicit => .error .emptyAfterNumbered
  | gap, numbering => do
    match ← numberFrom? 0 gap, numbering with
    | none, _ => .error (.noNumber (String.ofList gap))
    | some _, .inOrder _ => .error .numberedAfterEmpty
    | some index, _ => .ok (index, .explicit)

/-- The text of the argument with a number. -/
def argumentText (arguments : List Json) (index : Nat) : Except TemplateError (List Char) :=
  match arguments[index]? with
  | some v => .ok v.render.toList
  | none => .error (.noArgument index)

/-- Where the reading of a template stands. -/
inductive Reading where
  /-- Outside of gaps. -/
  | outside
  /-- After a closing brace that needs another one. -/
  | closing
  /-- In a gap, after some text in backward order. -/
  | inside (backward : List Char)
deriving DecidableEq, Repr

/-- Fills in the rest of a template. -/
def fillFrom (arguments : List Json) (numbering : Numbering) (reading : Reading) :
    List Char → Except TemplateError (List Char)
  | [] =>
    match reading with
    | .outside => .ok []
    | .closing => .error .strayClosing
    | .inside [] => .error .strayOpening
    | .inside (_ :: _) => .error .unclosed
  | c :: cs =>
    match reading with
    | .outside =>
      if c = '{' then fillFrom arguments numbering (.inside []) cs
      else if c = '}' then fillFrom arguments numbering .closing cs
      else (fillFrom arguments numbering .outside cs).map (c :: ·)
    | .closing =>
      if c = '}' then (fillFrom arguments numbering .outside cs).map ('}' :: ·)
      else .error .strayClosing
    | .inside backward =>
      if c = '{' then
        if backward.isEmpty then (fillFrom arguments numbering .outside cs).map ('{' :: ·)
        else .error .nested
      else if c = '}' then do
        let (index, numbering) ← numbering.number backward.reverse
        let text ← argumentText arguments index
        return text ++ (← fillFrom arguments numbering .outside cs)
      else fillFrom arguments numbering (.inside (c :: backward)) cs

/-- A message with its gaps filled in.  Without arguments it is taken as it is. -/
def fillTemplate (message : String) (arguments : List Json) : Except TemplateError String :=
  if arguments.isEmpty then .ok message
  else (fillFrom arguments .undecided .outside message.toList).map String.ofList

/-- The notice that something went wrong, told by a template and its arguments. -/
def Notice.ofTemplate (message : String) (arguments : List Json) : Except TemplateError Notice :=
  (fillTemplate message arguments).map .internal

end GrammarLens
