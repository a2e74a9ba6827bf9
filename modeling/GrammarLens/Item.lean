import GrammarLens.Symbol
import GrammarLens.Token

/-! # Sections and items of a grammar file

A grammar file has three sections, parted by double percent signs: declarations, rules, and an
epilogue of user code.  What it says about symbols, without the code in it, is a list of items:
declarations and rules.  Items hold tokens, so that what they say can be traced to its place. -/

namespace GrammarLens

/-! ### Sections -/

/-- The sections of a grammar file. -/
inductive Section where
  | declarations
  | rules
  | epilogue
deriving DecidableEq, Repr

namespace Section

/-- The name under which a section is shown. -/
def name : Section → String
  | declarations => "declarations"
  | rules => "rules"
  | epilogue => "epilogue"

/-- The section after a separator.  The epilogue goes on to the end. -/
def next : Section → Section
  | declarations => rules
  | rules => epilogue
  | epilogue => epilogue

end Section

/-- How many double percent signs stand in a text, counted from the left and apart. -/
def countSeparators : List Char → Nat
  | '%' :: '%' :: cs => countSeparators cs + 1
  | _ :: cs => countSeparators cs
  | [] => 0

/-- The section that the text before a caret leads to, told by its double percent signs alone;
none after the third. -/
def Section.at? (before : List Char) : Option Section :=
  match countSeparators before with
  | 0 => some .declarations
  | 1 => some .rules
  | 2 => some .epilogue
  | _ => none

/-! ### Items -/

/-- A use of a symbol in the body of a rule.  A call comes with the last token that belongs to
it. -/
inductive Use where
  /-- An operand or an argument that is a plain name. -/
  | name (token : Token)
  /-- The operand of `%prec`. -/
  | precedence (token : Token)
  /-- A name with arguments. -/
  | call (name last : Token) (arguments : List String)
deriving DecidableEq, Repr

/-- The body of a rule: the uses in it, each call after what its arguments use, and its last
token. -/
structure Body where
  uses : List Use
  last : Token
deriving DecidableEq, Repr

/-- A rule.  It starts at the token `first`, which is its name or the directive before it; a rule
with a parameter list is a template. -/
structure Rule where
  first : Token
  name : Token
  parameters : Option (List String) := none
  typeTag : Option String := none
  body : Option Body := none
deriving DecidableEq, Repr

/-- One thing that a grammar file says about symbols. -/
inductive Item where
  /-- The token names a symbol of a kind, which may have a type tag. -/
  | symbol (name : Token) (kind : Symbol.Kind) (typeTag : Option String)
  /-- The token names the start symbol. -/
  | start (name : Token)
  /-- A rule or a template. -/
  | rule (rule : Rule)
deriving DecidableEq, Repr

end GrammarLens
