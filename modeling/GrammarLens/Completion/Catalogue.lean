/-! # What can be offered

The directives with their snippets, the functions of the standard library with their parameters,
and the reserved tokens.  A snippet has numbered gaps to be filled in. -/

namespace GrammarLens

/-- A directive that can be offered. -/
structure DirectiveOffer where
  label : String
  detail : String
  snippet : String
deriving DecidableEq, Repr

/-- A function that can be offered. -/
structure FunctionOffer where
  name : String
  parameters : List String
  detail : String
deriving DecidableEq, Repr

/-- The directives, in the order in which they are offered. -/
def directiveOffers : List DirectiveOffer := [
  ⟨"%token", "Declare tokens", "%token $\x7b1:TOKEN\x7d"⟩,
  ⟨"%type", "Declare type for nonterminals", "%type <$\x7b1:type\x7d> $\x7b2:nonterminal\x7d"⟩,
  ⟨"%nterm", "Declare nonterminals", "%nterm <$\x7b1:type\x7d> $\x7b2:nonterminal\x7d"⟩,
  ⟨"%start", "Specify start symbol", "%start $\x7b1:symbol\x7d"⟩,
  ⟨"%union", "Define union types",
    "%union \x7b\n\t$\x7b1:int ival;\x7d\n\t$\x7b2:char *sval;\x7d\n\x7d"⟩,
  ⟨"%left", "Left associative operator", "%left $\x7b1:TOKEN\x7d"⟩,
  ⟨"%right", "Right associative operator", "%right $\x7b1:TOKEN\x7d"⟩,
  ⟨"%nonassoc", "Non-associative operator", "%nonassoc $\x7b1:TOKEN\x7d"⟩,
  ⟨"%precedence", "Precedence declaration", "%precedence $\x7b1:TOKEN\x7d"⟩,
  ⟨"%rule", "Define parameterized rule",
    "%rule $\x7b1:name\x7d($\x7b2:X\x7d): $\x7b3:/* empty */\x7d\n\t| $\x7b4:X\x7d\n\t;"⟩,
  ⟨"%destructor", "Define destructor",
    "%destructor \x7b\n\t$\x7b1:/* cleanup code */\x7d\n\x7d <$\x7b2:type\x7d>"⟩,
  ⟨"%printer", "Define printer",
    "%printer \x7b\n\t$\x7b1:fprintf(yyoutput, \"%d\", \\$\\$);\x7d\n\x7d <$\x7b2:type\x7d>"⟩,
  ⟨"%define", "Set parser option", "%define $\x7b1:lr.type\x7d $\x7b2:ielr\x7d"⟩,
  ⟨"%locations", "Enable location tracking", "%locations"⟩,
  ⟨"%no-stdlib", "Disable standard library", "%no-stdlib"⟩,
  ⟨"%debug", "Enable debug mode", "%debug"⟩,
  ⟨"%error-verbose", "Verbose error messages", "%error-verbose"⟩,
  ⟨"%after-shift", "After shift callback", "%after-shift $\x7b1:function_name\x7d"⟩,
  ⟨"%before-reduce", "Before reduce callback", "%before-reduce $\x7b1:function_name\x7d"⟩,
  ⟨"%after-reduce", "After reduce callback", "%after-reduce $\x7b1:function_name\x7d"⟩,
  ⟨"%empty", "Empty rule", "%empty"⟩,
  ⟨"%prec", "Precedence modifier", "%prec $\x7b1:TOKEN\x7d"⟩]

/-- The functions of the standard library, in the order in which they are offered. -/
def functionOffers : List FunctionOffer := [
  ⟨"option", ["X"], "Optional (0 or 1)"⟩,
  ⟨"ioption", ["X"], "Inline optional"⟩,
  ⟨"list", ["X"], "List (0 or more)"⟩,
  ⟨"nonempty_list", ["X"], "Non-empty list (1 or more)"⟩,
  ⟨"separated_list", ["separator", "X"], "Separated list"⟩,
  ⟨"separated_nonempty_list", ["separator", "X"], "Non-empty separated list"⟩,
  ⟨"preceded", ["opening", "X"], "Preceded by"⟩,
  ⟨"terminated", ["X", "closing"], "Terminated by"⟩,
  ⟨"delimited", ["opening", "X", "closing"], "Delimited by"⟩]

/-- The reserved tokens. -/
def reservedTokens : List String := ["error", "YYEOF", "YYUNDEF"]

end GrammarLens
