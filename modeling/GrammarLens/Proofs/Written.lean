import GrammarLens.Proofs.Operations

/-! # Grammar files as they are written

The other side of reading: a well-formed grammar file as a tree, with a place for each of its
tokens.  For every part of a file there are

* `tokens`, how it is written;
* `operations`, what it means: the changes of the symbol table that it calls for, in order.

The meaning is given along the tree and does not look at tokens.  What the trees cannot say by their
shape stands in them as a proof: the code in a block is balanced, the code in a prologue does not
end it, and an alias is no bracket.

`items` is the same meaning with the tokens that it rests on, in the form that reading produces;
`File.operations_items` says that it is no other meaning. -/

namespace GrammarLens.Written

/-! ### Tokens -/

/-- Where a token stands and how long it is. -/
structure Place where
  line : Nat
  column : Nat
  length : Nat
deriving DecidableEq, Repr

namespace Place

/-- The token of a kind at a place. -/
def token (p : Place) (kind : Token.Kind) (text : String) : Token :=
  ⟨kind, text, p.line, p.column, p.length⟩

/-- A special character at a place. -/
def mark (p : Place) (char : String) : Token := p.token .special char

/-- A directive at a place. -/
def directive (p : Place) (word : String) : Token := p.token .directive word

/-- A separator at a place. -/
def separator (p : Place) : Token := p.token .separator "%%"

theorem placed_token (p : Place) (kind : Token.Kind) (text : String) : (p.token kind text).Placed :=
  ⟨Int.natCast_nonneg _, Int.natCast_nonneg _, Int.natCast_nonneg _⟩

end Place

/-- A text at a place. -/
structure Word where
  text : String
  place : Place
deriving DecidableEq, Repr

namespace Word

/-- The word as a name. -/
def name (w : Word) : Token := w.place.token .identifier w.text

/-- The word as a character literal. -/
def literal (w : Word) : Token := w.place.token .character w.text

/-- The word as a string literal. -/
def string (w : Word) : Token := w.place.token .string w.text

/-- The word as a type tag. -/
def tag (w : Word) : Token := w.place.token .typeTag w.text

end Word

/-- A name or a character literal. -/
inductive Operand where
  | name (word : Word)
  | literal (word : Word)
deriving DecidableEq, Repr

namespace Operand

def token : Operand → Token
  | .name w => w.name
  | .literal w => w.literal

def text : Operand → String
  | .name w => w.text
  | .literal w => w.text

end Operand

/-! ### Blocks, aliases and signs of repetition -/

/-- How many braces are open behind some tokens, if `depth` of them are open before; none if a brace
is closed that was not opened, or if the input ends there. -/
def openAfter (depth : Nat) : List Token → Option Nat
  | [] => some depth
  | t :: ts =>
    if t.isEnd then none
    else if t.isSpecial "\x7b" then openAfter (depth + 1) ts
    else if t.isSpecial "\x7d" then
      match depth with
      | 0 => none
      | depth + 1 => openAfter depth ts
    else openAfter depth ts

/-- Code in braces. -/
structure Block where
  opening : Place
  inside : List Token
  closing : Place
  balanced : openAfter 0 inside = some 0

def Block.tokens (b : Block) : List Token :=
  b.opening.mark "\x7b" :: (b.inside ++ [b.closing.mark "\x7d"])

/-- A name in square brackets. -/
structure Alias where
  opening : Place
  name : Word
  closing : Place
  no_bracket : name.text ≠ "]"

def Alias.tokens (a : Alias) : List Token :=
  [a.opening.mark "[", a.name.name, a.closing.mark "]"]

/-- How often something may stand. -/
inductive Repetition where
  | atMostOnce
  | anyNumber
  | atLeastOnce
deriving DecidableEq, Repr

def Repetition.sign : Repetition → String
  | .atMostOnce => "?"
  | .anyNumber => "*"
  | .atLeastOnce => "+"

/-- A sign of repetition. -/
structure Suffix where
  repetition : Repetition
  place : Place
deriving DecidableEq, Repr

def Suffix.token (s : Suffix) : Token := s.place.mark s.repetition.sign

/-! ### Calls -/

mutual

/-- An argument of a call. -/
inductive Argument where
  | name (word : Word)
  | literal (word : Word)
  | call (name : Word) (opening : Place) (arguments : ArgumentList) (closing : Place)

/-- The arguments of a call, with commas between them. -/
inductive ArgumentList where
  | empty
  | list (first : Argument) (more : MoreArguments)

/-- Arguments after a first one. -/
inductive MoreArguments where
  | nil
  | cons (comma : Place) (argument : Argument) (more : MoreArguments)

end

mutual

def Argument.tokens : Argument → List Token
  | .name w => [w.name]
  | .literal w => [w.literal]
  | .call f opening arguments closing =>
    f.name :: opening.mark "(" :: (arguments.tokens ++ [closing.mark ")"])

def ArgumentList.tokens : ArgumentList → List Token
  | .empty => []
  | .list first more => first.tokens ++ more.tokens

def MoreArguments.tokens : MoreArguments → List Token
  | .nil => []
  | .cons comma argument more => comma.mark "," :: (argument.tokens ++ more.tokens)

end

/-- The text that stands for an argument in a call: a call stands for its name. -/
def Argument.text : Argument → String
  | .name w => w.text
  | .literal w => w.text
  | .call f _ _ _ => f.text

def MoreArguments.texts : MoreArguments → List String
  | .nil => []
  | .cons _ argument more => argument.text :: more.texts

def ArgumentList.texts : ArgumentList → List String
  | .empty => []
  | .list first more => first.text :: more.texts

/-- What a plain name in a body means: a reference, but for a placeholder. -/
def nameOperations (placeholders : List String) (w : Word) : List Table.Operation :=
  if w.text ∈ placeholders then [] else [.refer w.text w.name.place]

/-- What a call means: it runs from its name to its closing parenthesis. -/
def callOperation (f : Word) (closing : Place) (texts : List String) : Table.Operation :=
  .call f.text ⟨f.name.through (closing.mark ")"), texts⟩

mutual

/-- What an argument means under the placeholders of the rule around it.  The arguments of a call
come before the call. -/
def Argument.operations (placeholders : List String) : Argument → List Table.Operation
  | .name w => nameOperations placeholders w
  | .literal _ => []
  | .call f _ arguments closing =>
    arguments.operations placeholders ++ [callOperation f closing arguments.texts]

def ArgumentList.operations (placeholders : List String) : ArgumentList → List Table.Operation
  | .empty => []
  | .list first more => first.operations placeholders ++ more.operations placeholders

def MoreArguments.operations (placeholders : List String) : MoreArguments → List Table.Operation
  | .nil => []
  | .cons _ argument more => argument.operations placeholders ++ more.operations placeholders

end

mutual

def Argument.uses : Argument → List Use
  | .name w => [.name w.name]
  | .literal _ => []
  | .call f _ arguments closing =>
    arguments.uses ++ [.call f.name (closing.mark ")") arguments.texts]

def ArgumentList.uses : ArgumentList → List Use
  | .empty => []
  | .list first more => first.uses ++ more.uses

def MoreArguments.uses : MoreArguments → List Use
  | .nil => []
  | .cons _ argument more => argument.uses ++ more.uses

end

/-! ### Bodies -/

/-- An element of a body. -/
inductive Element where
  | name (word : Word) (alias? : Option Alias) (suffix : Option Suffix)
  | literal (word : Word) (suffix : Option Suffix)
  | string (word : Word)
  | action (block : Block) (typeTag : Option Word)
  | precedence (directive : Place) (operand : Operand)
  | empty (directive : Place)
  | call (name : Word) (opening : Place) (arguments : ArgumentList) (closing : Place)
      (alias? : Option Alias) (suffix : Option Suffix)

/-- How an alias and a sign of repetition are written, if they are. -/
def endingTokens (alias? : Option Alias) (suffix : Option Suffix) : List Token :=
  alias?.elim [] Alias.tokens ++ (suffix.map Suffix.token).toList

namespace Element

def tokens : Element → List Token
  | .name w alias? suffix => w.name :: endingTokens alias? suffix
  | .literal w suffix => w.literal :: (suffix.map Suffix.token).toList
  | .string w => [w.string]
  | .action block typeTag => block.tokens ++ (typeTag.map Word.tag).toList
  | .precedence directive operand => [directive.directive "%prec", operand.token]
  | .empty directive => [directive.directive "%empty"]
  | .call f opening arguments closing alias? suffix =>
    f.name :: opening.mark "(" ::
      (arguments.tokens ++ closing.mark ")" :: endingTokens alias? suffix)

/-- What an element means.  Only names, calls and the operand of `%prec` mean something; the latter
is a reference even if it has the name of a placeholder. -/
def operations (placeholders : List String) : Element → List Table.Operation
  | .name w _ _ => nameOperations placeholders w
  | .precedence _ operand => [.refer operand.text operand.token.place]
  | .call f _ arguments closing _ _ =>
    arguments.operations placeholders ++ [callOperation f closing arguments.texts]
  | .literal _ _ | .string _ | .action _ _ | .empty _ => []

def uses : Element → List Use
  | .name w _ _ => [.name w.name]
  | .precedence _ operand => [.precedence operand.token]
  | .call f _ arguments closing _ _ =>
    arguments.uses ++ [.call f.name (closing.mark ")") arguments.texts]
  | .literal _ _ | .string _ | .action _ _ | .empty _ => []

end Element

/-- The alternatives of a rule, with bars between them and a semicolon at the end. -/
structure Alternatives where
  first : List Element
  more : List (Place × List Element)
  semicolon : Place

namespace Alternatives

/-- All elements of all alternatives. -/
def elements (a : Alternatives) : List Element := a.first ++ a.more.flatMap Prod.snd

/-- How the alternatives after the first one are written. -/
def moreTokens (more : List (Place × List Element)) : List Token :=
  more.flatMap fun alternative =>
    alternative.1.mark "|" :: alternative.2.flatMap Element.tokens

def tokens (a : Alternatives) : List Token :=
  a.first.flatMap Element.tokens ++ (moreTokens a.more ++ [a.semicolon.mark ";"])

def operations (placeholders : List String) (a : Alternatives) : List Table.Operation :=
  a.elements.flatMap (Element.operations placeholders)

def body (a : Alternatives) : Body := ⟨a.elements.flatMap Element.uses, a.semicolon.mark ";"⟩

end Alternatives

/-! ### Rules -/

/-- The parameters of a template, with commas between them. -/
structure Parameters where
  opening : Place
  names : Option (Word × List (Place × Word))
  closing : Place

namespace Parameters

def words (ps : Parameters) : List Word :=
  ps.names.elim [] fun names => names.1 :: names.2.map Prod.snd

def texts (ps : Parameters) : List String := ps.words.map Word.text

/-- How the names between the parentheses are written. -/
def inside (ps : Parameters) : List Token :=
  ps.names.elim [] fun names =>
    names.1.name :: names.2.flatMap fun more => [more.1.mark ",", more.2.name]

def tokens (ps : Parameters) : List Token :=
  ps.opening.mark "(" :: (ps.inside ++ [ps.closing.mark ")"])

end Parameters

/-- A rule that consists of its name and its alternatives. -/
structure PlainRule where
  name : Word
  alias? : Option Alias
  colon : Place
  alternatives : Alternatives

/-- A rule that the word `%rule` announces; with parameters it is a template. -/
structure DeclaredRule where
  directive : Place
  inline : Option Place
  name : Word
  parameters : Option Parameters
  typeTag : Option Word
  colon : Place
  alternatives : Alternatives

namespace PlainRule

def tokens (r : PlainRule) : List Token :=
  r.name.name :: (r.alias?.elim [] Alias.tokens ++ r.colon.mark ":" :: r.alternatives.tokens)

/-- What a rule means.  It is defined from its name to its semicolon, before what its alternatives
mean. -/
def operations (r : PlainRule) : List Table.Operation :=
  .define r.name.text .rule
      ⟨r.name.name.through (r.alternatives.semicolon.mark ";"), r.name.name.place⟩ ::
    r.alternatives.operations []

def item (r : PlainRule) : Item :=
  .rule ⟨r.name.name, r.name.name, none, none, some r.alternatives.body⟩

end PlainRule

namespace DeclaredRule

/-- The first token of the rule. -/
def first (r : DeclaredRule) : Token := r.directive.directive "%rule"

/-- How the rule is written after its first token. -/
def moreTokens (r : DeclaredRule) : List Token :=
  (r.inline.map (·.directive "%inline")).toList ++ r.name.name ::
    (r.parameters.elim [] Parameters.tokens ++
      ((r.typeTag.map Word.tag).toList ++ r.colon.mark ":" :: r.alternatives.tokens))

/-- Where the rule is defined: from its first token to its semicolon. -/
def definition (r : DeclaredRule) : Definition :=
  ⟨r.first.through (r.alternatives.semicolon.mark ";"), r.name.name.place⟩

/-- What a declared rule means: a plain definition or that of a template, then its type tag, then
what its alternatives mean.  The parameters of a template are placeholders in them. -/
def operations (r : DeclaredRule) : List Table.Operation :=
  match r.parameters with
  | none =>
    .define r.name.text .rule r.definition ::
      ((r.typeTag.map fun tag => Table.Operation.tagPlain r.name.text tag.text).toList ++
        r.alternatives.operations [])
  | some parameters =>
    .defineTemplate r.name.text parameters.texts r.definition ::
      ((r.typeTag.map fun tag => Table.Operation.tagTemplate r.name.text tag.text).toList ++
        r.alternatives.operations parameters.texts)

def item (r : DeclaredRule) : Item :=
  .rule ⟨r.first, r.name.name, r.parameters.map Parameters.texts, r.typeTag.map Word.text,
    some r.alternatives.body⟩

end DeclaredRule

/-- What stands between the separators. -/
inductive Production where
  | plain (rule : PlainRule)
  | declared (rule : DeclaredRule)

namespace Production

def tokens : Production → List Token
  | .plain r => r.tokens
  | .declared r => r.first :: r.moreTokens

def operations : Production → List Table.Operation
  | .plain r => r.operations
  | .declared r => r.operations

def item : Production → Item
  | .plain r => r.item
  | .declared r => r.item

end Production

/-! ### Declarations -/

/-- The directives that list symbols. -/
inductive ListWord where
  | token
  | type
  | nterm
deriving DecidableEq, Repr

namespace ListWord

def text : ListWord → String
  | .token => "%token"
  | .type => "%type"
  | .nterm => "%nterm"

/-- The kind of the symbols that the directive lists. -/
def kind : ListWord → Symbol.Kind
  | .token => .token
  | .type => .type
  | .nterm => .nonterminal

end ListWord

/-- The directives that list operators. -/
inductive OperatorWord where
  | left
  | right
  | nonassoc
  | precedence
deriving DecidableEq, Repr

def OperatorWord.text : OperatorWord → String
  | .left => "%left"
  | .right => "%right"
  | .nonassoc => "%nonassoc"
  | .precedence => "%precedence"

/-- The directives before a block of code. -/
inductive CodeWord where
  | union
  | destructor
  | printer
deriving DecidableEq, Repr

def CodeWord.text : CodeWord → String
  | .union => "%union"
  | .destructor => "%destructor"
  | .printer => "%printer"

/-- An entry of a list of symbols: a name, or a literal that is an alias of the name before it. -/
inductive Entry where
  | name (word : Word)
  | literal (word : Word)
  | string (word : Word)
deriving DecidableEq, Repr

namespace Entry

def token : Entry → Token
  | .name w => w.name
  | .literal w => w.literal
  | .string w => w.string

/-- The name that the entry declares, if it is one. -/
def declared : Entry → Option Word
  | .name w => some w
  | .literal _ | .string _ => none

end Entry

/-- A declaration. -/
inductive Declaration where
  | symbols (directive : Place) (word : ListWord) (typeTag : Option Word) (entries : List Entry)
  | start (directive : Place) (name : Word)
  | operators (directive : Place) (word : OperatorWord) (operands : List Operand)
  | code (directive : Place) (word : CodeWord) (block : Block)
  | prologue (opening : Place) (inside : List Token) (closing : Place)
      (no_end : ∀ t ∈ inside, t.isEnd = false ∧ t.kind ≠ .prologueEnd)
  | rule (rule : DeclaredRule)

namespace Declaration

/-- The first token of a declaration. -/
def first : Declaration → Token
  | .symbols directive word _ _ => directive.directive word.text
  | .start directive _ => directive.directive "%start"
  | .operators directive word _ => directive.directive word.text
  | .code directive word _ => directive.directive word.text
  | .prologue opening _ _ _ => opening.token .prologueStart "%\x7b"
  | .rule r => r.first

/-- How a declaration is written after its first token. -/
def moreTokens : Declaration → List Token
  | .symbols _ _ typeTag entries => (typeTag.map Word.tag).toList ++ entries.map Entry.token
  | .start _ w => [w.name]
  | .operators _ _ operands => operands.map Operand.token
  | .code _ _ block => block.tokens
  | .prologue _ inside closing _ => inside ++ [closing.token .prologueEnd "%\x7d"]
  | .rule r => r.moreTokens

def tokens (d : Declaration) : List Token := d.first :: d.moreTokens

/-- The type tag that a list gives to its symbols; an empty one says nothing. -/
def effectiveTag (typeTag : Option Word) : Option String :=
  (typeTag.map Word.text).filter (· ≠ "")

/-- What a declaration means.  The names in a list of symbols are defined and given its type tag,
each in turn; operators are tokens, even if they are literals. -/
def operations : Declaration → List Table.Operation
  | .symbols _ word typeTag entries =>
    (entries.filterMap Entry.declared).flatMap fun w =>
      .define w.text word.kind ⟨w.name.place, w.name.place⟩ ::
        ((effectiveTag typeTag).map fun tag => Table.Operation.tagPlain w.text tag).toList
  | .start _ w => [.define w.text .start ⟨w.name.place, w.name.place⟩, .setStart w.text]
  | .operators _ _ operands =>
    operands.map fun o => .define o.text .token ⟨o.token.place, o.token.place⟩
  | .code _ _ _ | .prologue _ _ _ _ => []
  | .rule r => r.operations

def items : Declaration → List Item
  | .symbols _ word typeTag entries =>
    (entries.filterMap Entry.declared).map fun w =>
      .symbol w.name word.kind (effectiveTag typeTag)
  | .start _ w => [.start w.name]
  | .operators _ _ operands => operands.map fun o => .symbol o.token .token none
  | .code _ _ _ | .prologue _ _ _ _ => []
  | .rule r => [r.item]

end Declaration

/-! ### Files -/

/-- A grammar file.  Behind a second separator any tokens may stand; the token list may come with an
end token or without one. -/
structure File where
  declarations : List Declaration
  separator : Place
  rules : List Production
  epilogue : Option (Place × List Token)
  stop : Option Place

namespace File

/-- How the file goes on after its rules. -/
def closingTokens (f : File) : List Token :=
  f.epilogue.elim [] (fun e => e.1.separator :: e.2) ++ (f.stop.map (·.token .eof "")).toList

def tokens (f : File) : List Token :=
  f.declarations.flatMap Declaration.tokens ++
    f.separator.separator :: (f.rules.flatMap Production.tokens ++ f.closingTokens)

def operations (f : File) : List Table.Operation :=
  f.declarations.flatMap Declaration.operations ++ f.rules.flatMap Production.operations

/-- The section that the file ends in. -/
def lastSection (f : File) : Section := if f.epilogue.isSome then .epilogue else .rules

def items (f : File) : List Item :=
  f.declarations.flatMap Declaration.items ++ f.rules.map Production.item

end File

/-! ### Items and operations say the same -/

theorem operations_name (placeholders : List String) (w : Word) :
    Use.operations placeholders (.name w.name) = nameOperations placeholders w := by
  unfold Use.operations nameOperations
  exact if_congr List.contains_iff_mem rfl rfl

mutual

theorem Argument.operations_uses (placeholders : List String) :
    (a : Argument) → a.uses.flatMap (Use.operations placeholders) = a.operations placeholders
  | .name w => by
      rw [Argument.uses, Argument.operations, List.flatMap_singleton, operations_name]
  | .literal w => by rw [Argument.uses, Argument.operations, List.flatMap_nil]
  | .call f opening arguments closing => by
      rw [Argument.uses, Argument.operations, List.flatMap_append, List.flatMap_singleton,
        ArgumentList.operations_uses placeholders arguments]
      rfl

theorem ArgumentList.operations_uses (placeholders : List String) :
    (as : ArgumentList) → as.uses.flatMap (Use.operations placeholders) = as.operations placeholders
  | .empty => by rw [ArgumentList.uses, ArgumentList.operations, List.flatMap_nil]
  | .list first more => by
      rw [ArgumentList.uses, ArgumentList.operations, List.flatMap_append,
        Argument.operations_uses placeholders first, MoreArguments.operations_uses placeholders more]

theorem MoreArguments.operations_uses (placeholders : List String) :
    (more : MoreArguments) →
      more.uses.flatMap (Use.operations placeholders) = more.operations placeholders
  | .nil => by rw [MoreArguments.uses, MoreArguments.operations, List.flatMap_nil]
  | .cons comma argument more => by
      rw [MoreArguments.uses, MoreArguments.operations, List.flatMap_append,
        Argument.operations_uses placeholders argument,
        MoreArguments.operations_uses placeholders more]

end

theorem Element.operations_uses (placeholders : List String) (e : Element) :
    e.uses.flatMap (Use.operations placeholders) = e.operations placeholders := by
  cases e with
  | name w alias? suffix =>
      rw [Element.uses, Element.operations, List.flatMap_singleton, operations_name]
  | precedence directive operand => cases operand <;> rfl
  | call f opening arguments closing alias? suffix =>
      rw [Element.uses, Element.operations, List.flatMap_append, List.flatMap_singleton,
        arguments.operations_uses placeholders]
      rfl
  | literal w suffix => rfl
  | string w => rfl
  | action block typeTag => rfl
  | empty directive => rfl

theorem Alternatives.operations_body (placeholders : List String) (a : Alternatives) :
    a.body.uses.flatMap (Use.operations placeholders) = a.operations placeholders := by
  rw [Alternatives.body, Alternatives.operations, List.flatMap_assoc]
  exact congrArg (List.flatMap · a.elements) (funext (Element.operations_uses placeholders))

theorem PlainRule.operations_item (r : PlainRule) : r.item.operations = r.operations := by
  rw [PlainRule.operations, ← r.alternatives.operations_body []]
  rfl

theorem DeclaredRule.operations_item (r : DeclaredRule) : r.item.operations = r.operations := by
  obtain ⟨directive, inline, name, parameters, typeTag, colon, alternatives⟩ := r
  cases parameters with
  | none =>
      simp only [DeclaredRule.operations, ← alternatives.operations_body]
      cases typeTag <;> rfl
  | some parameters =>
      simp only [DeclaredRule.operations, ← alternatives.operations_body]
      cases typeTag <;> rfl

theorem Production.operations_item (p : Production) : p.item.operations = p.operations := by
  cases p with
  | plain r => exact r.operations_item
  | declared r => exact r.operations_item

theorem Declaration.operations_items (d : Declaration) :
    d.items.flatMap Item.operations = d.operations := by
  cases d with
  | symbols directive word typeTag entries =>
      simp only [Declaration.items, Declaration.operations, List.flatMap_map]
      cases effectiveTag typeTag <;> rfl
  | start directive w => rfl
  | operators directive word operands =>
      simp only [Declaration.items, Declaration.operations, List.flatMap_map]
      rw [List.map_eq_flatMap]
      refine congrArg (List.flatMap · operands) (funext fun o => ?_)
      cases o <;> rfl
  | code directive word block => rfl
  | prologue opening inside closing no_end => rfl
  | rule r =>
      rw [Declaration.items, List.flatMap_singleton, r.operations_item]
      rfl

theorem File.operations_items (f : File) : f.items.flatMap Item.operations = f.operations := by
  rw [File.items, File.operations, List.flatMap_append, List.flatMap_map, List.flatMap_assoc]
  refine congrArg₂ (· ++ ·) ?_ ?_
  · exact congrArg (List.flatMap · f.declarations) (funext Declaration.operations_items)
  · exact congrArg (List.flatMap · f.rules) (funext Production.operations_item)

/-! ### The tokens of items are placed -/

theorem placed_name (w : Word) : ∀ t ∈ [Use.name w.name].flatMap Use.tokens, t.Placed :=
  List.forall_mem_cons.mpr ⟨w.place.placed_token _ _, List.forall_mem_nil _⟩

theorem placed_call (f : Word) (closing : Place) (texts : List String) :
    ∀ t ∈ [Use.call f.name (closing.mark ")") texts].flatMap Use.tokens, t.Placed :=
  List.forall_mem_cons.mpr ⟨f.place.placed_token _ _,
    List.forall_mem_cons.mpr ⟨closing.placed_token _ _, List.forall_mem_nil _⟩⟩

theorem Operand.placed_token (o : Operand) : o.token.Placed := by
  cases o with
  | name w => exact w.place.placed_token _ _
  | literal w => exact w.place.placed_token _ _

mutual

theorem Argument.placed_uses : (a : Argument) → ∀ t ∈ a.uses.flatMap Use.tokens, t.Placed
  | .name w => placed_name w
  | .literal w => by simp [Argument.uses]
  | .call f opening arguments closing => by
      rw [Argument.uses, List.flatMap_append, List.forall_mem_append]
      exact ⟨ArgumentList.placed_uses arguments, placed_call f closing _⟩

theorem ArgumentList.placed_uses :
    (as : ArgumentList) → ∀ t ∈ as.uses.flatMap Use.tokens, t.Placed
  | .empty => by simp [ArgumentList.uses]
  | .list first more => by
      rw [ArgumentList.uses, List.flatMap_append, List.forall_mem_append]
      exact ⟨Argument.placed_uses first, MoreArguments.placed_uses more⟩

theorem MoreArguments.placed_uses :
    (more : MoreArguments) → ∀ t ∈ more.uses.flatMap Use.tokens, t.Placed
  | .nil => by simp [MoreArguments.uses]
  | .cons comma argument more => by
      rw [MoreArguments.uses, List.flatMap_append, List.forall_mem_append]
      exact ⟨Argument.placed_uses argument, MoreArguments.placed_uses more⟩

end

theorem Element.placed_uses (e : Element) : ∀ t ∈ e.uses.flatMap Use.tokens, t.Placed := by
  cases e with
  | name w alias? suffix => exact placed_name w
  | precedence directive operand =>
      exact List.forall_mem_cons.mpr ⟨operand.placed_token, List.forall_mem_nil _⟩
  | call f opening arguments closing alias? suffix =>
      rw [Element.uses, List.flatMap_append, List.forall_mem_append]
      exact ⟨arguments.placed_uses, placed_call f closing _⟩
  | literal w suffix => simp [Element.uses]
  | string w => simp [Element.uses]
  | action block typeTag => simp [Element.uses]
  | empty directive => simp [Element.uses]

theorem Alternatives.placed_body (a : Alternatives) :
    a.body.last.Placed ∧ ∀ t ∈ a.body.uses.flatMap Use.tokens, t.Placed := by
  refine ⟨a.semicolon.placed_token _ _, fun t ht => ?_⟩
  rw [Alternatives.body, List.flatMap_assoc] at ht
  obtain ⟨e, -, ht⟩ := List.mem_flatMap.mp ht
  exact e.placed_uses t ht

theorem PlainRule.placed_item (r : PlainRule) : ∀ t ∈ r.item.tokens, t.Placed := by
  have hname : r.name.name.Placed := r.name.place.placed_token _ _
  have hbody := r.alternatives.placed_body
  exact List.forall_mem_cons.mpr ⟨hname, List.forall_mem_cons.mpr ⟨hname,
    List.forall_mem_cons.mpr hbody⟩⟩

theorem DeclaredRule.placed_item (r : DeclaredRule) : ∀ t ∈ r.item.tokens, t.Placed := by
  have hfirst : r.first.Placed := r.directive.placed_token _ _
  have hname : r.name.name.Placed := r.name.place.placed_token _ _
  have hbody := r.alternatives.placed_body
  exact List.forall_mem_cons.mpr ⟨hfirst, List.forall_mem_cons.mpr ⟨hname,
    List.forall_mem_cons.mpr hbody⟩⟩

theorem Production.placed_item (p : Production) : ∀ t ∈ p.item.tokens, t.Placed := by
  cases p with
  | plain r => exact r.placed_item
  | declared r => exact r.placed_item

theorem Declaration.placed_items (d : Declaration) :
    ∀ t ∈ d.items.flatMap Item.tokens, t.Placed := by
  intro t ht
  obtain ⟨item, hitem, htoken⟩ := List.mem_flatMap.mp ht
  cases d with
  | symbols directive word typeTag entries =>
      obtain ⟨w, -, rfl⟩ := List.mem_map.mp hitem
      rw [List.mem_singleton.mp htoken]
      exact w.place.placed_token _ _
  | start directive w =>
      rw [List.mem_singleton.mp hitem] at htoken
      rw [List.mem_singleton.mp htoken]
      exact w.place.placed_token _ _
  | operators directive word operands =>
      obtain ⟨o, -, rfl⟩ := List.mem_map.mp hitem
      rw [List.mem_singleton.mp htoken]
      exact o.placed_token
  | code directive word block => exact absurd hitem (List.not_mem_nil)
  | prologue opening inside closing no_end => exact absurd hitem (List.not_mem_nil)
  | rule r =>
      rw [List.mem_singleton.mp hitem] at htoken
      exact r.placed_item t htoken

theorem File.placed_items (f : File) : ∀ t ∈ f.items.flatMap Item.tokens, t.Placed := by
  rw [File.items, List.flatMap_append, List.forall_mem_append, List.flatMap_assoc, List.flatMap_map]
  refine ⟨fun t ht => ?_, fun t ht => ?_⟩
  · obtain ⟨d, -, ht⟩ := List.mem_flatMap.mp ht
    exact d.placed_items t ht
  · obtain ⟨p, -, ht⟩ := List.mem_flatMap.mp ht
    exact p.placed_item t ht

end GrammarLens.Written
