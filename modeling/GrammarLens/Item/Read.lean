import GrammarLens.Item.Body

/-! # Reading the items of a grammar file

The tokens of a file are read section by section.  Among the declarations, a directive says what
follows it; among the rules, a name with a colon after it, or `%rule`, starts a rule; the epilogue
is stepped over.  Reading never fails: a token that starts nothing is stepped over, and what is not
closed goes on to the end of the input. -/

namespace GrammarLens

/-- What a directive among the declarations announces. -/
inductive Declaration where
  /-- A list of symbols of a kind, after an optional type tag. -/
  | symbols (kind : Symbol.Kind)
  /-- The start symbol. -/
  | start
  /-- A list of operators. -/
  | operators
  /-- A block of code. -/
  | code
  /-- A rule or a template. -/
  | rule
deriving DecidableEq, Repr

/-- The announcement of a directive.  Other directives only speak about their own line. -/
def Declaration.ofDirective? : String → Option Declaration
  | "%token" => some (.symbols .token)
  | "%type" => some (.symbols .type)
  | "%nterm" => some (.symbols .nonterminal)
  | "%start" => some .start
  | "%left" | "%right" | "%nonassoc" | "%precedence" => some .operators
  | "%union" | "%destructor" | "%printer" => some .code
  | "%rule" => some .rule
  | _ => none

/-- Whether a list in a declaration ends before the token. -/
def Token.endsList (t : Token) : Bool :=
  t.isEnd || t.kind == .directive || t.kind == .separator || t.kind == .prologueStart

/-- The tokens of a list in a declaration, and the tokens after it. -/
def listed (ts : List Token) : List Token × List Token :=
  (ts.takeWhile (!·.endsList), ts.dropWhile (!·.endsList))

/-- A type tag, if the tokens start with one, and the tokens after it. -/
def typeTag? : List Token → Option String × List Token
  | [] => (none, [])
  | t :: rest => if t.kind == .typeTag then (some t.value, rest) else (none, t :: rest)

/-- Reads a list of symbols.  An empty type tag says nothing. -/
def readSymbols (kind : Symbol.Kind) (ts : List Token) : List Item × List Token :=
  let tagged := typeTag? ts
  let list := listed tagged.2
  ((list.1.filter (·.isName)).map (.symbol · kind (tagged.1.filter (· ≠ ""))), list.2)

/-- Reads a list of operators, which are tokens even if they are character literals. -/
def readOperators (ts : List Token) : List Item × List Token :=
  let list := listed ts
  let named := list.1.filter fun t => t.isName || t.kind == .character
  (named.map (.symbol · .token none), list.2)

/-- Reads the start symbol. -/
def readStart : List Token → List Item × List Token
  | [] => ([], [])
  | t :: rest => if t.isName then ([.start t], rest) else ([], t :: rest)

/-- Steps over everything up to a block of code, and over the block. -/
def skipCode : List Token → List Token
  | [] => []
  | t :: rest =>
    if t.isEnd then t :: rest
    else if t.isSpecial "\x7b" then (skipBalanced "\x7b" "\x7d" 1 t rest).rest
    else skipCode rest

/-- Reads the parameters of a template after the parenthesis `opening`, and the closing one. -/
def readParameters (opening : Token) (ts : List Token) : List String × List Token :=
  let list := ts.takeWhile fun t => !(t.isEnd || t.isSpecial ")")
  ((list.filter (·.isName)).map (·.value), (skipThrough (·.isSpecial ")") opening ts).rest)

/-- A parameter list, if the tokens start with one, and the tokens after it. -/
def parameters? : List Token → Option (List String) × List Token
  | [] => (none, [])
  | t :: rest =>
    if t.isSpecial "(" then
      (some (readParameters t rest).1, (readParameters t rest).2)
    else (none, t :: rest)

/-- A body, if the tokens start with a colon, and the tokens after it. -/
def body? : List Token → Option Body × List Token
  | [] => (none, [])
  | t :: rest =>
    if t.isSpecial ":" then
      let read := readBody t rest
      (some ⟨read.1, read.2.last⟩, read.2.rest)
    else (none, t :: rest)

/-- Steps over the word `%inline`. -/
def skipInline : List Token → List Token
  | [] => []
  | t :: rest => if t.kind == .directive && t.value == "%inline" then rest else t :: rest

/-- Reads a rule after the directive `%rule`. -/
def readDeclaredRule (directive : Token) (ts : List Token) : List Item × List Token :=
  match skipInline ts with
  | [] => ([], [])
  | name :: rest =>
    if name.isName then
      let parameters := parameters? rest
      let tag := typeTag? parameters.2
      let body := body? tag.2
      ([.rule ⟨directive, name, parameters.1, tag.1, body.1⟩], body.2)
    else ([], name :: rest)

/-- Reads what starts with `t` among the declarations, before the tokens `rest`. -/
def readDeclaration (t : Token) (rest : List Token) : List Item × List Token :=
  if t.kind == .directive then
    match Declaration.ofDirective? t.value with
    | some (.symbols kind) => readSymbols kind rest
    | some .start => readStart rest
    | some .operators => readOperators rest
    | some .code => ([], skipCode rest)
    | some .rule => readDeclaredRule t rest
    | none => ([], rest.dropWhile fun u => !u.isEnd && u.line == t.line)
  else if t.kind == .prologueStart then
    ([], (skipThrough (·.kind == .prologueEnd) t rest).rest)
  else ([], rest)

/-- The tokens after an alias in square brackets, which any token with the text of a closing
bracket ends. -/
def afterAlias : List Token → List Token
  | [] => []
  | t :: rest =>
    if t.isSpecial "[" then (rest.dropWhile (·.value != "]")).drop 1 else t :: rest

/-- Reads what starts with `t` among the rules, before the tokens `rest`. -/
def readRule (t : Token) (rest : List Token) : List Item × List Token :=
  if t.kind == .directive && t.value == "%rule" then readDeclaredRule t rest
  else if t.isName then
    match body? (afterAlias rest) with
    | (some body, after) => ([.rule ⟨t, t, none, none, some body⟩], after)
    | (none, _) => ([], rest)
  else ([], rest)

/-- Reads what starts with `t` in a section, before the tokens `rest`. -/
def readItem (place : Section) (t : Token) (rest : List Token) : List Item × List Token :=
  match place with
  | .declarations => readDeclaration t rest
  | .rules => readRule t rest
  | .epilogue => ([], rest)

/-! ### Reading goes forward -/

theorem length_listed_le (ts : List Token) : (listed ts).2.length ≤ ts.length :=
  (List.dropWhile_sublist _).length_le

theorem length_typeTag?_le (ts : List Token) : (typeTag? ts).2.length ≤ ts.length := by
  unfold typeTag?
  repeat' split
  all_goals simp

theorem length_readSymbols_le (kind : Symbol.Kind) (ts : List Token) :
    (readSymbols kind ts).2.length ≤ ts.length :=
  Nat.le_trans (length_listed_le _) (length_typeTag?_le ts)

theorem length_readStart_le (ts : List Token) : (readStart ts).2.length ≤ ts.length := by
  unfold readStart
  repeat' split
  all_goals simp

theorem length_skipCode_le (ts : List Token) : (skipCode ts).length ≤ ts.length := by
  induction ts with
  | nil => simp [skipCode]
  | cons t rest ih =>
    unfold skipCode
    repeat' split
    · simp
    · exact Nat.le_succ_of_le (length_skipBalanced_le _ _ _ _ _)
    · exact Nat.le_succ_of_le ih

theorem length_parameters?_le (ts : List Token) : (parameters? ts).2.length ≤ ts.length := by
  unfold parameters?
  repeat' split
  · simp
  · exact Nat.le_succ_of_le (length_skipThrough_le _ _ _)
  · simp

theorem length_body?_le (ts : List Token) : (body? ts).2.length ≤ ts.length := by
  unfold body?
  repeat' split
  · simp
  · exact Nat.le_succ_of_le (length_readBody_le _ _)
  · simp

theorem length_skipInline_le (ts : List Token) : (skipInline ts).length ≤ ts.length := by
  unfold skipInline
  repeat' split
  all_goals simp

theorem length_readDeclaredRule_le (directive : Token) (ts : List Token) :
    (readDeclaredRule directive ts).2.length ≤ ts.length := by
  have h := length_skipInline_le ts
  unfold readDeclaredRule
  repeat' split
  · simp
  · rename_i name rest eq _
    have h1 := length_parameters?_le rest
    have h2 := length_typeTag?_le (parameters? rest).2
    have h3 := length_body?_le (typeTag? (parameters? rest).2).2
    simp only [eq, List.length_cons] at h
    simp only
    omega
  · rename_i eq _
    simpa [eq] using h

theorem length_readDeclaration_le (t : Token) (rest : List Token) :
    (readDeclaration t rest).2.length ≤ rest.length := by
  unfold readDeclaration
  repeat' split
  · exact length_readSymbols_le _ _
  · exact length_readStart_le _
  · exact length_listed_le _
  · exact length_skipCode_le _
  · exact length_readDeclaredRule_le _ _
  · exact (List.dropWhile_sublist _).length_le
  · exact length_skipThrough_le _ _ _
  · exact Nat.le_refl _

theorem length_afterAlias_le (ts : List Token) : (afterAlias ts).length ≤ ts.length := by
  unfold afterAlias
  repeat' split
  · simp
  · rename_i rest _
    have := (List.dropWhile_sublist (l := rest) (·.value != "]")).length_le
    simp only [List.length_drop, List.length_cons]
    omega
  · simp

theorem length_readRule_le (t : Token) (rest : List Token) :
    (readRule t rest).2.length ≤ rest.length := by
  unfold readRule
  repeat' split
  · exact length_readDeclaredRule_le _ _
  · rename_i eq
    have := length_body?_le (afterAlias rest)
    rw [eq] at this
    exact Nat.le_trans this (length_afterAlias_le rest)
  · simp
  · simp

theorem length_readItem_le (place : Section) (t : Token) (rest : List Token) :
    (readItem place t rest).2.length ≤ rest.length := by
  cases place
  · exact length_readDeclaration_le t rest
  · exact length_readRule_le t rest
  · exact Nat.le_refl _

/-- What was read of a token list, after some items before it. -/
def prependItems (items : List Item) (read : List Item × Section) : List Item × Section :=
  (items ++ read.1, read.2)

/-- Reads the items of a token list that starts in a section.  The second result is the section
that the input ends in. -/
def readItems (place : Section) (ts : List Token) : List Item × Section :=
  match ts with
  | [] => ([], place)
  | t :: rest =>
    if t.isEnd then ([], place)
    else if t.kind == .separator then readItems place.next rest
    else prependItems (readItem place t rest).1 (readItems place (readItem place t rest).2)
termination_by ts.length
decreasing_by
  · simp
  · have := length_readItem_le place t rest
    simp only [List.length_cons]
    omega

end GrammarLens
