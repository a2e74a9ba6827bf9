import GrammarLens.Item.Read

/-! # Calls nested too deeply

A call among the arguments of another one is opened while the other is still open, and only so many
calls can be open at a time.  Where one more would be opened, reading is given up.  The functions
here go the same way as those that read: they say whether reading is given up, and what it has read
by then. -/

namespace GrammarLens

/-- The uses in a call with the name `t`, and the call. -/
def Arguments.usesOf (t : Token) (read : Arguments) : List Use :=
  read.uses ++ [.call t read.cursor.last read.names]

/-- The uses that are read before a call is given up whose arguments start with the tokens; none if
it is read to its end.  From this call on, `room` calls may be open. -/
def callOverflow? (room : Nat) (ts : List Token) : Option (List Use) :=
  match room, ts with
  | 0, _ => some []
  | _ + 1, [] => none
  | room + 1, t :: rest =>
    if t.isEnd then none
    else if t.isSpecial ")" then none
    else if t.isSpecial "(" then callOverflow? (room + 1) (skipBalanced "(" ")" 1 t rest).rest
    else if t.isName then
      match rest with
      | [] => none
      | next :: after =>
        if next.isSpecial "(" then
          match callOverflow? room after with
          | some uses => some uses
          | none =>
            (callOverflow? (room + 1) (arguments next after).cursor.rest).map
              ((arguments next after).usesOf t ++ ·)
        else (callOverflow? (room + 1) (next :: after)).map (.name t :: ·)
    else callOverflow? (room + 1) rest
termination_by ts.length
decreasing_by
  · have := length_skipBalanced_le "(" ")" 1 t rest
    simp only [List.length_cons]
    omega
  · simp only [List.length_cons]
    omega
  · have := length_arguments_le next after
    simp only [List.length_cons]
    omega
  all_goals simp only [List.length_cons]; omega

/-- The uses that are read before the element of a body that starts with `t` is given up. -/
def elementOverflow? (limit : Nat) (t : Token) : List Token → Option (List Use)
  | [] => none
  | next :: inner => if t.isName && next.isSpecial "(" then callOverflow? limit inner else none

/-- The uses that are read before a body is given up. -/
def bodyOverflow? (limit : Nat) (ts : List Token) : Option (List Use) :=
  match ts with
  | [] => none
  | t :: rest =>
    if t.isEnd then none
    else if t.isSpecial ";" then none
    else if t.kind == .separator then none
    else
      match elementOverflow? limit t rest with
      | some uses => some uses
      | none => (bodyOverflow? limit (element t rest).2.rest).map ((element t rest).1 ++ ·)
termination_by ts.length
decreasing_by
  have := length_element_le t rest
  simp only [List.length_cons]
  omega

/-- Reading that was given up: the items before, and of the rule that was being read all but its
body, and the uses in that. -/
structure Overflow where
  items : List Item
  rule : Rule
  uses : List Use
deriving DecidableEq, Repr

/-- Whether the body of a rule is given up, if the tokens start with a colon. -/
def ruleOverflow? (limit : Nat) (rule : Rule) : List Token → Option Overflow
  | [] => none
  | t :: rest => if t.isSpecial ":" then (bodyOverflow? limit rest).map (⟨[], rule, ·⟩) else none

/-- Whether a rule after the directive `%rule` is given up. -/
def declaredRuleOverflow? (limit : Nat) (directive : Token) (ts : List Token) : Option Overflow :=
  match skipInline ts with
  | [] => none
  | name :: rest =>
    if name.isName then
      let parameters := parameters? rest
      let tag := typeTag? parameters.2
      ruleOverflow? limit ⟨directive, name, parameters.1, tag.1, none⟩ tag.2
    else none

/-- Whether what starts with `t` in a section, before the tokens `rest`, is given up. -/
def itemOverflow? (limit : Nat) (place : Section) (t : Token) (rest : List Token) :
    Option Overflow :=
  match place with
  | .declarations =>
    if t.kind == .directive && t.value == "%rule" then declaredRuleOverflow? limit t rest else none
  | .rules =>
    if t.kind == .directive && t.value == "%rule" then declaredRuleOverflow? limit t rest
    else if t.isName then ruleOverflow? limit ⟨t, t, none, none, none⟩ (afterAlias rest)
    else none
  | .epilogue => none

/-- What was read before reading is given up, after some items before it. -/
def Overflow.after (items : List Item) (overflow : Overflow) : Overflow :=
  { overflow with items := items ++ overflow.items }

/-- What is read of a token list that starts in a section before reading is given up, since more
than `limit` calls would be open; none if the list is read to its end. -/
def overflow? (limit : Nat) (place : Section) (ts : List Token) : Option Overflow :=
  match ts with
  | [] => none
  | t :: rest =>
    if t.isEnd then none
    else if t.kind == .separator then overflow? limit place.next rest
    else
      match itemOverflow? limit place t rest with
      | some overflow => some overflow
      | none =>
        (overflow? limit place (readItem place t rest).2).map (.after (readItem place t rest).1)
termination_by ts.length
decreasing_by
  · simp
  · have := length_readItem_le place t rest
    simp only [List.length_cons]
    omega

end GrammarLens
