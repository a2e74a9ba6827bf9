import GrammarLens.Item
import GrammarLens.Item.Cursor

/-! # Bodies of rules

The body of a rule is read element by element up to its semicolon.  Actions in braces, aliases in
square brackets, signs of repetition and string literals leave no trace; a plain name, a call and
the operand of `%prec` are uses.  A body without a semicolon ends at the next separator or at the
end of the input, and an open call there too. -/

namespace GrammarLens

/-- What was read of the arguments of a call. -/
structure Arguments where
  names : List String
  uses : List Use
  cursor : Cursor
deriving DecidableEq, Repr

namespace Arguments

/-- No more arguments. -/
def stop (c : Cursor) : Arguments := ⟨[], [], c⟩

/-- A plain name before other arguments. -/
def consName (t : Token) (more : Arguments) : Arguments :=
  ⟨t.value :: more.names, .name t :: more.uses, more.cursor⟩

/-- A character literal before other arguments. -/
def consLiteral (t : Token) (more : Arguments) : Arguments :=
  ⟨t.value :: more.names, more.uses, more.cursor⟩

/-- A call, with what was read of its own arguments, before other arguments. -/
def consCall (t : Token) (inner more : Arguments) : Arguments :=
  ⟨t.value :: more.names, inner.uses ++ .call t inner.cursor.last inner.names :: more.uses,
    more.cursor⟩

end Arguments

/-- Reads the arguments of a call after its opening parenthesis, and the closing one.  A call among
them counts as an argument by its name.  A group in parentheses without a name is stepped over. -/
def arguments (last : Token) (ts : List Token) : Arguments :=
  match ts with
  | [] => .stop ⟨last, []⟩
  | t :: rest =>
    if t.isEnd then .stop ⟨last, t :: rest⟩
    else if t.isSpecial ")" then .stop ⟨t, rest⟩
    else if t.isSpecial "(" then
      arguments (skipBalanced "(" ")" 1 t rest).last (skipBalanced "(" ")" 1 t rest).rest
    else if t.isName then
      match rest with
      | [] => .consName t (.stop ⟨t, []⟩)
      | next :: after =>
        if next.isSpecial "(" then
          match arguments next after with
          | ⟨names, uses, ⟨close, outer⟩⟩ =>
            -- The test always succeeds, see `length_arguments_le`.
            if outer.length ≤ after.length then
              .consCall t ⟨names, uses, ⟨close, outer⟩⟩ (arguments close outer)
            else .consCall t ⟨names, uses, ⟨close, outer⟩⟩ (.stop ⟨close, outer⟩)
        else .consName t (arguments t (next :: after))
    else if t.kind == .character then .consLiteral t (arguments t rest)
    else arguments t rest
termination_by ts.length
decreasing_by
  · have := length_skipBalanced_le "(" ")" 1 t rest
    simp only [List.length_cons]
    omega
  all_goals simp only [List.length_cons]; omega

theorem length_arguments_le (last : Token) (ts : List Token) :
    (arguments last ts).cursor.rest.length ≤ ts.length := by
  fun_induction arguments last ts with
  | case4 last t rest _ _ _ ih =>
    have := length_skipBalanced_le "(" ")" 1 t rest
    simp only [List.length_cons]
    omega
  | case6 => simp_all [Arguments.consCall]; omega
  | case7 => simp_all; omega
  | case8 => simp_all [Arguments.consName]; omega
  | case9 => simp_all [Arguments.consLiteral]; omega
  | case10 => simp_all; omega
  | _ => simp_all [Arguments.stop, Arguments.consName]

/-- Reads one element of a body: the one that starts with `t`, before the tokens `rest`. -/
def element (t : Token) (rest : List Token) : List Use × Cursor :=
  if t.isSpecial "\x7b" then ([], (skipBalanced "\x7b" "\x7d" 1 t rest).skipTypeTag)
  else if t.kind == .directive then
    match rest with
    | [] => ([], ⟨t, []⟩)
    | operand :: after =>
      if t.value == "%prec" && (operand.kind == .identifier || operand.kind == .character) then
        ([.precedence operand], ⟨operand, after⟩)
      else ([], ⟨t, operand :: after⟩)
  else if t.isName then
    match rest with
    | [] => ([.name t], ⟨t, []⟩)
    | next :: inner =>
      if next.isSpecial "(" then
        let call := arguments next inner
        (call.uses ++ [.call t call.cursor.last call.names], call.cursor.skipAlias.skipSuffix)
      else ([.name t], (Cursor.mk t (next :: inner)).skipAlias.skipSuffix)
  else if t.kind == .character then ([], (Cursor.mk t rest).skipSuffix)
  else ([], ⟨t, rest⟩)

theorem length_element_le (t : Token) (rest : List Token) :
    (element t rest).2.rest.length ≤ rest.length := by
  unfold element
  repeat' split
  · exact Nat.le_trans (Cursor.length_skipTypeTag_le _) (length_skipBalanced_le _ _ _ _ _)
  · simp
  · simp
  · simp
  · simp
  · rename_i next inner _
    have h1 := length_arguments_le next inner
    have h2 := Cursor.length_skipAlias_le (arguments next inner).cursor
    have h3 := Cursor.length_skipSuffix_le (arguments next inner).cursor.skipAlias
    simp only [List.length_cons]
    omega
  · exact Nat.le_trans (Cursor.length_skipSuffix_le _) (Cursor.length_skipAlias_le _)
  · exact Cursor.length_skipSuffix_le _
  · exact Nat.le_refl _

/-- What was read of a body, after some uses before it. -/
def prependUses (uses : List Use) (read : List Use × Cursor) : List Use × Cursor :=
  (uses ++ read.1, read.2)

/-- Reads the body of a rule after its colon, the semicolon included. -/
def readBody (last : Token) (ts : List Token) : List Use × Cursor :=
  match ts with
  | [] => ([], ⟨last, []⟩)
  | t :: rest =>
    if t.isEnd then ([], ⟨last, t :: rest⟩)
    else if t.isSpecial ";" then ([], ⟨t, rest⟩)
    else if t.kind == .separator then ([], ⟨last, t :: rest⟩)
    else
      prependUses (element t rest).1 (readBody (element t rest).2.last (element t rest).2.rest)
termination_by ts.length
decreasing_by
  have := length_element_le t rest
  simp only [List.length_cons]
  omega

theorem length_readBody_le (last : Token) (ts : List Token) :
    (readBody last ts).2.rest.length ≤ ts.length := by
  fun_induction readBody last ts with
  | case5 last t rest _ _ _ ih =>
    have := length_element_le t rest
    simp only [prependUses, List.length_cons]
    omega
  | _ => simp

end GrammarLens
