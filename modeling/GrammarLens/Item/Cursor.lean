import GrammarLens.Token

/-! # Cursors in a token list

Reading goes forward only: a `Cursor` holds the token that was read last and the tokens still to
come.  An end token, or the end of the list, is never stepped over.  No step here reads back, so
the tokens to come never grow in number. -/

namespace GrammarLens

/-- A place in a token list: the token before it and the tokens after it. -/
structure Cursor where
  last : Token
  rest : List Token
deriving DecidableEq, Repr

/-- Steps over tokens up to the first that `closes`, and over that one. -/
def skipThrough (closes : Token → Bool) (last : Token) : List Token → Cursor
  | [] => ⟨last, []⟩
  | t :: rest =>
    if t.isEnd then ⟨last, t :: rest⟩
    else if closes t then ⟨t, rest⟩
    else skipThrough closes t rest

/-- Steps over tokens until `depth` brackets are closed, those opened on the way included. -/
def skipBalanced (opening closing : String) (depth : Nat) (last : Token) : List Token → Cursor
  | [] => ⟨last, []⟩
  | t :: rest =>
    if t.isEnd then ⟨last, t :: rest⟩
    else if t.isSpecial opening then skipBalanced opening closing (depth + 1) t rest
    else if t.isSpecial closing then
      if depth ≤ 1 then ⟨t, rest⟩ else skipBalanced opening closing (depth - 1) t rest
    else skipBalanced opening closing depth t rest

namespace Cursor

/-- Steps over the next token if it fits. -/
def skipIf (fits : Token → Bool) (c : Cursor) : Cursor :=
  match c.rest with
  | [] => c
  | t :: rest => if fits t then ⟨t, rest⟩ else c

/-- Steps over a name in square brackets. -/
def skipAlias (c : Cursor) : Cursor :=
  match c.rest with
  | [] => c
  | t :: rest => if t.isSpecial "[" then skipThrough (·.isSpecial "]") t rest else c

/-- Steps over a sign of repetition. -/
def skipSuffix (c : Cursor) : Cursor := c.skipIf (·.isSpecial "?*+")

/-- Steps over a type tag. -/
def skipTypeTag (c : Cursor) : Cursor := c.skipIf (·.kind == .typeTag)

end Cursor

/-! ### The tokens to come do not grow in number -/

theorem length_skipThrough_le (closes : Token → Bool) (last : Token) (ts : List Token) :
    (skipThrough closes last ts).rest.length ≤ ts.length := by
  induction ts generalizing last with
  | nil => simp [skipThrough]
  | cons t rest ih =>
    unfold skipThrough
    split
    · simp
    · split
      · simp
      · exact Nat.le_succ_of_le (ih t)

theorem length_skipBalanced_le (opening closing : String) (depth : Nat) (last : Token)
    (ts : List Token) :
    (skipBalanced opening closing depth last ts).rest.length ≤ ts.length := by
  induction ts generalizing depth last with
  | nil => simp [skipBalanced]
  | cons t rest ih =>
    unfold skipBalanced
    repeat' split
    · simp
    · exact Nat.le_succ_of_le (ih _ t)
    · simp
    · exact Nat.le_succ_of_le (ih _ t)
    · exact Nat.le_succ_of_le (ih _ t)

namespace Cursor

theorem length_skipIf_le (fits : Token → Bool) (c : Cursor) :
    (c.skipIf fits).rest.length ≤ c.rest.length := by
  unfold skipIf
  split
  · exact Nat.le_refl _
  · rename_i t rest h
    split
    · simp [h]
    · exact Nat.le_refl _

theorem length_skipAlias_le (c : Cursor) : c.skipAlias.rest.length ≤ c.rest.length := by
  unfold skipAlias
  split
  · exact Nat.le_refl _
  · rename_i t rest h
    split
    · have := length_skipThrough_le (·.isSpecial "]") t rest
      simp only [h, List.length_cons]
      omega
    · exact Nat.le_refl _

theorem length_skipSuffix_le (c : Cursor) : c.skipSuffix.rest.length ≤ c.rest.length :=
  length_skipIf_le _ c

theorem length_skipTypeTag_le (c : Cursor) : c.skipTypeTag.rest.length ≤ c.rest.length :=
  length_skipIf_le _ c

end Cursor

end GrammarLens
