import GrammarLens.Text.Position

/-! # Lines of a text

A text is cut into lines at line feeds only; a carriage return is an ordinary character.  There is
always at least one line.  `Source` holds the lines and turns offsets, which count the characters
of the whole text, into positions and back.

Files from other systems end their lines with a carriage return, or with one before the line feed.
Reading such a file turns both into a line feed before anything else is done. -/

namespace GrammarLens

/-- The text with every line end turned into a line feed. -/
def unifyLineEnds : List Char → List Char
  | [] => []
  | '\r' :: '\n' :: cs => '\n' :: unifyLineEnds cs
  | '\r' :: cs => '\n' :: unifyLineEnds cs
  | c :: cs => c :: unifyLineEnds cs

/-- The lines of a text, without the line feeds between them. -/
def splitLines : List Char → List (List Char)
  | [] => [[]]
  | c :: cs =>
    if c = '\n' then [] :: splitLines cs
    else match splitLines cs with
      | [] => [[c]]
      | line :: lines => (c :: line) :: lines

/-- Lines put back together with line feeds between them. -/
def joinLines : List (List Char) → List Char
  | [] => []
  | [line] => line
  | line :: lines => line ++ '\n' :: joinLines lines

theorem splitLines_ne_nil (cs : List Char) : splitLines cs ≠ [] := by
  cases cs with
  | nil => simp [splitLines]
  | cons c cs =>
    unfold splitLines
    repeat' split
    all_goals simp

/-- Cutting a text into lines loses nothing. -/
theorem joinLines_splitLines (cs : List Char) : joinLines (splitLines cs) = cs := by
  induction cs with
  | nil => rfl
  | cons c cs ih =>
    have hne := splitLines_ne_nil cs
    unfold splitLines
    split
    · rename_i hc
      cases h : splitLines cs with
      | nil => exact absurd h hne
      | cons line lines =>
        have step : joinLines ([] :: line :: lines) = '\n' :: joinLines (line :: lines) := by
          simp [joinLines]
        rw [step, ← h, ih, hc]
    · cases h : splitLines cs with
      | nil => exact absurd h hne
      | cons line lines =>
        rw [h] at ih
        cases lines with
        | nil => simpa [joinLines] using ih
        | cons next more => simpa [joinLines] using ih

/-- A text cut into its lines. -/
structure Source where
  lines : List (List Char)
deriving DecidableEq, Repr

namespace Source

/-- The lines of `text`. -/
def ofText (text : String) : Source := ⟨splitLines text.toList⟩

/-- The line with the number `n`, if there is one. -/
def line? (source : Source) (n : Int) : Option (List Char) :=
  if n < 0 then none else source.lines[n.toNat]?

/-- The position `offset` characters after the start of line `first`, in the lines from there on.
An offset past the end gives the end of the last line. -/
def walk (first : Nat) (offset : Nat) : List (List Char) → Position
  | [] => ⟨first, 0⟩
  | [line] => ⟨first, min offset line.length⟩
  | line :: lines =>
    if offset ≤ line.length then ⟨first, offset⟩
    else walk (first + 1) (offset - (line.length + 1)) lines

/-- The position of an offset; one outside the text counts as the nearest end. -/
def positionAt (source : Source) (offset : Int) : Position :=
  if offset ≤ 0 then ⟨0, 0⟩ else walk 0 offset.toNat source.lines

/-- How many characters some lines take up, each with its line feed. -/
def extent : List (List Char) → Nat
  | [] => 0
  | line :: lines => line.length + 1 + extent lines

/-- The offset of a position; one outside the text counts as the end of its line, or of the
text. -/
def offsetAt (source : Source) (p : Position) : Nat :=
  match source.lines[p.line]? with
  | none => extent source.lines - 1
  | some line => extent (source.lines.take p.line) + min p.column line.length

/-- The text before a position. -/
def before (source : Source) (p : Position) : List Char :=
  (joinLines source.lines).take (source.offsetAt p)

end Source

end GrammarLens
