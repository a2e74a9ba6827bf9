/-! # Search in a text

Where one piece of text stands inside another, and the pieces between marks. -/

namespace GrammarLens

/-- How many characters stand before the first `word` in a text. -/
def offsetOf? (word : List Char) : List Char → Option Nat
  | [] => if word.isEmpty then some 0 else none
  | c :: cs =>
    if word.isPrefixOf (c :: cs) then some 0 else (offsetOf? word cs).map (· + 1)

/-- Whether `word` stands somewhere in a text. -/
def occursIn (word text : List Char) : Bool := (offsetOf? word text).isSome

/-- The pieces of a text between the characters `mark`. -/
def splitAtMark (mark : Char) : List Char → List (List Char)
  | [] => [[]]
  | c :: cs =>
    if c = mark then [] :: splitAtMark mark cs
    else match splitAtMark mark cs with
      | [] => [[c]]
      | piece :: pieces => (c :: piece) :: pieces

section Pieces

variable {mark : Char}

theorem splitAtMark_ne_nil (mark : Char) (cs : List Char) : splitAtMark mark cs ≠ [] := by
  cases cs with
  | nil => simp [splitAtMark]
  | cons c cs =>
    unfold splitAtMark
    repeat' split
    all_goals simp

theorem splitAtMark_of_not_mem {cs : List Char} (h : mark ∉ cs) : splitAtMark mark cs = [cs] := by
  induction cs with
  | nil => rfl
  | cons c cs ih =>
    rw [List.mem_cons, not_or] at h
    rw [splitAtMark, if_neg (Ne.symm h.1), ih h.2]

theorem splitAtMark_append (cs ds : List Char) :
    splitAtMark mark (cs ++ mark :: ds) = splitAtMark mark cs ++ splitAtMark mark ds := by
  induction cs with
  | nil => simp [splitAtMark]
  | cons c cs ih =>
    by_cases hc : c = mark
    · simp only [List.cons_append, splitAtMark, if_pos hc, ih]
    · obtain ⟨piece, pieces, hpieces⟩ := List.exists_cons_of_ne_nil (splitAtMark_ne_nil mark cs)
      simp only [List.cons_append, splitAtMark, if_neg hc, ih, hpieces]

/-- Pieces without marks are found again between marks. -/
theorem splitAtMark_intercalate {pieces : List (List Char)} (hne : pieces ≠ [])
    (h : ∀ piece ∈ pieces, mark ∉ piece) :
    splitAtMark mark ([mark].intercalate pieces) = pieces := by
  induction pieces with
  | nil => exact absurd rfl hne
  | cons piece pieces ih =>
    obtain ⟨hpiece, hpieces⟩ := List.forall_mem_cons.mp h
    cases pieces with
    | nil => rw [List.intercalate_singleton, splitAtMark_of_not_mem hpiece]
    | cons next more =>
      rw [List.intercalate_cons_cons, List.append_assoc, List.singleton_append, splitAtMark_append,
        splitAtMark_of_not_mem hpiece, ih (List.cons_ne_nil _ _) hpieces, List.singleton_append]

end Pieces

end GrammarLens
