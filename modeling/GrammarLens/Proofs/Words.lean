import GrammarLens.Hover
import Mathlib.Data.List.TakeWhile

/-! # The word at a caret

The word is what can be reached from the caret: forward over the characters of a name, and backward
over a percent sign right before the caret, a name and a percent sign in front of it
(`reached`).  So it is a part of the line around the caret, and moving its two ends away from
the caret finds it without a look past the ends of the line (`wordEnds?_eq`).  It is meant to be one
word, with a percent sign at its start at most.  That fails just if both the sign before the caret
and a name before that sign are there (`isWord_wordBetween_iff`). -/

namespace GrammarLens

/-! ### What is reached backward -/

/-- A percent sign, if the characters start with one. -/
def leadingSign (cs : List Char) : List Char := if cs.head? = some '%' then ['%'] else []

theorem leadingSign_append (cs : List Char) :
    leadingSign cs ++ cs.drop (leadingSign cs).length = cs := by
  rw [leadingSign]
  split
  · obtain ⟨rest, rfl⟩ := List.head?_eq_some_iff.mp ‹_›
    rfl
  · rfl

theorem reverse_leadingSign (cs : List Char) : (leadingSign cs).reverse = leadingSign cs := by
  rw [leadingSign]
  split <;> rfl

theorem take_eq_leadingSign (cs : List Char) :
    cs.take (if cs.head? = some '%' then 1 else 0) = leadingSign cs := by
  rw [leadingSign]
  split
  · obtain ⟨rest, rfl⟩ := List.head?_eq_some_iff.mp ‹_›
    rfl
  · rfl

/-- What is left, going backward from the caret, behind the sign that may stand there. -/
def behindSign (left : List Char) : List Char := left.drop (leadingSign left).length

/-- The name before the caret, backward. -/
def nameBefore (left : List Char) : List Char := (behindSign left).takeWhile isNameChar

/-- What is left behind that name. -/
def behindName (left : List Char) : List Char := (behindSign left).dropWhile isNameChar

/-- The sign in front of that name.  There is none in front of an empty name: it would be the one
right before the caret. -/
def outerSign (left : List Char) : List Char :=
  if nameBefore left ≠ [] ∧ (behindName left).head? = some '%' then ['%'] else []

/-- All that belongs to the word before the caret, backward. -/
def reached (left : List Char) : List Char := leadingSign left ++ nameBefore left ++ outerSign left

theorem split_left (left : List Char) :
    leadingSign left ++ nameBefore left ++ behindName left = left := by
  rw [List.append_assoc, nameBefore, behindName, List.takeWhile_append_dropWhile, behindSign,
    leadingSign_append]

theorem reached_isPrefix (left : List Char) : reached left <+: left := by
  have hsign : outerSign left <+: behindName left := by
    rw [outerSign]
    split
    · exact List.singleton_prefix_iff_head?_eq_some.mpr (And.right ‹_›)
    · exact List.nil_prefix
  obtain ⟨rest, hrest⟩ := hsign
  exact ⟨rest, by rw [reached, List.append_assoc, hrest, split_left]⟩

theorem isNameChar_of_mem_nameBefore {left : List Char} :
    ∀ c ∈ nameBefore left, isNameChar c = true := fun _ hc => List.mem_takeWhile_imp hc

theorem isNameChar_sign : isNameChar '%' = false := by decide

/-- Where a percent sign stands behind the name, there is a first character of what follows, and it
is a percent sign just if the name is empty: the one right before the caret. -/
theorem exists_first_of_sign {left : List Char} (right : List Char)
    (h : (behindName left).head? = some '%') :
    ∃ c, ((nameBefore left).reverse ++ leadingSign left ++ right).head? = some c ∧
      (c = '%' ↔ nameBefore left = []) := by
  by_cases hname : nameBefore left = []
  · have hsign : leadingSign left = ['%'] := by
      by_cases hhead : left.head? = some '%'
      · exact if_pos hhead
      · -- Without a sign before the caret, the one behind the name would be it.
        have hleft := split_left left
        rw [hname, leadingSign, if_neg hhead, List.append_nil, List.nil_append] at hleft
        exact absurd (hleft ▸ h) hhead
    refine ⟨'%', ?_, iff_of_true rfl hname⟩
    rw [hname, hsign]
    rfl
  · obtain ⟨c, cs, hreverse⟩ :=
      List.exists_cons_of_ne_nil (fun h => hname (List.reverse_eq_nil_iff.mp h))
    have hmem : c ∈ nameBefore left := by
      rw [← List.mem_reverse, hreverse]
      exact List.mem_cons_self
    refine ⟨c, ?_, iff_of_false ?_ hname⟩
    · rw [hreverse]
      rfl
    · rintro rfl
      exact absurd (isNameChar_of_mem_nameBefore _ hmem) (Bool.eq_false_iff.mp isNameChar_sign)

/-- A word is what is reached from the caret, backward and forward. -/
theorem wordBetween_eq (left right : List Char) :
    wordBetween left right = (reached left).reverse ++ right.takeWhile isNameChar := by
  have hunfold : wordBetween left right =
      if (behindName left).head? = some '%' ∧
          ((nameBefore left).reverse ++ leadingSign left ++ right).head? ≠ some '%' then
        '%' :: ((nameBefore left).reverse ++ leadingSign left ++ right.takeWhile isNameChar)
      else (nameBefore left).reverse ++ leadingSign left ++ right.takeWhile isNameChar := by
    rw [wordBetween, take_eq_leadingSign]
    rfl
  rw [hunfold, reached, outerSign, List.reverse_append, List.reverse_append, reverse_leadingSign]
  by_cases hsign : (behindName left).head? = some '%'
  · obtain ⟨c, hfirst, hc⟩ := exists_first_of_sign right hsign
    simp only [hsign, hfirst, ne_eq, Option.some.injEq, hc, true_and, and_true]
    split <;> simp
  · simp only [hsign, false_and, and_false, if_false]
    simp

/-! ### One word -/

/-- Whether characters are one word: a name, with a percent sign in front at most. -/
def IsWord (word : List Char) : Prop :=
  ∃ sign name, word = sign ++ name ∧ (sign = [] ∨ sign = ['%']) ∧ ∀ c ∈ name, isNameChar c = true

theorem IsWord.tail {word : List Char} (h : IsWord word) :
    ∀ c ∈ word.tail, isNameChar c = true := by
  obtain ⟨sign, name, rfl, rfl | rfl, hname⟩ := h
  · exact fun c hc => hname c (List.mem_of_mem_tail hc)
  · exact hname

/-- The word at a caret is one word just if there are not both a sign right before the caret and a
name before that sign. -/
theorem isWord_wordBetween_iff (left right : List Char) :
    IsWord (wordBetween left right) ↔ leadingSign left = [] ∨ nameBefore left = [] := by
  have hright : ∀ c ∈ right.takeWhile isNameChar, isNameChar c = true :=
    fun _ hc => List.mem_takeWhile_imp hc
  rw [wordBetween_eq, reached, List.reverse_append, List.reverse_append, reverse_leadingSign]
  constructor
  · intro h
    by_contra hboth
    obtain ⟨hsign, hname⟩ := not_or.mp hboth
    have hsign : leadingSign left = ['%'] := by
      rw [leadingSign] at hsign ⊢
      exact if_pos (by simpa using hsign)
    -- Something stands before the sign, which is then not the first character.
    have hfront : (outerSign left).reverse ++ (nameBefore left).reverse ≠ [] := by simp [hname]
    obtain ⟨c, cs, hfront⟩ := List.exists_cons_of_ne_nil hfront
    rw [hsign, ← List.append_assoc, hfront] at h
    exact absurd (h.tail '%' (by simp)) (Bool.eq_false_iff.mp isNameChar_sign)
  · rintro (hsign | hname)
    · refine ⟨(outerSign left).reverse, (nameBefore left).reverse ++ right.takeWhile isNameChar,
        by simp [hsign], ?_, ?_⟩
      · rw [outerSign]
        split <;> simp
      · intro c hc
        rcases List.mem_append.mp hc with hc | hc
        · exact isNameChar_of_mem_nameBefore c (List.mem_reverse.mp hc)
        · exact hright c hc
    · refine ⟨leadingSign left, right.takeWhile isNameChar, ?_, ?_, hright⟩
      · simp [outerSign, hname]
      · rw [leadingSign]
        split <;> simp

/-! ### Finding the two ends -/

/-- Whether a percent sign stands before an index; none if there is no character. -/
def signBefore? (cs : List Char) : Nat → Option Bool
  | 0 => some false
  | n + 1 => (cs[n]?).map (· == '%')

/-- Moves back from an index over the characters of a name. -/
def nameStart? (cs : List Char) : Nat → Option Nat
  | 0 => some 0
  | n + 1 => (cs[n]?).bind fun c => if isNameChar c then nameStart? cs n else some (n + 1)

/-- Moves on from an index over the characters of a name. -/
def nameStop? (cs : List Char) (n : Nat) : Option Nat :=
  if n < cs.length then
    (cs[n]?).bind fun c => if isNameChar c then nameStop? cs (n + 1) else some n
  else some n
termination_by cs.length - n

/-- The two ends of the word at a caret, found by moving away from it; none if there is no character
where one is looked at. -/
def wordEnds? (cs : List Char) (column : Nat) : Option (Nat × Nat) := do
  let caret := min column cs.length
  let behind ← signBefore? cs caret
  let start ← nameStart? cs (if behind then caret - 1 else caret)
  let stop ← nameStop? cs caret
  if ← signBefore? cs start then
    let first ← cs[start]?
    return (if first = '%' then start else start - 1, stop)
  else
    return (start, stop)

section Ends

variable (left right : List Char)

theorem getElem?_caret : (left.reverse ++ right)[left.length]? = right.head? := by
  rw [List.getElem?_append_right (by simp), List.length_reverse, Nat.sub_self,
    List.head?_eq_getElem?]

theorem signBefore?_eq :
    signBefore? (left.reverse ++ right) left.length = some (left.head? == some '%') := by
  cases left with
  | nil => rfl
  | cons c left => simp [signBefore?]

theorem nameStart?_eq :
    nameStart? (left.reverse ++ right) left.length = some (left.dropWhile isNameChar).length := by
  induction left generalizing right with
  | nil => rfl
  | cons c left ih =>
      rw [List.reverse_cons, List.append_assoc, List.singleton_append, List.length_cons, nameStart?,
        getElem?_caret, List.head?_cons, Option.bind_some]
      split
      · rw [ih, List.dropWhile_cons_of_pos ‹_›]
      · rw [List.dropWhile_cons_of_neg ‹_›, List.length_cons]

theorem nameStop?_eq :
    nameStop? (left.reverse ++ right) left.length =
      some (left.length + (right.takeWhile isNameChar).length) := by
  induction right generalizing left with
  | nil =>
      rw [nameStop?, if_neg (by simp)]
      rfl
  | cons c right ih =>
      rw [nameStop?, if_pos (by simp), getElem?_caret, List.head?_cons, Option.bind_some]
      split
      · -- The character passed over moves from the right of the index to its left.
        have hmoved := ih (c :: left)
        rw [List.reverse_cons, List.append_assoc, List.singleton_append, List.length_cons] at hmoved
        rw [hmoved, List.takeWhile_cons_of_pos ‹_›, List.length_cons]
        congr 1
        omega
      · rw [List.takeWhile_cons_of_neg ‹_›]
        rfl

theorem nameStart?_behindSign :
    nameStart? (left.reverse ++ right)
        (if left.head? == some '%' then left.length - 1 else left.length) =
      some (behindName left).length := by
  have hline : left.reverse ++ right =
      (behindSign left).reverse ++ (leadingSign left ++ right) := by
    rw [← List.append_assoc, ← reverse_leadingSign, ← List.reverse_append, behindSign,
      leadingSign_append]
  have hindex : (if left.head? == some '%' then left.length - 1 else left.length) =
      (behindSign left).length := by
    rw [behindSign, leadingSign, List.length_drop]
    split <;> simp_all
  rw [hline, hindex, nameStart?_eq, behindName]

theorem length_sub_reached :
    left.length - (reached left).length =
      if nameBefore left ≠ [] ∧ (behindName left).head? = some '%' then (behindName left).length - 1
      else (behindName left).length := by
  have hlength := congrArg List.length (split_left left)
  rw [reached, outerSign]
  simp only [List.length_append] at hlength ⊢
  split <;> simp only [List.length_cons, List.length_nil] <;> omega

/-- The two ends of a word are found without a look past the ends of the line, and what is reached
lies between them. -/
theorem wordEnds?_eq :
    wordEnds? (left.reverse ++ right) left.length =
      some (left.length - (reached left).length,
        left.length + (right.takeWhile isNameChar).length) := by
  have hcaret : min left.length (left.reverse ++ right).length = left.length := by simp
  -- The way back ends behind the name, so the line is parted there once more.
  have hline : left.reverse ++ right =
      (behindName left).reverse ++ ((nameBefore left).reverse ++ leadingSign left ++ right) := by
    rw [← congrArg List.reverse (split_left left)]
    simp [reverse_leadingSign]
  have hsign := signBefore?_eq (behindName left)
    ((nameBefore left).reverse ++ leadingSign left ++ right)
  have hfirst := getElem?_caret (behindName left)
    ((nameBefore left).reverse ++ leadingSign left ++ right)
  rw [← hline] at hsign hfirst
  simp only [wordEnds?, hcaret, signBefore?_eq, nameStart?_behindSign, nameStop?_eq, hsign, hfirst,
    Option.bind_eq_bind, Option.bind_some, length_sub_reached]
  by_cases hmark : (behindName left).head? = some '%'
  · obtain ⟨c, hhead, hc⟩ := exists_first_of_sign right hmark
    rw [hhead]
    by_cases hname : nameBefore left = []
    · simp [hmark, hname, hc.mpr hname]
    · simp [hmark, hname, hc]
  · simp [hmark]

theorem length_wordBetween :
    (wordBetween left right).length =
      (reached left).length + (right.takeWhile isNameChar).length := by
  rw [wordBetween_eq, List.length_append, List.length_reverse]

/-- The ends are one place just if the word is empty. -/
theorem wordEnds_eq_iff :
    left.length - (reached left).length = left.length + (right.takeWhile isNameChar).length ↔
      wordBetween left right = [] := by
  have hle := (reached_isPrefix left).length_le
  rw [← List.length_eq_zero_iff, length_wordBetween]
  omega

theorem extract_wordEnds :
    (left.reverse ++ right).extract (left.length - (reached left).length)
        (left.length + (right.takeWhile isNameChar).length) = wordBetween left right := by
  obtain ⟨far, hfar⟩ := reached_isPrefix left
  have hlength := congrArg List.length hfar
  rw [List.length_append] at hlength
  have hline : left.reverse ++ right = far.reverse ++
      (wordBetween left right ++ right.dropWhile isNameChar) := by
    rw [wordBetween_eq, ← congrArg List.reverse hfar, List.append_assoc,
      List.takeWhile_append_dropWhile, List.reverse_append, List.append_assoc]
  have hword := length_wordBetween left right
  rw [hline, List.extract_eq_take_drop, List.drop_left' (by rw [List.length_reverse]; omega),
    List.take_left' (by omega)]

end Ends

/-! ### The word at a position -/

/-- Whether a part of a line stands around a caret and cannot go on. -/
structure Around (cs : List Char) (caret start stop : Nat) : Prop where
  start_le : start ≤ caret
  le_stop : caret ≤ stop
  stop_le : stop ≤ cs.length
  ends : ∀ c ∈ cs[stop]?, isNameChar c = false

theorem around_wordEnds (left right : List Char) :
    Around (left.reverse ++ right) left.length (left.length - (reached left).length)
      (left.length + (right.takeWhile isNameChar).length) where
  start_le := Nat.sub_le _ _
  le_stop := Nat.le_add_right _ _
  stop_le := by
    have hstart : right.takeWhile isNameChar <+: right := List.takeWhile_prefix _
    have hle := hstart.length_le
    rw [List.length_append, List.length_reverse]
    omega
  ends := by
    intro c hc
    have hrest := @List.drop_left _ (right.takeWhile isNameChar) (right.dropWhile isNameChar)
    rw [List.takeWhile_append_dropWhile] at hrest
    rw [List.getElem?_append_right (by simp), List.length_reverse, Nat.add_sub_cancel_left,
      ← List.head?_drop, hrest] at hc
    have hnot := List.head?_dropWhile_not isNameChar right
    rwa [Option.mem_def.mp hc] at hnot

theorem reached_sign (left : List Char) :
    leadingSign ('%' :: left) = ['%'] ∧ nameBefore ('%' :: left) = left.takeWhile isNameChar :=
  ⟨rfl, rfl⟩

theorem reached_of_ne {c : Char} (hc : c ≠ '%') (left : List Char) :
    leadingSign (c :: left) = [] ∧ nameBefore (c :: left) = (c :: left).takeWhile isNameChar := by
  have hsign : leadingSign (c :: left) = [] := if_neg (by simpa using hc)
  rw [nameBefore, behindSign, hsign]
  exact ⟨rfl, rfl⟩

theorem reached_eq_nil_iff (left : List Char) :
    reached left = [] ↔ ∀ c ∈ left.head?, isNameChar c = false ∧ c ≠ '%' := by
  cases left with
  | nil => exact ⟨nofun, fun _ => rfl⟩
  | cons c left =>
      by_cases hc : c = '%'
      · subst hc
        simp [reached, (reached_sign left).1]
      · obtain ⟨hsign, hname⟩ := reached_of_ne hc left
        cases hc' : isNameChar c <;> simp [reached, outerSign, hsign, hname, hc, hc']

theorem signed_name_iff (left : List Char) :
    (leadingSign left = [] ∨ nameBefore left = []) ↔
      ¬∃ front c, left.reverse = front ++ [c, '%'] ∧ isNameChar c = true := by
  have hreverse : (∃ front c, left.reverse = front ++ [c, '%'] ∧ isNameChar c = true) ↔
      ∃ c rest, left = '%' :: c :: rest ∧ isNameChar c = true := by
    constructor
    · rintro ⟨front, c, hleft, hc⟩
      exact ⟨c, front.reverse, by simpa using congrArg List.reverse hleft, hc⟩
    · rintro ⟨c, rest, rfl, hc⟩
      exact ⟨rest.reverse, c, by simp, hc⟩
  rw [hreverse]
  cases left with
  | nil => simp [leadingSign]
  | cons c left =>
      by_cases hc : c = '%'
      · subst hc
        rw [(reached_sign left).1, (reached_sign left).2]
        cases left with
        | nil => simp
        | cons d left => cases hd : isNameChar d <;> simp [hd]
      · simp [(reached_of_ne hc left).1, hc]

theorem wordEnds?_min (line : List Char) (column : Nat) :
    wordEnds? line (min column line.length) = wordEnds? line column := by
  simp only [wordEnds?, Nat.min_assoc, Nat.min_self]

theorem wordBetween_eq_nil_iff (left right : List Char) :
    wordBetween left right = [] ↔ (∀ c ∈ right.head?, isNameChar c = false) ∧
      ∀ c ∈ left.head?, isNameChar c = false ∧ c ≠ '%' := by
  rw [wordBetween_eq, List.append_eq_nil_iff, List.reverse_eq_nil_iff, reached_eq_nil_iff, and_comm]
  refine and_congr_left fun _ => ?_
  cases right with
  | nil => simp
  | cons c right => cases hc : isNameChar c <;> simp [hc]

theorem Source.wordAt?_eq {source : Source} {p : Position} {line : List Char}
    (h : source.lines[p.line]? = some line) :
    ∃ left right, line = left.reverse ++ right ∧ min p.column line.length = left.length ∧
      source.wordAt? p = if wordBetween left right = [] then none
        else some (String.ofList (wordBetween left right)) := by
  refine ⟨(line.take p.column).reverse, line.drop p.column, ?_, ?_, ?_⟩
  · rw [List.reverse_reverse, List.take_append_drop]
  · rw [List.length_reverse, List.length_take]
  · simp only [wordAt?, h, Option.bind_some, List.isEmpty_iff]

/-- The ends of the word at a position are always found.  The word is the part of the line between
them, which stands around the caret and cannot go on, and there is none just if no name goes on
behind the caret and neither a name nor a percent sign ends before it.  It is one word just if there
are not both a percent sign right before the caret and a name before that. -/
theorem word_single_iff (source : Source) (p : Position) :
    match source.lines[p.line]? with
    | none => source.wordAt? p = none
    | some line =>
      let caret := min p.column line.length
      (∃ start stop, wordEnds? line p.column = some (start, stop) ∧ Around line caret start stop ∧
        source.wordAt? p =
          if start = stop then none else some (String.ofList (line.extract start stop))) ∧
      (source.wordAt? p = none ↔
        (∀ c ∈ (line.drop caret).head?, isNameChar c = false) ∧
          ∀ c ∈ (line.take caret).getLast?, isNameChar c = false ∧ c ≠ '%') ∧
      ((∀ word ∈ source.wordAt? p, ∃ start stop, Around line caret start stop ∧
          word.toList = line.extract start stop ∧ IsWord word.toList) ↔
        ¬∃ front c, line.take caret = front ++ [c, '%'] ∧ isNameChar c = true) := by
  cases hline : source.lines[p.line]? with
  | none => simp [Source.wordAt?, hline]
  | some line =>
      obtain ⟨left, right, rfl, hcaret, hword⟩ := Source.wordAt?_eq hline
      have htake : (left.reverse ++ right).take left.length = left.reverse :=
        List.take_left' (List.length_reverse ..)
      have hdrop : (left.reverse ++ right).drop left.length = right :=
        List.drop_left' (List.length_reverse ..)
      have haround := around_wordEnds left right
      dsimp only
      rw [← wordEnds?_min, hcaret, htake, hdrop, List.getLast?_reverse, hword]
      refine ⟨⟨_, _, wordEnds?_eq left right, haround, ?_⟩, ?_, ?_⟩
      · simp only [wordEnds_eq_iff, extract_wordEnds]
      · rw [← wordBetween_eq_nil_iff]
        simp
      · rw [← signed_name_iff, ← isWord_wordBetween_iff left right]
        constructor
        · intro h
          by_cases hnil : wordBetween left right = []
          · exact hnil ▸ ⟨[], [], rfl, Or.inl rfl, nofun⟩
          · obtain ⟨-, -, -, -, hone⟩ := h _ (by rw [if_neg hnil]; rfl)
            rwa [String.toList_ofList] at hone
        · intro h word hmem
          split at hmem
          · cases hmem
          · cases hmem
            rw [String.toList_ofList]
            exact ⟨_, _, haround, (extract_wordEnds left right).symm, h⟩

/-- Two names with a percent sign between them and the caret behind it are shown as one word. -/
theorem joined_names_found :
    ¬∀ (text : String) (p : Position) (line : List Char),
      (Source.ofText text).lines[p.line]? = some line →
      ∀ word ∈ (Source.ofText text).wordAt? p, ∃ start stop,
        Around line (min p.column line.length) start stop ∧
          word.toList = line.extract start stop ∧ IsWord word.toList := by
  intro h
  obtain ⟨-, -, -, -, hone⟩ := h "%%\nr : a%prec b ;" ⟨1, 6⟩ "r : a%prec b ;".toList
    (by decide +kernel) "a%prec" (by decide +kernel)
  exact absurd (hone.tail '%' (by decide)) (by decide)

end GrammarLens
