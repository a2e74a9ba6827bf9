import GrammarLens.Proofs.Offers
import GrammarLens.Proofs.Previews
import Mathlib.Order.MinMax
import Mathlib.Order.Monotone.Basic

/-! # Offsets and positions

An offset counts the characters before a place, a position the lines before it and the characters
before it on its line.  Only some positions are places of a text (`Source.Holds`): the lines have
ends.  On these, offsets grow with positions (`strictMonoOn_offsetAt`), so an offset belongs to one
of them at most, and the position of an offset is that one (`offsetAt_positionAt`).  Any other
position is first moved to the nearest place of the text (`Source.clamp`), which changes neither its
offset nor the order.  The rest follows from this: the two maps are inverse up to such moves, and
both are monotone.

The text before a position ends with the beginning of its line (`splitLines_before`), which is all
that completion looks at besides the section. -/

namespace GrammarLens

/-! ### Lines and their extent -/

theorem joinLines_append {lines' : List (List Char)} (hne : lines' ≠ [])
    (lines : List (List Char)) :
    joinLines (lines ++ lines') = lines.flatMap (· ++ ['\n']) ++ joinLines lines' := by
  induction lines with
  | nil => rfl
  | cons line lines ih =>
      have hrest : lines ++ lines' ≠ [] := List.append_ne_nil_of_right_ne_nil _ hne
      rw [List.cons_append, Source.joinLines_cons line hrest, ih, List.flatMap_cons]
      simp

namespace Source

theorem length_flatMap_newline (lines : List (List Char)) :
    (lines.flatMap (· ++ ['\n'])).length = extent lines := by
  induction lines with
  | nil => rfl
  | cons line lines ih =>
      rw [List.flatMap_cons, List.length_append, ih, List.length_append, extent]
      rfl

theorem extent_append (lines lines' : List (List Char)) :
    extent (lines ++ lines') = extent lines + extent lines' := by
  rw [← length_flatMap_newline, List.flatMap_append, List.length_append, length_flatMap_newline,
    length_flatMap_newline]

/-- All lines but the last have a line feed behind them. -/
theorem length_joinLines {lines : List (List Char)} (hne : lines ≠ []) :
    (joinLines lines).length + 1 = extent lines := by
  induction lines with
  | nil => exact absurd rfl hne
  | cons line lines ih =>
      by_cases hlast : lines = []
      · rw [hlast]
        rfl
      · rw [joinLines_cons line hlast, extent, ← ih hlast, List.length_append, List.length_cons]
        omega

theorem extent_take_le {l l' : Nat} (h : l ≤ l') (lines : List (List Char)) :
    extent (lines.take l) ≤ extent (lines.take l') := by
  obtain ⟨more, hmore⟩ := List.take_prefix_take_left h (l := lines)
  rw [← hmore, extent_append]
  exact Nat.le_add_right _ _

theorem extent_take_succ {lines : List (List Char)} {l : Nat} {line : List Char}
    (h : lines[l]? = some line) :
    extent (lines.take (l + 1)) = extent (lines.take l) + (line.length + 1) := by
  rw [List.take_add_one, h, extent_append]
  rfl

/-! ### Places of the text -/

variable {source : Source} {p q : Position}

/-- The end of the text. -/
def stop (source : Source) : Position :=
  ⟨source.lines.length - 1, (source.lines.getLastD []).length⟩

/-- The nearest place of the text: a column past the end of its line counts as that end, and a line
past the last one as the end of the text. -/
def clamp (source : Source) (p : Position) : Position :=
  match source.lines[p.line]? with
  | none => source.stop
  | some line => ⟨p.line, min p.column line.length⟩

theorem clamp_of_line {line : List Char} (h : source.lines[p.line]? = some line) :
    source.clamp p = ⟨p.line, min p.column line.length⟩ := by
  rw [clamp, h]

theorem clamp_of_none (h : source.lines[p.line]? = none) : source.clamp p = source.stop := by
  rw [clamp, h]

theorem getElem?_stop (hne : source.lines ≠ []) :
    source.lines[source.stop.line]? = some (source.lines.getLastD []) := by
  rw [stop, ← List.getLast?_eq_getElem?, List.getLastD_eq_getLast?,
    List.getLast?_eq_some_getLast hne]
  rfl

theorem holds_stop (hne : source.lines ≠ []) : source.Holds source.stop :=
  ⟨_, getElem?_stop hne, Nat.le_refl _⟩

theorem holds_clamp (hne : source.lines ≠ []) (p : Position) : source.Holds (source.clamp p) := by
  cases h : source.lines[p.line]? with
  | none =>
      rw [clamp_of_none h]
      exact holds_stop hne
  | some line =>
      rw [clamp_of_line h]
      exact ⟨line, h, Nat.min_le_right _ _⟩

theorem le_stop (h : source.Holds p) : p ≤ source.stop := by
  obtain ⟨line, hline, hcolumn⟩ := h
  have hlt := (List.getElem?_eq_some_iff.mp hline).1
  rw [Position.le_def]
  by_cases hlast : p.line = source.stop.line
  · refine Or.inr ⟨hlast, ?_⟩
    have hstop := getElem?_stop (List.ne_nil_of_length_pos (Nat.zero_lt_of_lt hlt))
    rw [← hlast, hline] at hstop
    rw [Option.some.inj hstop] at hcolumn
    exact hcolumn
  · have : source.stop.line = source.lines.length - 1 := rfl
    omega

theorem clamp_monotone (hne : source.lines ≠ []) : Monotone source.clamp := by
  intro p q hpq
  cases hq : source.lines[q.line]? with
  | none =>
      rw [clamp_of_none hq]
      exact le_stop (holds_clamp hne p)
  | some line' =>
      rcases Position.le_def.mp hpq with hless | ⟨hsame, hcolumn⟩
      · have hp := Nat.lt_trans hless (List.getElem?_eq_some_iff.mp hq).1
        rw [clamp_of_line (List.getElem?_eq_getElem hp), clamp_of_line hq]
        exact Or.inl hless
      · rw [clamp_of_line (hsame ▸ hq), clamp_of_line hq]
        exact Or.inr ⟨hsame, min_le_min_right _ hcolumn⟩

/-! ### Offsets of positions -/

theorem offsetAt_of_line {line : List Char} (h : source.lines[p.line]? = some line) :
    source.offsetAt p = extent (source.lines.take p.line) + min p.column line.length := by
  rw [offsetAt, h]

theorem offsetAt_clamp (hne : source.lines ≠ []) (p : Position) :
    source.offsetAt (source.clamp p) = source.offsetAt p := by
  cases h : source.lines[p.line]? with
  | none =>
      have hstop := getElem?_stop hne
      have hlength : source.stop.line + 1 = source.lines.length :=
        Nat.sub_add_cancel (List.length_pos_iff.mpr hne)
      have hextent := extent_take_succ hstop
      rw [hlength, List.take_length] at hextent
      rw [clamp_of_none h, offsetAt_eq hstop (Nat.le_refl _), offsetAt, h, hextent]
      rfl
  | some line =>
      have hheld : min p.column line.length ≤ line.length := Nat.min_le_right _ _
      rw [clamp_of_line h, offsetAt_eq (p := ⟨p.line, min p.column line.length⟩) h hheld,
        offsetAt_of_line h]

/-- A place further on in the text has more characters before it. -/
theorem strictMonoOn_offsetAt (source : Source) :
    StrictMonoOn source.offsetAt {p | source.Holds p} := by
  rintro p ⟨line, hp, hcolumn⟩ q ⟨line', hq, hcolumn'⟩ hpq
  rw [offsetAt_eq hp hcolumn, offsetAt_eq hq hcolumn']
  rcases Position.lt_def.mp hpq with hless | ⟨hsame, hless⟩
  · have hnext := extent_take_le (Nat.succ_le_of_lt hless) source.lines
    rw [extent_take_succ hp] at hnext
    omega
  · rw [hsame]
    omega

theorem offsetAt_monotone (hne : source.lines ≠ []) : Monotone source.offsetAt := by
  intro p q hpq
  rw [← offsetAt_clamp hne p, ← offsetAt_clamp hne q]
  exact (source.strictMonoOn_offsetAt.le_iff_le (holds_clamp hne p) (holds_clamp hne q)).mpr
    (clamp_monotone hne hpq)

/-! ### Positions of offsets -/

theorem offsetAt_cons {lines : List (List Char)} (h : (mk lines).Holds p) (line : List Char) :
    (mk (line :: lines)).offsetAt ⟨p.line + 1, p.column⟩ =
      line.length + 1 + (mk lines).offsetAt p := by
  obtain ⟨line', hline, hcolumn⟩ := h
  have hline' : (mk (line :: lines)).lines[p.line + 1]? = some line' := hline
  rw [offsetAt_eq hline hcolumn, ← Nat.add_assoc]
  exact offsetAt_eq (p := ⟨p.line + 1, p.column⟩) hline' hcolumn

/-- Walking over lines comes to a place of these lines, with as many characters before it as were to
be passed, or with all of them. -/
theorem walk_spec {lines : List (List Char)} (hne : lines ≠ []) (first offset : Nat) :
    ∃ p, (mk lines).Holds p ∧ walk first offset lines = ⟨first + p.line, p.column⟩ ∧
      (mk lines).offsetAt p = min offset (joinLines lines).length := by
  induction lines generalizing first offset with
  | nil => exact absurd rfl hne
  | cons line lines ih =>
      cases lines with
      | nil =>
          refine ⟨⟨0, min offset line.length⟩, ⟨line, rfl, Nat.min_le_right _ _⟩, rfl, ?_⟩
          simp [offsetAt, extent, joinLines]
      | cons next more =>
          have hlength : (joinLines (line :: next :: more)).length =
              line.length + 1 + (joinLines (next :: more)).length := by
            rw [joinLines_cons line (List.cons_ne_nil _ _), List.length_append, List.length_cons]
            omega
          have hstep : walk first offset (line :: next :: more) =
              if offset ≤ line.length then ⟨first, offset⟩
              else walk (first + 1) (offset - (line.length + 1)) (next :: more) := rfl
          rw [hstep, hlength]
          split
          · rename_i hwithin
            refine ⟨⟨0, offset⟩, ⟨line, rfl, hwithin⟩, rfl, ?_⟩
            rw [offsetAt_eq (p := ⟨0, offset⟩) rfl hwithin, List.take_zero, extent, Nat.zero_add,
              Nat.min_eq_left (by omega)]
          · rename_i hbeyond
            obtain ⟨p, hheld, hwalk, hoffset⟩ :=
              ih (List.cons_ne_nil _ _) (first + 1) (offset - (line.length + 1))
            refine ⟨⟨p.line + 1, p.column⟩, hheld, ?_, ?_⟩
            · rw [hwalk, Nat.add_assoc, Nat.add_comm 1]
            · rw [offsetAt_cons hheld, hoffset]
              omega

theorem positionAt_eq_walk (source : Source) (offset : Int) :
    source.positionAt offset = walk 0 offset.toNat source.lines := by
  rw [positionAt]
  split
  · rename_i hneg
    rw [Int.toNat_eq_zero.mpr hneg]
    rcases source.lines with _ | ⟨line, _ | ⟨next, more⟩⟩ <;> simp [walk]
  · rfl

section Inverse

variable (hne : source.lines ≠ [])

include hne

theorem holds_positionAt (offset : Int) : source.Holds (source.positionAt offset) := by
  obtain ⟨p, hheld, hwalk, -⟩ := walk_spec hne 0 offset.toNat
  rw [positionAt_eq_walk, hwalk, Nat.zero_add]
  exact hheld

theorem offsetAt_positionAt (offset : Int) :
    source.offsetAt (source.positionAt offset) =
      min offset.toNat (joinLines source.lines).length := by
  obtain ⟨p, -, hwalk, hoffset⟩ := walk_spec hne 0 offset.toNat
  rw [positionAt_eq_walk, hwalk, Nat.zero_add]
  exact hoffset

theorem offsetAt_le (p : Position) : source.offsetAt p ≤ (joinLines source.lines).length := by
  have hpast : source.lines[p.line + source.lines.length]? = none :=
    List.getElem?_eq_none (Nat.le_add_left _ _)
  have hpos := List.length_pos_iff.mpr hne
  calc source.offsetAt p
    _ ≤ source.offsetAt ⟨p.line + source.lines.length, p.column⟩ :=
        offsetAt_monotone hne (Or.inl (Nat.lt_add_of_pos_right hpos))
    _ = extent source.lines - 1 := by rw [offsetAt, hpast]
    _ = (joinLines source.lines).length := by rw [← length_joinLines hne, Nat.add_sub_cancel]

/-- The nearest place of the text has the same offset, and no other place has it. -/
theorem positionAt_offsetAt (p : Position) :
    source.positionAt (source.offsetAt p) = source.clamp p := by
  refine source.strictMonoOn_offsetAt.injOn (holds_positionAt hne _) (holds_clamp hne p) ?_
  rw [offsetAt_positionAt hne, offsetAt_clamp hne, Int.toNat_natCast]
  exact Nat.min_eq_left (offsetAt_le hne p)

theorem positionAt_le_positionAt {o o' : Int} (h : o ≤ o') :
    source.positionAt o ≤ source.positionAt o' := by
  rw [← source.strictMonoOn_offsetAt.le_iff_le (holds_positionAt hne o) (holds_positionAt hne o'),
    offsetAt_positionAt hne, offsetAt_positionAt hne]
  exact min_le_min_right _ (Int.toNat_le_toNat h)

end Inverse

/-! ### The text before a position -/

theorem before_eq {line : List Char} (h : source.lines[p.line]? = some line) :
    source.before p =
      (source.lines.take p.line).flatMap (· ++ ['\n']) ++ line.take p.column := by
  obtain ⟨hlt, hline⟩ := List.getElem?_eq_some_iff.mp h
  have hdrop : source.lines.drop p.line = line :: source.lines.drop (p.line + 1) := by
    rw [List.drop_eq_getElem_cons hlt, hline]
  have hbegins : ∃ after, joinLines (line :: source.lines.drop (p.line + 1)) = line ++ after := by
    by_cases hlast : source.lines.drop (p.line + 1) = []
    · exact ⟨[], by rw [hlast, joinLines, List.append_nil]⟩
    · exact ⟨_, joinLines_cons line hlast⟩
  obtain ⟨after, hafter⟩ := hbegins
  have htext : joinLines source.lines =
      (source.lines.take p.line).flatMap (· ++ ['\n']) ++ (line ++ after) := by
    rw [← hafter, ← joinLines_append (List.cons_ne_nil _ _), ← hdrop, List.take_append_drop]
  rw [before, offsetAt_of_line h, htext, ← length_flatMap_newline, List.take_length_add_append,
    List.take_append_of_le_length (Nat.min_le_right _ _), ← List.take_take, List.take_length]

end Source

section Text

variable {text : String} {p : Position} {line : List Char}

theorem splitLines_before (h : (Source.ofText text).lines[p.line]? = some line) :
    splitLines ((Source.ofText text).before p) =
      (Source.ofText text).lines.take p.line ++ [line.take p.column] := by
  have hjoin : (Source.ofText text).before p =
      joinLines ((Source.ofText text).lines.take p.line ++ [line.take p.column]) := by
    rw [Source.before_eq h, joinLines_append (List.cons_ne_nil _ _), joinLines]
  have hfree := newline_not_mem_splitLines text.toList
  rw [hjoin, splitLines_joinLines (by simp)]
  intro line' hmem
  rcases List.mem_append.mp hmem with hmem | hmem
  · exact hfree line' (List.mem_of_mem_take hmem)
  · rw [List.mem_singleton.mp hmem]
    exact fun hc => hfree line (List.mem_of_getElem? h) (List.mem_of_mem_take hc)

end Text

/-- The offset of the position of an offset is that offset, moved to the nearest end of the text if
it is outside, and the position of the offset of a position is the nearest place of the text.  Both
maps are monotone.  On a line of the text, what stands before a position is the lines before that
line and the beginning of the line, so completion looks at the last line of it. -/
theorem offsets_and_positions_inverse (text : String) :
    let source := Source.ofText text
    (∀ offset : Int,
      (source.offsetAt (source.positionAt offset) : Int) = max 0 (min offset text.length)) ∧
    (∀ p : Position, source.positionAt (source.offsetAt p) = source.clamp p) ∧
    (∀ o o' : Int, o ≤ o' → source.positionAt o ≤ source.positionAt o') ∧
    (∀ p q : Position, p ≤ q → source.offsetAt p ≤ source.offsetAt q) ∧
    ∀ (p : Position) (line : List Char), source.lines[p.line]? = some line →
      source.before p = (source.lines.take p.line).flatMap (· ++ ['\n']) ++ line.take p.column ∧
      (splitLines (source.before p)).getLast? = some (line.take p.column) ∧
      ∀ table : Table, table.offers source p =
        (offeredGroups (Section.at? (source.before p)) (line.take p.column)).flatMap
          table.offersOf := by
  intro source
  have hne : source.lines ≠ [] := splitLines_ne_nil text.toList
  have hlength : (joinLines source.lines).length = text.length := by
    rw [← String.length_toList]
    exact congrArg List.length (joinLines_splitLines text.toList)
  refine ⟨fun offset => ?_, Source.positionAt_offsetAt hne,
    fun _ _ => Source.positionAt_le_positionAt hne, fun _ _ hpq => Source.offsetAt_monotone hne hpq,
    fun p line h => ⟨Source.before_eq h, ?_, fun table => ?_⟩⟩
  · rw [Source.offsetAt_positionAt hne, hlength]
    omega
  · rw [splitLines_before h, List.getLast?_append]
    rfl
  · rw [Table.offers_eq_flatMap, Source.lineBefore, h, Option.getD_some]

end GrammarLens
