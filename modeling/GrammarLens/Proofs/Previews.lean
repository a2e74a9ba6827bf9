import GrammarLens.Hover
import GrammarLens.Proofs.Definitions
import GrammarLens.Proofs.Rescanning
import GrammarLens.Proofs.StartSymbol
import Mathlib.Data.List.DropRight
import Mathlib.Data.List.Forall2

/-! # How much of a definition is shown

A preview has the first lines of a definition, each without the blanks around it and cut if it is
too wide, and a mark behind them if there are more (`Previews`).  It is meant to have up to five
lines.  The line that is shown last is counted from the first one on, five lines further, so there
are up to six (`previews_preview`).  A preview of up to six lines is one of up to five just if there
are not more to show: a sixth line cannot be taken for the mark, which starts with a blank
(`Previews.fewer_iff`). -/

namespace GrammarLens

/-! ### One line -/

/-- What is left of a line without the blanks around it. -/
structure Stripped (line core : List Char) : Prop where
  split : ∃ front back, line = front ++ core ++ back ∧ (∀ c ∈ front, isBlank c = true) ∧
    ∀ c ∈ back, isBlank c = true
  first : ∀ c ∈ core.head?, isBlank c = false
  last : ∀ c ∈ core.getLast?, isBlank c = false

/-- A line as a preview is to show it: all that is left without the blanks around it, or 77
characters of that and three dots if it has more than 80. -/
def Shows (line shown : List Char) : Prop :=
  ∃ core, Stripped line core ∧
    shown = if core.length ≤ 80 then core else core.take 77 ++ ['.', '.', '.']

theorem stripped_trimBlanks (line : List Char) : Stripped line (trimBlanks line) := by
  have htrim : trimBlanks line = (line.dropWhile isBlank).rdropWhile isBlank := rfl
  refine ⟨⟨line.takeWhile isBlank, (line.dropWhile isBlank).rtakeWhile isBlank, ?_, ?_, ?_⟩, ?_, ?_⟩
  · rw [htrim, List.append_assoc, List.rdropWhile_append_rtakeWhile,
      List.takeWhile_append_dropWhile]
  · exact fun c hc => List.mem_takeWhile_imp hc
  · exact fun c hc => List.mem_rtakeWhile_imp hc
  · intro c hc
    -- The blanks behind the line are dropped after those before it, so its start stays.
    have hhead : (line.dropWhile isBlank).head? = some c := by
      obtain ⟨rest, hrest⟩ := List.rdropWhile_prefix isBlank (line.dropWhile isBlank)
      rw [← hrest, List.head?_append, ← htrim, Option.mem_def.mp hc, Option.some_or]
    have hnot := List.head?_dropWhile_not isBlank line
    rwa [hhead] at hnot
  · intro c hc
    obtain ⟨hne, rfl⟩ := List.mem_getLast?_eq_getLast hc
    exact Bool.eq_false_iff.mpr (List.rdropWhile_last_not isBlank _ hne)

theorem shows_previewLine (line : List Char) : Shows line (previewLine line) := by
  refine ⟨trimBlanks line, stripped_trimBlanks line, ?_⟩
  rw [previewLine, previewWidth]
  split
  · rw [if_neg (by omega)]
  · rw [if_pos (by omega)]

namespace Shows

variable {line shown : List Char}

theorem length_le (h : Shows line shown) : shown.length ≤ 80 := by
  obtain ⟨core, -, rfl⟩ := h
  split
  · assumption
  · rw [List.length_append, List.length_take]
    simp only [List.length_cons, List.length_nil]
    omega

/-- A line feed in what is shown of a line comes from the line. -/
theorem newline_not_mem (h : Shows line shown) (hline : '\n' ∉ line) : '\n' ∉ shown := by
  obtain ⟨core, ⟨⟨front, back, rfl, -, -⟩, -, -⟩, rfl⟩ := h
  have hcore : '\n' ∉ core := fun hmem => hline (by simp [hmem])
  split
  · exact hcore
  · rw [List.mem_append, not_or]
    exact ⟨fun hmem => hcore (List.mem_of_mem_take hmem), by decide⟩

/-- Nothing that is shown starts with a blank. -/
theorem first (h : Shows line shown) : ∀ c ∈ shown.head?, isBlank c = false := by
  obtain ⟨core, hcore, rfl⟩ := h
  split
  · exact hcore.first
  · cases core with
    | nil => simp at *
    | cons c rest => exact hcore.first

end Shows

/-! ### Several lines -/

/-- The line that stands for those that are left out. -/
def omission : List Char := "    ...".toList

theorem Shows.ne_omission {line shown : List Char} (h : Shows line shown) : shown ≠ omission := by
  rintro rfl
  exact absurd (h.first ' ' rfl) (by decide)

/-- Whether a text previews some lines with up to `most` of them: it has the first ones in order,
and the mark for those left out just if there are any. -/
def Previews (most : Nat) (lines : List (List Char)) (text : List Char) : Prop :=
  ∃ top, List.Forall₂ Shows (lines.take most) top ∧
    text = joinLines (top ++ if most < lines.length then [omission] else [])

theorem exists_shows_of_mem {lines top : List (List Char)} (h : List.Forall₂ Shows lines top) :
    ∀ shown ∈ top, ∃ line ∈ lines, Shows line shown := by
  induction h with
  | nil => simp
  | cons hshows _ ih =>
      rw [List.forall_mem_cons]
      refine ⟨⟨_, List.mem_cons_self, hshows⟩, fun shown hmem => ?_⟩
      obtain ⟨line, hline, hshown⟩ := ih shown hmem
      exact ⟨line, List.mem_cons_of_mem _ hline, hshown⟩

/-- What holds of all that is shown of some lines, and of the mark, holds of the lines of their
preview. -/
theorem forall_mem_shown {most : Nat} {lines top : List (List Char)} {P : List Char → Prop}
    (htop : List.Forall₂ Shows (lines.take most) top)
    (hshown : ∀ line ∈ lines, ∀ shown, Shows line shown → P shown) (hmark : P omission) :
    ∀ shown ∈ top ++ if most < lines.length then [omission] else [], P shown := by
  intro shown hmem
  rcases List.mem_append.mp hmem with hmem | hmem
  · obtain ⟨line, hline, hshows⟩ := exists_shows_of_mem htop shown hmem
    exact hshown line (List.mem_of_mem_take hline) shown hshows
  · split at hmem
    · exact List.mem_singleton.mp hmem ▸ hmark
    · cases hmem

theorem joinLines_eq_intercalate (lines : List (List Char)) :
    joinLines lines = ['\n'].intercalate lines := by
  induction lines with
  | nil => rfl
  | cons line lines ih =>
      cases lines with
      | nil => rw [joinLines, List.intercalate_singleton]
      | cons next more =>
          rw [Source.joinLines_cons line (List.cons_ne_nil _ _), ih, List.intercalate_cons_cons,
            List.append_assoc, List.singleton_append]

/-- Lines without line feeds are found again in the text that they make. -/
theorem splitLines_joinLines {lines : List (List Char)} (hne : lines ≠ [])
    (h : ∀ line ∈ lines, '\n' ∉ line) : splitLines (joinLines lines) = lines := by
  rw [splitLines_eq_splitAtMark, joinLines_eq_intercalate, splitAtMark_intercalate hne h]

namespace Previews

variable {most : Nat} {lines : List (List Char)} {text : List Char}

/-- The lines of a preview are those that are shown, with the mark if some are left out. -/
theorem splitLines_eq (h : Previews most lines text) (hmost : 0 < most) (hne : lines ≠ [])
    (hlines : ∀ line ∈ lines, '\n' ∉ line) :
    ∃ top, List.Forall₂ Shows (lines.take most) top ∧
      splitLines text = top ++ if most < lines.length then [omission] else [] := by
  obtain ⟨top, htop, rfl⟩ := h
  refine ⟨top, htop, splitLines_joinLines ?_ ?_⟩
  · have hlength := htop.length_eq
    have hpos := List.length_pos_iff.mpr hne
    rw [List.length_take] at hlength
    refine fun hnil => absurd (List.append_eq_nil_iff.mp hnil).1 (List.ne_nil_of_length_pos ?_)
    omega
  · exact forall_mem_shown htop
      (fun line hline _ hshows => hshows.newline_not_mem (hlines line hline)) (by decide)

/-- All lines of a preview fit the width. -/
theorem length_le (h : Previews most lines text) (hmost : 0 < most) (hne : lines ≠ [])
    (hlines : ∀ line ∈ lines, '\n' ∉ line) : ∀ shown ∈ splitLines text, shown.length ≤ 80 := by
  obtain ⟨top, htop, hsplit⟩ := h.splitLines_eq hmost hne hlines
  rw [hsplit]
  exact forall_mem_shown htop (fun _ _ _ hshows => hshows.length_le) (by decide)

/-- A preview with up to `most` lines is one with up to fewer lines just if there are no more to
show. -/
theorem fewer_iff {few : Nat} (h : Previews most lines text) (hfew : 0 < few) (hlt : few < most)
    (hlines : ∀ line ∈ lines, '\n' ∉ line) :
    Previews few lines text ↔ lines.length ≤ few := by
  refine ⟨fun h' => ?_, fun hle => ?_⟩
  · by_contra hmore
    have hne : lines ≠ [] := List.ne_nil_of_length_pos (by omega)
    obtain ⟨top, htop, hsplit⟩ := h.splitLines_eq (by omega) hne hlines
    obtain ⟨top', htop', hsplit'⟩ := h'.splitLines_eq hfew hne hlines
    have hlength := htop.length_eq
    have hlength' := htop'.length_eq
    rw [List.length_take] at hlength hlength'
    rw [if_pos (by omega)] at hsplit'
    have heq := hsplit.symm.trans hsplit'
    -- The mark would stand where the longer preview has its mark later, or has a line.
    by_cases hmark : most < lines.length
    · rw [if_pos hmark] at heq
      have := congrArg List.length heq
      simp only [List.length_append, List.length_singleton] at this
      omega
    · rw [if_neg hmark, List.append_nil] at heq
      obtain ⟨line, -, hshows⟩ := exists_shows_of_mem htop omission (by simp [heq])
      exact hshows.ne_omission rfl
  · obtain ⟨top, htop, rfl⟩ := h
    rw [List.take_of_length_le (by omega)] at htop
    refine ⟨top, ?_, ?_⟩
    · rwa [List.take_of_length_le hle]
    · rw [if_neg (by omega), if_neg (by omega)]

end Previews

/-! ### The lines of a definition -/

/-- The lines that a definition spans, the first and the last included. -/
def Source.spanned (source : Source) (d : Definition) : List (List Char) :=
  (source.lines.drop d.span.start.line).take (d.span.stop.line + 1 - d.span.start.line)

theorem Source.Holds.lt_length {source : Source} {p : Position} (h : source.Holds p) :
    p.line < source.lines.length := by
  obtain ⟨line, hline, -⟩ := h
  exact (List.getElem?_eq_some_iff.mp hline).1

theorem Source.length_spanned {source : Source} {d : Definition} (h : source.Holds d.span.stop) :
    (source.spanned d).length = d.span.stop.line + 1 - d.span.start.line := by
  have hlt := h.lt_length
  rw [spanned, List.length_take, List.length_drop]
  omega

theorem Source.newline_not_mem_spanned (text : String) (d : Definition) :
    ∀ line ∈ (Source.ofText text).spanned d, '\n' ∉ line := by
  intro line hline
  exact newline_not_mem_splitLines text.toList line
    (List.mem_of_mem_drop (List.mem_of_mem_take hline))

/-- A preview has up to six lines. -/
theorem previews_preview {source : Source} {d : Definition} (h : source.Holds d.span.stop) :
    Previews 6 (source.spanned d) (joinLines (source.preview d)) := by
  have hlength := Source.length_spanned h
  refine ⟨((source.spanned d).take 6).map previewLine, ?_, congrArg joinLines ?_⟩
  · rw [List.forall₂_map_right_iff, List.forall₂_same]
    exact fun line _ => shows_previewLine line
  · have hcount : min d.span.stop.line (d.span.start.line + previewLines) + 1 - d.span.start.line =
        min 6 (d.span.stop.line + 1 - d.span.start.line) := by
      rw [previewLines]
      omega
    have hmore : min d.span.stop.line (d.span.start.line + previewLines) < d.span.stop.line ↔
        6 < (source.spanned d).length := by
      rw [hlength, previewLines]
      omega
    simp only [Source.preview, hcount, hmore]
    rw [Source.spanned, List.take_take]
    split
    · rfl
    · rw [List.append_nil]

theorem Reads.definitions_ordered {ts : List Token} {items : List Item} (h : Reads ts items)
    (hp : ts.Pairwise Token.Before) :
    ∀ d ∈ items.map Item.definition, d.span.start ≤ d.span.stop := by
  intro d hd
  obtain ⟨i, hi, rfl⟩ := List.mem_map.mp hd
  obtain ⟨taken, hs, hf⟩ := h.from_mem i hi
  have hle := hf.first_start_le (hp.sublist hs)
  rw [i.definition_span, Token.through_start, Token.through_stop hle]
  exact hle

/-- A definition of a text spans at least one line, and all lines from its first to its last. -/
theorem length_spanned_of_mem {text : String} {s : Symbol} {d : Definition}
    (hs : s ∈ (Table.empty.run ((itemsOf text).flatMap Item.operations)).symbols)
    (hd : s.definition = some d) :
    (Source.ofText text).Holds d.span.stop ∧ 0 < ((Source.ofText text).spanned d).length ∧
      d.span.start.line + ((Source.ofText text).spanned d).length = d.span.stop.line + 1 := by
  have hreads := reads_readItems .declarations (scan text)
  have hmem := definition_mem_items hs hd
  have hle := Position.le_def.mp (hreads.definitions_ordered (pairwise_scan text) d hmem)
  have hstop := (hreads.definitions_held d hmem).1.2
  rw [Source.length_spanned hstop]
  exact ⟨hstop, by omega, by omega⟩

/-- Reading any text succeeds.  The preview of each of its definitions shows up to five lines, and
marks that there are more, just if the definition has no more than five; all previews show up to six
in that way, none of them wider than 80 characters. -/
theorem preview_five_lines_iff (text : String) :
    ∃ g, Grammar.ofText text = .ok g ∧
      ∀ s ∈ g.table.symbols, ∀ d, s.definition = some d →
        let lines := (Source.ofText text).spanned d
        let shown := joinLines ((Source.ofText text).preview d)
        (0 < lines.length ∧ d.span.start.line + lines.length = d.span.stop.line + 1) ∧
          (Previews 5 lines shown ↔ lines.length ≤ 5) ∧
          Previews 6 lines shown ∧
          ∀ line ∈ splitLines shown, line.length ≤ 80 := by
  refine ⟨_, ofText_eq_run text, fun s hs d hd => ?_⟩
  obtain ⟨hstop, hpos, hlength⟩ := length_spanned_of_mem hs hd
  have hsix := previews_preview hstop
  have hlines := Source.newline_not_mem_spanned text d
  exact ⟨⟨hpos, hlength⟩, hsix.fewer_iff (by decide) (by decide) hlines, hsix,
    hsix.length_le (by decide) (List.ne_nil_of_length_pos hpos) hlines⟩

/-- A rule of six lines. -/
def sixLineText : String := "%%\nr : a\n | b\n | c\n | d\n | e\n ;"

/-- A definition of six lines is shown as a whole, not as five lines and the mark. -/
theorem six_lines_previewed :
    ¬∀ (text : String) (g : Grammar), Grammar.ofText text = .ok g →
      ∀ s ∈ g.table.symbols, ∀ d, s.definition = some d →
        Previews 5 ((Source.ofText text).spanned d)
          (joinLines ((Source.ofText text).preview d)) := by
  intro h
  have hlong : ∃ s ∈ (Table.empty.run ((itemsOf sixLineText).flatMap Item.operations)).symbols,
      ∃ d ∈ s.definition.toList, 5 < ((Source.ofText sixLineText).spanned d).length := by
    decide +kernel
  obtain ⟨s, hs, d, hd, hmore⟩ := hlong
  have hd := Option.mem_toList.mp hd
  have hfive := h sixLineText _ (ofText_eq_run sixLineText) s hs d hd
  have hsix := previews_preview (length_spanned_of_mem hs hd).1
  have hle := (hsix.fewer_iff (by decide) (by decide)
    (Source.newline_not_mem_spanned sixLineText d)).mp hfive
  omega

end GrammarLens
