import GrammarLens.Proofs.TrailingBlanks

/-! # Scanning the words of a text again

The words of a text, put one behind the other with blanks in between, are the words of the text that
this makes (`words_rescanned`).  The scan knows a word by its first character and by how it goes on,
and where it ends depends on nothing behind it if a blank or nothing comes there
(`Piece.first_again`).  So a word is found again wherever it stands before a blank
(`Respells`), on the same line as its neighbours or on another one. -/

namespace GrammarLens

/-! ### Searches that end within a word -/

/-- No word goes on into the characters: there are none, or they start with a blank. -/
def Parted (rest : List Char) : Prop := ∀ c ∈ rest.head?, isBlank c = true

theorem Parted.startsInName {rest : List Char} (h : Parted rest) : startsInName rest = false := by
  cases rest with
  | nil => rfl
  | cons c rest =>
      show isNameChar c = false
      rw [Bool.eq_false_iff]
      intro hc
      have hblank := h c rfl
      rw [isBlank_of_isNameChar hc] at hblank
      cases hblank

/-- The characters of a name are found to their end if no name goes on there. -/
theorem takeWhile_name_append {name rest : List Char} (hname : ∀ c ∈ name, isNameChar c = true)
    (hrest : startsInName rest = false) : (name ++ rest).takeWhile isNameChar = name := by
  have hnone : rest.takeWhile isNameChar = [] := by
    cases rest with
    | nil => rfl
    | cons c rest =>
        have hc : isNameChar c = false := hrest
        rw [List.takeWhile_cons, hc]
        rfl
  rw [List.takeWhile_append_of_pos hname, hnone, List.append_nil]

theorem startsInName_dropWhile (cs : List Char) :
    startsInName (cs.dropWhile isNameChar) = false := by
  induction cs with
  | nil => rfl
  | cons c cs ih =>
      rw [List.dropWhile_cons]
      split
      · exact ih
      · rename_i hc
        exact Bool.eq_false_iff.mpr hc

theorem ne_nil_of_mem_directiveNames : ∀ name ∈ directiveNames, name.toList ≠ [] := by decide

theorem isNameChar_of_mem_directiveNames :
    ∀ name ∈ directiveNames, ∀ c ∈ name.toList, isNameChar c = true := by
  have hall : ∀ name ∈ directiveNames, name.toList.all isNameChar = true := by decide
  exact fun name hname => List.all_eq_true.mp (hall name hname)

/-- A directive name fits if it is all of the name that the characters start with. -/
theorem directiveName_fits_iff {name : String} (hname : name ∈ directiveNames) (cs : List Char) :
    (name.toList.isPrefixOf cs && !startsInName (cs.drop name.length)) = true ↔
      cs.takeWhile isNameChar = name.toList := by
  have hchars := isNameChar_of_mem_directiveNames name hname
  rw [Bool.and_eq_true, Bool.not_eq_true', List.isPrefixOf_iff_prefix]
  constructor
  · rintro ⟨⟨rest, rfl⟩, hrest⟩
    rw [← String.length_toList, List.drop_left] at hrest
    exact takeWhile_name_append hchars hrest
  · intro h
    have hsplit : name.toList ++ cs.dropWhile isNameChar = cs := by
      rw [← h, List.takeWhile_append_dropWhile]
    refine ⟨⟨_, hsplit⟩, ?_⟩
    rw [← hsplit, ← String.length_toList, List.drop_left]
    exact startsInName_dropWhile cs

/-- The directive that some characters start with is the whole name that they start with. -/
theorem directiveAt?_eq_some_iff {cs : List Char} {name : String} :
    directiveAt? cs = some name ↔
      name ∈ directiveNames ∧ cs.takeWhile isNameChar = name.toList := by
  have hfound : ∀ {name}, directiveAt? cs = some name →
      name ∈ directiveNames ∧ cs.takeWhile isNameChar = name.toList := by
    intro name h
    have hname : name ∈ directiveNames := List.mem_of_find?_eq_some h
    have hfits := List.find?_some h
    exact ⟨hname, (directiveName_fits_iff hname cs).mp hfits⟩
  refine ⟨hfound, ?_⟩
  rintro ⟨hname, hrun⟩
  have hsome : (directiveAt? cs).isSome = true :=
    List.find?_isSome.mpr ⟨name, hname, (directiveName_fits_iff hname cs).mpr hrun⟩
  obtain ⟨name', h⟩ := Option.isSome_iff_exists.mp hsome
  -- Two names that fit are the same run of characters.
  have hsame : name' = name := by
    apply String.toList_inj.mp
    rw [← (hfound h).2, hrun]
  rw [h, hsame]

theorem literalLength?_take {quote previous : Char} {cs : List Char} {n : Nat}
    (h : literalLength? quote previous cs = some n) (rest : List Char) :
    literalLength? quote previous (cs.take n ++ rest) = some n := by
  induction cs generalizing previous n with
  | nil => cases h
  | cons c cs ih =>
      unfold literalLength? at h
      split at h
      · rename_i hclose
        cases h
        show literalLength? quote previous (c :: rest) = some 1
        rw [literalLength?, if_pos hclose]
      · rename_i hopen
        obtain ⟨m, hm, rfl⟩ := Option.map_eq_some_iff.mp h
        rw [List.take_succ_cons, List.cons_append, literalLength?, if_neg hopen, ih hm]
        rfl

theorem offsetOf?_take {a : Char} {cs : List Char} {n : Nat} (h : offsetOf? [a] cs = some n)
    (rest : List Char) : offsetOf? [a] (cs.take (n + 1) ++ rest) = some n := by
  induction cs generalizing n with
  | nil => cases h
  | cons c cs ih =>
      have hprefix : ∀ ds, [a].isPrefixOf (c :: ds) = (a == c) := by
        intro ds
        simp [List.isPrefixOf]
      rw [offsetOf?, hprefix] at h
      rw [List.take_succ_cons, List.cons_append, offsetOf?, hprefix]
      split at h
      · rename_i hc
        cases h
        rw [if_pos hc]
      · rename_i hc
        obtain ⟨m, hm, rfl⟩ := Option.map_eq_some_iff.mp h
        rw [if_neg hc, ih hm]
        rfl

/-! ### Words before a blank -/

namespace Piece

variable {rest : List Char} {kind : Token.Kind} {value : List Char} {width : Nat}

theorem afterSlash_ne_token (cs : List Char) : afterSlash cs ≠ token kind value width := by
  unfold afterSlash
  repeat' split
  all_goals exact nofun

theorem afterPercent_again {cs : List Char} (h : afterPercent cs = token kind value width)
    (hrest : Parted rest) :
    afterPercent (cs.take (width - 1) ++ rest) = token kind value width := by
  unfold afterPercent at h
  split at h
  · cases h
    rfl
  · cases h
    rfl
  · cases h
    rfl
  · split at h
    · rename_i name hdirective
      obtain ⟨hname, hrun⟩ := directiveAt?_eq_some_iff.mp hdirective
      have hchars := isNameChar_of_mem_directiveNames name hname
      have hstart := directiveAt?_prefix hdirective
      have hword : cs.take name.toList.length = name.toList :=
        (List.prefix_iff_eq_take.mp hstart).symm
      have hagain : directiveAt? (name.toList ++ rest) = some name :=
        directiveAt?_eq_some_iff.mpr ⟨hname, takeWhile_name_append hchars hrest.startsInName⟩
      cases h
      show afterPercent (cs.take name.toList.length ++ rest) = _
      rw [hword, afterPercent_of_head, hagain]
      · rfl
      · -- The name starts with a character of names, which none of the three is.
        intro c hc
        rw [List.head?_append_of_ne_nil _ (ne_nil_of_mem_directiveNames name hname)] at hc
        have hchar := hchars c (List.mem_of_mem_head? hc)
        refine ⟨?_, ?_, ?_⟩
        · rintro rfl
          cases hchar
        · rintro rfl
          cases hchar
        · rintro rfl
          cases hchar
    · cases h

theorem afterQuote_again {quote : Char} {cs : List Char}
    (h : afterQuote quote cs = token kind value width) :
    afterQuote quote (cs.take (width - 1) ++ rest) = token kind value width := by
  unfold afterQuote at h
  split at h
  · rename_i n hn
    have hlen : (cs.take n).length = n := List.length_take_of_le (literalLength?_le hn)
    have hwidth : width - 1 = n := by
      rw [← (token.inj h).2.2, List.length_cons, hlen]
      omega
    rw [hwidth, ← h, afterQuote, literalLength?_take hn]
    show plain _ (quote :: (cs.take n ++ rest).take n) = _
    rw [List.take_append_of_le_length (Nat.le_of_eq hlen.symm), List.take_of_length_le (by omega)]
  · cases h

theorem afterAngle_again {cs : List Char} (h : afterAngle cs = token kind value width) :
    afterAngle (cs.take (width - 1) ++ rest) = token kind value width := by
  unfold afterAngle at h
  split at h
  · rename_i n hn
    have hle : n + 1 ≤ cs.length := offsetOf?_add_length_le (by decide) hn
    obtain ⟨rfl, rfl, rfl⟩ := token.inj h
    show afterAngle (cs.take (n + 1) ++ rest) = _
    rw [afterAngle, offsetOf?_take hn]
    show token .typeTag ((cs.take (n + 1) ++ rest).take n) (n + 2) = _
    rw [List.take_append_of_le_length (by rw [List.length_take_of_le hle]; omega), List.take_take,
      Nat.min_eq_left (by omega)]
  · cases h

/-- A word that a line starts with is found again before a blank. -/
theorem first_again {c : Char} {cs : List Char} (h : first c cs = token kind value width)
    (hrest : Parted rest) : first c (cs.take (width - 1) ++ rest) = token kind value width := by
  unfold first at h ⊢
  split at h
  · cases h
  rename_i hblank
  rw [if_neg hblank]
  split at h
  · exact absurd h (afterSlash_ne_token cs)
  rename_i hslash
  rw [if_neg hslash]
  split at h
  · rename_i hpercent
    rw [if_pos hpercent]
    exact afterPercent_again h hrest
  rename_i hpercent
  rw [if_neg hpercent]
  split at h
  · rename_i hname
    have hstart : cs.takeWhile isNameChar <+: cs := List.takeWhile_prefix _
    have hword : cs.take (cs.takeWhile isNameChar).length = cs.takeWhile isNameChar :=
      (List.prefix_iff_eq_take.mp hstart).symm
    have hchars : ∀ d ∈ cs.takeWhile isNameChar, isNameChar d = true :=
      List.all_eq_true.mp List.all_takeWhile
    rw [if_pos hname]
    cases h
    show plain _ (c :: (cs.take (cs.takeWhile isNameChar).length ++ rest).takeWhile isNameChar) = _
    rw [hword, takeWhile_name_append hchars hrest.startsInName]
    rfl
  rename_i hname
  rw [if_neg hname]
  split at h
  · rename_i hquote
    rw [if_pos hquote]
    exact afterQuote_again h
  rename_i hquote
  rw [if_neg hquote]
  split at h
  · rename_i hangle
    rw [if_pos hangle]
    exact afterAngle_again h
  rename_i hangle
  rw [if_neg hangle]
  split at h
  · rename_i hspecial
    rw [if_pos hspecial]
    exact h
  · cases h

end Piece

/-- A word that is spelled on one line and is the first piece of every line that it starts, if a
blank or nothing comes behind it. -/
structure Respells (kind : Token.Kind) (value : List Char) : Prop where
  newline : '\n' ∉ spelling kind value
  first : ∀ rest, Parted rest → ∃ c cs, spelling kind value ++ rest = c :: cs ∧
    Piece.first c cs = .token kind value (spelling kind value).length

theorem respells_of_first {c : Char} {cs value : List Char} {kind : Token.Kind} {width : Nat}
    (h : Piece.first c cs = .token kind value width) (hnewline : '\n' ∉ c :: cs) :
    Respells kind value := by
  have hfits := Piece.first_fits c cs
  rw [h] at hfits
  obtain ⟨-, hpos, hle, hspelling⟩ := hfits
  have hlen : (spelling kind value).length = width := by
    rw [← hspelling, List.length_take_of_le hle]
  obtain ⟨w, rfl⟩ : ∃ w, width = w + 1 := ⟨_, (Nat.sub_add_cancel hpos).symm⟩
  refine ⟨?_, ?_⟩
  · rw [← hspelling]
    exact fun hmem => hnewline (List.mem_of_mem_take hmem)
  · intro rest hrest
    refine ⟨c, cs.take w ++ rest, ?_, ?_⟩
    · rw [← hspelling]
      rfl
    · rw [hlen]
      exact Piece.first_again h hrest

/-! ### Words without their places -/

/-- What a token says apart from its place. -/
def Token.word (t : Token) : Token.Kind × String := (t.kind, t.value)

/-- What a piece of a line says, if it is a token. -/
def Piece.word? : Piece → Option (Token.Kind × String)
  | token kind value _ => some (kind, String.ofList value)
  | _ => none

/-- What the tokens of a line say. -/
def lineWords (line : List Char) : List (Token.Kind × String) := (cut line).filterMap Piece.word?

/-- What the tokens of a text say, but for the end mark. -/
def textWords (cs : List Char) : List (Token.Kind × String) := (splitLines cs).flatMap lineWords

theorem map_word_place (n column : Nat) (pieces : List Piece) :
    (place n column pieces).map Token.word = pieces.filterMap Piece.word? := by
  induction pieces generalizing column with
  | nil => rfl
  | cons piece pieces ih =>
      cases piece with
      | token kind value width =>
          rw [place, List.map_cons, ih]
          rfl
      | comment width => exact ih (column + width)
      | dropped c => exact ih (column + 1)

theorem map_word_scanLines (n : Nat) (lines : List (List Char)) :
    (scanLines n lines).map Token.word = lines.flatMap lineWords := by
  induction lines generalizing n with
  | nil => rfl
  | cons line lines ih =>
      rw [scanLines, List.map_append, ih, scanLine, map_word_place]
      rfl

theorem map_word_scan (text : String) :
    (scan text).map Token.word = textWords text.toList ++ [(.eof, "")] := by
  rw [scan, List.map_append, map_word_scanLines]
  rfl

theorem lineWords_blank {c : Char} (hc : isBlank c = true) (line : List Char) :
    lineWords (c :: line) = lineWords line := by
  have hfirst : Piece.first c line = .dropped c := by
    rw [Piece.first, if_pos hc]
  rw [lineWords, cut_cons, hfirst]
  rfl

theorem textWords_blank {c : Char} (hc : isBlank c = true) (cs : List Char) :
    textWords (c :: cs) = textWords cs := by
  unfold textWords
  by_cases hn : c = '\n'
  · rw [splitLines, if_pos hn]
    rfl
  · obtain ⟨line, lines, hlines⟩ := List.exists_cons_of_ne_nil (splitLines_ne_nil cs)
    rw [splitLines, if_neg hn, hlines]
    simp only [List.flatMap_cons, lineWords_blank hc]

theorem textWords_blanks {gap : List Char} (hgap : ∀ c ∈ gap, isBlank c = true) (cs : List Char) :
    textWords (gap ++ cs) = textWords cs := by
  induction gap with
  | nil => rfl
  | cons c gap ih =>
      rw [List.cons_append, textWords_blank (hgap c List.mem_cons_self),
        ih fun d hd => hgap d (List.mem_cons_of_mem c hd)]

theorem splitLines_append_of_not_mem {word : List Char} (h : '\n' ∉ word) {cs line : List Char}
    {lines : List (List Char)} (hcs : splitLines cs = line :: lines) :
    splitLines (word ++ cs) = (word ++ line) :: lines := by
  induction word with
  | nil => exact hcs
  | cons c word ih =>
      rw [List.mem_cons, not_or] at h
      rw [List.cons_append, splitLines, if_neg (Ne.symm h.1), ih h.2]
      rfl

/-- Where no word goes on into some characters, none goes on into their first line. -/
theorem Parted.firstLine {cs line : List Char} {lines : List (List Char)} (h : Parted cs)
    (hcs : splitLines cs = line :: lines) : Parted line := by
  cases cs with
  | nil =>
      cases hcs
      exact h
  | cons c cs =>
      obtain ⟨rest, more, hrest⟩ := List.exists_cons_of_ne_nil (splitLines_ne_nil cs)
      unfold splitLines at hcs
      split at hcs
      · cases hcs
        intro d hd
        cases hd
      · rw [hrest] at hcs
        cases hcs
        exact h

/-- A word before a blank is one word of the text, wherever its line ends. -/
theorem Respells.textWords_append {kind : Token.Kind} {value rest : List Char}
    (h : Respells kind value) (hrest : Parted rest) :
    textWords (spelling kind value ++ rest) = (kind, String.ofList value) :: textWords rest := by
  obtain ⟨line, lines, hlines⟩ := List.exists_cons_of_ne_nil (splitLines_ne_nil rest)
  have hline : lineWords (spelling kind value ++ line) =
      (kind, String.ofList value) :: lineWords line := by
    obtain ⟨c, cs, hcons, hfirst⟩ := h.first line (hrest.firstLine hlines)
    rw [lineWords, hcons, cut_cons, hfirst, ← hcons]
    show _ :: ((cut _).filterMap Piece.word?) = _
    rw [Piece.width, List.drop_left]
    rfl
  rw [textWords, splitLines_append_of_not_mem h.newline hlines, textWords, hlines,
    List.flatMap_cons, List.flatMap_cons, hline]
  rfl

/-! ### Words put together again -/

/-- The blanks between two words. -/
structure Gap where
  chars : List Char
  nonempty : chars ≠ []
  blank : ∀ c ∈ chars, isBlank c = true

/-- A space, unless another gap is asked for. -/
instance : Inhabited Gap := ⟨⟨[' '], List.cons_ne_nil _ _, List.forall_mem_singleton.mpr rfl⟩⟩

/-- Pieces of text one behind the other, the first gap behind the first of them and so on. -/
def woven (gaps : Nat → Gap) : List (List Char) → List Char
  | [] => []
  | [word] => word
  | word :: words => word ++ (gaps 0).chars ++ woven (fun i => gaps (i + 1)) words

example : woven default ["%prec".toList, "'%'".toList, ";".toList] = "%prec '%' ;".toList := rfl

/-- The stretch of its line that a token takes. -/
def Token.lexeme (lines : List (List Char)) (t : Token) : List Char :=
  ((lines[t.line.toNat]?.getD []).drop t.column.toNat).take t.length.toNat

theorem Gap.parted (gap : Gap) (cs : List Char) : Parted (gap.chars ++ cs) := by
  intro c hc
  rw [List.head?_append_of_ne_nil _ gap.nonempty] at hc
  exact gap.blank c (List.mem_of_mem_head? hc)

theorem textWords_woven (gaps : Nat → Gap) {ts : List Token}
    (h : ∀ t ∈ ts, Respells t.kind t.value.toList) :
    textWords (woven gaps (ts.map fun t => spelling t.kind t.value.toList)) =
      ts.map Token.word := by
  have hword : ∀ t : Token, (t.kind, String.ofList t.value.toList) = t.word := by
    intro t
    rw [String.ofList_toList]
    rfl
  induction ts generalizing gaps with
  | nil => rfl
  | cons t ts ih =>
      have ht := h t List.mem_cons_self
      cases ts with
      | nil =>
          have hend : Parted [] := nofun
          have hlast := ht.textWords_append hend
          rw [List.append_nil, hword] at hlast
          exact hlast
      | cons u ts =>
          have hmore := ih (fun i => gaps (i + 1)) fun v hv => h v (List.mem_cons_of_mem t hv)
          show textWords (_ ++ (gaps 0).chars ++ woven _ ((u :: ts).map _)) = _
          rw [List.append_assoc, ht.textWords_append ((gaps 0).parted _), hword,
            textWords_blanks (gaps 0).blank, hmore]
          rfl

/-! ### Words of a text -/

theorem exists_first_of_mem_cut {line : List Char} {piece : Piece} :
    piece ∈ cut line → ∃ c cs, piece = Piece.first c cs ∧ c :: cs <:+ line := by
  refine cut_induction (motive := fun line pieces =>
    piece ∈ pieces → ∃ c cs, piece = Piece.first c cs ∧ c :: cs <:+ line) ?_ ?_ line
  · exact fun h => nomatch h
  · intro c cs ih h
    rcases List.mem_cons.mp h with rfl | h
    · exact ⟨c, cs, rfl, List.suffix_refl _⟩
    · obtain ⟨d, ds, hpiece, hsuffix⟩ := ih h
      exact ⟨d, ds, hpiece, hsuffix.trans (List.drop_suffix _ _)⟩

theorem exists_piece_of_mem_place {n column : Nat} {pieces : List Piece} {t : Token}
    (h : t ∈ place n column pieces) :
    ∃ value width, t.value = String.ofList value ∧ Piece.token t.kind value width ∈ pieces := by
  induction pieces generalizing column with
  | nil => cases h
  | cons piece pieces ih =>
      have hmore : t ∈ place n (column + piece.width) pieces →
          ∃ value width, t.value = String.ofList value ∧
            Piece.token t.kind value width ∈ piece :: pieces := by
        intro ht
        obtain ⟨value, width, hvalue, hmem⟩ := ih ht
        exact ⟨value, width, hvalue, List.mem_cons_of_mem _ hmem⟩
      cases piece with
      | token kind value width =>
          rcases List.mem_cons.mp h with rfl | h
          · exact ⟨value, width, rfl, List.mem_cons_self⟩
          · exact hmore h
      | comment width => exact hmore h
      | dropped c => exact hmore h

theorem newline_not_mem_splitLines (cs : List Char) : ∀ line ∈ splitLines cs, '\n' ∉ line := by
  induction cs with
  | nil => simp [splitLines]
  | cons c cs ih =>
      by_cases hc : c = '\n'
      · rw [splitLines, if_pos hc]
        exact List.forall_mem_cons.mpr ⟨List.not_mem_nil, ih⟩
      · obtain ⟨line, lines, hlines⟩ := List.exists_cons_of_ne_nil (splitLines_ne_nil cs)
        rw [hlines, List.forall_mem_cons] at ih
        rw [splitLines, if_neg hc, hlines]
        refine List.forall_mem_cons.mpr ⟨?_, ih.2⟩
        rw [List.mem_cons, not_or]
        exact ⟨Ne.symm hc, ih.1⟩

theorem respells_of_mem_scanLines {n : Nat} {lines : List (List Char)}
    (hlines : ∀ line ∈ lines, '\n' ∉ line) :
    ∀ t ∈ scanLines n lines, Respells t.kind t.value.toList := by
  induction lines generalizing n with
  | nil => exact fun t ht => nomatch ht
  | cons line lines ih =>
      intro t ht
      rcases List.mem_append.mp ht with ht | ht
      · obtain ⟨value, width, hvalue, hpiece⟩ := exists_piece_of_mem_place ht
        obtain ⟨c, cs, hfirst, hsuffix⟩ := exists_first_of_mem_cut hpiece
        rw [hvalue, String.toList_ofList]
        refine respells_of_first hfirst.symm fun hmem => ?_
        exact hlines line List.mem_cons_self (hsuffix.mem hmem)
      · exact ih (fun l hl => hlines l (List.mem_cons_of_mem line hl)) t ht

theorem lexeme_eq_spelling {text : String} {t : Token}
    (ht : t ∈ scanLines 0 (splitLines text.toList)) :
    t.lexeme (splitLines text.toList) = spelling t.kind t.value.toList := by
  obtain ⟨line, -, hline, -, -, hslice⟩ := (scanLines_faithful text t ht).slice
  rw [Token.lexeme, hline]
  exact hslice

/-- The words of a text, put together again with any blanks between them, are scanned as the same
kinds of tokens with the same values, and so is the end mark. -/
theorem words_rescanned (text : String) (gaps : Nat → Gap) :
    (scan (String.ofList
        (woven gaps ((words text).map (Token.lexeme (splitLines text.toList)))))).map Token.word =
      (scan text).map Token.word := by
  have hspelling : (words text).map (Token.lexeme (splitLines text.toList)) =
      (words text).map fun t => spelling t.kind t.value.toList := by
    rw [words_eq_scanLines]
    exact List.map_congr_left fun t ht => lexeme_eq_spelling ht
  have hagain : ∀ t ∈ words text, Respells t.kind t.value.toList := by
    rw [words_eq_scanLines]
    exact respells_of_mem_scanLines (newline_not_mem_splitLines text.toList)
  rw [map_word_scan, String.toList_ofList, hspelling, textWords_woven gaps hagain, scan,
    List.map_append, words_eq_scanLines]
  rfl

end GrammarLens
