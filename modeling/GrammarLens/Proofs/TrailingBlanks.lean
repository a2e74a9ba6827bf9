import GrammarLens.Analysis
import GrammarLens.Proofs.Definitions
import GrammarLens.Proofs.Likeness
import GrammarLens.Text.Lines
import Mathlib.Data.List.DropRight
import Mathlib.Data.List.Infix

/-! # Blanks at the ends of lines

A scan looks ahead to the end of the line for the end of a comment, a closing quote or bracket, the
end of a name.  None of these is a blank, so blanks behind a line change none of its pieces but a
comment that takes the rest of the line (`Piece.first_append_blanks`), and none of its tokens
(`scanLine_append_blanks`).

The mark of the end of the text does move with the blanks of the last line.  It stays on its line
and is never kept in an item, so what is read stays the same (`readItems_endMark`).  Together: texts
that differ in the blanks at the ends of their lines have the same words, the same symbol table and
the same problems (`trailing_blanks_ignored`).  Lines that end with a carriage return are a case of
this. -/

namespace GrammarLens

/-! ### Searches in a line with blanks behind it -/

theorem literalLength?_le {quote previous : Char} {cs : List Char} {n : Nat}
    (h : literalLength? quote previous cs = some n) : n ≤ cs.length := by
  induction cs generalizing previous n with
  | nil => cases h
  | cons c cs ih =>
      unfold literalLength? at h
      split at h
      · cases h
        simp
      · obtain ⟨m, hm, rfl⟩ := Option.map_eq_some_iff.mp h
        have := ih hm
        rw [List.length_cons]
        omega

section Blanks

variable {w : List Char} (hw : ∀ c ∈ w, isBlank c = true)

include hw

theorem ne_of_mem_blanks {a : Char} (ha : isBlank a = false) : a ∉ w := by
  intro hmem
  rw [hw a hmem] at ha
  cases ha

/-- Blanks do not supply the end of a word. -/
theorem isPrefixOf_append_blanks {word : List Char}
    (hlast : word.getLast?.any (!isBlank ·) = true) (cs : List Char) :
    word.isPrefixOf (cs ++ w) = word.isPrefixOf cs := by
  obtain ⟨a, ha, hblank⟩ := (Option.any_eq_true _ _).mp hlast
  obtain ⟨front, rfl⟩ := List.getLast?_eq_some_iff.mp ha
  rw [Bool.eq_iff_iff, List.isPrefixOf_iff_prefix, List.isPrefixOf_iff_prefix]
  constructor
  · rintro ⟨more, h⟩
    rcases List.append_eq_append_iff.mp h with ⟨after, rfl, -⟩ | ⟨inside, hword, rfl⟩
    · exact List.prefix_append _ _
    · rcases List.eq_nil_or_concat inside with rfl | ⟨inside, b, rfl⟩
      · exact ⟨[], by rw [hword, List.append_nil, List.append_nil]⟩
      · -- The word goes on among the blanks, so its last character is one of them.
        rw [List.concat_eq_append, ← List.append_assoc] at hword
        have hab : a = b := by simpa using (List.append_inj' hword rfl).2
        have hb := hw b (by simp)
        rw [← hab] at hb
        simp [hb] at hblank
  · exact fun h => h.trans (List.prefix_append cs w)

theorem offsetOf?_append_blanks {word : List Char}
    (hlast : word.getLast?.any (!isBlank ·) = true) (cs : List Char) :
    offsetOf? word (cs ++ w) = offsetOf? word cs := by
  have hne : word ≠ [] := by
    rintro rfl
    cases hlast
  have hnil : word.isPrefixOf [] = false := by
    rw [Bool.eq_false_iff, ne_eq, List.isPrefixOf_iff_prefix, List.prefix_nil]
    exact hne
  have hnone : offsetOf? word [] = none := by
    rw [offsetOf?, if_neg (by simpa using hne)]
  induction cs with
  | nil =>
      rw [List.nil_append, hnone]
      induction w with
      | nil => exact hnone
      | cons c w ih =>
          have hprefix := isPrefixOf_append_blanks hw hlast []
          rw [List.nil_append, hnil] at hprefix
          rw [offsetOf?, hprefix, ih fun d hd => hw d (List.mem_cons_of_mem c hd)]
          rfl
  | cons c cs ih =>
      rw [List.cons_append, offsetOf?, offsetOf?, ih, ← List.cons_append,
        isPrefixOf_append_blanks hw hlast]

theorem literalLength?_append_blanks {quote : Char} (hq : isBlank quote = false) (previous : Char)
    (cs : List Char) :
    literalLength? quote previous (cs ++ w) = literalLength? quote previous cs := by
  induction cs generalizing previous with
  | nil =>
      rw [List.nil_append]
      induction w generalizing previous with
      | nil => rfl
      | cons c w ih =>
          have hc : c ≠ quote := by
            rintro rfl
            exact ne_of_mem_blanks hw hq List.mem_cons_self
          have hrest := ih (fun d hd => hw d (List.mem_cons_of_mem c hd)) c
          show (if c = quote ∧ previous ≠ '\\' then some 1 else _) = none
          rw [if_neg (fun h => hc h.1), hrest]
          rfl
  | cons c cs ih => rw [List.cons_append, literalLength?, literalLength?, ih]

/-- Blanks do not go on with a name. -/
theorem startsInName_append_blanks (cs : List Char) : startsInName (cs ++ w) = startsInName cs := by
  cases cs with
  | cons c cs => rfl
  | nil =>
      cases w with
      | nil => rfl
      | cons c w =>
          have hc := hw c List.mem_cons_self
          show isNameChar c = false
          rw [Bool.eq_false_iff]
          intro hn
          rw [isBlank_of_isNameChar hn] at hc
          cases hc

theorem takeWhile_append_blanks (cs : List Char) :
    (cs ++ w).takeWhile isNameChar = cs.takeWhile isNameChar := by
  induction cs with
  | nil =>
      have hstart := startsInName_append_blanks hw []
      cases w with
      | nil => rfl
      | cons c w =>
          have hc : isNameChar c = false := hstart
          rw [List.nil_append, List.takeWhile_cons, hc]
          rfl
  | cons c cs ih => rw [List.cons_append, List.takeWhile_cons, List.takeWhile_cons, ih]

theorem directiveAt?_append_blanks (cs : List Char) : directiveAt? (cs ++ w) = directiveAt? cs := by
  have hlast : ∀ name ∈ directiveNames, name.toList.getLast?.any (!isBlank ·) = true := by
    decide
  -- A name that fits ends within `cs`, so the character behind it is one of `cs` or a blank.
  have hfits : ∀ name ∈ directiveNames,
      (name.toList.isPrefixOf (cs ++ w) && !startsInName ((cs ++ w).drop name.length)) =
        (name.toList.isPrefixOf cs && !startsInName (cs.drop name.length)) := by
    intro name hname
    rw [isPrefixOf_append_blanks hw (hlast name hname)]
    cases hp : name.toList.isPrefixOf cs with
    | false => rfl
    | true =>
        have hle := (List.isPrefixOf_iff_prefix.mp hp).length_le
        rw [String.length_toList] at hle
        rw [List.drop_append_of_le_length hle, startsInName_append_blanks hw]
  rw [directiveAt?, directiveAt?, ← List.head?_filter, ← List.head?_filter,
    List.filter_congr hfits]

end Blanks

/-! ### Pieces of a line with blanks behind it -/

namespace Piece

theorem afterPercent_of_head {cs : List Char}
    (h : ∀ c ∈ cs.head?, c ≠ '%' ∧ c ≠ '\x7b' ∧ c ≠ '\x7d') :
    afterPercent cs =
      (directiveAt? cs).elim (dropped '%') fun name => plain .directive ('%' :: name.toList) := by
  cases cs with
  | nil => rfl
  | cons c cs =>
      obtain ⟨h1, h2, h3⟩ := h c rfl
      simp only [afterPercent]
      split
      · simp_all
      · simp_all
      · simp_all
      · cases directiveAt? (c :: cs) <;> rfl

theorem afterSlash_of_head {cs : List Char} (h : ∀ c ∈ cs.head?, c ≠ '/' ∧ c ≠ '*') :
    afterSlash cs = dropped '/' := by
  cases cs with
  | nil => rfl
  | cons c cs =>
      obtain ⟨h1, h2⟩ := h c rfl
      simp only [afterSlash]
      split
      · simp_all
      · simp_all
      · rfl

variable {w : List Char} (hw : ∀ c ∈ w, isBlank c = true)

include hw

theorem head_blanks {a : Char} (ha : isBlank a = false) : ∀ c ∈ w.head?, c ≠ a := by
  rintro c hc rfl
  exact ne_of_mem_blanks hw ha (List.mem_of_mem_head? hc)

theorem afterPercent_append_blanks (cs : List Char) : afterPercent (cs ++ w) = afterPercent cs := by
  cases cs with
  | nil =>
      have hdirective := directiveAt?_append_blanks hw []
      rw [List.nil_append] at hdirective ⊢
      rw [afterPercent_of_head, hdirective]
      · rfl
      · intro c hc
        exact ⟨head_blanks hw (by decide) c hc, head_blanks hw (by decide) c hc,
          head_blanks hw (by decide) c hc⟩
  | cons c cs =>
      by_cases hc : c = '%' ∨ c = '\x7b' ∨ c = '\x7d'
      · rcases hc with rfl | rfl | rfl <;> rfl
      · rw [afterPercent_of_head, afterPercent_of_head, directiveAt?_append_blanks hw]
        · simpa using hc
        · simpa using hc

theorem afterQuote_append_blanks {quote : Char} (hq : isBlank quote = false) (cs : List Char) :
    afterQuote quote (cs ++ w) = afterQuote quote cs := by
  unfold afterQuote
  rw [literalLength?_append_blanks hw hq]
  split
  · rename_i n hn
    rw [List.take_append_of_le_length (literalLength?_le hn)]
  · rfl

theorem afterAngle_append_blanks (cs : List Char) : afterAngle (cs ++ w) = afterAngle cs := by
  unfold afterAngle
  rw [offsetOf?_append_blanks hw (by decide)]
  split
  · rename_i n hn
    have hle := offsetOf?_add_length_le (by decide) hn
    rw [List.take_append_of_le_length (by omega)]
  · rfl

/-- A comment may take in the blanks behind the line. -/
theorem afterSlash_append_blanks (cs : List Char) :
    afterSlash (cs ++ w) = afterSlash cs ∨
      (afterSlash cs = comment (cs.length + 1) ∧
        afterSlash (cs ++ w) = comment ((cs ++ w).length + 1)) := by
  cases cs with
  | nil =>
      rw [List.nil_append, afterSlash_of_head]
      · exact Or.inl rfl
      · intro c hc
        exact ⟨head_blanks hw (by decide) c hc, head_blanks hw (by decide) c hc⟩
  | cons c cs =>
      by_cases hslash : c = '/'
      · rw [hslash]
        exact Or.inr ⟨rfl, rfl⟩
      by_cases hstar : c = '*'
      · rw [hstar, List.cons_append]
        simp only [afterSlash]
        rw [offsetOf?_append_blanks hw (by decide)]
        split
        · exact Or.inl rfl
        · exact Or.inr ⟨rfl, rfl⟩
      · refine Or.inl ?_
        rw [afterSlash_of_head, afterSlash_of_head]
        · simpa using ⟨hslash, hstar⟩
        · simpa using ⟨hslash, hstar⟩

/-- Blanks behind a line do not change its first piece, unless that is a comment that takes all of
the line. -/
theorem first_append_blanks (c : Char) (cs : List Char) :
    first c (cs ++ w) = first c cs ∨
      (first c cs = comment (cs.length + 1) ∧
        first c (cs ++ w) = comment ((cs ++ w).length + 1)) := by
  unfold first
  split
  · exact Or.inl rfl
  split
  · exact afterSlash_append_blanks hw cs
  split
  · exact Or.inl (afterPercent_append_blanks hw cs)
  split
  · rw [takeWhile_append_blanks hw]
    exact Or.inl rfl
  split
  · rename_i hquote
    refine Or.inl (afterQuote_append_blanks hw ?_ cs)
    rcases hquote with rfl | rfl <;> decide
  split
  · exact Or.inl (afterAngle_append_blanks hw cs)
  · exact Or.inl rfl

end Piece

/-! ### Tokens of a line with blanks behind it -/

theorem place_cut_blanks (n column : Nat) {w : List Char} (hw : ∀ c ∈ w, isBlank c = true) :
    place n column (cut w) = [] := by
  induction w generalizing column with
  | nil => rfl
  | cons c w ih =>
      have hfirst : Piece.first c w = .dropped c := by
        rw [Piece.first, if_pos (hw c List.mem_cons_self)]
      rw [cut_cons, hfirst]
      exact ih (column + 1) fun d hd => hw d (List.mem_cons_of_mem c hd)

theorem place_cut_append_blanks (n : Nat) {w : List Char} (hw : ∀ c ∈ w, isBlank c = true)
    (line : List Char) :
    ∀ column, place n column (cut (line ++ w)) = place n column (cut line) := by
  refine cut_induction (motive := fun line pieces =>
    ∀ column, place n column (cut (line ++ w)) = place n column pieces) ?_ ?_ line
  · exact fun column => place_cut_blanks n column hw
  · intro c cs ih column
    rw [List.cons_append, cut_cons, ← List.cons_append]
    rcases Piece.first_append_blanks hw c cs with hsame | ⟨hcomment, hlonger⟩
    · have hle := (Piece.first_fits c cs).width_le
      rw [hsame, List.drop_append_of_le_length hle]
      simp only [place, ih]
    · -- Nothing is left of the line behind the comment, with the blanks or without them.
      have hdrop : (c :: cs).drop (cs.length + 1) = [] := by simp
      have hdrop' : (c :: cs ++ w).drop ((cs ++ w).length + 1) = [] := by simp
      rw [hcomment, hlonger]
      simp only [Piece.width, hdrop, hdrop']
      rfl

theorem scanLine_append_blanks (n : Nat) (line : List Char) {w : List Char}
    (hw : ∀ c ∈ w, isBlank c = true) : scanLine n (line ++ w) = scanLine n line :=
  place_cut_append_blanks n hw line 0

theorem scanLine_rdropWhile (n : Nat) (line : List Char) :
    scanLine n (line.rdropWhile isBlank) = scanLine n line := by
  have hw : ∀ c ∈ line.rtakeWhile isBlank, isBlank c = true :=
    fun c hc => List.mem_rtakeWhile_imp hc
  have hline : line.rdropWhile isBlank ++ line.rtakeWhile isBlank = line :=
    List.rdropWhile_append_rtakeWhile
  rw [← scanLine_append_blanks n _ hw, hline]

/-- The lines of a text without the blanks at their ends. -/
def trimmedLines (cs : List Char) : List (List Char) :=
  (splitLines cs).map (·.rdropWhile isBlank)

theorem scanLines_trimmed (n : Nat) (lines : List (List Char)) :
    scanLines n (lines.map (·.rdropWhile isBlank)) = scanLines n lines := by
  induction lines generalizing n with
  | nil => rfl
  | cons line lines ih => rw [List.map_cons, scanLines, scanLines, scanLine_rdropWhile, ih]

/-! ### The mark of the end -/

theorem Use.Like.eq {use use' : Use} (h : Use.Like (fun t u => u = t) use use') : use' = use := by
  cases h with
  | name hs => rw [hs]
  | precedence hs => rw [hs]
  | call arguments hs hl => rw [hs, hl]

theorem Body.Like.eq {b c : Body} (h : Body.Like (fun t u => u = t) b c) : c = b := by
  obtain ⟨uses, last⟩ := b
  obtain ⟨uses', last'⟩ := c
  have huses : uses' = uses := by
    have := h.uses.imp (S := fun a b => a = b) fun _ _ hu => hu.eq.symm
    rw [List.forall₂_eq_eq_eq] at this
    exact this.symm
  rw [huses, show last' = last from h.last]

theorem Rule.Like.eq {r q : Rule} (h : Rule.Like (fun t u => u = t) r q) : q = r := by
  obtain ⟨first, name, parameters, tag, body⟩ := r
  obtain ⟨first', name', parameters', tag', body'⟩ := q
  obtain ⟨rfl, rfl, rfl, rfl, hbody⟩ := h
  cases hbody with
  | none => rfl
  | some hb => rw [hb.eq]

theorem Item.Like.eq {i j : Item} (h : Item.Like (fun t u => u = t) i j) : j = i := by
  cases h with
  | symbol kind tag hs => rw [hs]
  | start hs => rw [hs]
  | rule hr => rw [hr.eq]

/-- Words stay as they are, and one end mark becomes another. -/
def Remarked (e e' t u : Token) : Prop := (u = t ∧ t.isEnd = false) ∨ (t = e ∧ u = e')

theorem likeness_remarked {e e' : Token} (hkind : e'.kind = e.kind) (hvalue : e'.value = e.value)
    (hline : e'.line = e.line) (he : e.isEnd = true) :
    Likeness (Remarked e e') (fun t u => u = t) where
  kind := by
    rintro t u (⟨rfl, -⟩ | ⟨rfl, rfl⟩)
    · rfl
    · exact hkind
  value := by
    rintro t u (⟨rfl, -⟩ | ⟨rfl, rfl⟩)
    · rfl
    · exact hvalue
  line := by
    have hkept : ∀ {t u}, Remarked e e' t u → u.line = t.line := by
      rintro t u (⟨rfl, -⟩ | ⟨rfl, rfl⟩)
      · rfl
      · exact hline
    intro t u t' u' r r'
    rw [hkept r, hkept r']
  keep := by
    rintro t u (⟨rfl, -⟩ | ⟨rfl, rfl⟩) hend
    · rfl
    · rw [he] at hend
      cases hend

/-- Where the end mark stands on its line does not matter for reading. -/
theorem readItems_endMark (place : Section) {words : List Token}
    (hwords : ∀ t ∈ words, t.isEnd = false) {e e' : Token} (hkind : e'.kind = e.kind)
    (hvalue : e'.value = e.value) (hline : e'.line = e.line) (he : e.isEnd = true) :
    readItems place (words ++ [e']) = readItems place (words ++ [e]) := by
  have hlists : List.Forall₂ (Remarked e e') (words ++ [e]) (words ++ [e']) := by
    refine List.rel_append ?_ (.cons (Or.inr ⟨rfl, rfl⟩) .nil)
    exact List.forall₂_same.mpr fun t ht => Or.inl ⟨rfl, hwords t ht⟩
  obtain ⟨hitems, hlast⟩ :=
    readItems_like (likeness_remarked hkind hvalue hline he) place hlists
  have hsame := hitems.imp (S := fun a b => a = b) fun _ _ hi => hi.eq.symm
  rw [List.forall₂_eq_eq_eq] at hsame
  exact Prod.ext hsame.symm hlast

/-! ### Texts with blanks at the ends of their lines -/

/-- The words of a text: all its tokens but the end mark. -/
def words (text : String) : List Token := (scan text).filter (!·.isEnd)

theorem words_eq_scanLines (text : String) :
    words text = scanLines 0 (splitLines text.toList) := by
  have hwords : (scanLines 0 (splitLines text.toList)).filter (!·.isEnd) =
      scanLines 0 (splitLines text.toList) :=
    List.filter_eq_self.mpr fun t ht => by rw [words_isEnd text t ht]; rfl
  rw [words, scan, List.filter_append, hwords]
  exact List.append_nil _

/-- The second text has the words, the grammar and the analysis of the first. -/
structure ReadsLike (policy : Policy) (settings : Json) (text text' : String) : Prop where
  words : words text' = words text
  grammar : Grammar.ofText text' = Grammar.ofText text
  analysis : analyze policy settings text' =
    ((analyze policy settings text).1,
      (analyze policy settings text).2.map fun a => { a with text := text' })

theorem analyze_of_grammar {text text' : String} (h : Grammar.ofText text' = Grammar.ofText text)
    (policy : Policy) (settings : Json) :
    analyze policy settings text' =
      ((analyze policy settings text).1,
        (analyze policy settings text).2.map fun a => { a with text := text' }) := by
  unfold analyze
  rw [h]
  cases Grammar.ofText text with
  | error e => rfl
  | ok grammar =>
      rcases Validator.make policy settings with ⟨notices, fault | validator⟩
      · rfl
      · rfl

theorem readsLike_of_trimmedLines (policy : Policy) (settings : Json) {text text' : String}
    (h : trimmedLines text'.toList = trimmedLines text.toList) :
    ReadsLike policy settings text text' := by
  have hscan : scanLines 0 (splitLines text'.toList) = scanLines 0 (splitLines text.toList) := by
    rw [← scanLines_trimmed, ← scanLines_trimmed 0 (splitLines text.toList)]
    exact congrArg (scanLines 0) h
  have hcount : (splitLines text'.toList).length = (splitLines text.toList).length := by
    have := congrArg List.length h
    simpa only [trimmedLines, List.length_map] using this
  have hread : readItems .declarations (scan text') = readItems .declarations (scan text) := by
    rw [scan, hscan]
    refine readItems_endMark .declarations (words_isEnd text) rfl rfl ?_ rfl
    simp only [endToken, hcount]
  have hgrammar : Grammar.ofText text' = Grammar.ofText text := by
    rw [ofText_eq_run, ofText_eq_run, hread]
  refine ⟨?_, hgrammar, analyze_of_grammar hgrammar policy settings⟩
  rw [words_eq_scanLines, words_eq_scanLines, hscan]

/-! ### Carriage returns -/

/-- The text without the carriage returns that stand right before a line feed. -/
def dropReturns : List Char → List Char
  | [] => []
  | '\r' :: '\n' :: cs => '\n' :: dropReturns cs
  | c :: cs => c :: dropReturns cs

/-- What is left of a line depends on what is left of the rest of it. -/
theorem rdropWhile_cons_congr {line line' : List Char} (c : Char)
    (h : line'.rdropWhile isBlank = line.rdropWhile isBlank) :
    (c :: line').rdropWhile isBlank = (c :: line).rdropWhile isBlank := by
  have hreverse : line'.reverse.dropWhile isBlank = line.reverse.dropWhile isBlank :=
    List.reverse_injective h
  rw [List.rdropWhile, List.rdropWhile, List.reverse_cons, List.reverse_cons, List.dropWhile_append,
    List.dropWhile_append, hreverse]

theorem trimmedLines_cons (c : Char) {cs ds : List Char} (h : trimmedLines ds = trimmedLines cs) :
    trimmedLines (c :: ds) = trimmedLines (c :: cs) := by
  by_cases hc : c = '\n'
  · simp only [trimmedLines, splitLines, if_pos hc, List.map_cons] at h ⊢
    rw [h]
  · obtain ⟨line, lines, hlines⟩ := List.exists_cons_of_ne_nil (splitLines_ne_nil cs)
    obtain ⟨line', lines', hlines'⟩ := List.exists_cons_of_ne_nil (splitLines_ne_nil ds)
    simp only [trimmedLines, splitLines, if_neg hc, hlines, hlines', List.map_cons,
      List.cons.injEq] at h ⊢
    exact ⟨rdropWhile_cons_congr c h.1, h.2⟩

theorem trimmedLines_dropReturns (cs : List Char) :
    trimmedLines (dropReturns cs) = trimmedLines cs := by
  fun_induction dropReturns cs with
  | case1 => rfl
  | case2 cs ih =>
      have hline : trimmedLines ('\r' :: '\n' :: cs) = trimmedLines ('\n' :: cs) := by
        simp [trimmedLines, splitLines, List.rdropWhile_singleton, isBlank]
      rw [hline]
      exact trimmedLines_cons '\n' ih
  | case3 c cs _ ih => exact trimmedLines_cons c ih

/-- Where each carriage return stands before a line feed, unifying line ends drops the returns. -/
theorem unifyLineEnds_eq_dropReturns {cs : List Char}
    (h : ∀ rest, '\r' :: rest <:+ cs → rest.head? = some '\n') :
    unifyLineEnds cs = dropReturns cs := by
  fun_induction dropReturns cs with
  | case1 => rfl
  | case2 cs ih =>
      rw [unifyLineEnds, ih]
      intro rest hrest
      exact h rest (hrest.trans (List.suffix_append ['\r', '\n'] cs))
  | case3 c cs hne ih =>
      have hc : c ≠ '\r' := by
        rintro rfl
        obtain ⟨rest, rfl⟩ := List.head?_eq_some_iff.mp (h cs (List.suffix_refl _))
        exact hne rest rfl rfl
      rw [← ih fun rest hrest => h rest (hrest.trans (List.suffix_cons c cs))]
      rw [unifyLineEnds]
      · exact fun rest hr => absurd hr hc
      · exact hc

/-- Texts whose lines differ in the blanks at their ends have the same words, the same grammar and
the same analysis, under every policy and all rule settings.  So a text may lose its carriage
returns before line feeds, which is what reading a file does if it has no others. -/
theorem trailing_blanks_ignored (policy : Policy) (settings : Json) :
    (∀ text text' : String, trimmedLines text'.toList = trimmedLines text.toList →
      ReadsLike policy settings text text') ∧
    (∀ text : String, ReadsLike policy settings text (String.ofList (dropReturns text.toList))) ∧
    ∀ text : String, (∀ rest, '\r' :: rest <:+ text.toList → rest.head? = some '\n') →
      ReadsLike policy settings text (String.ofList (unifyLineEnds text.toList)) := by
  have hreturns : ∀ text : String,
      ReadsLike policy settings text (String.ofList (dropReturns text.toList)) := by
    intro text
    apply readsLike_of_trimmedLines
    rw [String.toList_ofList, trimmedLines_dropReturns]
  refine ⟨fun text text' h => readsLike_of_trimmedLines policy settings h, hreturns, ?_⟩
  intro text h
  rw [unifyLineEnds_eq_dropReturns h]
  exact hreturns text

/-- A comment, an open quote and the last line have blanks behind them. -/
def returnedText : String := "%token a // b\t\r\n%%\r\nr : \"a \r\n; \t"

theorem returnedText_readsLike :
    ReadsLike .default (.object []) returnedText "%token a // b\n%%\nr : \"a\n;" ∧
      ReadsLike .default (.object []) returnedText
        (String.ofList (unifyLineEnds returnedText.toList)) := by
  have hsame : trimmedLines "%token a // b\n%%\nr : \"a\n;".toList =
      trimmedLines returnedText.toList := by
    decide
  have hreturns : ∀ tail ∈ returnedText.toList.tails,
      tail.head? = some '\r' → tail.tail.head? = some '\n' := by
    decide
  have hignored := trailing_blanks_ignored .default (.object [])
  exact ⟨hignored.1 _ _ hsame,
    hignored.2.2 _ fun rest hrest => hreturns (_ :: rest) ((List.mem_tails _ _).mpr hrest) rfl⟩

end GrammarLens
