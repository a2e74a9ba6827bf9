import GrammarLens.Proofs.Placement
import GrammarLens.Token.Scan

/-! # Tokens of a scan stand where they say

The pieces of a line cover it from left to right (`Piece.Fits`), so a token's coordinates select its
own spelling in the text.  `Token.Faithful` collects this for one token; every token of a scan but
the end mark has it (`scanLines_faithful`), and the tokens of a text follow each other without
overlap (`pairwise_scan`).  `Source.between` is the text that a span covers.  What a scan promises
to its readers is put together in `scan_faithful_and_ordered`. -/

namespace GrammarLens

/-- How a token of a kind with a value is spelled: a type tag has its angle brackets. -/
def spelling (kind : Token.Kind) (value : List Char) : List Char :=
  if kind = .typeTag then '<' :: value ++ ['>'] else value

/-! ### Blanks are no part of a word -/

theorem isBlank_of_isNameChar {c : Char} (h : isNameChar c = true) : isBlank c = false := by
  rw [Bool.eq_false_iff]
  intro hb
  simp only [isBlank, Bool.or_eq_true, Bool.and_eq_true, decide_eq_true_eq, beq_iff_eq] at hb
  change (((decide (65 ≤ c.val ∧ c.val ≤ 90) ||
    (decide (97 ≤ c.val) && decide (c.val ≤ 122))) ||
    (decide (48 ≤ c.val) && decide (c.val ≤ 57))) || c == '_' || c == '-') = true at h
  simp only [Bool.or_eq_true, Bool.and_eq_true, decide_eq_true_eq, beq_iff_eq,
    UInt32.le_iff_toNat_le] at h
  change ((((65 ≤ c.toNat ∧ c.toNat ≤ 90) ∨ (97 ≤ c.toNat ∧ c.toNat ≤ 122)) ∨
    (48 ≤ c.toNat ∧ c.toNat ≤ 57)) ∨ c = '_') ∨ c = '-' at h
  rcases h with ((h | h) | rfl) | rfl
  · omega
  · omega
  · revert hb
    decide
  · revert hb
    decide

theorem isNameChar_of_isNameStart {c : Char} (h : isNameStart c = true) : isNameChar c = true := by
  simp only [isNameStart, isNameChar, Char.isAlphanum, Bool.or_eq_true] at h ⊢
  rcases h with hletter | hunderscore
  · exact Or.inl (Or.inl (Or.inl hletter))
  · exact Or.inl (Or.inr hunderscore)

theorem Piece.first_of_isNameStart {c : Char} (h : isNameStart c = true) (cs : List Char) :
    first c cs = plain .identifier (c :: cs.takeWhile isNameChar) := by
  have hblank : isBlank c = false := isBlank_of_isNameChar (isNameChar_of_isNameStart h)
  have hslash : c ≠ '/' := by
    rintro rfl
    exact absurd h (by decide)
  have hpercent : c ≠ '%' := by
    rintro rfl
    exact absurd h (by decide)
  rw [first, if_neg (Bool.eq_false_iff.mp hblank), if_neg hslash, if_neg hpercent, if_pos h]

/-! ### Searches that succeed -/

theorem offsetOf?_eq_some {word cs : List Char} {n : Nat} (h : offsetOf? word cs = some n) :
    word <+: cs.drop n := by
  induction cs generalizing n with
  | nil =>
      unfold offsetOf? at h
      split at h
      · rename_i hw
        rw [List.isEmpty_iff.mp hw]
        exact List.nil_prefix
      · cases h
  | cons c cs ih =>
      unfold offsetOf? at h
      split at h
      · rename_i hw
        cases h
        exact List.isPrefixOf_iff_prefix.mp hw
      · obtain ⟨m, hm, rfl⟩ := Option.map_eq_some_iff.mp h
        exact ih hm

theorem offsetOf?_add_length_le {word cs : List Char} {n : Nat} (hw : word ≠ [])
    (h : offsetOf? word cs = some n) : n + word.length ≤ cs.length := by
  have hle := (offsetOf?_eq_some h).length_le
  have hpos := List.length_pos_iff.mpr hw
  rw [List.length_drop] at hle
  omega

theorem directiveAt?_prefix {cs : List Char} {name : String} (h : directiveAt? cs = some name) :
    name.toList <+: cs := by
  have := List.find?_some h
  simp only [Bool.and_eq_true] at this
  exact List.isPrefixOf_iff_prefix.mp this.1

/-! ### Pieces of a line -/

namespace Piece

/-- The piece is what the line starts with. -/
def Fits (line : List Char) : Piece → Prop
  | token kind value width =>
    kind ≠ .eof ∧ 1 ≤ width ∧ width ≤ line.length ∧ line.take width = spelling kind value
  | comment width => 1 ≤ width ∧ width ≤ line.length
  | dropped c => line.head? = some c

theorem fits_plain {line value : List Char} {kind : Token.Kind} (he : kind ≠ .eof)
    (ht : kind ≠ .typeTag) (hv : value ≠ []) (h : value <+: line) : Fits line (plain kind value) := by
  refine ⟨he, List.length_pos_iff.mpr hv, h.length_le, ?_⟩
  rw [spelling, if_neg ht]
  exact (List.prefix_iff_eq_take.mp h).symm

theorem Fits.one_le_width {line : List Char} {p : Piece} (h : p.Fits line) : 1 ≤ p.width := by
  cases p with
  | token kind value width => exact h.2.1
  | comment width => exact h.1
  | dropped c => exact Nat.le_refl 1

theorem Fits.width_le {line : List Char} {p : Piece} (h : p.Fits line) : p.width ≤ line.length := by
  cases p with
  | token kind value width => exact h.2.2.1
  | comment width => exact h.2
  | dropped c =>
      cases line with
      | nil => cases h
      | cons d line => simp [width]

theorem afterPercent_fits (cs : List Char) : (afterPercent cs).Fits ('%' :: cs) := by
  unfold afterPercent
  split
  · exact fits_plain (by decide) (by decide) (by decide) (by simp)
  · exact fits_plain (by decide) (by decide) (by decide) (by simp)
  · exact fits_plain (by decide) (by decide) (by decide) (by simp)
  · split
    · rename_i name h
      refine fits_plain (by decide) (by decide) (List.cons_ne_nil _ _) ?_
      exact List.cons_prefix_cons.mpr ⟨rfl, directiveAt?_prefix h⟩
    · rfl

theorem afterSlash_fits (cs : List Char) : (afterSlash cs).Fits ('/' :: cs) := by
  unfold afterSlash
  split
  · exact ⟨by omega, by simp⟩
  · rename_i rest
    split
    · rename_i n h
      have := offsetOf?_add_length_le (by decide) h
      refine ⟨by omega, ?_⟩
      simp only [List.length_cons, List.length_nil] at this ⊢
      omega
    · exact ⟨by omega, by simp⟩
  · rfl

theorem afterQuote_fits (quote : Char) (cs : List Char) :
    (afterQuote quote cs).Fits (quote :: cs) := by
  unfold afterQuote
  split
  · rename_i n _
    refine fits_plain ?_ ?_ (List.cons_ne_nil _ _) ?_
    · split <;> decide
    · split <;> decide
    · exact List.cons_prefix_cons.mpr ⟨rfl, List.take_prefix n cs⟩
  · rfl

theorem afterAngle_fits (cs : List Char) : (afterAngle cs).Fits ('<' :: cs) := by
  unfold afterAngle
  split
  · rename_i n h
    have hle := offsetOf?_add_length_le (by decide) h
    obtain ⟨more, hmore⟩ := offsetOf?_eq_some h
    refine ⟨by decide, by omega, ?_, ?_⟩
    · simp only [List.length_cons, List.length_nil] at hle ⊢
      omega
    · -- The tag and its closing bracket are what stands before the rest of the line.
      have split : cs = cs.take n ++ '>' :: more := by
        rw [← List.singleton_append, hmore, List.take_append_drop]
      have len : (cs.take n).length = n := List.length_take_of_le (by omega)
      rw [spelling, if_pos rfl, List.take_succ_cons, List.cons_append]
      congr 1
      calc cs.take (n + 1) = (cs.take n ++ '>' :: more).take (n + 1) := by rw [← split]
        _ = cs.take n ++ ['>'] := by
          rw [List.take_append, len, List.take_of_length_le (by omega)]
          simp
  · rfl

theorem first_fits (c : Char) (cs : List Char) : (first c cs).Fits (c :: cs) := by
  unfold first
  split
  · rfl
  split
  · rename_i h
    rw [h]
    exact afterSlash_fits cs
  split
  · rename_i h
    rw [h]
    exact afterPercent_fits cs
  split
  · refine fits_plain (by decide) (by decide) (List.cons_ne_nil _ _) ?_
    exact List.cons_prefix_cons.mpr ⟨rfl, List.takeWhile_prefix _⟩
  split
  · exact afterQuote_fits c cs
  split
  · rename_i h
    rw [h]
    exact afterAngle_fits cs
  split
  · exact fits_plain (by decide) (by decide) (List.cons_ne_nil _ _) (by simp)
  · rfl

end Piece

/-! ### Cutting a line -/

theorem cutAfter_eq_cut_drop (n : Nat) (cs : List Char) : cutAfter n cs = cut (cs.drop n) := by
  induction cs generalizing n with
  | nil => simp [cutAfter, cut]
  | cons c cs ih =>
      cases n with
      | zero => rfl
      | succ n => exact ih n

theorem cut_cons (c : Char) (cs : List Char) :
    cut (c :: cs) = Piece.first c cs :: cut ((c :: cs).drop (Piece.first c cs).width) := by
  have hw := (Piece.first_fits c cs).one_le_width
  obtain ⟨w, hw⟩ : ∃ w, (Piece.first c cs).width = w + 1 := ⟨_, (Nat.sub_add_cancel hw).symm⟩
  show Piece.first c cs :: cutAfter ((Piece.first c cs).width - 1) cs = _
  rw [cutAfter_eq_cut_drop, hw]
  rfl

/-- What holds of the empty line and spreads from the rest of a line to the whole of it holds of
every line. -/
theorem cut_induction {motive : List Char → List Piece → Prop} (nil : motive [] [])
    (cons : ∀ c cs, motive ((c :: cs).drop (Piece.first c cs).width)
        (cut ((c :: cs).drop (Piece.first c cs).width)) →
      motive (c :: cs) (Piece.first c cs :: cut ((c :: cs).drop (Piece.first c cs).width)))
    (line : List Char) : motive line (cut line) := by
  induction hn : line.length using Nat.strongRecOn generalizing line with
  | ind n ih =>
      cases line with
      | nil => exact nil
      | cons c cs =>
          rw [cut_cons]
          refine cons c cs (ih _ ?_ _ rfl)
          have := (Piece.first_fits c cs).one_le_width
          rw [List.length_drop, ← hn, List.length_cons]
          omega

/-! ### Tokens of a line -/

/-- The token has a place on the line, is not empty, and is spelled there as it says. -/
structure Token.FaithfulOn (line : List Char) (t : Token) : Prop where
  placed : t.Placed
  positive : 1 ≤ t.length
  kind_ne : t.kind ≠ .eof
  stop_le : t.stop.column ≤ line.length
  spelled : (line.drop t.start.column).take t.length.toNat = spelling t.kind t.value.toList

/-- The token of a piece of a line, placed behind what comes before it. -/
theorem Piece.Fits.faithfulOn {before rest value : List Char} {kind : Token.Kind} {width n : Nat}
    (h : (token kind value width).Fits rest) :
    (⟨kind, String.ofList value, n, before.length, width⟩ : Token).FaithfulOn (before ++ rest) := by
  obtain ⟨he, hpos, hle, hs⟩ := h
  refine ⟨⟨by simp, by simp, by simp⟩, Int.ofNat_le.mpr hpos, he, ?_, ?_⟩
  · simp only [Token.stop, Int.toNat_natCast, List.length_append]
    omega
  · simp only [Token.start, Int.toNat_natCast, List.drop_left, String.toList_ofList, hs]

/-- The tokens among the pieces of `rest` stand on the whole line, behind `before`, in order. -/
theorem place_spec (n : Nat) (line rest : List Char) :
    ∀ before, before ++ rest = line →
      (∀ t ∈ place n before.length (cut rest),
        t.start.line = n ∧ before.length ≤ t.start.column ∧ t.FaithfulOn line) ∧
      (place n before.length (cut rest)).Pairwise Token.Before := by
  refine cut_induction (motive := fun rest pieces => ∀ before, before ++ rest = line →
    (∀ t ∈ place n before.length pieces,
      t.start.line = n ∧ before.length ≤ t.start.column ∧ t.FaithfulOn line) ∧
    (place n before.length pieces).Pairwise Token.Before) ?_ ?_ rest
  · intro before _
    exact ⟨by simp [place], List.Pairwise.nil⟩
  · intro c cs ih before hline
    have hfits := Piece.first_fits c cs
    have hlen : (before ++ (c :: cs).take (Piece.first c cs).width).length =
        before.length + (Piece.first c cs).width := by
      rw [List.length_append, List.length_take_of_le hfits.width_le]
    obtain ⟨hmem, hpair⟩ := ih (before ++ (c :: cs).take (Piece.first c cs).width)
      (by rw [List.append_assoc, List.take_append_drop, hline])
    rw [hlen] at hmem hpair
    -- Later tokens stand behind this piece, so behind `before` as well.
    have later : ∀ t ∈ place n (before.length + (Piece.first c cs).width)
        (cut ((c :: cs).drop (Piece.first c cs).width)),
        t.start.line = n ∧ before.length ≤ t.start.column ∧ t.FaithfulOn line := by
      intro t ht
      obtain ⟨h1, h2, h3⟩ := hmem t ht
      exact ⟨h1, by omega, h3⟩
    cases hp : Piece.first c cs with
    | comment width =>
        rw [hp] at later hpair
        exact ⟨later, hpair⟩
    | dropped d =>
        rw [hp] at later hpair
        exact ⟨later, hpair⟩
    | token kind value width =>
        rw [hp] at hfits hmem hpair later
        refine ⟨List.forall_mem_cons.mpr ⟨⟨?_, ?_, ?_⟩, later⟩, List.pairwise_cons.mpr ⟨?_, hpair⟩⟩
        · simp [Token.start]
        · simp [Token.start]
        · rw [← hline]
          exact hfits.faithfulOn
        · intro t ht
          obtain ⟨h1, h2, -⟩ := hmem t ht
          refine Or.inr ⟨?_, ?_⟩
          · simp [Token.stop, h1]
          · simpa [Token.stop, Piece.width] using h2

/-- The tokens of a line have its number and stand on it, in order. -/
theorem scanLine_spec (n : Nat) (line : List Char) :
    (∀ t ∈ scanLine n line, t.start.line = n ∧ t.FaithfulOn line) ∧
      (scanLine n line).Pairwise Token.Before := by
  obtain ⟨hmem, hpair⟩ := place_spec n line line [] rfl
  exact ⟨fun t ht => ⟨(hmem t ht).1, (hmem t ht).2.2⟩, hpair⟩

/-! ### Tokens of a text -/

/-- The token is spelled as it says on the line it names. -/
def Token.Faithful (lines : List (List Char)) (t : Token) : Prop :=
  ∃ line, lines[t.start.line]? = some line ∧ t.FaithfulOn line

/-- The tokens of some lines that follow the lines `before`. -/
theorem scanLines_spec (before lines : List (List Char)) :
    (∀ t ∈ scanLines before.length lines,
      before.length ≤ t.start.line ∧ t.Faithful (before ++ lines)) ∧
      (scanLines before.length lines).Pairwise Token.Before := by
  induction lines generalizing before with
  | nil => exact ⟨by simp [scanLines], List.Pairwise.nil⟩
  | cons line lines ih =>
      obtain ⟨hmem, hpair⟩ := ih (before ++ [line])
      rw [List.append_assoc, List.singleton_append] at hmem
      rw [List.length_append, List.length_singleton] at hmem hpair
      obtain ⟨hline, hpair'⟩ := scanLine_spec before.length line
      refine ⟨?_, ?_⟩
      · intro t ht
        rcases List.mem_append.mp ht with ht | ht
        · obtain ⟨h1, h2⟩ := hline t ht
          exact ⟨by omega, line, by simp [h1], h2⟩
        · obtain ⟨h1, h2⟩ := hmem t ht
          exact ⟨by omega, h2⟩
      · refine List.pairwise_append.mpr ⟨hpair', hpair, ?_⟩
        intro t ht u hu
        have h1 : t.stop.line = before.length := (hline t ht).1
        have h2 := (hmem u hu).1
        exact Or.inl (by omega)

theorem scanLines_faithful (text : String) :
    ∀ t ∈ scanLines 0 (splitLines text.toList), t.Faithful (splitLines text.toList) :=
  fun t ht => ((scanLines_spec [] (splitLines text.toList)).1 t ht).2

/-- A position inside some lines comes no later than their end mark. -/
theorem le_endToken_start {lines : List (List Char)} {line : List Char} {p : Position}
    (h : lines[p.line]? = some line) (hc : p.column ≤ line.length) :
    p ≤ (endToken lines).start := by
  obtain ⟨hlt, hget⟩ := List.getElem?_eq_some_iff.mp h
  simp only [Position.le_def, Token.start, endToken, Int.toNat_natCast]
  rcases Nat.lt_or_ge p.line (lines.length - 1) with hl | hl
  · exact Or.inl hl
  · have hlast : lines.getLast? = some line := by
      rw [List.getLast?_eq_getElem?, ← h]
      congr 1
      omega
    rw [hlast]
    exact Or.inr ⟨by omega, hc⟩

theorem placed_scan (text : String) : ∀ t ∈ scan text, t.Placed := by
  intro t ht
  rcases List.mem_append.mp ht with ht | ht
  · obtain ⟨_, _, h⟩ := scanLines_faithful text t ht
    exact h.placed
  · rw [List.mem_singleton.mp ht]
    exact ⟨by simp [endToken], by simp [endToken], by simp [endToken]⟩

/-- The tokens of a text stand in order and do not overlap. -/
theorem pairwise_scan (text : String) : (scan text).Pairwise Token.Before := by
  refine List.pairwise_append.mpr ⟨(scanLines_spec [] (splitLines text.toList)).2, ?_, ?_⟩
  · exact List.pairwise_singleton _ _
  · intro t ht u hu
    rw [List.mem_singleton.mp hu]
    obtain ⟨line, hl, h⟩ := scanLines_faithful text t ht
    exact le_endToken_start (p := t.stop) hl h.stop_le

/-! ### Texts put together -/

theorem splitLines_eq_splitAtMark (cs : List Char) : splitLines cs = splitAtMark '\n' cs := by
  induction cs with
  | nil => rfl
  | cons c cs ih =>
      obtain ⟨piece, pieces, hpieces⟩ := List.exists_cons_of_ne_nil (splitAtMark_ne_nil '\n' cs)
      simp only [splitLines, splitAtMark, ih, hpieces]

theorem splitLines_of_not_mem {cs : List Char} (h : '\n' ∉ cs) : splitLines cs = [cs] := by
  rw [splitLines_eq_splitAtMark, splitAtMark_of_not_mem h]

theorem splitLines_append (cs ds : List Char) :
    splitLines (cs ++ '\n' :: ds) = splitLines cs ++ splitLines ds := by
  simp only [splitLines_eq_splitAtMark, splitAtMark_append]

theorem scanLines_append (n : Nat) (lines more : List (List Char)) :
    scanLines n (lines ++ more) = scanLines n lines ++ scanLines (n + lines.length) more := by
  induction lines generalizing n with
  | nil => rfl
  | cons line lines ih =>
      have hn : n + (line :: lines).length = n + 1 + lines.length := by
        rw [List.length_cons]
        omega
      rw [List.cons_append, scanLines, scanLines, ih, List.append_assoc, hn]

/-! ### The text of a span -/

namespace Source

/-- The position is one of the text: it names a line and a column of it, the end of the line
included. -/
def Holds (source : Source) (p : Position) : Prop :=
  ∃ line, source.lines[p.line]? = some line ∧ p.column ≤ line.length

/-- The text that a span covers. -/
def between (source : Source) (s : Span) : List Char :=
  (source.before s.stop).drop (source.offsetAt s.start)

theorem joinLines_cons {lines : List (List Char)} (line : List Char) (h : lines ≠ []) :
    joinLines (line :: lines) = line ++ '\n' :: joinLines lines := by
  cases lines with
  | nil => exact absurd rfl h
  | cons next more => rfl

/-- A line starts in the text behind the lines before it and their line feeds. -/
theorem joinLines_split {lines : List (List Char)} {l : Nat} {line : List Char}
    (h : lines[l]? = some line) :
    ∃ before after, joinLines lines = before ++ line ++ after ∧
      before.length = extent (lines.take l) := by
  induction lines generalizing l with
  | nil => cases h
  | cons first lines ih =>
      cases l with
      | zero =>
          cases h
          cases lines with
          | nil => exact ⟨[], [], by simp [joinLines], rfl⟩
          | cons next more => exact ⟨[], '\n' :: joinLines (next :: more), rfl, rfl⟩
      | succ l =>
          rw [List.getElem?_cons_succ] at h
          obtain ⟨before, after, he, hlen⟩ := ih h
          refine ⟨first ++ '\n' :: before, after, ?_, ?_⟩
          · rw [joinLines_cons first (by rintro rfl; cases h), he]
            simp
          · rw [List.take_succ_cons, extent, ← hlen, List.length_append, List.length_cons]
            omega

theorem offsetAt_eq {source : Source} {p : Position} {line : List Char}
    (h : source.lines[p.line]? = some line) (hc : p.column ≤ line.length) :
    source.offsetAt p = extent (source.lines.take p.line) + p.column := by
  rw [offsetAt, h]
  exact congrArg _ (Nat.min_eq_left hc)

/-- A span on one line covers a slice of that line. -/
theorem between_eq {source : Source} {s : Span} {line : List Char}
    (h : source.lines[s.start.line]? = some line) (hl : s.stop.line = s.start.line)
    (hc : s.stop.column ≤ line.length) :
    source.between s =
      (line.drop s.start.column).take (s.stop.column - s.start.column) := by
  have hle : s.start.column ≤ s.stop.column := by
    rcases s.start_le_stop with h' | h'
    · omega
    · exact h'.2
  have hstop : source.lines[s.stop.line]? = some line := by rw [hl]; exact h
  obtain ⟨before, after, he, hlen⟩ := joinLines_split h
  rw [between, Source.before, offsetAt_eq hstop hc, offsetAt_eq h (by omega), hl, ← hlen, he,
    List.drop_take, Nat.add_sub_add_left, List.append_assoc, List.drop_length_add_append,
    List.drop_append_of_le_length (by omega)]
  exact List.take_append_of_le_length (by rw [List.length_drop]; omega)

end Source

/-! ### Tokens inside the text -/

section Text

variable {text : String} {t : Token}

/-- All tokens but the end mark are faithful. -/
theorem faithful_of_mem_scan (h : t ∈ scan text) (he : t.isEnd = false) :
    t.Faithful (Source.ofText text).lines := by
  rcases List.mem_append.mp h with h | h
  · exact scanLines_faithful text t h
  · rw [List.mem_singleton.mp h] at he
    cases he

theorem endToken_holds (text : String) :
    (Source.ofText text).Holds (endToken (splitLines text.toList)).start := by
  have hne := splitLines_ne_nil text.toList
  refine ⟨(splitLines text.toList).getLast hne, ?_, ?_⟩
  · rw [← List.getLast?_eq_some_getLast hne, List.getLast?_eq_getElem?]
    simp [Source.ofText, Token.start, endToken]
  · simp [Token.start, endToken, List.getLast?_eq_some_getLast hne]

/-- Both ends of every token lie inside the text, those of the end mark included. -/
theorem holds_of_mem_scan (h : t ∈ scan text) :
    (Source.ofText text).Holds t.start ∧ (Source.ofText text).Holds t.stop := by
  cases he : t.isEnd with
  | false =>
      obtain ⟨line, hl, hf⟩ := faithful_of_mem_scan h he
      have hle : t.start.column ≤ line.length :=
        Nat.le_trans (Nat.le_add_right _ _) hf.stop_le
      exact ⟨⟨line, hl, hle⟩, ⟨line, hl, hf.stop_le⟩⟩
  | true =>
      rcases List.mem_append.mp h with h | h
      · obtain ⟨_, _, hf⟩ := scanLines_faithful text t h
        exact absurd (by simpa [Token.isEnd] using he) hf.kind_ne
      · have hstop : t.stop = t.start := by
          rw [List.mem_singleton.mp h]
          rfl
        have hstart : (Source.ofText text).Holds t.start := by
          rw [List.mem_singleton.mp h]
          exact endToken_holds text
        exact ⟨hstart, hstop ▸ hstart⟩

theorem holds_through {u : Token} (ht : t ∈ scan text) (hu : u ∈ scan text) :
    (Source.ofText text).Holds (t.through u).start ∧
      (Source.ofText text).Holds (t.through u).stop := by
  refine ⟨by rw [Token.through_start]; exact (holds_of_mem_scan ht).1, ?_⟩
  by_cases h : t.start ≤ u.stop
  · rw [Token.through_stop h]
    exact (holds_of_mem_scan hu).2
  · rw [Token.through, dif_neg h]
    exact (holds_of_mem_scan ht).2

/-- A token selects its own spelling in the text. -/
theorem between_place_eq_spelling (h : t ∈ scan text) (he : t.isEnd = false) :
    (Source.ofText text).between t.place = spelling t.kind t.value.toList := by
  obtain ⟨line, hl, hf⟩ := faithful_of_mem_scan h he
  rw [Source.between_eq (s := t.place) hl rfl hf.stop_le]
  simp only [Token.place_start, Token.place_stop, Token.start, Token.stop, Nat.add_sub_cancel_left]
  exact hf.spelled

end Text

/-! ### The words of a text and its end mark -/

/-- A token that is not empty and stops before another one starts before it too; on one line, the
columns in between are apart. -/
theorem Token.Before.columns {t u : Token} (h : t.Before u) (ht : t.Placed) (hu : u.Placed)
    (hpos : 1 ≤ t.length) :
    (t.line < u.line ∨ (t.line = u.line ∧ t.column < u.column)) ∧
      (t.line = u.line → t.column + t.length ≤ u.column) := by
  obtain ⟨htl, htc, htn⟩ := ht
  obtain ⟨hul, huc, -⟩ := hu
  have hle : t.line.toNat < u.line.toNat ∨
      (t.line.toNat = u.line.toNat ∧ t.column.toNat + t.length.toNat ≤ u.column.toNat) := h
  constructor
  · rcases hle with hlt | ⟨heq, hcol⟩
    · exact Or.inl (by omega)
    · exact Or.inr ⟨by omega, by omega⟩
  · intro hsame
    rcases hle with hlt | ⟨-, hcol⟩
    · omega
    · omega

/-- A faithful token reads its own spelling off the line it names. -/
theorem Token.Faithful.slice {lines : List (List Char)} {t : Token} (h : t.Faithful lines) :
    ∃ line, 0 ≤ t.line ∧ lines[t.line.toNat]? = some line ∧ 0 ≤ t.column ∧
      t.column + t.length ≤ line.length ∧
      (line.drop t.column.toNat).take t.length.toNat = spelling t.kind t.value.toList := by
  obtain ⟨line, hline, hon⟩ := h
  obtain ⟨hl, hc, hn⟩ := hon.placed
  have hstop : t.column.toNat + t.length.toNat ≤ line.length := hon.stop_le
  exact ⟨line, hl, hline, hc, by omega, hon.spelled⟩

theorem endToken_spec (text : String) :
    ∃ last, (splitLines text.toList).getLast? = some last ∧
      (endToken (splitLines text.toList)).line + 1 = (splitLines text.toList).length ∧
      (endToken (splitLines text.toList)).column = last.length := by
  have hne := splitLines_ne_nil text.toList
  have hlen := List.length_pos_iff.mpr hne
  refine ⟨_, List.getLast?_eq_some_getLast hne, ?_, ?_⟩
  · simp only [endToken]
    omega
  · simp only [endToken, List.getLast?_eq_some_getLast hne, Option.getD_some]

/-- The end mark comes last, so the first token of a pair is always a word. -/
theorem pairwise_scan_columns (text : String) :
    (scan text).Pairwise fun t u =>
      (t.line < u.line ∨ (t.line = u.line ∧ t.column < u.column)) ∧
        (t.line = u.line → t.column + t.length ≤ u.column) := by
  have hplaced := placed_scan text
  obtain ⟨hin, -, hcross⟩ := List.pairwise_append.mp (pairwise_scan text)
  have hword : ∀ t ∈ scanLines 0 (splitLines text.toList), ∀ u ∈ scan text, t.Before u →
      (t.line < u.line ∨ (t.line = u.line ∧ t.column < u.column)) ∧
        (t.line = u.line → t.column + t.length ≤ u.column) := by
    intro t ht u hu hb
    obtain ⟨line, -, hon⟩ := scanLines_faithful text t ht
    exact hb.columns hon.placed (hplaced u hu) hon.positive
  refine List.pairwise_append.mpr ⟨?_, List.pairwise_singleton _ _, ?_⟩
  · refine hin.imp_of_mem ?_
    intro t u ht hu hb
    exact hword t ht u (List.mem_append_left _ hu) hb
  · intro t ht u hu
    exact hword t ht u (List.mem_append_right _ hu) (hcross t ht u hu)

/-- The tokens of a text are its words and then one end mark, which is empty and stands after the
last character of the last line.  A word is not empty, lies on the line it names, and is spelled
there as it says, a type tag in its angle brackets.  Of any two tokens the first starts before the
second, and on one line it also stops before the second starts. -/
theorem scan_faithful_and_ordered (text : String) :
    ∃ (words : List Token) (stop : Token), scan text = words ++ [stop] ∧
      (stop.kind = .eof ∧ stop.value = "" ∧ stop.length = 0 ∧
        ∃ last, (splitLines text.toList).getLast? = some last ∧
          stop.line + 1 = (splitLines text.toList).length ∧ stop.column = last.length) ∧
      (∀ t ∈ words, t.kind ≠ .eof ∧ 1 ≤ t.length ∧
        ∃ line, 0 ≤ t.line ∧ (splitLines text.toList)[t.line.toNat]? = some line ∧
          0 ≤ t.column ∧ t.column + t.length ≤ line.length ∧
          (line.drop t.column.toNat).take t.length.toNat =
            if t.kind = .typeTag then '<' :: t.value.toList ++ ['>'] else t.value.toList) ∧
      (scan text).Pairwise fun t u =>
        (t.line < u.line ∨ (t.line = u.line ∧ t.column < u.column)) ∧
          (t.line = u.line → t.column + t.length ≤ u.column) := by
  refine ⟨scanLines 0 (splitLines text.toList), endToken (splitLines text.toList), rfl,
    ⟨rfl, rfl, rfl, endToken_spec text⟩, ?_, pairwise_scan_columns text⟩
  intro t ht
  have hslice := (scanLines_faithful text t ht).slice
  obtain ⟨line, -, hon⟩ := scanLines_faithful text t ht
  exact ⟨hon.kind_ne, hon.positive, hslice⟩

end GrammarLens
