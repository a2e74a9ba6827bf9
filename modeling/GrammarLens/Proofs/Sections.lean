import GrammarLens.Proofs.Definitions
import GrammarLens.Proofs.Locality

/-! # Two ways to tell a section

Completion tells the section of a caret by the double percent signs before it
(`countSeparators`); reading tells it by the separators among the tokens.  A separator token stands
for a double percent sign, and different tokens for signs that lie apart.  Counting from the left
finds as many signs that lie apart as there are (`countSeparators_drop_le`), so it never finds fewer
than the scan (`separators_cut_le`).  It finds more only where a comment, a literal or a type tag
takes one in (`separators_cut_eq`). -/

namespace GrammarLens

/-! ### Counting from the left -/

theorem countSeparators_pair (cs : List Char) :
    countSeparators ('%' :: '%' :: cs) = countSeparators cs + 1 := by
  rw [countSeparators]

/-- A character that starts no double percent sign can be left out. -/
theorem countSeparators_cons {c : Char} {cs : List Char}
    (h : ∀ more, c = '%' → cs ≠ '%' :: more) : countSeparators (c :: cs) = countSeparators cs := by
  rw [countSeparators]
  intro more hc hcs
  exact h more hc hcs

/-- One more character in front makes at most one more sign, and never one less. -/
theorem countSeparators_cons_bounds (c : Char) (cs : List Char) :
    countSeparators cs ≤ countSeparators (c :: cs) ∧
      countSeparators (c :: cs) ≤ countSeparators cs + 1 := by
  induction cs generalizing c with
  | nil =>
      rw [countSeparators_cons (by simp)]
      omega
  | cons d cs ih =>
      by_cases h : c = '%' ∧ d = '%'
      · -- The pair takes its second sign away from what comes after it.
        obtain ⟨rfl, rfl⟩ := h
        have := ih '%'
        rw [countSeparators_pair]
        omega
      · have hcons : countSeparators (c :: d :: cs) = countSeparators (d :: cs) := by
          apply countSeparators_cons
          intro more hc hd
          exact h ⟨hc, (List.cons.inj hd).1⟩
        omega

theorem countSeparators_drop_le (n : Nat) (cs : List Char) :
    countSeparators (cs.drop n) ≤ countSeparators cs := by
  induction n generalizing cs with
  | zero => exact Nat.le_refl _
  | succ n ih =>
      cases cs with
      | nil => exact Nat.le_refl _
      | cons c cs =>
          have := (countSeparators_cons_bounds c cs).1
          have := ih cs
          rw [List.drop_succ_cons]
          omega

theorem countSeparators_append_of_not_mem {word : List Char} (h : '%' ∉ word) (cs : List Char) :
    countSeparators (word ++ cs) = countSeparators cs := by
  induction word with
  | nil => rfl
  | cons c word ih =>
      rw [List.mem_cons, not_or] at h
      rw [List.cons_append, countSeparators_cons, ih h.2]
      intro more hc
      exact absurd hc.symm h.1

/-- No double percent sign goes on beyond a character that is no percent sign. -/
theorem countSeparators_append_cons {c : Char} (hc : c ≠ '%') (cs ds : List Char) :
    countSeparators (cs ++ c :: ds) = countSeparators cs + countSeparators ds := by
  fun_induction countSeparators cs with
  | case1 cs ih =>
      rw [List.cons_append, List.cons_append, countSeparators_pair, ih]
      omega
  | case2 d cs hd ih =>
      rw [List.cons_append, countSeparators_cons, ih]
      intro more hd' hcs
      cases cs with
      | nil => exact hc (List.cons.inj hcs).1
      | cons e cs =>
          obtain ⟨rfl, -⟩ := List.cons.inj hcs
          exact hd cs hd' rfl
  | case3 =>
      rw [List.nil_append, countSeparators_cons, Nat.zero_add]
      intro more hc'
      exact absurd hc' hc

theorem mem_of_mem_splitLines {cs line : List Char} (hline : line ∈ splitLines cs) {c : Char}
    (hc : c ∈ line) : c ∈ cs := by
  obtain ⟨l, hl⟩ := List.mem_iff_getElem?.mp hline
  obtain ⟨before, after, htext, -⟩ := Source.joinLines_split hl
  rw [← joinLines_splitLines cs, htext]
  exact List.mem_append_left _ (List.mem_append_right _ hc)

/-! ### Separators among pieces and tokens -/

namespace Piece

/-- Whether the piece parts two sections. -/
def isSeparator : Piece → Bool
  | token kind _ _ => kind == .separator
  | _ => false

theorem afterPercent_isSeparator {cs : List Char} (h : (afterPercent cs).isSeparator = true) :
    ∃ more, cs = '%' :: more := by
  unfold afterPercent at h
  split at h
  · exact ⟨_, rfl⟩
  · cases h
  · cases h
  · split at h
    · cases h
    · cases h

theorem afterSlash_isSeparator (cs : List Char) : (afterSlash cs).isSeparator = false := by
  unfold afterSlash
  repeat' split
  all_goals rfl

theorem afterQuote_isSeparator (quote : Char) (cs : List Char) :
    (afterQuote quote cs).isSeparator = false := by
  unfold afterQuote
  split
  · show ((if quote = '"' then Token.Kind.string else .character) == .separator) = false
    split <;> rfl
  · rfl

theorem afterAngle_isSeparator (cs : List Char) : (afterAngle cs).isSeparator = false := by
  unfold afterAngle
  split
  · rfl
  · rfl

/-- A separator is a double percent sign. -/
theorem first_isSeparator {c : Char} {cs : List Char} (h : (first c cs).isSeparator = true) :
    ∃ more, c = '%' ∧ cs = '%' :: more := by
  unfold first at h
  split at h
  · cases h
  split at h
  · rw [afterSlash_isSeparator] at h
    cases h
  split at h
  · rename_i hc
    obtain ⟨more, hcs⟩ := afterPercent_isSeparator h
    exact ⟨more, hc, hcs⟩
  split at h
  · cases h
  split at h
  · rw [afterQuote_isSeparator] at h
    cases h
  split at h
  · rw [afterAngle_isSeparator] at h
    cases h
  split at h
  · cases h
  · cases h

end Piece

theorem countP_place (n column : Nat) (pieces : List Piece) :
    (place n column pieces).countP (·.kind == .separator) = pieces.countP Piece.isSeparator := by
  induction pieces generalizing column with
  | nil => rfl
  | cons piece pieces ih =>
      cases piece with
      | token kind value width =>
          rw [place, List.countP_cons, List.countP_cons, ih]
          rfl
      | comment width =>
          rw [place, List.countP_cons_of_neg (by simp [Piece.isSeparator]), ih]
      | dropped c =>
          rw [place, List.countP_cons_of_neg (by simp [Piece.isSeparator]), ih]

theorem countP_scanLines (n : Nat) (lines : List (List Char)) :
    (scanLines n lines).countP (·.kind == .separator) =
      (lines.flatMap cut).countP Piece.isSeparator := by
  induction lines generalizing n with
  | nil => rfl
  | cons line lines ih =>
      rw [scanLines, List.countP_append, scanLine, countP_place, ih, List.flatMap_cons,
        List.countP_append]

theorem countP_scan (text : String) :
    (scan text).countP (·.kind == .separator) =
      ((splitLines text.toList).flatMap cut).countP Piece.isSeparator := by
  rw [scan, List.countP_append, countP_scanLines]
  rfl

/-! ### Separators of a line -/

theorem separators_cut_le (line : List Char) :
    (cut line).countP Piece.isSeparator ≤ countSeparators line := by
  refine cut_induction (motive := fun line pieces =>
    pieces.countP Piece.isSeparator ≤ countSeparators line) ?_ ?_ line
  · exact Nat.zero_le _
  · intro c cs ih
    cases hs : (Piece.first c cs).isSeparator with
    | true =>
        obtain ⟨more, rfl, rfl⟩ := Piece.first_isSeparator hs
        rw [List.countP_cons_of_pos hs, countSeparators_pair]
        exact Nat.succ_le_succ ih
    | false =>
        rw [List.countP_cons_of_neg (by rw [hs]; decide)]
        exact Nat.le_trans ih (countSeparators_drop_le _ _)

/-- The character starts no comment, no literal and no type tag. -/
def Unquoting (c : Char) : Prop := c ≠ '/' ∧ c ≠ '"' ∧ c ≠ '\'' ∧ c ≠ '<'

theorem percent_not_mem_directiveNames : ∀ name ∈ directiveNames, '%' ∉ name.toList := by decide

namespace Piece

theorem afterPercent_tail {cs : List Char} (hs : (afterPercent cs).isSeparator = false) :
    '%' ∉ cs.take ((afterPercent cs).width - 1) := by
  unfold afterPercent at hs ⊢
  split at hs
  · cases hs
  · simp [plain, width]
  · simp [plain, width]
  · split
    · rename_i name h
      have hname : name ∈ directiveNames := List.mem_of_find?_eq_some h
      have hstart := directiveAt?_prefix h
      have htake := List.prefix_iff_eq_take.mp hstart
      have hwidth : (plain .directive ('%' :: name.toList)).width - 1 = name.toList.length := rfl
      rw [hwidth, ← htake]
      exact percent_not_mem_directiveNames name hname
    · simp [width]

/-- A piece that is no separator has no percent sign behind its first character. -/
theorem first_tail {c : Char} (hc : Unquoting c) {cs : List Char}
    (hs : (first c cs).isSeparator = false) : '%' ∉ cs.take ((first c cs).width - 1) := by
  obtain ⟨hslash, hdouble, hsingle, hangle⟩ := hc
  unfold first at hs ⊢
  rw [if_neg hslash, if_neg (not_or.mpr ⟨hdouble, hsingle⟩), if_neg hangle] at hs ⊢
  split
  · simp [width]
  rename_i hblank
  rw [if_neg hblank] at hs
  split
  · rename_i hpercent
    rw [if_pos hpercent] at hs
    exact afterPercent_tail hs
  split
  · -- A name goes on with characters of names, and a percent sign is none.
    have hstart : cs.takeWhile isNameChar <+: cs := List.takeWhile_prefix _
    have htake := List.prefix_iff_eq_take.mp hstart
    have hwidth : (plain .identifier (c :: cs.takeWhile isNameChar)).width - 1 =
        (cs.takeWhile isNameChar).length := rfl
    rw [hwidth, ← htake]
    intro hmem
    have hname := List.all_eq_true.mp (List.all_takeWhile (l := cs)) _ hmem
    cases hname
  split
  · simp [plain, width]
  · simp [width]

end Piece

theorem separators_cut_eq {line : List Char} (h : ∀ c ∈ line, Unquoting c) :
    (cut line).countP Piece.isSeparator = countSeparators line := by
  revert h
  refine cut_induction (motive := fun line pieces => (∀ c ∈ line, Unquoting c) →
    pieces.countP Piece.isSeparator = countSeparators line) ?_ ?_ line
  · exact fun _ => rfl
  · intro c cs ih h
    have ih := ih fun d hd => h d (List.mem_of_mem_drop hd)
    cases hs : (Piece.first c cs).isSeparator with
    | true =>
        obtain ⟨more, rfl, rfl⟩ := Piece.first_isSeparator hs
        rw [List.countP_cons_of_pos hs, countSeparators_pair, ih]
        rfl
    | false =>
        have hsingle : countSeparators (c :: cs) = countSeparators cs := by
          apply countSeparators_cons
          rintro more rfl rfl
          cases hs
        have htail := Piece.first_tail (h c List.mem_cons_self) hs
        obtain ⟨w, hw⟩ : ∃ w, (Piece.first c cs).width = w + 1 :=
          ⟨_, (Nat.sub_add_cancel (Piece.first_fits c cs).one_le_width).symm⟩
        rw [hw, Nat.add_sub_cancel] at htail
        rw [List.countP_cons_of_neg (by rw [hs]; decide), ih, hw, List.drop_succ_cons, hsingle]
        calc countSeparators (cs.drop w)
            = countSeparators (cs.take w ++ cs.drop w) :=
              (countSeparators_append_of_not_mem htail _).symm
          _ = countSeparators cs := by rw [List.take_append_drop]

/-! ### Separators of lines -/

theorem separators_lines_le (lines : List (List Char)) :
    (lines.flatMap cut).countP Piece.isSeparator ≤ countSeparators (joinLines lines) := by
  fun_induction joinLines lines with
  | case1 => exact Nat.le_refl 0
  | case2 line =>
      rw [List.flatMap_singleton]
      exact separators_cut_le line
  | case3 line lines hne ih =>
      have hline := separators_cut_le line
      rw [List.flatMap_cons, List.countP_append, countSeparators_append_cons (by decide)]
      omega

theorem separators_lines_eq {lines : List (List Char)}
    (h : ∀ line ∈ lines, ∀ c ∈ line, Unquoting c) :
    (lines.flatMap cut).countP Piece.isSeparator = countSeparators (joinLines lines) := by
  fun_induction joinLines lines with
  | case1 => rfl
  | case2 line =>
      rw [List.flatMap_singleton]
      exact separators_cut_eq (h line List.mem_cons_self)
  | case3 line lines hne ih =>
      have hline := separators_cut_eq (h line List.mem_cons_self)
      have hlines := ih fun l hl => h l (List.mem_cons_of_mem line hl)
      rw [List.flatMap_cons, List.countP_append, countSeparators_append_cons (by decide)]
      omega

/-! ### Sections in their order -/

/-- The place of a section in their order.  No section comes after all of them. -/
def Section.rank : Option Section → Nat
  | some .declarations => 0
  | some .rules => 1
  | some .epilogue => 2
  | none => 3

namespace Section

theorem rank_at? (before : List Char) : rank (at? before) = min (countSeparators before) 3 := by
  unfold at?
  split
  · rename_i h
    rw [h]
    rfl
  · rename_i h
    rw [h]
    rfl
  · rename_i h
    rw [h]
    rfl
  · rename_i h0 h1 h2
    have h3 : 3 ≤ countSeparators before := by
      have h1' := Nat.lt_of_le_of_ne (Nat.pos_of_ne_zero h0) (Ne.symm h1)
      exact Nat.lt_of_le_of_ne h1' (Ne.symm h2)
    exact (Nat.min_eq_right h3).symm

theorem rank_next_le (place : Section) : rank (some place.next) ≤ rank (some place) + 1 := by
  cases place <;> decide

theorem rank_some_le (place : Section) : rank (some place) ≤ 2 := by
  cases place <;> decide

end Section

/-- Reading goes on by one section at most for each separator. -/
theorem rank_readItems_le (place : Section) (ts : List Token) :
    Section.rank (some (readItems place ts).2) ≤
      Section.rank (some place) + ts.countP (·.kind == .separator) := by
  fun_induction readItems place ts with
  | case1 place => exact Nat.le_refl _
  | case2 place t rest hend => exact Nat.le_add_right _ _
  | case3 place t rest hend hk ih =>
      have := Section.rank_next_le place
      rw [List.countP_cons_of_pos (p := fun t : Token => t.kind == .separator) hk]
      omega
  | case4 place t rest hend hk ih =>
      have hless : (readItem place t rest).2.countP (·.kind == .separator) ≤
          (t :: rest).countP (·.kind == .separator) :=
        ((readItem_suffix place t rest).sublist.cons t).countP_le
      exact Nat.le_trans ih (Nat.add_le_add_left hless _)

/-- A text has at most as many separators as double percent signs, so reading it ends in no later
section than the signs lead to.  If the text starts no comment, no literal and no type tag, each
double percent sign is a separator. -/
theorem separators_counted (text : String) :
    (scan text).countP (·.kind == .separator) ≤ countSeparators text.toList ∧
    (∃ g, Grammar.ofText text = .ok g ∧
      Section.rank (some g.lastSection) ≤ Section.rank (Section.at? text.toList)) ∧
    ((∀ c ∈ text.toList, c ≠ '/' ∧ c ≠ '"' ∧ c ≠ '\'' ∧ c ≠ '<') →
      (scan text).countP (·.kind == .separator) = countSeparators text.toList) := by
  have hcount : (scan text).countP (·.kind == .separator) ≤ countSeparators text.toList := by
    have hlines := separators_lines_le (splitLines text.toList)
    rwa [← countP_scan, joinLines_splitLines] at hlines
  refine ⟨hcount, ⟨_, ofText_eq_run text, ?_⟩, ?_⟩
  · have hread := rank_readItems_le .declarations (scan text)
    have hlast := Section.rank_some_le (readItems .declarations (scan text)).2
    have hstart : Section.rank (some .declarations) = 0 := rfl
    rw [Section.rank_at?]
    show Section.rank (some (readItems .declarations (scan text)).2) ≤ _
    omega
  · intro h
    have hlines := separators_lines_eq fun line hline c hc => h c (mem_of_mem_splitLines hline hc)
    rwa [← countP_scan, joinLines_splitLines] at hlines

/-- Runs of percent signs before a brace, behind a directive and at the end of a line. -/
def percentRuns : String := "%%%\x7b a %%\n%prec%%%%- %%%\n% %"

theorem percentRuns_counted :
    (∀ c ∈ percentRuns.toList, c ≠ '/' ∧ c ≠ '"' ∧ c ≠ '\'' ∧ c ≠ '<') ∧
      countSeparators percentRuns.toList = 5 ∧
      (scan percentRuns).countP (·.kind == .separator) = 5 := by
  have hall : percentRuns.toList.all
      (fun c => decide (c ≠ '/' ∧ c ≠ '"' ∧ c ≠ '\'' ∧ c ≠ '<')) = true := by
    decide
  have hplain : ∀ c ∈ percentRuns.toList, c ≠ '/' ∧ c ≠ '"' ∧ c ≠ '\'' ∧ c ≠ '<' :=
    fun c hc => of_decide_eq_true (List.all_eq_true.mp hall c hc)
  have hcount : countSeparators percentRuns.toList = 5 := by decide
  refine ⟨hplain, hcount, ?_⟩
  rw [(separators_counted percentRuns).2.2 hplain, hcount]

end GrammarLens
