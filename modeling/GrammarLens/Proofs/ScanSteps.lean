import GrammarLens.Proofs.Lowering
import GrammarLens.Proofs.Rescanning
import Mathlib.Logic.Relation

/-! # Scanning step by step

The scan of a line is told here as the run of a `Scanner`: it stands at a column, has the tokens
before that column, and one step takes the piece of the line that starts there.  A run from the
start of the line leads to its end with exactly the tokens of the line (`Scanner.run_to_end`), and
wherever it stands on the way, the tokens still to come are those of the rest of the line
(`Scanner.Run.scanLine_eq`).

At a percent sign the step is decided by the whole run of name characters behind it
(`directive_longest`).  A text is scanned line after line, and nothing is carried from one line to
the next (`scan_line_after_line`). -/

namespace GrammarLens

/-! ### Steps and runs -/

/-- How far the scan of a line has come: the column where it stands and the tokens before it. -/
@[ext] structure Scanner where
  column : Nat
  tokens : List Token
deriving DecidableEq, Repr

theorem le_column_of_mem_place {n column : Nat} {pieces : List Piece} {t : Token}
    (h : t ∈ place n column pieces) : (column : Int) ≤ t.column := by
  induction pieces generalizing column with
  | nil => cases h
  | cons piece pieces ih =>
      have hmore : t ∈ place n (column + piece.width) pieces → (column : Int) ≤ t.column := by
        intro ht
        have hle := ih ht
        omega
      cases piece with
      | token kind value width =>
          rcases List.mem_cons.mp h with rfl | h
          · exact Int.le_refl _
          · exact hmore h
      | comment width => exact hmore h
      | dropped c => exact hmore h

namespace Scanner

/-- Takes a piece of line `n` that starts at the column. -/
def take (n : Nat) (s : Scanner) : Piece → Scanner
  | .token kind value width =>
    ⟨s.column + width, s.tokens ++ [⟨kind, String.ofList value, n, s.column, width⟩]⟩
  | .comment width => ⟨s.column + width, s.tokens⟩
  | .dropped _ => ⟨s.column + 1, s.tokens⟩

/-- Takes the piece of line `n` that starts at the column, unless the line ends there. -/
def step (n : Nat) (line : List Char) (s : Scanner) : Option Scanner :=
  match line.drop s.column with
  | [] => none
  | c :: cs => some (s.take n (Piece.first c cs))

/-- The scanner before the first step. -/
def start : Scanner := ⟨0, []⟩

/-- The tokens of the rest of the line. -/
def ahead (n : Nat) (line : List Char) (s : Scanner) : List Token :=
  place n s.column (cut (line.drop s.column))

variable {n : Nat} {line : List Char} {s s' : Scanner}

@[simp] theorem take_column (piece : Piece) : (s.take n piece).column = s.column + piece.width := by
  cases piece <;> rfl

/-- Taking a piece moves its token, if it is one, from those ahead to those behind. -/
theorem take_tokens_append (piece : Piece) (pieces : List Piece) :
    (s.take n piece).tokens ++ place n (s.column + piece.width) pieces =
      s.tokens ++ place n s.column (piece :: pieces) := by
  cases piece with
  | token kind value width =>
      rw [place, take, List.append_assoc]
      rfl
  | comment width => rfl
  | dropped c => rfl

theorem step_eq {c : Char} {cs : List Char} (h : line.drop s.column = c :: cs) :
    s.step n line = some (s.take n (Piece.first c cs)) := by
  rw [step, h]

theorem step_cases (h : s.step n line = some s') :
    ∃ c cs, line.drop s.column = c :: cs ∧ s' = s.take n (Piece.first c cs) := by
  cases hrest : line.drop s.column with
  | nil =>
      rw [step, hrest] at h
      cases h
  | cons c cs =>
      rw [step_eq hrest] at h
      exact ⟨c, cs, rfl, (Option.some.inj h).symm⟩

/-- The scan of line `n` leads from one scanner to the other. -/
def Run (n : Nat) (line : List Char) : Scanner → Scanner → Prop :=
  Relation.ReflTransGen fun s s' => s.step n line = some s'

/-- A step loses no token. -/
theorem step_tokens (h : s.step n line = some s') :
    s'.tokens ++ s'.ahead n line = s.tokens ++ s.ahead n line := by
  obtain ⟨c, cs, hrest, rfl⟩ := step_cases h
  rw [ahead, ahead, take_column, ← List.drop_drop, hrest, cut_cons, take_tokens_append]

/-- The tokens that were found start before the column. -/
def Behind (s : Scanner) : Prop := ∀ t ∈ s.tokens, t.column < s.column

theorem behind_take {piece : Piece} (hwidth : 1 ≤ piece.width) (h : s.Behind) :
    (s.take n piece).Behind := by
  have hearlier : ∀ t ∈ s.tokens, t.column < (s.take n piece).column := by
    intro t ht
    have hlt := h t ht
    rw [take_column]
    omega
  cases piece with
  | token kind value width =>
      intro t ht
      rcases List.mem_append.mp ht with ht | ht
      · exact hearlier t ht
      · have hcolumn : t.column = s.column := by rw [List.mem_singleton.mp ht]
        rw [take_column]
        omega
  | comment width => exact hearlier
  | dropped c => exact hearlier

theorem behind_step (h : s.step n line = some s') (hs : s.Behind) : s'.Behind := by
  obtain ⟨c, cs, -, rfl⟩ := step_cases h
  exact behind_take (Piece.first_fits c cs).one_le_width hs

theorem Run.scanLine_eq (h : Run n line start s) :
    scanLine n line = s.tokens ++ s.ahead n line := by
  induction h with
  | refl => rfl
  | tail _ hstep ih => rw [ih, step_tokens hstep]

theorem Run.behind (h : Run n line start s) : s.Behind := by
  induction h with
  | refl => exact fun t ht => nomatch ht
  | tail _ hstep ih => exact behind_step hstep ih

/-- From a column of the line the scanner comes to its end. -/
theorem run_ahead (hs : s.column ≤ line.length) :
    Run n line s ⟨line.length, s.tokens ++ s.ahead n line⟩ := by
  refine cut_induction (motive := fun rest pieces => ∀ s : Scanner, line.drop s.column = rest →
    s.column ≤ line.length →
      Run n line s ⟨line.length, s.tokens ++ place n s.column pieces⟩) ?_ ?_
    (line.drop s.column) s rfl hs
  -- The rest of the line is cut to its end, for every scanner that stands before it.
  · intro s hrest hs
    have hlen := List.drop_eq_nil_iff.mp hrest
    have hend : s = ⟨line.length, s.tokens ++ place n s.column []⟩ := by
      ext1
      · exact Nat.le_antisymm hs hlen
      · exact (List.append_nil _).symm
    rw [← hend]
    exact .refl
  · intro c cs ih s hrest hs
    have hle := (Piece.first_fits c cs).width_le
    have hlen := congrArg List.length hrest
    rw [List.length_drop] at hlen
    have hnext := ih (s.take n (Piece.first c cs))
      (by rw [take_column, ← List.drop_drop, hrest])
      (by rw [take_column]; omega)
    rw [take_column, take_tokens_append] at hnext
    exact .head (step_eq hrest) hnext

/-- The scan of a line ends with its tokens. -/
theorem run_to_end (n : Nat) (line : List Char) :
    Run n line start ⟨line.length, scanLine n line⟩ :=
  run_ahead (Nat.zero_le _)

end Scanner

/-! ### Directives -/

/-- A percent sign starts a directive if the whole run of name characters behind it is the name of
one, and is dropped otherwise. -/
theorem Piece.first_percent {cs : List Char}
    (h : ∀ c ∈ cs.head?, c ≠ '%' ∧ c ≠ '\x7b' ∧ c ≠ '\x7d') :
    first '%' cs =
      if String.ofList (cs.takeWhile isNameChar) ∈ directiveNames then
        plain .directive ('%' :: cs.takeWhile isNameChar)
      else dropped '%' := by
  have hfirst : first '%' cs = afterPercent cs := rfl
  rw [hfirst, afterPercent_of_head h]
  split
  · rename_i hname
    have hfound := directiveAt?_eq_some_iff.mpr ⟨hname, String.toList_ofList.symm⟩
    rw [hfound, Option.elim_some, String.toList_ofList]
  · rename_i hname
    have hnone : directiveAt? cs = none := by
      rw [Option.eq_none_iff_forall_ne_some]
      intro name hfound
      obtain ⟨hmem, hrun⟩ := directiveAt?_eq_some_iff.mp hfound
      rw [hrun, String.ofList_toList] at hname
      exact hname hmem
    rw [hnone]
    rfl

/-- Where a scan stands at a percent sign that starts neither a separator nor a mark of a prologue,
the longest run of name characters behind it decides.  If the run is the name of a directive, the
scan takes the sign and the run as one token.  Otherwise it drops the sign alone, no token starts
there, and the scan goes on at the next column. -/
theorem directive_longest {n : Nat} {line cs : List Char} {s : Scanner}
    (hrun : Scanner.Run n line Scanner.start s) (hrest : line.drop s.column = '%' :: cs)
    (hnext : ∀ c ∈ cs.head?, c ≠ '%' ∧ c ≠ '\x7b' ∧ c ≠ '\x7d') :
    let name := cs.takeWhile isNameChar
    let t : Token := ⟨.directive, String.ofList ('%' :: name), n, s.column, name.length + 1⟩
    (t ∈ scanLine n line ↔ String.ofList name ∈ directiveNames) ∧
      (String.ofList name ∈ directiveNames →
        s.step n line = some ⟨s.column + (name.length + 1), s.tokens ++ [t]⟩) ∧
      (String.ofList name ∉ directiveNames →
        s.step n line = some ⟨s.column + 1, s.tokens⟩ ∧
          ∀ u ∈ scanLine n line, u.column ≠ s.column) := by
  intro name t
  have hstep := Scanner.step_eq (n := n) hrest
  rw [Piece.first_percent hnext] at hstep
  have htaken : String.ofList name ∈ directiveNames →
      s.step n line = some ⟨s.column + (name.length + 1), s.tokens ++ [t]⟩ := by
    intro hname
    rw [if_pos hname] at hstep
    exact hstep
  have hdropped : String.ofList name ∉ directiveNames →
      s.step n line = some ⟨s.column + 1, s.tokens⟩ ∧
        ∀ u ∈ scanLine n line, u.column ≠ s.column := by
    intro hname
    rw [if_neg hname] at hstep
    have hpassed : Scanner.Run n line Scanner.start ⟨s.column + 1, s.tokens⟩ := hrun.tail hstep
    refine ⟨hstep, ?_⟩
    -- What was found before stands on the left of the sign, what is ahead on its right.
    intro u hu
    rw [hpassed.scanLine_eq] at hu
    rcases List.mem_append.mp hu with hu | hu
    · have hlt := hrun.behind u hu
      omega
    · have hle := le_column_of_mem_place hu
      simp only at hle
      omega
  refine ⟨⟨?_, ?_⟩, htaken, hdropped⟩
  · intro ht
    by_contra hname
    exact (hdropped hname).2 t ht rfl
  · intro hname
    have hpassed : Scanner.Run n line Scanner.start _ := hrun.tail (htaken hname)
    rw [hpassed.scanLine_eq]
    exact List.mem_append_left _ (List.mem_append_right _ (List.mem_singleton_self t))

/-- A directive right before the next percent sign, and a name that only starts like one. -/
def percentLine : List Char := "%prec%prec-x".toList

theorem percentLine_directives :
    (⟨.directive, "%prec", 0, 0, 5⟩ : Token) ∈ scanLine 0 percentLine ∧
      Scanner.Run 0 percentLine Scanner.start ⟨6, [⟨.directive, "%prec", 0, 0, 5⟩]⟩ ∧
      ∀ u ∈ scanLine 0 percentLine, u.column ≠ 5 := by
  have hletter : ∀ c ∈ some 'p', c ≠ '%' ∧ c ≠ '\x7b' ∧ c ≠ '\x7d' := by
    rintro c ⟨⟩
    decide
  obtain ⟨hfound, htaken, -⟩ := @directive_longest 0 percentLine ('p' :: "rec%prec-x".toList)
    Scanner.start .refl rfl hletter
  have hrun : Scanner.Run 0 percentLine Scanner.start ⟨5, [⟨.directive, "%prec", 0, 0, 5⟩]⟩ :=
    .tail .refl (htaken (by decide))
  obtain ⟨-, -, hdropped⟩ := @directive_longest 0 percentLine ('p' :: "rec-x".toList)
    _ hrun rfl hletter
  obtain ⟨hstep, hnone⟩ := hdropped (by decide)
  exact ⟨hfound.mpr (by decide), hrun.tail hstep, hnone⟩

/-! ### Line after line -/

theorem length_splitLines (cs : List Char) : (splitLines cs).length = cs.count '\n' + 1 := by
  induction cs with
  | nil => rfl
  | cons c cs ih =>
      by_cases hc : c = '\n'
      · rw [splitLines, if_pos hc, hc, List.count_cons_self, List.length_cons, ih]
      · obtain ⟨line, lines, hlines⟩ := List.exists_cons_of_ne_nil (splitLines_ne_nil cs)
        rw [splitLines, if_neg hc, hlines, List.count_cons_of_ne hc, ← ih, hlines]
        rfl

theorem line_lt_of_mem_words {text : String} {t : Token} (h : t ∈ words text) :
    t.line < text.toList.count '\n' + 1 := by
  rw [words_eq_scanLines] at h
  obtain ⟨line, hzero, hline, -⟩ := (scanLines_faithful text t h).slice
  obtain ⟨hlt, -⟩ := List.getElem?_eq_some_iff.mp hline
  rw [length_splitLines] at hlt
  omega

/-- A text above another one leaves the tokens of the other as they are, on lower lines.  The words
of both together are those of the first and then those of the second, the end mark is that of the
second, and what stands on the lines of the second is what the second is scanned as by itself,
whatever is left open above. -/
theorem scan_line_after_line (above below : String) :
    let lines := above.toList.count '\n' + 1
    words (above ++ "\n" ++ below) = words above ++ (words below).map (Token.lower lines) ∧
      (scan (above ++ "\n" ++ below)).filter (·.isEnd) =
        ((scan below).filter (·.isEnd)).map (Token.lower lines) ∧
      (scan (above ++ "\n" ++ below)).filter (fun t => (lines : Int) ≤ t.line) =
        (scan below).map (Token.lower lines) := by
  intro lines
  have hscan : scan (above ++ "\n" ++ below) =
      words above ++ (scan below).map (Token.lower lines) := by
    rw [scan_below, ← words_eq_scanLines, length_splitLines]
  have hkeep : ∀ {p : Token → Bool}, (∀ t, p (t.lower lines) = p t) →
      ((scan below).map (Token.lower lines)).filter p =
        ((scan below).filter p).map (Token.lower lines) := by
    intro p hp
    rw [List.filter_map]
    exact congrArg _ (List.filter_congr fun t _ => hp t)
  have hwords : ∀ t ∈ words above, (!t.isEnd) = true := fun t ht => (List.mem_filter.mp ht).2
  refine ⟨?_, ?_, ?_⟩
  · rw [words, hscan, List.filter_append, List.filter_eq_self.mpr hwords, hkeep fun _ => rfl]
    rfl
  · have hnone : (words above).filter (·.isEnd) = [] := by
      rw [List.filter_eq_nil_iff]
      intro t ht
      rw [Bool.not_eq_true, ← Bool.not_eq_true']
      exact hwords t ht
    rw [hscan, List.filter_append, hnone, hkeep fun _ => rfl]
    rfl
  · have hnone : (words above).filter (fun t => (lines : Int) ≤ t.line) = [] := by
      rw [List.filter_eq_nil_iff]
      intro t ht
      have hlt := line_lt_of_mem_words ht
      rw [decide_eq_true_eq]
      omega
    have hall : ∀ t ∈ (scan below).map (Token.lower lines),
        decide ((lines : Int) ≤ t.line) = true := by
      intro t ht
      obtain ⟨u, hu, rfl⟩ := List.mem_map.mp ht
      have hplaced := (placed_scan below u hu).line
      rw [decide_eq_true_eq, Token.lower]
      simp only
      omega
    rw [hscan, List.filter_append, hnone, List.filter_eq_self.mpr hall]
    rfl

end GrammarLens
