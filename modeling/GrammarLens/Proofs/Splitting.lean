import GrammarLens.Proofs.ScanSteps

/-! # How a line is split

What a step of the scan may take is said here apart from the scan.  A `Stretch` of a line is a token
that is spelled as its kind demands (`Token.Kind.Spells`) and does not break off a name, a comment
to its end (`CommentOf`), or one dropped character, which is blank or `Inert`: neither a token nor a
comment starts there.

Every step of a scanner is a stretch, and every stretch is the step that the scanner takes
(`Stretch.iff_step`).  So each line is split into stretches in one way only, and the tokens of this
split are the tokens of the line (`scan_loses_nothing`). -/

namespace GrammarLens

/-! ### Where a word stands first -/

theorem offsetOf?_least {word cs : List Char} {n : Nat} (h : offsetOf? word cs = some n) :
    ∀ i < n, ¬word <+: cs.drop i := by
  induction cs generalizing n with
  | nil =>
      unfold offsetOf? at h
      split at h
      · cases h
        exact fun i hi => absurd hi (Nat.not_lt_zero i)
      · cases h
  | cons c cs ih =>
      unfold offsetOf? at h
      split at h
      · cases h
        exact fun i hi => absurd hi (Nat.not_lt_zero i)
      · rename_i hhere
        obtain ⟨m, hm, rfl⟩ := Option.map_eq_some_iff.mp h
        intro i hi hprefix
        cases i with
        | zero => exact hhere (List.isPrefixOf_iff_prefix.mpr hprefix)
        | succ i => exact ih hm i (Nat.lt_of_succ_lt_succ hi) hprefix

theorem offsetOf?_eq_none_iff {word cs : List Char} :
    offsetOf? word cs = none ↔ ∀ i, ¬word <+: cs.drop i := by
  constructor
  · intro h
    induction cs with
    | nil =>
        intro i hi
        rw [List.drop_nil] at hi
        rw [List.prefix_nil.mp hi] at h
        cases h
    | cons c cs ih =>
        unfold offsetOf? at h
        split at h
        · cases h
        · rename_i hhere
          intro i hi
          cases i with
          | zero => exact hhere (List.isPrefixOf_iff_prefix.mpr hi)
          | succ i => exact ih (Option.map_eq_none_iff.mp h) i hi
  · intro h
    rw [Option.eq_none_iff_forall_ne_some]
    intro n hn
    exact h n (offsetOf?_eq_some hn)

theorem offsetOf?_eq_some_iff {word cs : List Char} {n : Nat} :
    offsetOf? word cs = some n ↔ word <+: cs.drop n ∧ ∀ i < n, ¬word <+: cs.drop i := by
  constructor
  · intro h
    exact ⟨offsetOf?_eq_some h, offsetOf?_least h⟩
  · rintro ⟨hhere, hfirst⟩
    cases hfound : offsetOf? word cs with
    | none => exact absurd hhere (offsetOf?_eq_none_iff.mp hfound n)
    | some m =>
        rcases Nat.lt_trichotomy m n with hlt | rfl | hlt
        · exact absurd (offsetOf?_eq_some hfound) (hfirst m hlt)
        · rfl
        · exact absurd hhere (offsetOf?_least hfound n hlt)

theorem singleton_prefix_drop_iff {a : Char} {cs : List Char} {i : Nat} :
    [a] <+: cs.drop i ↔ cs[i]? = some a := by
  rw [← List.head?_drop, List.head?_eq_some_iff]
  constructor
  · rintro ⟨rest, hrest⟩
    exact ⟨rest, hrest.symm⟩
  · rintro ⟨rest, hrest⟩
    exact ⟨rest, hrest.symm⟩

theorem offsetOf?_singleton_eq_none_iff {a : Char} {cs : List Char} :
    offsetOf? [a] cs = none ↔ a ∉ cs := by
  simp only [offsetOf?_eq_none_iff, singleton_prefix_drop_iff, List.mem_iff_getElem?, not_exists]

theorem not_mem_take_of_offsetOf? {a : Char} {cs : List Char} {n : Nat}
    (h : offsetOf? [a] cs = some n) : a ∉ cs.take n := by
  intro hmem
  obtain ⟨i, hi⟩ := List.mem_iff_getElem?.mp hmem
  rw [List.getElem?_take] at hi
  split at hi
  · rename_i hlt
    exact offsetOf?_least h i hlt (singleton_prefix_drop_iff.mpr hi)
  · cases hi

theorem offsetOf?_singleton_append {a : Char} {cs : List Char} (h : a ∉ cs) (rest : List Char) :
    offsetOf? [a] (cs ++ a :: rest) = some cs.length := by
  rw [offsetOf?_eq_some_iff, List.drop_left]
  refine ⟨⟨rest, rfl⟩, ?_⟩
  intro i hi hprefix
  rw [singleton_prefix_drop_iff, List.getElem?_append_left hi] at hprefix
  exact h (List.mem_of_getElem? hprefix)

/-! ### Where a literal ends -/

/-- Each `quote` behind the first character has a backslash right before it. -/
def Escaped (quote : Char) (cs : List Char) : Prop :=
  ∀ i, cs[i + 1]? = some quote → cs[i]? = some '\\'

theorem escaped_singleton (quote c : Char) : Escaped quote [c] := by
  intro i hi
  cases hi

theorem escaped_cons_iff {quote previous c : Char} {cs : List Char} :
    Escaped quote (previous :: c :: cs) ↔
      ¬(c = quote ∧ previous ≠ '\\') ∧ Escaped quote (c :: cs) := by
  constructor
  · intro h
    refine ⟨?_, fun i hi => h (i + 1) hi⟩
    rintro ⟨rfl, hprevious⟩
    exact hprevious (Option.some.inj (h 0 rfl))
  · rintro ⟨hhere, h⟩ i hi
    cases i with
    | zero =>
        have hc : c = quote := Option.some.inj hi
        by_contra hprevious
        exact hhere ⟨hc, fun heq => hprevious (congrArg some heq)⟩
    | succ i => exact h i hi

theorem literalLength?_eq_none_iff {quote previous : Char} {cs : List Char} :
    literalLength? quote previous cs = none ↔ Escaped quote (previous :: cs) := by
  induction cs generalizing previous with
  | nil => exact ⟨fun _ => escaped_singleton quote previous, fun _ => rfl⟩
  | cons c cs ih =>
      rw [escaped_cons_iff, literalLength?]
      split
      · rename_i hclose
        constructor
        · intro h
          cases h
        · exact fun h => absurd hclose h.1
      · rename_i hopen
        rw [Option.map_eq_none_iff, ih]
        exact ⟨fun h => ⟨hopen, h⟩, fun h => h.2⟩

/-- A literal ends with the first quote that has no backslash before it. -/
theorem literalLength?_eq_some_iff {quote previous : Char} {cs : List Char} {n : Nat} :
    literalLength? quote previous cs = some n ↔
      ∃ body rest, cs = body ++ quote :: rest ∧ n = body.length + 1 ∧
        Escaped quote (previous :: body) ∧ (previous :: body).getLast? ≠ some '\\' := by
  induction cs generalizing previous n with
  | nil =>
      constructor
      · intro h
        cases h
      · rintro ⟨body, rest, hcs, -⟩
        have hne := List.append_ne_nil_of_right_ne_nil body (List.cons_ne_nil quote rest)
        exact absurd hcs.symm hne
  | cons c cs ih =>
      rw [literalLength?]
      split
      · rename_i hclose
        obtain ⟨rfl, hprevious⟩ := hclose
        constructor
        · rintro ⟨⟩
          refine ⟨[], cs, rfl, rfl, escaped_singleton c previous, ?_⟩
          exact fun heq => hprevious (Option.some.inj heq)
        · rintro ⟨body, rest, hcs, hn, hescaped, -⟩
          cases body with
          | nil => rw [hn]; rfl
          | cons d body =>
              cases hcs
              exact absurd ⟨rfl, hprevious⟩ (escaped_cons_iff.mp hescaped).1
      · rename_i hopen
        rw [Option.map_eq_some_iff]
        constructor
        · rintro ⟨m, hm, rfl⟩
          obtain ⟨body, rest, rfl, rfl, hescaped, hlast⟩ := ih.mp hm
          refine ⟨c :: body, rest, rfl, rfl, escaped_cons_iff.mpr ⟨hopen, hescaped⟩, ?_⟩
          rw [List.getLast?_cons_cons]
          exact hlast
        · rintro ⟨body, rest, hcs, hn, hescaped, hlast⟩
          cases body with
          | nil =>
              cases hcs
              exact absurd ⟨rfl, fun heq => hlast (congrArg some heq)⟩ hopen
          | cons d body =>
              cases hcs
              rw [List.getLast?_cons_cons] at hlast
              have hmore := ih.mpr ⟨body, rest, rfl, rfl, (escaped_cons_iff.mp hescaped).2, hlast⟩
              exact ⟨body.length + 1, hmore, hn.symm⟩

/-! ### What a step may take -/

/-- A text in the quotes `quote`, of which only the last has no backslash before it. -/
def IsLiteral (quote : Char) (value : List Char) : Prop :=
  ∃ body, value = quote :: (body ++ [quote]) ∧ Escaped quote (quote :: body) ∧
    (quote :: body).getLast? ≠ some '\\'

/-- What a token of a kind can say before the characters `rest`.  Names and directives are not
broken off. -/
def Token.Kind.Spells (value rest : List Char) : Token.Kind → Prop
  | .separator => value = ['%', '%']
  | .prologueStart => value = ['%', '\x7b']
  | .prologueEnd => value = ['%', '\x7d']
  | .directive => startsInName rest = false ∧ ∃ name ∈ directiveNames, value = '%' :: name.toList
  | .identifier => startsInName rest = false ∧
      ∃ c cs, value = c :: cs ∧ isNameStart c = true ∧ ∀ d ∈ cs, isNameChar d = true
  | .string => IsLiteral '"' value
  | .character => IsLiteral '\'' value
  | .typeTag => '>' ∉ value
  | .special => ∃ c ∈ specialCharacters, value = [c]
  | .eof => False

/-- The rest of a line starts with a comment of a width: to the end of the line behind two slashes,
and else to the first mark that closes it, or to the end of the line if there is none. -/
inductive CommentOf : List Char → Nat → Prop
  | line (cs : List Char) : CommentOf ('/' :: '/' :: cs) (cs.length + 2)
  | block {cs : List Char} {i : Nat} (hclose : ['*', '/'] <+: cs.drop i)
      (hfirst : ∀ j < i, ¬['*', '/'] <+: cs.drop j) : CommentOf ('/' :: '*' :: cs) (i + 4)
  | unclosed {cs : List Char} (hnever : ∀ i, ¬['*', '/'] <+: cs.drop i) :
      CommentOf ('/' :: '*' :: cs) (cs.length + 2)

/-- Nothing starts with the character `c` before the characters `cs`: no name, no special character,
no literal or tag that closes, no separator, mark of a prologue or directive, and no comment. -/
structure Inert (c : Char) (cs : List Char) : Prop where
  letter : c.isAlpha = false ∧ c ≠ '_'
  special : c ∉ specialCharacters
  quote : c = '"' ∨ c = '\'' → Escaped c (c :: cs)
  angle : c = '<' → '>' ∉ cs
  percent : c = '%' → (∀ d ∈ cs.head?, d ≠ '%' ∧ d ≠ '\x7b' ∧ d ≠ '\x7d') ∧
    ∀ name ∈ directiveNames, ∀ rest, cs = name.toList ++ rest → startsInName rest = true
  slash : c = '/' → ∀ d ∈ cs.head?, d ≠ '/' ∧ d ≠ '*'

/-- A stretch of line `n`: a token that stands there and is spelled as its kind demands, a comment,
or a dropped character, which is blank or inert. -/
inductive Stretch (n : Nat) (line : List Char) : Scanner → Scanner → Prop
  | token {s : Scanner} {t : Token} (hline : t.line = n) (hcolumn : t.column = s.column)
      (hfaithful : t.FaithfulOn line)
      (hspells : t.kind.Spells t.value.toList (line.drop (s.column + t.length.toNat))) :
      Stretch n line s ⟨s.column + t.length.toNat, s.tokens ++ [t]⟩
  | comment {s : Scanner} {width : Nat} (h : CommentOf (line.drop s.column) width) :
      Stretch n line s ⟨s.column + width, s.tokens⟩
  | dropped {s : Scanner} {c : Char} {cs : List Char} (hrest : line.drop s.column = c :: cs)
      (h : isBlank c = true ∨ Inert c cs) : Stretch n line s ⟨s.column + 1, s.tokens⟩

/-! ### The scan takes what a step may take -/

/-- What follows a run of name characters does not go on with one. -/
theorem startsInName_drop_takeWhile (cs : List Char) :
    startsInName (cs.drop (cs.takeWhile isNameChar).length) = false := by
  have hsplit := cs.takeWhile_append_dropWhile (p := isNameChar)
  have hdrop : cs.drop (cs.takeWhile isNameChar).length = cs.dropWhile isNameChar :=
    calc cs.drop (cs.takeWhile isNameChar).length
      _ = (cs.takeWhile isNameChar ++ cs.dropWhile isNameChar).drop
            (cs.takeWhile isNameChar).length := by rw [hsplit]
      _ = cs.dropWhile isNameChar := List.drop_left
  rw [hdrop]
  exact startsInName_dropWhile cs

namespace Piece

/-- The piece is one that a step may take from a line that starts with `c` and goes on with
`cs`. -/
def Due (c : Char) (cs : List Char) : Piece → Prop
  | token kind value width => kind.Spells value ((c :: cs).drop width)
  | comment width => CommentOf (c :: cs) width
  | dropped _ => isBlank c = true ∨ Inert c cs

theorem afterSlash_due (cs : List Char) : (afterSlash cs).Due '/' cs := by
  unfold afterSlash
  split
  · exact .line _
  · split
    · rename_i n h
      exact .block (offsetOf?_eq_some h) (offsetOf?_least h)
    · rename_i h
      exact .unclosed (offsetOf?_eq_none_iff.mp h)
  · rename_i hline hblock
    refine Or.inr ⟨by decide, by decide, fun h => absurd h (by decide), nofun, nofun,
      fun _ d hd => ?_⟩
    obtain ⟨rest, rfl⟩ := List.head?_eq_some_iff.mp hd
    exact ⟨fun heq => hline rest (by rw [heq]), fun heq => hblock rest (by rw [heq])⟩

theorem afterPercent_due (cs : List Char) : (afterPercent cs).Due '%' cs := by
  unfold afterPercent
  split
  · rfl
  · rfl
  · rfl
  · rename_i hseparator hopen hclose
    split
    · rename_i name h
      obtain ⟨hname, hrun⟩ := directiveAt?_eq_some_iff.mp h
      refine ⟨?_, name, hname, rfl⟩
      rw [← hrun]
      exact startsInName_drop_takeWhile cs
    · rename_i h
      refine Or.inr ⟨by decide, by decide, fun h => absurd h (by decide), nofun,
        fun _ => ⟨?_, ?_⟩, nofun⟩
      · intro d hd
        obtain ⟨rest, rfl⟩ := List.head?_eq_some_iff.mp hd
        exact ⟨fun heq => hseparator rest (by rw [heq]), fun heq => hopen rest (by rw [heq]),
          fun heq => hclose rest (by rw [heq])⟩
      · -- A name that ended here would have been found.
        intro name hname rest hrest
        rw [← Bool.not_eq_false]
        intro hends
        have hrun : cs.takeWhile isNameChar = name.toList := by
          rw [hrest]
          exact takeWhile_name_append (isNameChar_of_mem_directiveNames name hname) hends
        rw [directiveAt?_eq_some_iff.mpr ⟨hname, hrun⟩] at h
        cases h

theorem afterQuote_due {quote : Char} (hquote : quote = '"' ∨ quote = '\'') (cs : List Char) :
    (afterQuote quote cs).Due quote cs := by
  unfold afterQuote
  split
  · rename_i n h
    obtain ⟨body, rest, rfl, rfl, hescaped, hlast⟩ := literalLength?_eq_some_iff.mp h
    have hliteral : IsLiteral quote (quote :: (body ++ quote :: rest).take (body.length + 1)) := by
      refine ⟨body, ?_, hescaped, hlast⟩
      rw [List.take_length_add_append]
      rfl
    rcases hquote with rfl | rfl
    · exact hliteral
    · exact hliteral
  · rename_i h
    have hescaped := literalLength?_eq_none_iff.mp h
    rcases hquote with rfl | rfl
    · exact Or.inr ⟨by decide, by decide, fun _ => hescaped, nofun, nofun, nofun⟩
    · exact Or.inr ⟨by decide, by decide, fun _ => hescaped, nofun, nofun, nofun⟩

theorem afterAngle_due (cs : List Char) : (afterAngle cs).Due '<' cs := by
  unfold afterAngle
  split
  · rename_i n h
    exact not_mem_take_of_offsetOf? h
  · rename_i h
    have hnone := offsetOf?_singleton_eq_none_iff.mp h
    exact Or.inr ⟨by decide, by decide, fun h => absurd h (by decide), fun _ => hnone, nofun, nofun⟩

theorem first_due (c : Char) (cs : List Char) : (first c cs).Due c cs := by
  unfold first
  split
  · rename_i hblank
    exact Or.inl hblank
  split
  · rename_i h
    rw [h]
    exact afterSlash_due cs
  rename_i hslash
  split
  · rename_i h
    rw [h]
    exact afterPercent_due cs
  rename_i hpercent
  split
  · rename_i hstart
    exact ⟨startsInName_drop_takeWhile cs, c, _, rfl, hstart,
      List.all_eq_true.mp List.all_takeWhile⟩
  rename_i hstart
  split
  · rename_i hquote
    exact afterQuote_due hquote cs
  rename_i hquote
  split
  · rename_i h
    rw [h]
    exact afterAngle_due cs
  rename_i hangle
  split
  · rename_i hspecial
    exact ⟨c, List.contains_iff_mem.mp hspecial, rfl⟩
  · -- All that something could start with has been asked for.
    rename_i hspecial
    rw [isNameStart, Bool.or_eq_true, not_or, beq_iff_eq, Bool.not_eq_true] at hstart
    refine Or.inr ⟨hstart, ?_, fun h => absurd h hquote, fun h => absurd h hangle,
      fun h => absurd h hpercent, fun h => absurd h hslash⟩
    exact fun hmem => hspecial (List.contains_iff_mem.mpr hmem)

end Piece

/-! ### A step may take nothing else -/

theorem Piece.first_of_mem_specialCharacters {c : Char} (h : c ∈ specialCharacters)
    (cs : List Char) : first c cs = plain .special [c] := by
  have hnone : specialCharacters.all fun c => decide (isBlank c = false ∧ c ≠ '/' ∧ c ≠ '%' ∧
      isNameStart c = false ∧ ¬(c = '"' ∨ c = '\'') ∧ c ≠ '<') := by decide
  obtain ⟨hblank, hslash, hpercent, hstart, hquote, hangle⟩ :=
    of_decide_eq_true (List.all_eq_true.mp hnone c h)
  rw [first, if_neg (Bool.eq_false_iff.mp hblank), if_neg hslash, if_neg hpercent,
    if_neg (Bool.eq_false_iff.mp hstart), if_neg hquote, if_neg hangle,
    if_pos (List.contains_iff_mem.mpr h)]

/-- No name goes on with a percent sign or a brace. -/
theorem ne_of_isNameChar {c : Char} (h : isNameChar c = true) :
    c ≠ '%' ∧ c ≠ '\x7b' ∧ c ≠ '\x7d' := by
  refine ⟨?_, ?_, ?_⟩ <;> rintro rfl <;> exact absurd h (by decide)

theorem IsLiteral.afterQuote {quote : Char} {value : List Char} (h : IsLiteral quote value)
    (rest : List Char) :
    ∃ cs, value ++ rest = quote :: cs ∧
      Piece.afterQuote quote cs =
        .plain (if quote = '"' then .string else .character) value := by
  obtain ⟨body, rfl, hescaped, hlast⟩ := h
  refine ⟨body ++ quote :: rest, by simp, ?_⟩
  have hfound := literalLength?_eq_some_iff.mpr ⟨body, rest, rfl, rfl, hescaped, hlast⟩
  have htake : (body ++ quote :: rest).take (body.length + 1) = body ++ [quote] := by
    rw [List.take_length_add_append]
    rfl
  simp only [Piece.afterQuote, hfound, htake]

/-- A token that is spelled as its kind demands is what the scan takes. -/
theorem Token.Kind.Spells.first {kind : Token.Kind} {value rest : List Char}
    (h : kind.Spells value rest) :
    ∃ c cs, spelling kind value ++ rest = c :: cs ∧
      Piece.first c cs = .token kind value (spelling kind value).length := by
  cases kind with
  | separator =>
      obtain rfl : value = _ := h
      exact ⟨_, _, rfl, rfl⟩
  | prologueStart =>
      obtain rfl : value = _ := h
      exact ⟨_, _, rfl, rfl⟩
  | prologueEnd =>
      obtain rfl : value = _ := h
      exact ⟨_, _, rfl, rfl⟩
  | directive =>
      obtain ⟨hends, name, hname, rfl⟩ := h
      refine ⟨'%', name.toList ++ rest, rfl, ?_⟩
      have hchars := isNameChar_of_mem_directiveNames name hname
      have hnext : ∀ c ∈ (name.toList ++ rest).head?, c ≠ '%' ∧ c ≠ '\x7b' ∧ c ≠ '\x7d' := by
        rw [List.head?_append_of_ne_nil _ (ne_nil_of_mem_directiveNames name hname)]
        exact fun c hc => ne_of_isNameChar (hchars c (List.mem_of_mem_head? hc))
      rw [Piece.first_percent hnext, takeWhile_name_append hchars hends, String.ofList_toList,
        if_pos hname]
      rfl
  | identifier =>
      obtain ⟨hends, c, cs, rfl, hstart, hchars⟩ := h
      refine ⟨c, cs ++ rest, rfl, ?_⟩
      rw [Piece.first_of_isNameStart hstart, takeWhile_name_append hchars hends]
      rfl
  | string =>
      obtain ⟨cs, hcs, hfirst⟩ := IsLiteral.afterQuote h rest
      exact ⟨_, cs, hcs, hfirst⟩
  | character =>
      obtain ⟨cs, hcs, hfirst⟩ := IsLiteral.afterQuote h rest
      exact ⟨_, cs, hcs, hfirst⟩
  | typeTag =>
      refine ⟨'<', value ++ '>' :: rest, by simp [spelling], ?_⟩
      have hfirst : Piece.first '<' (value ++ '>' :: rest) =
          Piece.afterAngle (value ++ '>' :: rest) := rfl
      rw [hfirst, Piece.afterAngle, offsetOf?_singleton_append h]
      simp [spelling]
  | special =>
      obtain ⟨c, hc, rfl⟩ := h
      exact ⟨c, rest, rfl, Piece.first_of_mem_specialCharacters hc rest⟩
  | eof => exact h.elim

theorem CommentOf.first {rest : List Char} {width : Nat} (h : CommentOf rest width) :
    ∃ c cs, rest = c :: cs ∧ Piece.first c cs = .comment width := by
  have hfirst : ∀ cs, Piece.first '/' cs = Piece.afterSlash cs := fun _ => rfl
  cases h with
  | line cs => exact ⟨_, _, rfl, rfl⟩
  | block hclose hleast =>
      refine ⟨_, _, rfl, ?_⟩
      rw [hfirst, Piece.afterSlash, offsetOf?_eq_some_iff.mpr ⟨hclose, hleast⟩]
  | unclosed hnever =>
      refine ⟨_, _, rfl, ?_⟩
      rw [hfirst, Piece.afterSlash, offsetOf?_eq_none_iff.mpr hnever]
      rfl

theorem Inert.first {c : Char} {cs : List Char} (h : Inert c cs) :
    Piece.first c cs = .dropped c := by
  unfold Piece.first
  split
  · rfl
  split
  · rename_i hslash
    rw [hslash]
    exact Piece.afterSlash_of_head (h.slash hslash)
  split
  · rename_i hpercent
    obtain ⟨hhead, hname⟩ := h.percent hpercent
    have hnone : directiveAt? cs = none := by
      rw [Option.eq_none_iff_forall_ne_some]
      intro name hfound
      obtain ⟨hmem, hrun⟩ := directiveAt?_eq_some_iff.mp hfound
      have hcs : cs = name.toList ++ cs.dropWhile isNameChar := by
        rw [← hrun, List.takeWhile_append_dropWhile]
      have hmore := hname name hmem _ hcs
      rw [startsInName_dropWhile] at hmore
      cases hmore
    rw [Piece.afterPercent_of_head hhead, hnone, hpercent]
    rfl
  split
  · rename_i hstart
    rw [isNameStart, h.letter.1, Bool.false_or, beq_iff_eq] at hstart
    exact absurd hstart h.letter.2
  split
  · rename_i hquote
    rw [Piece.afterQuote, literalLength?_eq_none_iff.mpr (h.quote hquote)]
  split
  · rename_i hangle
    rw [Piece.afterAngle, offsetOf?_singleton_eq_none_iff.mpr (h.angle hangle), hangle]
  split
  · rename_i hspecial
    exact absurd (List.contains_iff_mem.mp hspecial) h.special
  · rfl

/-! ### One way to split a line -/

section Stretches
variable {n : Nat} {line : List Char} {s s' : Scanner}

/-- A step takes one stretch. -/
theorem Stretch.of_step (h : s.step n line = some s') : Stretch n line s s' := by
  obtain ⟨c, cs, hrest, rfl⟩ := Scanner.step_cases h
  have hdue := Piece.first_due c cs
  have hfits := Piece.first_fits c cs
  cases hpiece : Piece.first c cs with
  | token kind value width =>
      rw [hpiece] at hdue hfits
      -- The token stands behind what the scanner has passed.
      have hlen := congrArg List.length hrest
      rw [List.length_drop, List.length_cons] at hlen
      have hbefore : (line.take s.column).length = s.column := List.length_take_of_le (by omega)
      have hfaithful : Token.FaithfulOn (line.take s.column ++ c :: cs)
          ⟨kind, String.ofList value, n, (line.take s.column).length, width⟩ := hfits.faithfulOn
      rw [hbefore, ← hrest, List.take_append_drop] at hfaithful
      refine Stretch.token (t := ⟨kind, String.ofList value, n, s.column, width⟩) rfl rfl
        hfaithful ?_
      rw [String.toList_ofList, Int.toNat_natCast, ← List.drop_drop, hrest]
      exact hdue
  | comment width =>
      rw [hpiece] at hdue
      have hcomment : CommentOf (line.drop s.column) width := by
        rw [hrest]
        exact hdue
      exact Stretch.comment hcomment
  | dropped d =>
      rw [hpiece] at hdue
      exact Stretch.dropped hrest hdue

/-- A token of a line stands between what comes before and after it. -/
theorem Token.FaithfulOn.drop_eq {t : Token} (h : t.FaithfulOn line) {column : Nat}
    (hcolumn : t.column = column) :
    line.drop column =
        spelling t.kind t.value.toList ++ line.drop (column + t.length.toNat) ∧
      (spelling t.kind t.value.toList).length = t.length.toNat := by
  have hstart : t.start.column = column := by
    rw [Token.start, hcolumn, Int.toNat_natCast]
  have hstop : column + t.length.toNat ≤ line.length := by
    have hle := h.stop_le
    rw [Token.stop, hcolumn, Int.toNat_natCast] at hle
    exact hle
  have hspelled := h.spelled
  rw [hstart] at hspelled
  constructor
  · rw [← hspelled, ← List.drop_drop, List.take_append_drop]
  · rw [← hspelled, List.length_take, List.length_drop]
    omega

/-- A stretch is what the scanner takes in one step. -/
theorem Stretch.step (h : Stretch n line s s') : s.step n line = some s' := by
  cases h with
  | token hline hcolumn hfaithful hspells =>
      rename_i t
      obtain ⟨hdrop, hlength⟩ := hfaithful.drop_eq hcolumn
      obtain ⟨c, cs, hrest, hfirst⟩ := hspells.first
      have hpositive := hfaithful.positive
      have ht : (⟨t.kind, String.ofList t.value.toList, n, s.column, t.length.toNat⟩ : Token) =
          t := by
        rw [String.ofList_toList, ← hline, ← hcolumn, Int.toNat_of_nonneg (by omega)]
      rw [Scanner.step_eq (hdrop.trans hrest), hfirst, hlength, Scanner.take, ht]
  | comment hcomment =>
      obtain ⟨c, cs, hrest, hfirst⟩ := hcomment.first
      rw [Scanner.step_eq hrest, hfirst, Scanner.take]
  | dropped hrest hdropped =>
      rename_i c cs
      have hfirst : Piece.first c cs = .dropped c := by
        rcases hdropped with hblank | hinert
        · exact if_pos hblank
        · exact hinert.first
      rw [Scanner.step_eq hrest, hfirst, Scanner.take]

theorem Stretch.iff_step : Stretch n line s s' ↔ s.step n line = some s' :=
  ⟨Stretch.step, Stretch.of_step⟩

/-- Stretch after stretch is what the scanner takes in a run. -/
theorem stretches_iff_run :
    Relation.ReflTransGen (Stretch n line) s s' ↔ Scanner.Run n line s s' := by
  have hsteps : Stretch n line = fun s s' => s.step n line = some s' := by
    funext s s'
    exact propext Stretch.iff_step
  rw [hsteps, Scanner.Run]

end Stretches

/-- A line is split from its first column to its end into tokens, comments and dropped characters in
one way only.  The tokens are those of the scan, and what is dropped is blank or inert. -/
theorem scan_loses_nothing (n : Nat) (line : List Char) (tokens : List Token) :
    Relation.ReflTransGen (Stretch n line) ⟨0, []⟩ ⟨line.length, tokens⟩ ↔
      tokens = scanLine n line := by
  rw [stretches_iff_run]
  constructor
  · intro h
    have hrun : Scanner.Run n line Scanner.start ⟨line.length, tokens⟩ := h
    have hahead : Scanner.ahead n line ⟨line.length, tokens⟩ = [] := by
      rw [Scanner.ahead, List.drop_length]
      rfl
    rw [hrun.scanLine_eq, hahead, List.append_nil]
  · rintro rfl
    exact Scanner.run_to_end n line

end GrammarLens
