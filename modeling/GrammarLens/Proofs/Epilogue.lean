import GrammarLens.Proofs.Definitions
import GrammarLens.Proofs.Locality
import GrammarLens.Proofs.Recovery

/-! # Text behind the epilogue

A text that ends in its epilogue can go on with further lines.  They are scanned behind the tokens
of the text (`scan_append`), and reading does not look at them, with one exception.  Among the
rules, a name may have an alias in square brackets, and to find out whether it starts a rule,
reading looks for the closing bracket and for a colon behind it, over any tokens on the way.  If the
text has no such bracket, or nothing behind it, then further lines can supply it, and the epilogue
becomes a part of the alias.

`openNames` lists the names for which this can happen.  The main statement,
`epilogue_ignored_iff`, is that they are the only obstacle: further lines never change the grammar
of a text if and only if there are none. -/

namespace GrammarLens

/-- The names with an open alias, as reading comes to them among the rules. -/
def openNames (place : Section) (ts : List Token) : List Token :=
  match ts with
  | [] => []
  | t :: rest =>
    if t.isEnd then []
    else if t.kind == .separator then openNames place.next rest
    else if place = .rules ∧ t.isName = true ∧ openAlias rest = true then
      t :: openNames place (readItem place t rest).2
    else openNames place (readItem place t rest).2
termination_by ts.length
decreasing_by
  · simp
  all_goals
    have := length_readItem_le place t rest
    simp only [List.length_cons]
    omega

theorem openNames_separator (place : Section) {t : Token} (rest : List Token)
    (hk : t.kind = .separator) : openNames place (t :: rest) = openNames place.next rest := by
  have hend : t.isEnd = false := Token.isEnd_of_kind hk (by decide)
  rw [openNames]
  simp only [hend, hk, Bool.false_eq_true, if_false, beq_self_eq_true, if_true]

theorem openNames_item (place : Section) {t : Token} (rest : List Token) (hend : t.isEnd = false)
    (hk : t.kind ≠ .separator) :
    openNames place (t :: rest) =
      if place = .rules ∧ t.isName = true ∧ openAlias rest = true then
        t :: openNames place (readItem place t rest).2
      else openNames place (readItem place t rest).2 := by
  rw [openNames]
  simp only [hend, beq_false_of_ne hk, Bool.false_eq_true, if_false]

theorem openAlias_of_closed {place : Section} {t : Token} {rest : List Token}
    (h : ¬ (place = .rules ∧ t.isName = true ∧ openAlias rest = true)) :
    place = .rules → t.isName = true → openAlias rest = false := by
  intro hplace hn
  exact Bool.eq_false_iff.mpr fun ho => h ⟨hplace, hn, ho⟩

theorem openNames_epilogue (ts : List Token) : openNames .epilogue ts = [] := by
  induction ts with
  | nil => rw [openNames]
  | cons t rest ih =>
      rw [openNames]
      split
      · rfl
      split
      · exact ih
      · simp only [reduceCtorEq, false_and, if_false]
        exact ih

/-! ### Texts that end in their epilogue -/

theorem readItems_of_separator (place : Section) {t : Token} (rest : List Token)
    (hk : t.kind = .separator) : readItems place (t :: rest) = readItems place.next rest := by
  have hend : t.isEnd = false := Token.isEnd_of_kind hk (by decide)
  rw [readItems]
  simp only [hend, hk, Bool.false_eq_true, if_false, beq_self_eq_true, if_true]

/-- Reading that ends in another section than it started in has not come to the end yet. -/
theorem exists_head_of_last_ne {place : Section} {ts : List Token}
    (h : (readItems place ts).2 ≠ place) : ∃ t rest, ts = t :: rest ∧ t.isEnd = false := by
  cases ts with
  | nil =>
      rw [readItems] at h
      exact absurd rfl h
  | cons t rest =>
      refine ⟨t, rest, rfl, Bool.eq_false_iff.mpr fun hend => ?_⟩
      rw [readItems, if_pos hend] at h
      exact absurd rfl h

/-- The words that an item leaves before the end mark. -/
theorem exists_words_of_readItem {place : Section} {t e : Token} {xs : List Token}
    (he : e.isEnd = true)
    (hlast : (readItems place (readItem place t (xs ++ [e])).2).2 ≠ place) :
    ∃ ys, (readItem place t (xs ++ [e])).2 = ys ++ [e] ∧ ys ≠ [] ∧ ys <:+ xs := by
  obtain ⟨y, rest, hleft, hy⟩ := exists_head_of_last_ne hlast
  have hsuffix := readItem_suffix place t (xs ++ [e])
  rcases List.suffix_concat_iff.mp hsuffix with hnil | ⟨ys, hys, hsub⟩
  · rw [hnil] at hleft
    cases hleft
  · refine ⟨ys, hys, ?_, hsub⟩
    rintro rfl
    rw [hys] at hleft
    obtain ⟨rfl, -⟩ := List.cons.inj hleft
    rw [he] at hy
    cases hy

/-- A text that ends in its epilogue is read over separators, and over items with words behind
them. -/
theorem epilogue_induction {e : Token} (he : e.isEnd = true)
    {motive : Section → List Token → Prop} (epilogue : ∀ xs, motive .epilogue xs)
    (separator : ∀ place t xs, t.kind = .separator → motive place.next xs →
      motive place (t :: xs))
    (item : ∀ place t xs ys, t.kind ≠ .separator → (∀ u ∈ t :: xs, u.isEnd = false) →
      (readItem place t (xs ++ [e])).2 = ys ++ [e] → ys ≠ [] → motive place ys →
      motive place (t :: xs))
    (place : Section) (xs : List Token) (hwords : ∀ u ∈ xs, u.isEnd = false)
    (hlast : (readItems place (xs ++ [e])).2 = .epilogue) : motive place xs := by
  induction hn : xs.length using Nat.strongRecOn generalizing place xs with
  | ind n ih =>
      by_cases hplace : place = .epilogue
      · rw [hplace]
        exact epilogue xs
      have hne : (readItems place (xs ++ [e])).2 ≠ place := by
        rw [hlast]
        exact Ne.symm hplace
      cases xs with
      | nil =>
          rw [List.nil_append, readItems, if_pos he] at hne
          exact absurd rfl hne
      | cons t xs =>
          have hend : t.isEnd = false := hwords t List.mem_cons_self
          have hrest : ∀ u ∈ xs, u.isEnd = false :=
            fun u hu => hwords u (List.mem_cons_of_mem t hu)
          rw [List.cons_append] at hlast hne
          rw [List.length_cons] at hn
          by_cases hk : t.kind = .separator
          · rw [readItems_of_separator place _ hk] at hlast
            exact separator place t xs hk (ih xs.length (by omega) place.next xs hrest hlast rfl)
          · have hread : readItems place (t :: (xs ++ [e])) =
                prependItems (readItem place t (xs ++ [e])).1
                  (readItems place (readItem place t (xs ++ [e])).2) :=
              Written.readItems_cons place hend hk rfl
            rw [hread] at hlast hne
            simp only [prependItems] at hlast hne
            obtain ⟨ys, hys, hnil, hsub⟩ := exists_words_of_readItem he hne
            rw [hys] at hlast
            have hlen := hsub.length_le
            exact item place t xs ys hk hwords hys hnil
              (ih ys.length (by omega) place ys (fun u hu => hrest u (hsub.subset hu)) hlast rfl)

/-- Without open names, the tokens behind the words do not matter. -/
theorem readItems_extend {e : Token} (he : e.isEnd = true) {more : List Token}
    (hmore : Machine.Ends more) (place : Section) (xs : List Token)
    (hwords : ∀ u ∈ xs, u.isEnd = false)
    (hlast : (readItems place (xs ++ [e])).2 = .epilogue) :
    openNames place (xs ++ [e]) = [] →
      readItems place (xs ++ more) = readItems place (xs ++ [e]) := by
  refine epilogue_induction he (motive := fun place xs => openNames place (xs ++ [e]) = [] →
    readItems place (xs ++ more) = readItems place (xs ++ [e])) ?_ ?_ ?_ place xs hwords hlast
  · intro xs _
    rw [Written.readItems_epilogue, Written.readItems_epilogue]
  · intro place t xs hk ih hopen
    rw [List.cons_append, openNames_separator place _ hk] at hopen
    rw [List.cons_append, List.cons_append, readItems_of_separator place _ hk,
      readItems_of_separator place _ hk]
    exact ih hopen
  · intro place t xs ys hk hwords hys hnil ih hopen
    have hend : t.isEnd = false := hwords t List.mem_cons_self
    rw [List.cons_append, openNames_item place _ hend hk] at hopen
    split at hopen
    · cases hopen
    · rename_i hclosed
      have hlocal := readItem_local hwords he hmore hys hnil (openAlias_of_closed hclosed)
      have hown : readItem place t (xs ++ [e]) = ((readItem place t (xs ++ [e])).1, ys ++ [e]) :=
        Prod.ext rfl hys
      rw [hys] at hopen
      rw [List.cons_append, List.cons_append, Written.readItems_cons place hend hk hlocal,
        Written.readItems_cons place hend hk hown, ih hopen]

/-! ### Lines that close an alias -/

/-- An open alias is followed by a colon alone if the input goes on with a colon, or with a closing
bracket and a colon. -/
theorem exists_afterAlias_eq {b e : Token} {zs : List Token} (hb : b.isSpecial "[" = true)
    (hwords : ∀ u ∈ zs, u.isEnd = false) (hopen : openAlias (b :: zs ++ [e]) = true) :
    ∃ text ∈ ["] :", ":"], ∀ n e', ∃ colon : Token, colon.isSpecial ":" = true ∧
      afterAlias (b :: zs ++ (scanLines n (splitLines text.toList) ++ [e'])) = [colon, e'] := by
  have hafter : ∀ more, afterAlias (b :: zs ++ more) =
      ((zs ++ more).dropWhile (·.value != "]")).drop 1 := by
    intro more
    rw [List.cons_append, afterAlias, if_pos hb]
  cases hclose : zs.dropWhile (·.value != "]") with
  | nil =>
      refine ⟨"] :", by simp, fun n e' =>
        ⟨(Written.Place.mk n 2 1).mark ":", Written.isSpecial_mark _ (by decide), ?_⟩⟩
      have hscan : scanLines n (splitLines "] :".toList) =
          [(Written.Place.mk n 0 1).mark "]", (Written.Place.mk n 2 1).mark ":"] := rfl
      rw [hafter, hscan, List.dropWhile_append, hclose]
      rfl
  | cons close back =>
      refine ⟨":", by simp, fun n e' =>
        ⟨(Written.Place.mk n 0 1).mark ":", Written.isSpecial_mark _ (by decide), ?_⟩⟩
      have hscan : scanLines n (splitLines ":".toList) = [(Written.Place.mk n 0 1).mark ":"] := rfl
      -- Nothing stands behind the closing bracket, or the alias would not be open.
      have hback : back = [] := by
        cases back with
        | nil => rfl
        | cons u back =>
            have hall := (Bool.and_eq_true_iff.mp hopen).2
            rw [hafter, List.dropWhile_append, hclose] at hall
            have hu : u ∈ zs.dropWhile (·.value != "]") := by simp [hclose]
            have hend : u.isEnd = true := hall
            rw [hwords u ((List.dropWhile_suffix _).subset hu)] at hend
            cases hend
      rw [hafter, hscan, List.dropWhile_append, hclose, hback]
      rfl

/-- A colon at the end of the input makes a rule of a name. -/
theorem readItem_of_colon {t colon e : Token} {rest : List Token} (hn : t.isName = true)
    (hcolon : colon.isSpecial ":" = true) (he : e.isEnd = true)
    (h : afterAlias rest = [colon, e]) :
    readItem .rules t rest = ([.rule ⟨t, t, none, none, some ⟨[], colon⟩⟩], [e]) := by
  have hk : t.kind = .identifier := eq_of_beq hn
  have hbody : readBody colon [e] = ([], ⟨colon, [e]⟩) := by rw [readBody, if_pos he]
  simp [readItem, readRule, hk, hn, h, body?, hcolon, hbody]

/-- With an open name, some line turns the epilogue into a part of an alias. -/
theorem exists_extension {e : Token} (he : e.isEnd = true) (place : Section) (xs : List Token)
    (hwords : ∀ u ∈ xs, u.isEnd = false)
    (hlast : (readItems place (xs ++ [e])).2 = .epilogue) :
    openNames place (xs ++ [e]) ≠ [] →
      ∃ text ∈ ["] :", ":"], ∀ n e', e'.isEnd = true →
        (readItems place (xs ++ (scanLines n (splitLines text.toList) ++ [e']))).2 = .rules := by
  refine epilogue_induction he (motive := fun place xs => openNames place (xs ++ [e]) ≠ [] →
    ∃ text ∈ ["] :", ":"], ∀ n e', e'.isEnd = true →
      (readItems place (xs ++ (scanLines n (splitLines text.toList) ++ [e']))).2 = .rules)
    ?_ ?_ ?_ place xs hwords hlast
  · intro xs hopen
    exact absurd (openNames_epilogue _) hopen
  · intro place t xs hk ih hopen
    rw [List.cons_append, openNames_separator place _ hk] at hopen
    obtain ⟨text, htext, hread⟩ := ih hopen
    refine ⟨text, htext, fun n e' he' => ?_⟩
    rw [List.cons_append, readItems_of_separator place _ hk]
    exact hread n e' he'
  · intro place t xs ys hk hwords hys hnil ih hopen
    have hend : t.isEnd = false := hwords t List.mem_cons_self
    rw [List.cons_append, openNames_item place _ hend hk] at hopen
    split at hopen
    · rename_i hname
      obtain ⟨rfl, hn, halias⟩ := hname
      have hxs : xs ≠ [] := by
        rintro rfl
        simp [openAlias, Token.isSpecial_of_isEnd he] at halias
      obtain ⟨b, zs, rfl⟩ := List.exists_cons_of_ne_nil hxs
      have hb : b.isSpecial "[" = true := (Bool.and_eq_true_iff.mp halias).1
      obtain ⟨text, htext, hafter⟩ := exists_afterAlias_eq hb
        (fun u hu => hwords u (by simp [hu])) halias
      refine ⟨text, htext, fun n e' he' => ?_⟩
      obtain ⟨colon, hcolon, heq⟩ := hafter n e'
      have hread := readItem_of_colon hn hcolon he' heq
      rw [List.cons_append, Written.readItems_cons .rules hend hk hread, prependItems, readItems,
        if_pos he']
    · rename_i hclosed
      rw [hys] at hopen
      obtain ⟨text, htext, hread⟩ := ih hopen
      refine ⟨text, htext, fun n e' he' => ?_⟩
      have hends : Machine.Ends (scanLines n (splitLines text.toList) ++ [e']) := ⟨_, e', rfl, he'⟩
      have hlocal := readItem_local hwords he hends hys hnil (openAlias_of_closed hclosed)
      rw [List.cons_append, Written.readItems_cons place hend hk hlocal]
      exact hread n e' he'

/-! ### Further lines of a text -/

/-- Further lines leave the words of a text where they are. -/
theorem scan_append (text more : String) :
    ∃ e, e.isEnd = true ∧ scan (text ++ "\n" ++ more) =
      scanLines 0 (splitLines text.toList) ++
        (scanLines (splitLines text.toList).length (splitLines more.toList) ++ [e]) := by
  have hsplit : splitLines (text ++ "\n" ++ more).toList =
      splitLines text.toList ++ splitLines more.toList := by
    rw [← splitLines_append]
    simp
  refine ⟨endToken (splitLines text.toList ++ splitLines more.toList), rfl, ?_⟩
  rw [scan, hsplit, scanLines_append, Nat.zero_add, List.append_assoc]

/-- Further lines behind a text that ends in its epilogue never change its grammar, if and only if
reading meets no name with an open alias among the rules. -/
theorem epilogue_ignored_iff (text : String) (g : Grammar) (hg : Grammar.ofText text = .ok g)
    (hlast : g.lastSection = .epilogue) :
    (∀ more : String, Grammar.ofText (text ++ "\n" ++ more) = .ok g) ↔
      openNames .declarations (scan text) = [] := by
  have hread := hg
  rw [ofText_eq_run] at hread
  obtain rfl := Except.ok.inj hread
  have hwords := words_isEnd text
  constructor
  · intro hsame
    by_contra hopen
    obtain ⟨more, -, hrules⟩ := exists_extension rfl .declarations _ hwords hlast hopen
    obtain ⟨e, he, hscan⟩ := scan_append text more
    have hmore := hsame more
    rw [ofText_eq_run, Except.ok.injEq] at hmore
    have hsection := congrArg Grammar.lastSection hmore
    rw [hlast] at hsection
    simp only [hscan, hrules _ e he] at hsection
    cases hsection
  · intro hopen more
    obtain ⟨e, he, hscan⟩ := scan_append text more
    have hends : Machine.Ends
        (scanLines (splitLines text.toList).length (splitLines more.toList) ++ [e]) :=
      ⟨_, e, rfl, he⟩
    have hextend := readItems_extend rfl hends .declarations _ hwords hlast hopen
    rw [ofText_eq_run, hscan, hextend]
    rfl

/-- A rule whose alias is closed, and an epilogue that breaks off in square brackets. -/
def closedAliasText : String := "%%\nsum [s] : part ;\n%%\nint main["

theorem closedAliasText_epilogue_ignored :
    openNames .declarations (scan closedAliasText) = [] ∧
      ∃ g, Grammar.ofText closedAliasText = .ok g ∧ g.lastSection = .epilogue ∧
        g.table.symbols.map Symbol.name = ["sum", "part"] ∧
        ∀ more : String, Grammar.ofText (closedAliasText ++ "\n" ++ more) = .ok g := by
  have hopen : openNames .declarations (scan closedAliasText) = [] := by decide +kernel
  have hread : (Grammar.ofText closedAliasText).toOption.all fun g =>
      g.lastSection = .epilogue ∧ g.table.symbols.map Symbol.name = ["sum", "part"] := by
    decide +kernel
  refine ⟨hopen, _, ofText_eq_run closedAliasText, ?_⟩
  rw [ofText_eq_run] at hread
  obtain ⟨hlast, hnames⟩ := of_decide_eq_true hread
  exact ⟨hlast, hnames, (epilogue_ignored_iff _ _ (ofText_eq_run _) hlast).mpr hopen⟩

/-- An alias that is open at the end of the rules takes in the epilogue, once a line behind closes
it: the further line changes the grammar. -/
theorem epilogue_in_open_alias :
    ¬ ∀ (text more : String) (g : Grammar), Grammar.ofText text = .ok g →
      g.lastSection = .epilogue → Grammar.ofText (text ++ "\n" ++ more) = .ok g := by
  intro h
  have hlast : (Grammar.ofText "%%\na [\n%%").toOption.all fun g =>
      g.lastSection = .epilogue := by decide +kernel
  have hmore : (Grammar.ofText ("%%\na [\n%%" ++ "\n" ++ "] : b ;")).toOption.all fun g =>
      g.lastSection = .rules := by decide +kernel
  rw [ofText_eq_run] at hlast
  have hsame := h _ "] : b ;" _ (ofText_eq_run "%%\na [\n%%") (of_decide_eq_true hlast)
  rw [hsame] at hmore
  exact absurd ((of_decide_eq_true hlast).symm.trans (of_decide_eq_true hmore)) (by decide)

end GrammarLens
