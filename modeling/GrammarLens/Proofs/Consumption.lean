import GrammarLens.Item.Read
import GrammarLens.Proofs.Operations
import Mathlib.Data.List.Perm.Subperm

/-! # What reading consumes

Reading goes forward over a token list and hands each token to at most one item.  `Cursor.After`
says which tokens lie behind a cursor and that the token read last is the last of them.  Uses and
items are related to the stretch of tokens they were read from: `UsesFrom` for the uses in a body,
`Item.From` for one item, `Reads` for a list of items, each of which has a stretch of its own.  The
main result is `reads_readItems`: whatever the tokens are, the items of `readItems` are read from
them in this sense.

What is said of uses and their tokens is proved by the rules of `BuiltUp`, one for each way in which
reading a body adds to its uses (`BuiltUp.of_readBody`). -/

namespace GrammarLens

/-! ### Kinds of tokens -/

theorem Token.isSpecial_of_kind {t : Token} {k : Token.Kind} {chars : String} (h : t.kind = k)
    (hk : k ≠ .special) : t.isSpecial chars = false := by
  rw [Token.isSpecial, h, beq_false_of_ne hk, Bool.false_and]

theorem Token.isEnd_of_kind {t : Token} {k : Token.Kind} (h : t.kind = k) (hk : k ≠ .eof) :
    t.isEnd = false := by
  rw [Token.isEnd, h]
  exact beq_false_of_ne hk

theorem Token.isEnd_of_isSpecial {t : Token} {chars : String} (h : t.isSpecial chars = true) :
    t.isEnd = false :=
  Token.isEnd_of_kind (eq_of_beq (Bool.and_eq_true_iff.mp h).1) (by decide)

theorem Token.isSpecial_of_isEnd {t : Token} {chars : String} (h : t.isEnd = true) :
    t.isSpecial chars = false := by
  refine Bool.eq_false_iff.mpr fun hs => ?_
  rw [Token.isEnd_of_isSpecial hs] at h
  exact Bool.noConfusion h

theorem Token.isEnd_of_endsList {t : Token} (h : t.endsList = false) : t.isEnd = false := by
  unfold Token.endsList at h
  simp only [Bool.or_eq_false_iff] at h
  exact h.1.1.1

theorem Token.isEnd_of_isName {t : Token} (h : t.isName = true) : t.isEnd = false :=
  Token.isEnd_of_kind (eq_of_beq h) (by decide)

/-! ### Cursors -/

/-- The cursor stands behind the tokens `taken` of `ts`, with `last` read before them. -/
structure Cursor.After (last : Token) (ts taken : List Token) (c : Cursor) : Prop where
  split : ts = taken ++ c.rest
  last_eq : c.last = taken.getLastD last

theorem getLastD_append {α : Type} (a : α) (l l' : List α) :
    (l ++ l').getLastD a = l'.getLastD (l.getLastD a) := by
  induction l generalizing a with
  | nil => rfl
  | cons b l ih => rw [List.cons_append, List.getLastD_cons, List.getLastD_cons, ih]

namespace Cursor.After

theorem refl (last : Token) (ts : List Token) : Cursor.After last ts [] ⟨last, ts⟩ := ⟨rfl, rfl⟩

theorem cons {last t : Token} {ts taken : List Token} {c : Cursor} (h : Cursor.After t ts taken c) :
    Cursor.After last (t :: ts) (t :: taken) c :=
  ⟨by rw [h.split, List.cons_append], by rw [h.last_eq, List.getLastD_cons]⟩

theorem trans {last : Token} {ts taken taken' : List Token} {c d : Cursor}
    (h : Cursor.After last ts taken c) (h' : Cursor.After c.last c.rest taken' d) :
    Cursor.After last ts (taken ++ taken') d :=
  ⟨by rw [List.append_assoc, ← h'.split, ← h.split],
    by rw [h'.last_eq, h.last_eq, getLastD_append]⟩

theorem last_mem {last : Token} {ts taken : List Token} {c : Cursor}
    (h : Cursor.After last ts taken c) : c.last ∈ last :: taken := by
  rw [h.last_eq]
  exact List.getLastD_mem_cons

end Cursor.After

/-! ### Steps over tokens -/

theorem skipThrough_after (closes : Token → Bool) (last : Token) (ts : List Token) :
    ∃ taken, Cursor.After last ts taken (skipThrough closes last ts) := by
  induction ts generalizing last with
  | nil => exact ⟨[], .refl last []⟩
  | cons t rest ih =>
      unfold skipThrough
      split
      · exact ⟨[], .refl last (t :: rest)⟩
      · split
        · exact ⟨[t], (Cursor.After.refl t rest).cons⟩
        · obtain ⟨taken, h⟩ := ih t
          exact ⟨t :: taken, h.cons⟩

theorem skipBalanced_after (opening closing : String) (depth : Nat) (last : Token)
    (ts : List Token) :
    ∃ taken, Cursor.After last ts taken (skipBalanced opening closing depth last ts) := by
  induction ts generalizing depth last with
  | nil => exact ⟨[], .refl last []⟩
  | cons t rest ih =>
      have step : ∀ d, ∃ taken,
          Cursor.After last (t :: rest) taken (skipBalanced opening closing d t rest) := by
        intro d
        obtain ⟨taken, h⟩ := ih d t
        exact ⟨t :: taken, h.cons⟩
      unfold skipBalanced
      split
      · exact ⟨[], .refl last (t :: rest)⟩
      · split
        · exact step _
        · split
          · split
            · exact ⟨[t], (Cursor.After.refl t rest).cons⟩
            · exact step _
          · exact step _

namespace Cursor

theorem skipIf_after (fits : Token → Bool) (c : Cursor) :
    ∃ taken, Cursor.After c.last c.rest taken (c.skipIf fits) := by
  obtain ⟨last, ts⟩ := c
  cases ts with
  | nil => exact ⟨[], .refl last []⟩
  | cons t rest =>
      unfold skipIf
      simp only
      split
      · exact ⟨[t], (After.refl t rest).cons⟩
      · exact ⟨[], .refl last (t :: rest)⟩

theorem skipAlias_after (c : Cursor) : ∃ taken, Cursor.After c.last c.rest taken c.skipAlias := by
  obtain ⟨last, ts⟩ := c
  cases ts with
  | nil => exact ⟨[], .refl last []⟩
  | cons t rest =>
      unfold skipAlias
      simp only
      split
      · obtain ⟨taken, h⟩ := skipThrough_after (·.isSpecial "]") t rest
        exact ⟨t :: taken, h.cons⟩
      · exact ⟨[], .refl last (t :: rest)⟩

/-- What may follow a name in a body is stepped over. -/
theorem skipAlias_skipSuffix_after (c : Cursor) :
    ∃ taken, Cursor.After c.last c.rest taken c.skipAlias.skipSuffix := by
  obtain ⟨taken, h⟩ := c.skipAlias_after
  obtain ⟨taken', h'⟩ := skipIf_after (·.isSpecial "?*+") c.skipAlias
  exact ⟨taken ++ taken', h.trans h'⟩

end Cursor

/-! ### The arguments of a call, case by case -/

/-- A token list that does not go on with an opening parenthesis. -/
def NoCall (ts : List Token) : Prop := ∀ t ∈ ts.head?, t.isSpecial "(" = false

theorem arguments_nil (last : Token) : arguments last [] = .stop ⟨last, []⟩ := by
  rw [arguments]

theorem arguments_name {last t : Token} {rest : List Token} (he : t.isEnd = false)
    (hc : t.isSpecial ")" = false) (ho : t.isSpecial "(" = false) (hn : t.isName = true)
    (hr : NoCall rest) : arguments last (t :: rest) = .consName t (arguments t rest) := by
  rw [arguments.eq_def]
  simp only [he, hc, ho, hn, Bool.false_eq_true, if_false, if_true]
  cases rest with
  | nil => rw [arguments_nil]
  | cons next after => simp only [hr next rfl, Bool.false_eq_true, if_false]

theorem arguments_call {last t next : Token} {after : List Token} (he : t.isEnd = false)
    (hc : t.isSpecial ")" = false) (ho : t.isSpecial "(" = false) (hn : t.isName = true)
    (hr : next.isSpecial "(" = true) :
    arguments last (t :: next :: after) =
      .consCall t (arguments next after)
        (arguments (arguments next after).cursor.last (arguments next after).cursor.rest) := by
  rw [arguments]
  simp only [he, hc, ho, hn, hr, Bool.false_eq_true, if_false, if_true]
  exact if_pos (length_arguments_le next after)

theorem arguments_close (last : Token) {t : Token} (rest : List Token) (hc : t.isSpecial ")" = true) :
    arguments last (t :: rest) = .stop ⟨t, rest⟩ := by
  rw [arguments.eq_def]
  simp only [Token.isEnd_of_isSpecial hc, hc, Bool.false_eq_true, if_false, if_true]

theorem arguments_end (last : Token) {t : Token} (rest : List Token) (he : t.isEnd = true) :
    arguments last (t :: rest) = .stop ⟨last, t :: rest⟩ := by
  rw [arguments.eq_def]
  simp only [he, if_true]

theorem arguments_group (last : Token) {t : Token} (rest : List Token)
    (hc : t.isSpecial ")" = false) (ho : t.isSpecial "(" = true) :
    arguments last (t :: rest) =
      arguments (skipBalanced "(" ")" 1 t rest).last (skipBalanced "(" ")" 1 t rest).rest := by
  rw [arguments.eq_def]
  simp only [Token.isEnd_of_isSpecial ho, hc, ho, Bool.false_eq_true, if_false, if_true]

theorem arguments_literal (last : Token) {t : Token} (rest : List Token) (hk : t.kind = .character) :
    arguments last (t :: rest) = .consLiteral t (arguments t rest) := by
  have hs (chars : String) : t.isSpecial chars = false := Token.isSpecial_of_kind hk (by decide)
  rw [arguments.eq_def]
  simp only [Token.isEnd, Token.isName, hs, hk, Bool.false_eq_true, if_false]
  rfl

theorem arguments_other (last : Token) {t : Token} (rest : List Token) (he : t.isEnd = false)
    (hc : t.isSpecial ")" = false) (ho : t.isSpecial "(" = false) (hn : t.isName = false)
    (hk : t.kind ≠ .character) : arguments last (t :: rest) = arguments t rest := by
  rw [arguments.eq_def]
  simp only [he, hc, ho, hn, beq_false_of_ne hk, Bool.false_eq_true, if_false]

/-- The arguments of a call are read by one of eight rules.  The test on lengths in the definition
of `arguments` is gone, because it always succeeds. -/
theorem arguments_induction {motive : Token → List Token → Arguments → Prop}
    (nil : ∀ last, motive last [] (.stop ⟨last, []⟩))
    (stop : ∀ last t rest, t.isEnd = true → motive last (t :: rest) (.stop ⟨last, t :: rest⟩))
    (close : ∀ last t rest, t.isEnd = false → t.isSpecial ")" = true →
      motive last (t :: rest) (.stop ⟨t, rest⟩))
    (group : ∀ last t rest read, t.isEnd = false → t.isSpecial ")" = false →
      t.isSpecial "(" = true →
      motive (skipBalanced "(" ")" 1 t rest).last (skipBalanced "(" ")" 1 t rest).rest read →
      motive last (t :: rest) read)
    (name : ∀ last t rest read, t.isEnd = false → t.isSpecial ")" = false →
      t.isSpecial "(" = false → t.isName = true → NoCall rest → motive t rest read →
      motive last (t :: rest) (.consName t read))
    (call : ∀ last t next after inner outer, t.isEnd = false → t.isSpecial ")" = false →
      t.isSpecial "(" = false → t.isName = true → next.isSpecial "(" = true →
      motive next after inner → motive inner.cursor.last inner.cursor.rest outer →
      motive last (t :: next :: after) (.consCall t inner outer))
    (literal : ∀ last t rest read, t.isEnd = false → t.isSpecial ")" = false →
      t.isSpecial "(" = false → t.isName = false → t.kind = .character → motive t rest read →
      motive last (t :: rest) (.consLiteral t read))
    (other : ∀ last t rest read, t.isEnd = false → t.isSpecial ")" = false →
      t.isSpecial "(" = false → t.isName = false → t.kind ≠ .character → motive t rest read →
      motive last (t :: rest) read)
    (last : Token) (ts : List Token) : motive last ts (arguments last ts) := by
  fun_induction arguments last ts with
  | case1 last => exact nil last
  | case2 last t rest he => exact stop last t rest he
  | case3 last t rest he hc => exact close last t rest (by simpa using he) hc
  | case4 last t rest he hc ho ih =>
      exact group last t rest _ (by simpa using he) (by simpa using hc) ho ih
  | case5 last t he hc ho hn =>
      exact name last t [] _ (by simpa using he) (by simpa using hc) (by simpa using ho) hn
        (fun _ h => by cases h) (nil t)
  | case6 last t he hc ho hn next after hr names uses close outer eq _ ih ih' =>
      rw [eq] at ih
      exact call last t next after _ _ (by simpa using he) (by simpa using hc) (by simpa using ho)
        hn hr ih ih'
  | case7 last t he hc ho hn next after hr names uses close outer eq hle ih =>
      have := length_arguments_le next after
      rw [eq] at this
      exact absurd this hle
  | case8 last t he hc ho hn next after hr ih =>
      refine name last t (next :: after) _ (by simpa using he) (by simpa using hc)
        (by simpa using ho) hn ?_ ih
      rintro u ⟨⟩
      simpa using hr
  | case9 last t rest he hc ho hn hk ih =>
      exact literal last t rest _ (by simpa using he) (by simpa using hc) (by simpa using ho)
        (by simpa using hn) (by simpa using hk) ih
  | case10 last t rest he hc ho hn hk ih =>
      exact other last t rest _ (by simpa using he) (by simpa using hc) (by simpa using ho)
        (by simpa using hn) (by simpa using hk) ih

theorem element_name {t : Token} {rest : List Token} (hn : t.isName = true) (hr : NoCall rest) :
    element t rest = ([.name t], (Cursor.mk t rest).skipAlias.skipSuffix) := by
  have hk : t.kind = .identifier := eq_of_beq hn
  have hb : t.isSpecial "\x7b" = false := Token.isSpecial_of_kind hk (by decide)
  cases rest with
  | nil => simp [element, hb, hk, hn, Cursor.skipAlias, Cursor.skipSuffix, Cursor.skipIf]
  | cons next after => simp [element, hb, hk, hn, hr next rfl]

theorem element_call {t next : Token} {after : List Token} (hn : t.isName = true)
    (hr : next.isSpecial "(" = true) :
    element t (next :: after) =
      ((arguments next after).uses ++
          [.call t (arguments next after).cursor.last (arguments next after).names],
        (arguments next after).cursor.skipAlias.skipSuffix) := by
  have hk : t.kind = .identifier := eq_of_beq hn
  have hb : t.isSpecial "\x7b" = false := Token.isSpecial_of_kind hk (by decide)
  simp [element, hb, hk, hn, hr]

theorem element_action {t : Token} (rest : List Token) (h : t.isSpecial "\x7b" = true) :
    element t rest = ([], (skipBalanced "\x7b" "\x7d" 1 t rest).skipTypeTag) := by
  simp only [element, h, if_true]

theorem element_precedence {t operand : Token} (after : List Token) (hk : t.kind = .directive)
    (hv : t.value = "%prec") (ho : operand.kind = .identifier ∨ operand.kind = .character) :
    element t (operand :: after) = ([.precedence operand], ⟨operand, after⟩) := by
  have hb : t.isSpecial "\x7b" = false := Token.isSpecial_of_kind hk (by decide)
  simp [element, hb, hk, hv, ho]

theorem element_directive {t : Token} (rest : List Token) (hk : t.kind = .directive)
    (hv : t.value ≠ "%prec") : element t rest = ([], ⟨t, rest⟩) := by
  have hb : t.isSpecial "\x7b" = false := Token.isSpecial_of_kind hk (by decide)
  cases rest <;> simp [element, hb, hk, hv]

theorem element_literal {t : Token} (rest : List Token) (hk : t.kind = .character) :
    element t rest = ([], (Cursor.mk t rest).skipSuffix) := by
  have hb : t.isSpecial "\x7b" = false := Token.isSpecial_of_kind hk (by decide)
  simp [element, Token.isName, hb, hk]

theorem element_other {t : Token} (rest : List Token) (hb : t.isSpecial "\x7b" = false)
    (hd : t.kind ≠ .directive) (hn : t.isName = false) (hk : t.kind ≠ .character) :
    element t rest = ([], ⟨t, rest⟩) := by
  simp [element, hb, hd, hn, hk]

/-! ### Uses in a body -/

/-- The token that names what is used. -/
def Use.token : Use → Token
  | .name t => t
  | .precedence t => t
  | .call t _ _ => t

/-- Whether the token can stand for a symbol: a name, or a literal among operators. -/
def Token.Naming (t : Token) : Prop := t.kind = .identifier ∨ t.kind = .character

/-- The uses were read from the tokens `taken`: no two of them are named by one token, and a call
ends with a token after its name. -/
structure UsesFrom (taken : List Token) (uses : List Use) : Prop where
  named : (uses.map Use.token).Subperm taken
  ordered : ∀ use ∈ uses, use.tokens.Sublist taken
  naming : ∀ use ∈ uses, use.token.Naming

namespace UsesFrom

theorem nil (taken : List Token) : UsesFrom taken [] where
  named := List.nil_subperm
  ordered := by simp
  naming := by simp

theorem append {taken taken' : List Token} {uses uses' : List Use} (h : UsesFrom taken uses)
    (h' : UsesFrom taken' uses') : UsesFrom (taken ++ taken') (uses ++ uses') where
  named := by
    rw [List.map_append]
    exact ((List.subperm_append_right _).mpr h.named).trans
      ((List.subperm_append_left taken).mpr h'.named)
  ordered := by
    intro use hu
    rcases List.mem_append.mp hu with hu | hu
    · exact (h.ordered use hu).trans (List.sublist_append_left _ _)
    · exact (h'.ordered use hu).trans (List.sublist_append_right _ _)
  naming := by
    intro use hu
    rcases List.mem_append.mp hu with hu | hu
    · exact h.naming use hu
    · exact h'.naming use hu

/-- One token that is a use by itself. -/
theorem single (use : Use) (ht : use.tokens = [use.token]) (hn : use.token.Naming) :
    UsesFrom [use.token] [use] where
  named := List.Subperm.refl _
  ordered := by
    intro u hu
    rw [List.mem_singleton.mp hu, ht]
  naming := by
    intro u hu
    rw [List.mem_singleton.mp hu]
    exact hn

/-- A call is named by the token before its parenthesis; it comes after the uses inside. -/
theorem call {t next last : Token} {taken : List Token} {uses : List Use}
    (h : UsesFrom taken uses) (names : List String) (hn : t.Naming) (hl : last ∈ next :: taken) :
    UsesFrom (t :: next :: taken) (uses ++ [.call t last names]) where
  named := by
    rw [List.map_append]
    refine (List.perm_append_singleton t _).subperm.trans ?_
    exact (List.subperm_cons t).mpr (h.named.trans (List.sublist_cons_self next taken).subperm)
  ordered := by
    intro use hu
    rcases List.mem_append.mp hu with hu | hu
    · exact (h.ordered use hu).trans ((List.sublist_cons_self _ _).trans (List.sublist_cons_self _ _))
    · rw [List.mem_singleton.mp hu]
      exact (List.singleton_sublist.mpr hl).cons_cons t
  naming := by
    intro use hu
    rcases List.mem_append.mp hu with hu | hu
    · exact h.naming use hu
    · rw [List.mem_singleton.mp hu]
      exact hn

end UsesFrom

theorem Token.naming_of_isName {t : Token} (h : t.isName = true) : t.Naming :=
  Or.inl (by simpa [Token.isName] using h)

/-- A relation between uses and the tokens they were read from which reading builds up: tokens may
leave no use, stretches that follow each other may be joined, a token may be a use by itself, and a
call has its name and the opening parenthesis before what it was read from. -/
structure BuiltUp (P : List Token → List Use → Prop) : Prop where
  nil (taken : List Token) : P taken []
  append {taken taken' : List Token} {uses uses' : List Use} :
    P taken uses → P taken' uses' → P (taken ++ taken') (uses ++ uses')
  single (use : Use) : use.tokens = [use.token] → use.token.Naming → P [use.token] [use]
  call (t next : Token) (names : List String) {taken : List Token} {uses : List Use} :
    P taken uses → t.Naming →
      P (t :: next :: taken) (uses ++ [.call t (taken.getLastD next) names])

theorem UsesFrom.builtUp : BuiltUp UsesFrom where
  nil := UsesFrom.nil
  append := UsesFrom.append
  single := UsesFrom.single
  call _ _ names {_ _} h hn := h.call names hn List.getLastD_mem_cons

namespace BuiltUp

variable {P : List Token → List Use → Prop} (h : BuiltUp P)
include h

theorem append_right {taken : List Token} {uses : List Use} (hu : P taken uses)
    (more : List Token) : P (taken ++ more) uses := by
  have := h.append hu (h.nil more)
  rwa [List.append_nil] at this

theorem append_left {taken : List Token} {uses : List Use} (before : List Token)
    (hu : P taken uses) : P (before ++ taken) uses := h.append (h.nil before) hu

/-- A call whose last token is the one read last. -/
theorem call_after {t next : Token} {ts taken : List Token} {uses : List Use} {c : Cursor}
    (ha : Cursor.After next ts taken c) (hu : P taken uses) (names : List String)
    (hn : t.Naming) : P (t :: next :: taken) (uses ++ [.call t c.last names]) := by
  rw [ha.last_eq]
  exact h.call t next names hu hn

theorem of_arguments (last : Token) (ts : List Token) :
    ∃ taken, Cursor.After last ts taken (arguments last ts).cursor ∧
      P taken (arguments last ts).uses := by
  -- The induction follows the rules of `arguments_induction`; only names and calls leave uses.
  refine arguments_induction (motive := fun last ts read =>
    ∃ taken, Cursor.After last ts taken read.cursor ∧ P taken read.uses)
    ?_ ?_ ?_ ?_ ?_ ?_ ?_ ?_ last ts
  · intro last
    exact ⟨[], .refl last [], h.nil []⟩
  · intro last t rest _
    exact ⟨[], .refl last (t :: rest), h.nil []⟩
  · intro last t rest _ _
    exact ⟨[t], (Cursor.After.refl t rest).cons, h.nil [t]⟩
  · rintro last t rest read _ _ _ ⟨taken, ha, hu⟩
    obtain ⟨inside, hs⟩ := skipBalanced_after "(" ")" 1 t rest
    exact ⟨t :: (inside ++ taken), (hs.trans ha).cons, h.append_left (t :: inside) hu⟩
  · rintro last t rest read _ _ _ hn _ ⟨taken, ha, hu⟩
    refine ⟨t :: taken, ha.cons, ?_⟩
    exact h.append (h.single (.name t) rfl (Token.naming_of_isName hn)) hu
  · rintro last t next after inner outer _ _ _ hn _ ⟨taken, ha, hu⟩ ⟨taken', ha', hu'⟩
    refine ⟨t :: next :: (taken ++ taken'), (ha.trans ha').cons.cons, ?_⟩
    have := h.append (h.call_after ha hu inner.names (Token.naming_of_isName hn)) hu'
    simpa [Arguments.consCall] using this
  · rintro last t rest read _ _ _ _ _ ⟨taken, ha, hu⟩
    exact ⟨t :: taken, ha.cons, h.append_left [t] hu⟩
  · rintro last t rest read _ _ _ _ _ ⟨taken, ha, hu⟩
    exact ⟨t :: taken, ha.cons, h.append_left [t] hu⟩

theorem of_element (t : Token) (rest : List Token) :
    ∃ taken, Cursor.After t rest taken (element t rest).2 ∧
      P (t :: taken) (element t rest).1 := by
  unfold element
  split
  · obtain ⟨inside, hi⟩ := skipBalanced_after "\x7b" "\x7d" 1 t rest
    obtain ⟨tag, ht⟩ := Cursor.skipIf_after (·.kind == .typeTag)
      (skipBalanced "\x7b" "\x7d" 1 t rest)
    exact ⟨inside ++ tag, hi.trans ht, h.nil _⟩
  · split
    · split
      · exact ⟨[], .refl t [], h.nil _⟩
      · rename_i operand after
        split
        · rename_i hop
          refine ⟨[operand], (Cursor.After.refl operand after).cons, ?_⟩
          have hn : operand.Naming := by
            simp only [Bool.and_eq_true, Bool.or_eq_true, beq_iff_eq] at hop
            exact hop.2
          exact h.append_left [t] (h.single (.precedence operand) rfl hn)
        · exact ⟨[], .refl t (operand :: after), h.nil _⟩
    · split
      · rename_i hn
        have single : P [t] [.name t] := h.single (.name t) rfl (Token.naming_of_isName hn)
        split
        · exact ⟨[], .refl t [], single⟩
        · rename_i next inner
          split
          · obtain ⟨taken, ha, hu⟩ := h.of_arguments next inner
            obtain ⟨more, hm⟩ :=
              (arguments next inner).cursor.skipAlias_skipSuffix_after
            refine ⟨next :: (taken ++ more), (ha.trans hm).cons, ?_⟩
            exact h.append_right (h.call_after ha hu _ (Token.naming_of_isName hn)) more
          · obtain ⟨taken, ha⟩ := (Cursor.mk t (next :: inner)).skipAlias_skipSuffix_after
            exact ⟨taken, ha, h.append_right single taken⟩
      · split
        · obtain ⟨taken, ha⟩ := Cursor.skipIf_after (·.isSpecial "?*+") ⟨t, rest⟩
          exact ⟨taken, ha, h.nil _⟩
        · exact ⟨[], .refl t rest, h.nil _⟩

theorem of_readBody (last : Token) (ts : List Token) :
    ∃ taken, Cursor.After last ts taken (readBody last ts).2 ∧
      P taken (readBody last ts).1 := by
  fun_induction readBody last ts with
  | case1 last => exact ⟨[], .refl last [], h.nil []⟩
  | case2 last t rest => exact ⟨[], .refl last (t :: rest), h.nil []⟩
  | case3 last t rest => exact ⟨[t], (Cursor.After.refl t rest).cons, h.nil [t]⟩
  | case4 last t rest => exact ⟨[], .refl last (t :: rest), h.nil []⟩
  | case5 last t rest _ _ _ ih =>
      obtain ⟨taken, ha, hu⟩ := h.of_element t rest
      obtain ⟨more, ha', hu'⟩ := ih
      exact ⟨t :: (taken ++ more), (ha.trans ha').cons, h.append hu hu'⟩

end BuiltUp

theorem readBody_from (last : Token) (ts : List Token) :
    ∃ taken, Cursor.After last ts taken (readBody last ts).2 ∧
      UsesFrom taken (readBody last ts).1 := UsesFrom.builtUp.of_readBody last ts

/-! ### Items -/

/-- The token `a` stands among `ts`, and `b` is the same token or a later one. -/
def InOrder (ts : List Token) (a b : Token) : Prop := (a = b ∧ a ∈ ts) ∨ [a, b].Sublist ts

theorem InOrder.refl {ts : List Token} {t : Token} (h : t ∈ ts) : InOrder ts t t := Or.inl ⟨rfl, h⟩

/-- What holds between any two tokens in order holds along `InOrder`, up to equality. -/
theorem InOrder.eq_or_of_pairwise {R : Token → Token → Prop} {ts : List Token} {a b : Token}
    (h : InOrder ts a b) (hR : ts.Pairwise R) : a = b ∨ R a b := by
  rcases h with h | h
  · exact Or.inl h.1
  · exact Or.inr ((List.pairwise_cons.mp (hR.sublist h)).1 b (by simp))

namespace Item

/-- The token that names what an item defines. -/
def name : Item → Token
  | .symbol t _ _ => t
  | .start t => t
  | .rule r => r.name

/-- The uses in an item. -/
def uses : Item → List Use
  | .rule r => r.uses
  | _ => []

/-- The token that the definition in an item starts with. -/
def first : Item → Token
  | .symbol t _ _ => t
  | .start t => t
  | .rule r => r.body.elim r.name fun _ => r.first

/-- The token that the definition in an item ends with. -/
def last : Item → Token
  | .symbol t _ _ => t
  | .start t => t
  | .rule r => r.last

/-- The tokens that name something in an item: what it defines, then what it uses. -/
def named (item : Item) : List Token := item.name :: item.uses.map Use.token

/-- The item was read from the tokens `taken`: no token names two things in it, and its name stands
between its first token and its last. -/
structure From (taken : List Token) (item : Item) : Prop where
  named : item.named.Subperm taken
  naming : ∀ t ∈ item.named, t.Naming
  tokens : ∀ t ∈ item.tokens, t ∈ taken
  ordered : ∀ use ∈ item.uses, use.tokens.Sublist taken
  head : InOrder taken item.first item.name
  tail : InOrder taken item.name item.last

theorem From.first_mem {taken : List Token} {item : Item} (h : item.From taken) :
    item.first ∈ taken := by
  rcases h.head with h | h
  · exact h.2
  · exact h.subset (by simp)

theorem From.last_mem {taken : List Token} {item : Item} (h : item.From taken) :
    item.last ∈ taken := by
  rcases h.tail with h | h
  · exact h.1 ▸ h.2
  · exact h.subset (by simp)

/-- An item that is no more than a name. -/
theorem From.ofName {taken : List Token} {item : Item} (hu : item.uses = [])
    (hf : item.first = item.name) (hl : item.last = item.name) (hn : item.name.Naming)
    (ht : ∀ t ∈ item.tokens, t ∈ taken) (hm : item.name ∈ taken) : From taken item where
  named := by
    rw [Item.named, hu]
    exact List.singleton_subperm_iff.mpr hm
  naming := by
    intro t h
    rw [Item.named, hu] at h
    rw [List.mem_singleton.mp h]
    exact hn
  tokens := ht
  ordered := by simp [hu]
  head := by rw [hf]; exact InOrder.refl hm
  tail := by rw [hl]; exact InOrder.refl hm

/-- A rule with a body: its name stands before the body, and the directive that may announce it
before the name. -/
theorem From.ofBody (before between : List Token) (r : Rule) {taken : List Token} {colon : Token}
    {body : Body} (hb : r.body = some body) (hn : r.name.Naming) (hf : r.first = r.name ∨ r.first ∈ before)
    (hu : UsesFrom taken body.uses) (hl : body.last ∈ colon :: taken) :
    From (before ++ r.name :: (between ++ colon :: taken)) (.rule r) := by
  have uses_eq : Item.uses (.rule r) = body.uses := by simp [Item.uses, Rule.uses, hb]
  have last_eq : Item.last (.rule r) = body.last := by simp [Item.last, Rule.last, hb]
  have first_eq : Item.first (.rule r) = r.first := by simp [Item.first, hb]
  have whole : UsesFrom (before ++ r.name :: (between ++ colon :: taken)) body.uses := by
    have := UsesFrom.builtUp.append_left (before ++ r.name :: (between ++ [colon])) hu
    simpa using this
  have head : InOrder (before ++ r.name :: (between ++ colon :: taken)) r.first r.name := by
    rcases hf with hf | hf
    · rw [hf]
      exact InOrder.refl (by simp)
    · refine Or.inr ?_
      have h1 : [r.first].Sublist before := List.singleton_sublist.mpr hf
      have h2 : [r.name].Sublist (r.name :: (between ++ colon :: taken)) := by simp
      exact h1.append h2
  have tail : [r.name, body.last].Sublist (before ++ r.name :: (between ++ colon :: taken)) := by
    have h1 : [body.last].Sublist (between ++ colon :: taken) :=
      List.singleton_sublist.mpr (List.mem_append_right between hl)
    exact (h1.cons_cons r.name).trans (List.sublist_append_right before _)
  refine ⟨?_, ?_, ?_, ?_, ?_, ?_⟩
  · rw [Item.named, uses_eq]
    have h1 : (r.name :: body.uses.map Use.token).Subperm (r.name :: taken) :=
      (List.subperm_cons r.name).mpr hu.named
    have h2 : (r.name :: taken).Sublist (before ++ r.name :: (between ++ colon :: taken)) := by
      refine List.Sublist.trans ?_ (List.sublist_append_right before _)
      exact ((List.sublist_cons_self colon taken).trans
        (List.sublist_append_right between _)).cons_cons r.name
    exact h1.trans h2.subperm
  · intro t ht
    rw [Item.named, uses_eq] at ht
    rcases List.mem_cons.mp ht with rfl | ht
    · exact hn
    · obtain ⟨use, hm, rfl⟩ := List.mem_map.mp ht
      exact hu.naming use hm
  · intro t ht
    simp only [Item.tokens, Rule.last, Rule.uses, hb, Option.elim, List.mem_cons,
      List.mem_flatMap] at ht
    rcases ht with rfl | rfl | rfl | ⟨use, hm, ht⟩
    · rcases head with h | h
      · exact h.2
      · exact h.subset (by simp)
    · simp
    · exact tail.subset (by simp)
    · exact (whole.ordered use hm).subset ht
  · rw [uses_eq]
    exact whole.ordered
  · rw [first_eq]
    exact head
  · rw [last_eq]
    exact Or.inr tail

end Item

/-- The items were read from the tokens, one after the other, each from a stretch of its own. -/
inductive Reads : List Token → List Item → Prop
  | nil : Reads [] []
  | skip (t : Token) {ts : List Token} {items : List Item} : Reads ts items → Reads (t :: ts) items
  | item (taken : List Token) {ts : List Token} {i : Item} {items : List Item} :
      Item.From taken i → Reads ts items → Reads (taken ++ ts) (i :: items)

namespace Reads

theorem skips (taken : List Token) {ts : List Token} {items : List Item} (h : Reads ts items) :
    Reads (taken ++ ts) items := by
  induction taken with
  | nil => exact h
  | cons t taken ih => exact .skip t ih

theorem none (ts : List Token) : Reads ts [] := by
  have := Reads.nil.skips ts
  rwa [List.append_nil] at this

theorem append {ts ts' : List Token} {items items' : List Item} (h : Reads ts items)
    (h' : Reads ts' items') : Reads (ts ++ ts') (items ++ items') := by
  induction h with
  | nil => exact h'
  | skip t _ ih => exact .skip t ih
  | @item taken ts i items hi _ ih =>
      rw [List.append_assoc]
      exact .item taken hi ih

theorem single {taken : List Token} {i : Item} (h : Item.From taken i) : Reads taken [i] := by
  have := Reads.item taken h Reads.nil
  rwa [List.append_nil] at this

end Reads

/-! ### Reading items -/

theorem typeTag?_suffix (ts : List Token) : (typeTag? ts).2 <:+ ts := by
  cases ts with
  | nil => exact List.suffix_refl []
  | cons t rest =>
      unfold typeTag?
      simp only
      split
      · exact List.suffix_cons t rest
      · exact List.suffix_refl _

theorem skipThrough_suffix (closes : Token → Bool) (last : Token) (ts : List Token) :
    (skipThrough closes last ts).rest <:+ ts := by
  obtain ⟨taken, h⟩ := skipThrough_after closes last ts
  exact ⟨taken, h.split.symm⟩

theorem parameters?_suffix (ts : List Token) : (parameters? ts).2 <:+ ts := by
  cases ts with
  | nil => exact List.suffix_refl []
  | cons t rest =>
      unfold parameters?
      simp only
      split
      · exact (skipThrough_suffix _ t rest).trans (List.suffix_cons t rest)
      · exact List.suffix_refl _

theorem skipInline_suffix (ts : List Token) : skipInline ts <:+ ts := by
  cases ts with
  | nil => exact List.suffix_refl []
  | cons t rest =>
      unfold skipInline
      simp only
      split
      · exact List.suffix_cons t rest
      · exact List.suffix_refl _

theorem afterAlias_suffix (ts : List Token) : afterAlias ts <:+ ts := by
  cases ts with
  | nil => exact List.suffix_refl []
  | cons t rest =>
      unfold afterAlias
      simp only
      split
      · exact (List.drop_suffix 1 _).trans
          ((List.dropWhile_suffix _).trans (List.suffix_cons t rest))
      · exact List.suffix_refl _

theorem skipCode_suffix (ts : List Token) : skipCode ts <:+ ts := by
  induction ts with
  | nil => exact List.suffix_refl []
  | cons t rest ih =>
      unfold skipCode
      split
      · exact List.suffix_refl _
      · split
        · obtain ⟨taken, h⟩ := skipBalanced_after "\x7b" "\x7d" 1 t rest
          exact ⟨t :: taken, by rw [List.cons_append, ← h.split]⟩
        · exact ih.trans (List.suffix_cons t rest)

/-- A body, if there is one, is read from the tokens after its colon. -/
theorem body?_from (ts : List Token) :
    (body? ts = (none, ts)) ∨
      ∃ colon taken body, body? ts = (some body, (body? ts).2) ∧
        ts = colon :: taken ++ (body? ts).2 ∧ UsesFrom taken body.uses ∧
        body.last ∈ colon :: taken := by
  cases ts with
  | nil => exact Or.inl rfl
  | cons t rest =>
      unfold body?
      simp only
      split
      · obtain ⟨taken, ha, hu⟩ := readBody_from t rest
        refine Or.inr ⟨t, taken, _, rfl, ?_, hu, ha.last_mem⟩
        rw [List.cons_append, ← ha.split]
      · exact Or.inl rfl

theorem readDeclaredRule_reads (directive : Token) (ts : List Token) :
    ∃ taken, ts = taken ++ (readDeclaredRule directive ts).2 ∧
      Reads (directive :: taken) (readDeclaredRule directive ts).1 := by
  obtain ⟨inline, hinline⟩ := skipInline_suffix ts
  unfold readDeclaredRule
  cases hs : skipInline ts with
  | nil => exact ⟨ts, by simp, .none _⟩
  | cons name rest =>
      rw [hs] at hinline
      simp only
      split
      · rename_i hname
        have hn : name.Naming := Token.naming_of_isName hname
        obtain ⟨skipped, hskipped⟩ := (typeTag?_suffix (parameters? rest).2).trans
          (parameters?_suffix rest)
        rcases body?_from (typeTag? (parameters? rest).2).2 with
          hb | ⟨colon, taken, body, hb, hs', hu, hl⟩
        · refine ⟨inline ++ name :: skipped, ?_, ?_⟩
          · calc ts = inline ++ name :: rest := hinline.symm
              _ = inline ++ name :: (skipped ++ (typeTag? (parameters? rest).2).2) := by
                rw [hskipped]
              _ = _ := by rw [hb, List.append_assoc, List.cons_append]
          · rw [hb]
            refine Reads.single (Item.From.ofName rfl rfl rfl hn ?_ ?_)
            · intro t ht
              simp only [Item.tokens, Rule.last, Rule.uses, Option.elim, List.flatMap_nil,
                List.mem_cons, List.not_mem_nil, or_false] at ht
              rcases ht with rfl | rfl | rfl <;> simp
            · simp [Item.name]
        · refine ⟨inline ++ name :: (skipped ++ colon :: taken), ?_, ?_⟩
          · calc ts = inline ++ name :: rest := hinline.symm
              _ = inline ++ name :: (skipped ++ (typeTag? (parameters? rest).2).2) := by
                rw [hskipped]
              _ = inline ++ name :: (skipped ++ (colon :: taken ++ (body? _).2)) := by rw [← hs']
              _ = _ := by simp
          · rw [hb]
            have := Item.From.ofBody (directive :: inline) skipped
              ⟨directive, name, (parameters? rest).1, (typeTag? (parameters? rest).2).1,
                some body⟩ rfl hn (Or.inr (by simp)) hu hl
            exact Reads.single this
      · exact ⟨inline, hinline.symm, .none _⟩

theorem filter_symbol_reads (p : Token → Bool) (hp : ∀ t, p t = true → t.Naming)
    (kind : Symbol.Kind) (tag : Option String) (ts : List Token) :
    Reads ts ((ts.filter p).map fun t => .symbol t kind tag) := by
  induction ts with
  | nil => exact .nil
  | cons t ts ih =>
      by_cases h : p t = true
      · rw [List.filter_cons_of_pos h, List.map_cons]
        refine Reads.item [t] ?_ ih
        exact Item.From.ofName rfl rfl rfl (hp t h) (by simp [Item.tokens]) (by simp [Item.name])
      · rw [List.filter_cons_of_neg h]
        exact .skip t ih

theorem readSymbols_reads (kind : Symbol.Kind) (ts : List Token) :
    ∃ taken, ts = taken ++ (readSymbols kind ts).2 ∧ Reads taken (readSymbols kind ts).1 := by
  obtain ⟨tag, htag⟩ := typeTag?_suffix ts
  refine ⟨tag ++ (listed (typeTag? ts).2).1, ?_, ?_⟩
  · rw [List.append_assoc]
    nth_rewrite 1 [← htag]
    exact congrArg (tag ++ ·) (List.takeWhile_append_dropWhile).symm
  · exact (filter_symbol_reads _ (fun _ => Token.naming_of_isName) kind _ _).skips tag

theorem readOperators_reads (ts : List Token) :
    ∃ taken, ts = taken ++ (readOperators ts).2 ∧ Reads taken (readOperators ts).1 := by
  refine ⟨(listed ts).1, (List.takeWhile_append_dropWhile).symm, ?_⟩
  refine filter_symbol_reads _ ?_ .token none _
  intro t ht
  simp only [Token.isName, Bool.or_eq_true, beq_iff_eq] at ht
  exact ht

theorem readStart_reads (ts : List Token) :
    ∃ taken, ts = taken ++ (readStart ts).2 ∧ Reads taken (readStart ts).1 := by
  cases ts with
  | nil => exact ⟨[], rfl, .nil⟩
  | cons t rest =>
      unfold readStart
      simp only
      split
      · rename_i h
        refine ⟨[t], rfl, Reads.single ?_⟩
        exact Item.From.ofName rfl rfl rfl (Token.naming_of_isName h) (by simp [Item.tokens])
          (by simp [Item.name])
      · exact ⟨[], rfl, .nil⟩

/-- A result without items, with fewer tokens to come. -/
theorem reads_none_of_suffix {rest after : List Token} (t : Token) (h : after <:+ rest) :
    ∃ taken, rest = taken ++ after ∧ Reads (t :: taken) [] := by
  obtain ⟨taken, h⟩ := h
  exact ⟨taken, h.symm, .none _⟩

theorem readDeclaration_reads (t : Token) (rest : List Token) :
    ∃ taken, rest = taken ++ (readDeclaration t rest).2 ∧
      Reads (t :: taken) (readDeclaration t rest).1 := by
  unfold readDeclaration
  split
  · split
    · obtain ⟨taken, h, hr⟩ := readSymbols_reads _ rest
      exact ⟨taken, h, .skip t hr⟩
    · obtain ⟨taken, h, hr⟩ := readStart_reads rest
      exact ⟨taken, h, .skip t hr⟩
    · obtain ⟨taken, h, hr⟩ := readOperators_reads rest
      exact ⟨taken, h, .skip t hr⟩
    · exact reads_none_of_suffix t (skipCode_suffix rest)
    · exact readDeclaredRule_reads t rest
    · exact reads_none_of_suffix t (List.dropWhile_suffix _)
  · split
    · exact reads_none_of_suffix t (skipThrough_suffix _ t rest)
    · exact reads_none_of_suffix t (List.suffix_refl rest)

theorem readRule_reads (t : Token) (rest : List Token) :
    ∃ taken, rest = taken ++ (readRule t rest).2 ∧ Reads (t :: taken) (readRule t rest).1 := by
  unfold readRule
  split
  · exact readDeclaredRule_reads t rest
  · split
    · rename_i hname
      obtain ⟨aliased, halias⟩ := afterAlias_suffix rest
      rcases body?_from (afterAlias rest) with hb | ⟨colon, taken, body, hb, hs, hu, hl⟩
      · rw [hb]
        exact reads_none_of_suffix t (List.suffix_refl rest)
      · rw [hb]
        refine ⟨aliased ++ colon :: taken, ?_, ?_⟩
        · rw [List.append_assoc, ← hs, halias]
        · have := Item.From.ofBody [] aliased ⟨t, t, none, none, some body⟩ rfl
            (Token.naming_of_isName hname) (Or.inl rfl) hu hl
          exact Reads.single this
    · exact reads_none_of_suffix t (List.suffix_refl rest)

theorem readItem_reads (place : Section) (t : Token) (rest : List Token) :
    ∃ taken, rest = taken ++ (readItem place t rest).2 ∧
      Reads (t :: taken) (readItem place t rest).1 := by
  cases place with
  | declarations => exact readDeclaration_reads t rest
  | rules => exact readRule_reads t rest
  | epilogue => exact reads_none_of_suffix t (List.suffix_refl rest)

/-- Every item is read from tokens of its own, in the order of the tokens. -/
theorem reads_readItems (place : Section) (ts : List Token) :
    Reads ts (readItems place ts).1 := by
  fun_induction readItems place ts with
  | case1 => exact .nil
  | case2 => exact .none _
  | case3 place t rest _ _ ih => exact .skip t ih
  | case4 place t rest _ _ ih =>
      obtain ⟨taken, h, hr⟩ := readItem_reads place t rest
      have := hr.append ih
      rwa [List.cons_append, ← h] at this

/-! ### What follows for the items -/

namespace Reads

variable {ts : List Token} {items : List Item}

theorem tokens_mem (h : Reads ts items) : ∀ t ∈ items.flatMap Item.tokens, t ∈ ts := by
  induction h with
  | nil => simp
  | skip t _ ih => exact fun u hu => List.mem_cons_of_mem t (ih u hu)
  | item taken hi _ ih =>
      intro t ht
      rw [List.flatMap_cons, List.mem_append] at ht
      rcases ht with ht | ht
      · exact List.mem_append_left _ (hi.tokens t ht)
      · exact List.mem_append_right _ (ih t ht)

/-- No token names two things. -/
theorem named_subperm (h : Reads ts items) : (items.flatMap Item.named).Subperm ts := by
  induction h with
  | nil => exact List.Subperm.refl []
  | skip t _ ih => exact ih.cons_right t
  | item taken hi _ ih =>
      rw [List.flatMap_cons]
      exact ((List.subperm_append_right _).mpr hi.named).trans ((List.subperm_append_left _).mpr ih)

theorem from_mem (h : Reads ts items) : ∀ i ∈ items, ∃ taken, taken.Sublist ts ∧ i.From taken := by
  induction h with
  | nil => simp
  | skip t _ ih =>
      intro i hi
      obtain ⟨taken, hs, hf⟩ := ih i hi
      exact ⟨taken, hs.cons t, hf⟩
  | @item taken ts j items hj _ ih =>
      intro i hi
      rcases List.mem_cons.mp hi with rfl | hi
      · exact ⟨taken, List.sublist_append_left _ _, hj⟩
      · obtain ⟨taken', hs, hf⟩ := ih i hi
        exact ⟨taken', hs.trans (List.sublist_append_right _ _), hf⟩

theorem first_mem (h : Reads ts items) : ∀ i ∈ items, i.first ∈ ts := by
  intro i hi
  obtain ⟨taken, hs, hf⟩ := h.from_mem i hi
  exact hs.subset hf.first_mem

/-- What holds between any two tokens in order holds between the end of an item and the start of
every later one. -/
theorem pairwise {R : Token → Token → Prop} (h : Reads ts items) (hR : ts.Pairwise R) :
    items.Pairwise fun i j => R i.last j.first := by
  induction h with
  | nil => exact List.Pairwise.nil
  | skip t _ ih => exact ih (List.pairwise_cons.mp hR).2
  | @item taken ts i items hi hr ih =>
      obtain ⟨_, hts, hcross⟩ := List.pairwise_append.mp hR
      refine List.pairwise_cons.mpr ⟨?_, ih hts⟩
      intro j hj
      exact hcross i.last hi.last_mem j.first (hr.first_mem j hj)

end Reads

/-! ### The table of what was read -/

/-- Recording what was read of placed tokens succeeds. -/
theorem recordItems_readItems {ts : List Token} (h : ∀ t ∈ ts, t.Placed) (place : Section) :
    Table.empty.recordItems (readItems place ts).1 =
      .ok (Table.empty.run ((readItems place ts).1.flatMap Item.operations)) :=
  Table.recordItems_eq_run Table.empty fun t ht =>
    h t ((reads_readItems place ts).tokens_mem t ht)

theorem ofTokens_eq_run {ts : List Token} (h : ∀ t ∈ ts, t.Placed) :
    Grammar.ofTokens ts =
      .ok ⟨Table.empty.run ((readItems .declarations ts).1.flatMap Item.operations),
        (readItems .declarations ts).2⟩ := by
  rw [Grammar.ofTokens, recordItems_readItems h]
  rfl

end GrammarLens
