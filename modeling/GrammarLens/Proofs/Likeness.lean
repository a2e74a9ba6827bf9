import GrammarLens.Proofs.Consumption
import Mathlib.Data.List.Forall2
import Mathlib.Data.List.TakeWhile

/-! # Reading token lists that are alike

Reading looks at the kinds and the values of tokens, and for a directive that it does not know at
whether two tokens stand on one line.  A `Likeness` relates tokens that it cannot tell apart in this
way.  Two token lists that are related token by token make reading take the same course, so it
comes to items of the same make in the same order, which hold related tokens (`readItems_like`).

The tokens that are kept in items never end the input.  A likeness may therefore say more about
those: `R` relates the tokens of the two inputs, `S` the tokens that are kept. -/

namespace GrammarLens

/-- Reading cannot tell tokens apart that `R` relates, and those of them that do not end the input
are also related by `S`. -/
structure Likeness (R S : Token → Token → Prop) : Prop where
  kind : ∀ {t u}, R t u → u.kind = t.kind
  value : ∀ {t u}, R t u → u.value = t.value
  line : ∀ {t u t' u'}, R t u → R t' u' → (u'.line = u.line ↔ t'.line = t.line)
  keep : ∀ {t u}, R t u → t.isEnd = false → S t u

/-! ### Items that are alike -/

section Alike

variable (S : Token → Token → Prop)

/-- The uses are of the same make. -/
inductive Use.Like : Use → Use → Prop
  | name {t u : Token} : S t u → Use.Like (.name t) (.name u)
  | precedence {t u : Token} : S t u → Use.Like (.precedence t) (.precedence u)
  | call {t u last last' : Token} (arguments : List String) : S t u → S last last' →
      Use.Like (.call t last arguments) (.call u last' arguments)

/-- The bodies use the same in the same order. -/
structure Body.Like (b c : Body) : Prop where
  uses : List.Forall₂ (Use.Like S) b.uses c.uses
  last : S b.last c.last

/-- The rules differ in their tokens only. -/
structure Rule.Like (r q : Rule) : Prop where
  first : S r.first q.first
  name : S r.name q.name
  parameters : q.parameters = r.parameters
  typeTag : q.typeTag = r.typeTag
  body : Option.Rel (Body.Like S) r.body q.body

/-- The items differ in their tokens only. -/
inductive Item.Like : Item → Item → Prop
  | symbol {t u : Token} (kind : Symbol.Kind) (typeTag : Option String) : S t u →
      Item.Like (.symbol t kind typeTag) (.symbol u kind typeTag)
  | start {t u : Token} : S t u → Item.Like (.start t) (.start u)
  | rule {r q : Rule} : Rule.Like S r q → Item.Like (.rule r) (.rule q)

variable (R : Token → Token → Prop)

/-- The cursors stand at related places. -/
structure Cursor.Like (c d : Cursor) : Prop where
  last : S c.last d.last
  rest : List.Forall₂ R c.rest d.rest

/-- The same arguments were read, up to related places. -/
structure Arguments.Like (a b : Arguments) : Prop where
  names : b.names = a.names
  uses : List.Forall₂ (Use.Like S) a.uses b.uses
  cursor : Cursor.Like S R a.cursor b.cursor

end Alike

variable {R S : Token → Token → Prop}

theorem Rule.Like.uses {r q : Rule} (h : Rule.Like S r q) :
    List.Forall₂ (Use.Like S) r.uses q.uses := by
  have hbody := h.body
  unfold Rule.uses
  generalize r.body = b at hbody
  generalize q.body = c at hbody
  cases hbody with
  | some hb => exact hb.uses
  | none => exact .nil

/-! ### Tests on tokens that are alike -/

namespace Likeness

variable (h : Likeness R S) {t u : Token}

include h

theorem isEnd (r : R t u) : u.isEnd = t.isEnd := by rw [Token.isEnd, Token.isEnd, h.kind r]

theorem isName (r : R t u) : u.isName = t.isName := by rw [Token.isName, Token.isName, h.kind r]

theorem isSpecial (r : R t u) (chars : String) : u.isSpecial chars = t.isSpecial chars := by
  rw [Token.isSpecial, Token.isSpecial, h.kind r, h.value r]

theorem endsList (r : R t u) : u.endsList = t.endsList := by
  rw [Token.endsList, Token.endsList, h.isEnd r, h.kind r]

theorem keepSpecial {chars : String} (r : R t u) (hs : t.isSpecial chars = true) : S t u :=
  h.keep r (Token.isEnd_of_isSpecial hs)

theorem keepName (r : R t u) (hn : t.isName = true) : S t u := h.keep r (Token.isEnd_of_isName hn)

theorem keepKind {k : Token.Kind} (r : R t u) (hk : t.kind = k) (hne : k ≠ .eof) : S t u :=
  h.keep r (Token.isEnd_of_kind hk hne)

end Likeness

/-! ### Steps over tokens -/

theorem forall₂_takeWhile {p : Token → Bool} (hp : ∀ {t u}, R t u → p u = p t) {ts us : List Token}
    (hts : List.Forall₂ R ts us) : List.Forall₂ R (ts.takeWhile p) (us.takeWhile p) := by
  induction hts with
  | nil => exact .nil
  | cons r _ ih =>
      rw [List.takeWhile_cons, List.takeWhile_cons, hp r]
      split
      · exact .cons r ih
      · exact .nil

theorem forall₂_dropWhile {p q : Token → Bool} (hp : ∀ {t u}, R t u → q u = p t)
    {ts us : List Token} (hts : List.Forall₂ R ts us) :
    List.Forall₂ R (ts.dropWhile p) (us.dropWhile q) := by
  induction hts with
  | nil => exact .nil
  | cons r hrest ih =>
      rw [List.dropWhile_cons, List.dropWhile_cons, hp r]
      split
      · exact ih
      · exact .cons r hrest

theorem forall₂_filter {p : Token → Bool} (hp : ∀ {t u}, R t u → p u = p t) {ts us : List Token}
    (hts : List.Forall₂ R ts us) : List.Forall₂ R (ts.filter p) (us.filter p) :=
  List.rel_filter (fun _ _ r => by simp only [hp r]) hts

theorem isEnd_of_mem_listed (ts : List Token) : ∀ t ∈ (listed ts).1, t.isEnd = false := by
  intro t ht
  have hends := List.mem_takeWhile_imp (p := fun u => !Token.endsList u) (l := ts) ht
  exact Token.isEnd_of_endsList (by simpa using hends)

section Reading

variable (h : Likeness R S)

include h

theorem map_value_like {ts us : List Token} (hts : List.Forall₂ R ts us) :
    us.map Token.value = ts.map Token.value := by
  induction hts with
  | nil => rfl
  | cons r _ ih => rw [List.map_cons, List.map_cons, h.value r, ih]

theorem skipThrough_like {closes : Token → Bool} (hc : ∀ {t u}, R t u → closes u = closes t)
    {last last' : Token} (hl : S last last') {ts us : List Token} (hts : List.Forall₂ R ts us) :
    Cursor.Like S R (skipThrough closes last ts) (skipThrough closes last' us) := by
  induction hts generalizing last last' with
  | nil => exact ⟨hl, .nil⟩
  | cons r hrest ih =>
      unfold skipThrough
      rw [h.isEnd r, hc r]
      split
      · exact ⟨hl, .cons r hrest⟩
      · rename_i hend
        have hs := h.keep r (by simpa using hend)
        split
        · exact ⟨hs, hrest⟩
        · exact ih hs

theorem skipBalanced_like (opening closing : String) (depth : Nat) {last last' : Token}
    (hl : S last last') {ts us : List Token} (hts : List.Forall₂ R ts us) :
    Cursor.Like S R (skipBalanced opening closing depth last ts)
      (skipBalanced opening closing depth last' us) := by
  induction hts generalizing depth last last' with
  | nil => exact ⟨hl, .nil⟩
  | cons r hrest ih =>
      unfold skipBalanced
      rw [h.isEnd r, h.isSpecial r, h.isSpecial r]
      split
      · exact ⟨hl, .cons r hrest⟩
      · rename_i hend
        have hs := h.keep r (by simpa using hend)
        split
        · exact ih _ hs
        · split
          · split
            · exact ⟨hs, hrest⟩
            · exact ih _ hs
          · exact ih _ hs

theorem skipIf_like {fits : Token → Bool} (hf : ∀ {t u}, R t u → fits u = fits t)
    (hne : ∀ {t}, fits t = true → t.isEnd = false) {c d : Cursor} (hc : Cursor.Like S R c d) :
    Cursor.Like S R (c.skipIf fits) (d.skipIf fits) := by
  obtain ⟨last, ts⟩ := c
  obtain ⟨last', us⟩ := d
  obtain ⟨hl, hts⟩ := hc
  cases hts with
  | nil => exact ⟨hl, .nil⟩
  | cons r hrest =>
      simp only [Cursor.skipIf, hf r]
      split
      · rename_i hfit
        exact ⟨h.keep r (hne hfit), hrest⟩
      · exact ⟨hl, .cons r hrest⟩

theorem skipSuffix_like {c d : Cursor} (hc : Cursor.Like S R c d) :
    Cursor.Like S R c.skipSuffix d.skipSuffix :=
  skipIf_like h (fun r => h.isSpecial r _) Token.isEnd_of_isSpecial hc

theorem skipTypeTag_like {c d : Cursor} (hc : Cursor.Like S R c d) :
    Cursor.Like S R c.skipTypeTag d.skipTypeTag := by
  refine skipIf_like h (fun r => by rw [h.kind r]) ?_ hc
  intro t hk
  exact Token.isEnd_of_kind (eq_of_beq hk) (by decide)

theorem skipAlias_like {c d : Cursor} (hc : Cursor.Like S R c d) :
    Cursor.Like S R c.skipAlias d.skipAlias := by
  obtain ⟨last, ts⟩ := c
  obtain ⟨last', us⟩ := d
  obtain ⟨hl, hts⟩ := hc
  cases hts with
  | nil => exact ⟨hl, .nil⟩
  | cons r hrest =>
      simp only [Cursor.skipAlias, h.isSpecial r]
      split
      · rename_i hopen
        exact skipThrough_like h (fun r => h.isSpecial r _) (h.keepSpecial r hopen) hrest
      · exact ⟨hl, .cons r hrest⟩

/-! ### Bodies -/

theorem noCall_like {ts us : List Token} (hts : List.Forall₂ R ts us) (hn : NoCall ts) :
    NoCall us := by
  cases hts with
  | nil => exact hn
  | cons r hrest =>
      rintro u ⟨⟩
      rw [h.isSpecial r]
      exact hn _ rfl

/-- The induction follows the rules by which the arguments of the first list are read; the second
list is read by the same rules. -/
theorem arguments_like {last last' : Token} (hl : S last last') {ts us : List Token}
    (hts : List.Forall₂ R ts us) : Arguments.Like S R (arguments last ts) (arguments last' us) := by
  revert last' us
  refine arguments_induction (motive := fun last ts read => ∀ {last' : Token}, S last last' →
    ∀ {us : List Token}, List.Forall₂ R ts us → Arguments.Like S R read (arguments last' us))
    ?_ ?_ ?_ ?_ ?_ ?_ ?_ ?_ last ts
  · intro last last' hl us hts
    cases hts
    rw [arguments_nil]
    exact ⟨rfl, .nil, hl, .nil⟩
  · rintro last t rest hend last' hl us (_ | ⟨r, hrest⟩)
    rw [arguments_end _ _ (h.isEnd r ▸ hend)]
    exact ⟨rfl, .nil, hl, .cons r hrest⟩
  · rintro last t rest hend hclose last' hl us (_ | ⟨r, hrest⟩)
    rw [arguments_close _ _ (h.isSpecial r _ ▸ hclose)]
    exact ⟨rfl, .nil, h.keep r hend, hrest⟩
  · rintro last t rest read hend hclose hopen ih last' hl us (_ | ⟨r, hrest⟩)
    rw [arguments_group _ _ (h.isSpecial r _ ▸ hclose) (h.isSpecial r _ ▸ hopen)]
    have hskip := skipBalanced_like h "(" ")" 1 (h.keep r hend) hrest
    exact ih hskip.last hskip.rest
  · rintro last t rest read hend hclose hopen hname hcall ih last' hl us (_ | ⟨r, hrest⟩)
    rw [arguments_name (h.isEnd r ▸ hend) (h.isSpecial r _ ▸ hclose) (h.isSpecial r _ ▸ hopen)
      (h.isName r ▸ hname) (noCall_like h hrest hcall)]
    have hs := h.keep r hend
    obtain ⟨hnames, huses, hcursor⟩ := ih hs hrest
    exact ⟨by simp only [Arguments.consName, hnames, h.value r], .cons (.name hs) huses, hcursor⟩
  · rintro last t next after inner outer hend hclose hopen hname hcall ih ih' last' hl us
      (_ | ⟨r, (_ | ⟨r', hrest⟩)⟩)
    rw [arguments_call (h.isEnd r ▸ hend) (h.isSpecial r _ ▸ hclose) (h.isSpecial r _ ▸ hopen)
      (h.isName r ▸ hname) (h.isSpecial r' _ ▸ hcall)]
    have hs := h.keep r hend
    obtain ⟨hnames, huses, hcursor⟩ := ih (h.keepSpecial r' hcall) hrest
    obtain ⟨hnames', huses', hcursor'⟩ := ih' hcursor.last hcursor.rest
    refine ⟨by simp only [Arguments.consCall, hnames', h.value r], ?_, hcursor'⟩
    refine List.rel_append huses (.cons ?_ huses')
    rw [hnames]
    exact .call _ hs hcursor.last
  · rintro last t rest read hend hclose hopen hname hk ih last' hl us (_ | ⟨r, hrest⟩)
    rw [arguments_literal _ _ ((h.kind r).trans hk)]
    obtain ⟨hnames, huses, hcursor⟩ := ih (h.keep r hend) hrest
    exact ⟨by simp only [Arguments.consLiteral, hnames, h.value r], huses, hcursor⟩
  · rintro last t rest read hend hclose hopen hname hk ih last' hl us (_ | ⟨r, hrest⟩)
    rw [arguments_other _ _ (h.isEnd r ▸ hend) (h.isSpecial r _ ▸ hclose)
      (h.isSpecial r _ ▸ hopen) (h.isName r ▸ hname) (h.kind r ▸ hk)]
    exact ih (h.keep r hend) hrest

theorem element_like {t u : Token} (r : R t u) (hend : t.isEnd = false) {rest rest' : List Token}
    (hrest : List.Forall₂ R rest rest') :
    List.Forall₂ (Use.Like S) (element t rest).1 (element u rest').1 ∧
      Cursor.Like S R (element t rest).2 (element u rest').2 := by
  have hs := h.keep r hend
  unfold element
  rw [h.isSpecial r, h.kind r, h.isName r, h.value r]
  split
  · exact ⟨.nil, skipTypeTag_like h (skipBalanced_like h _ _ 1 hs hrest)⟩
  split
  · cases hrest with
    | nil => exact ⟨.nil, hs, .nil⟩
    | cons ro hafter =>
        simp only [h.kind ro]
        split
        · rename_i operand _ _ _ hoperand
          have hne : operand.isEnd = false := by
            simp only [Bool.and_eq_true, Bool.or_eq_true, beq_iff_eq] at hoperand
            rcases hoperand.2 with hk | hk
            · exact Token.isEnd_of_kind hk (by decide)
            · exact Token.isEnd_of_kind hk (by decide)
          have ho := h.keep ro hne
          exact ⟨.cons (.precedence ho) .nil, ho, hafter⟩
        · exact ⟨.nil, hs, .cons ro hafter⟩
  split
  · have hname : List.Forall₂ (Use.Like S) [.name t] [.name u] := .cons (.name hs) .nil
    cases hrest with
    | nil => exact ⟨hname, hs, .nil⟩
    | cons rn hinner =>
        simp only [h.isSpecial rn]
        split
        · rename_i hopen
          obtain ⟨hnames, huses, hcursor⟩ := arguments_like h (h.keepSpecial rn hopen) hinner
          refine ⟨List.rel_append huses (.cons ?_ .nil), ?_⟩
          · rw [hnames]
            exact .call _ hs hcursor.last
          · exact skipSuffix_like h (skipAlias_like h hcursor)
        · exact ⟨hname, skipSuffix_like h (skipAlias_like h ⟨hs, .cons rn hinner⟩)⟩
  split
  · exact ⟨.nil, skipSuffix_like h ⟨hs, hrest⟩⟩
  · exact ⟨.nil, hs, hrest⟩

theorem readBody_like {last last' : Token} (hl : S last last') {ts us : List Token}
    (hts : List.Forall₂ R ts us) :
    List.Forall₂ (Use.Like S) (readBody last ts).1 (readBody last' us).1 ∧
      Cursor.Like S R (readBody last ts).2 (readBody last' us).2 := by
  fun_induction readBody last ts generalizing last' us with
  | case1 last =>
      cases hts
      rw [readBody]
      exact ⟨.nil, hl, .nil⟩
  | case2 last t rest hend =>
      obtain _ | ⟨r, hrest⟩ := hts
      rw [readBody, if_pos (h.isEnd r ▸ hend)]
      exact ⟨.nil, hl, .cons r hrest⟩
  | case3 last t rest hend hsemi =>
      obtain _ | ⟨r, hrest⟩ := hts
      rw [readBody, if_neg (h.isEnd r ▸ hend), if_pos (h.isSpecial r _ ▸ hsemi)]
      exact ⟨.nil, h.keepSpecial r hsemi, hrest⟩
  | case4 last t rest hend hsemi hsep =>
      obtain _ | ⟨r, hrest⟩ := hts
      rw [readBody, if_neg (h.isEnd r ▸ hend), if_neg (h.isSpecial r _ ▸ hsemi),
        if_pos (h.kind r ▸ hsep)]
      exact ⟨.nil, hl, .cons r hrest⟩
  | case5 last t rest hend hsemi hsep ih =>
      obtain _ | ⟨r, hrest⟩ := hts
      rw [readBody, if_neg (h.isEnd r ▸ hend), if_neg (h.isSpecial r _ ▸ hsemi),
        if_neg (h.kind r ▸ hsep)]
      obtain ⟨huses, hcursor⟩ := element_like h r (by simpa using hend) hrest
      obtain ⟨hmore, hcursor'⟩ := ih hcursor.last hcursor.rest
      exact ⟨List.rel_append huses hmore, hcursor'⟩

theorem body?_like {ts us : List Token} (hts : List.Forall₂ R ts us) :
    Option.Rel (Body.Like S) (body? ts).1 (body? us).1 ∧
      List.Forall₂ R (body? ts).2 (body? us).2 := by
  cases hts with
  | nil => exact ⟨.none, .nil⟩
  | cons r hrest =>
      simp only [body?, h.isSpecial r]
      split
      · rename_i hcolon
        obtain ⟨huses, hcursor⟩ := readBody_like h (h.keepSpecial r hcolon) hrest
        exact ⟨.some ⟨huses, hcursor.last⟩, hcursor.rest⟩
      · exact ⟨.none, .cons r hrest⟩

/-! ### Declarations -/

theorem listed_like {ts us : List Token} (hts : List.Forall₂ R ts us) :
    List.Forall₂ R (listed ts).1 (listed us).1 ∧ List.Forall₂ R (listed ts).2 (listed us).2 :=
  ⟨forall₂_takeWhile (fun r => by rw [h.endsList r]) hts,
    forall₂_dropWhile (fun r => by rw [h.endsList r]) hts⟩

theorem typeTag?_like {ts us : List Token} (hts : List.Forall₂ R ts us) :
    (typeTag? us).1 = (typeTag? ts).1 ∧ List.Forall₂ R (typeTag? ts).2 (typeTag? us).2 := by
  cases hts with
  | nil => exact ⟨rfl, .nil⟩
  | cons r hrest =>
      simp only [typeTag?, h.kind r, h.value r]
      split
      · exact ⟨rfl, hrest⟩
      · exact ⟨rfl, .cons r hrest⟩

/-- The tokens of a list that fit are kept, because a list has no end token in it. -/
theorem symbols_like {fits : Token → Bool} (hf : ∀ {t u}, R t u → fits u = fits t)
    (kind : Symbol.Kind) (tag : Option String) {ts us : List Token} (hts : List.Forall₂ R ts us)
    (hne : ∀ t ∈ ts, t.isEnd = false) :
    List.Forall₂ (Item.Like S) ((ts.filter fits).map (.symbol · kind tag))
      ((us.filter fits).map (.symbol · kind tag)) := by
  induction hts with
  | nil => exact .nil
  | cons r _ ih =>
      rw [List.forall_mem_cons] at hne
      have hrest := ih hne.2
      rw [List.filter_cons, List.filter_cons, hf r]
      split
      · exact .cons (.symbol kind tag (h.keep r hne.1)) hrest
      · exact hrest

theorem readSymbols_like (kind : Symbol.Kind) {ts us : List Token} (hts : List.Forall₂ R ts us) :
    List.Forall₂ (Item.Like S) (readSymbols kind ts).1 (readSymbols kind us).1 ∧
      List.Forall₂ R (readSymbols kind ts).2 (readSymbols kind us).2 := by
  obtain ⟨htag, hrest⟩ := typeTag?_like h hts
  obtain ⟨hlist, hafter⟩ := listed_like h hrest
  refine ⟨?_, hafter⟩
  simp only [readSymbols, htag]
  exact symbols_like h h.isName kind _ hlist (isEnd_of_mem_listed _)

theorem readOperators_like {ts us : List Token} (hts : List.Forall₂ R ts us) :
    List.Forall₂ (Item.Like S) (readOperators ts).1 (readOperators us).1 ∧
      List.Forall₂ R (readOperators ts).2 (readOperators us).2 := by
  obtain ⟨hlist, hafter⟩ := listed_like h hts
  refine ⟨?_, hafter⟩
  exact symbols_like h (fun r => by rw [h.isName r, h.kind r]) .token none hlist
    (isEnd_of_mem_listed _)

theorem readStart_like {ts us : List Token} (hts : List.Forall₂ R ts us) :
    List.Forall₂ (Item.Like S) (readStart ts).1 (readStart us).1 ∧
      List.Forall₂ R (readStart ts).2 (readStart us).2 := by
  cases hts with
  | nil => exact ⟨.nil, .nil⟩
  | cons r hrest =>
      simp only [readStart, h.isName r]
      split
      · rename_i hname
        exact ⟨.cons (.start (h.keepName r hname)) .nil, hrest⟩
      · exact ⟨.nil, .cons r hrest⟩

theorem skipCode_like {ts us : List Token} (hts : List.Forall₂ R ts us) :
    List.Forall₂ R (skipCode ts) (skipCode us) := by
  induction hts with
  | nil => exact .nil
  | cons r hrest ih =>
      unfold skipCode
      rw [h.isEnd r, h.isSpecial r]
      split
      · exact .cons r hrest
      split
      · rename_i hopen
        exact (skipBalanced_like h _ _ 1 (h.keepSpecial r hopen) hrest).rest
      · exact ih

theorem parameters?_like {ts us : List Token} (hts : List.Forall₂ R ts us) :
    (parameters? us).1 = (parameters? ts).1 ∧
      List.Forall₂ R (parameters? ts).2 (parameters? us).2 := by
  cases hts with
  | nil => exact ⟨rfl, .nil⟩
  | cons r hrest =>
      simp only [parameters?, h.isSpecial r]
      split
      · rename_i hopen
        have hlist := forall₂_takeWhile (p := fun t => !(t.isEnd || t.isSpecial ")"))
          (fun r => by rw [h.isEnd r, h.isSpecial r]) hrest
        have hnames := forall₂_filter (p := Token.isName) h.isName hlist
        refine ⟨congrArg some ?_, ?_⟩
        · exact (map_value_like h hnames)
        · exact (skipThrough_like h (fun r => h.isSpecial r _) (h.keepSpecial r hopen) hrest).rest
      · exact ⟨rfl, .cons r hrest⟩

theorem skipInline_like {ts us : List Token} (hts : List.Forall₂ R ts us) :
    List.Forall₂ R (skipInline ts) (skipInline us) := by
  cases hts with
  | nil => exact .nil
  | cons r hrest =>
      simp only [skipInline, h.kind r, h.value r]
      split
      · exact hrest
      · exact .cons r hrest

theorem readDeclaredRule_like {t u : Token} (hs : S t u) {ts us : List Token}
    (hts : List.Forall₂ R ts us) :
    List.Forall₂ (Item.Like S) (readDeclaredRule t ts).1 (readDeclaredRule u us).1 ∧
      List.Forall₂ R (readDeclaredRule t ts).2 (readDeclaredRule u us).2 := by
  have hinline := skipInline_like h hts
  unfold readDeclaredRule
  generalize skipInline ts = rest at hinline
  generalize skipInline us = rest' at hinline
  cases hinline with
  | nil => exact ⟨.nil, .nil⟩
  | cons r hrest =>
      simp only [h.isName r]
      split
      · rename_i hname
        obtain ⟨hparameters, hrest'⟩ := parameters?_like h hrest
        obtain ⟨htag, hrest''⟩ := typeTag?_like h hrest'
        obtain ⟨hbody, hafter⟩ := body?_like h hrest''
        exact ⟨.cons (.rule ⟨hs, h.keepName r hname, hparameters, htag, hbody⟩) .nil, hafter⟩
      · exact ⟨.nil, .cons r hrest⟩

/-- For a directive that is not known, the rest of its line is the same in both lists. -/
theorem readDeclaration_like {t u : Token} (r : R t u) {ts us : List Token}
    (hts : List.Forall₂ R ts us) :
    List.Forall₂ (Item.Like S) (readDeclaration t ts).1 (readDeclaration u us).1 ∧
      List.Forall₂ R (readDeclaration t ts).2 (readDeclaration u us).2 := by
  unfold readDeclaration
  rw [h.kind r, h.value r]
  split
  · rename_i hk
    have hs := h.keepKind r (eq_of_beq hk) (by decide)
    split
    · exact readSymbols_like h _ hts
    · exact readStart_like h hts
    · exact readOperators_like h hts
    · exact ⟨.nil, skipCode_like h hts⟩
    · exact readDeclaredRule_like h hs hts
    · refine ⟨.nil, forall₂_dropWhile (fun r' => ?_) hts⟩
      rw [h.isEnd r', Bool.eq_iff_iff, Bool.and_eq_true, Bool.and_eq_true, beq_iff_eq, beq_iff_eq,
        h.line r r']
  split
  · rename_i hk
    have hs := h.keepKind r (eq_of_beq hk) (by decide)
    exact ⟨.nil, (skipThrough_like h (fun r => by rw [h.kind r]) hs hts).rest⟩
  · exact ⟨.nil, hts⟩

/-! ### Rules and items -/

theorem afterAlias_like {ts us : List Token} (hts : List.Forall₂ R ts us) :
    List.Forall₂ R (afterAlias ts) (afterAlias us) := by
  cases hts with
  | nil => exact .nil
  | cons r hrest =>
      simp only [afterAlias, h.isSpecial r]
      split
      · exact List.forall₂_drop 1 (forall₂_dropWhile (fun r => by rw [h.value r]) hrest)
      · exact .cons r hrest

theorem readRule_like {t u : Token} (r : R t u) {ts us : List Token}
    (hts : List.Forall₂ R ts us) :
    List.Forall₂ (Item.Like S) (readRule t ts).1 (readRule u us).1 ∧
      List.Forall₂ R (readRule t ts).2 (readRule u us).2 := by
  unfold readRule
  rw [h.kind r, h.value r, h.isName r]
  split
  · rename_i hk
    have hk' : t.kind = .directive := eq_of_beq (Bool.and_eq_true_iff.mp hk).1
    exact readDeclaredRule_like h (h.keepKind r hk' (by decide)) hts
  split
  · rename_i hname
    have hs := h.keepName r hname
    obtain ⟨hbody, hafter⟩ := body?_like h (afterAlias_like h hts)
    revert hbody hafter
    generalize body? (afterAlias ts) = read
    generalize body? (afterAlias us) = read'
    obtain ⟨body, after⟩ := read
    obtain ⟨body', after'⟩ := read'
    rintro (hbody | _) hafter
    · exact ⟨.cons (.rule ⟨hs, hs, rfl, rfl, .some hbody⟩) .nil, hafter⟩
    · exact ⟨.nil, hts⟩
  · exact ⟨.nil, hts⟩

theorem readItem_like (place : Section) {t u : Token} (r : R t u) {ts us : List Token}
    (hts : List.Forall₂ R ts us) :
    List.Forall₂ (Item.Like S) (readItem place t ts).1 (readItem place u us).1 ∧
      List.Forall₂ R (readItem place t ts).2 (readItem place u us).2 := by
  cases place with
  | declarations => exact readDeclaration_like h r hts
  | rules => exact readRule_like h r hts
  | epilogue => exact ⟨.nil, hts⟩

/-- Reading token lists that are alike gives items that are alike, and ends in the same section. -/
theorem readItems_like (place : Section) {ts us : List Token} (hts : List.Forall₂ R ts us) :
    List.Forall₂ (Item.Like S) (readItems place ts).1 (readItems place us).1 ∧
      (readItems place us).2 = (readItems place ts).2 := by
  fun_induction readItems place ts generalizing us with
  | case1 place =>
      cases hts
      rw [readItems]
      exact ⟨.nil, rfl⟩
  | case2 place t rest hend =>
      obtain _ | ⟨r, hrest⟩ := hts
      rw [readItems, if_pos (h.isEnd r ▸ hend)]
      exact ⟨.nil, rfl⟩
  | case3 place t rest hend hsep ih =>
      obtain _ | ⟨r, hrest⟩ := hts
      rw [readItems, if_neg (h.isEnd r ▸ hend), if_pos (h.kind r ▸ hsep)]
      exact ih hrest
  | case4 place t rest hend hsep ih =>
      obtain _ | ⟨r, hrest⟩ := hts
      rw [readItems, if_neg (h.isEnd r ▸ hend), if_neg (h.kind r ▸ hsep)]
      obtain ⟨hitems, hafter⟩ := readItem_like h place r hrest
      obtain ⟨hmore, hlast⟩ := ih hafter
      exact ⟨List.rel_append hitems hmore, hlast⟩

end Reading

end GrammarLens
