import GrammarLens.Proofs.BodyPlaces
import Mathlib.Data.Fintype.EquivFin

/-! # Names in square brackets

A name in a body, and a call, may be followed by an alias in square brackets.  An alias is no use of
a symbol: whatever stands between the brackets, the body reads the same (`AliasAt.ending_split`).

Reading steps over brackets in this way just behind an element that is a name or a call.  Behind the
operand of `%prec`, which ends its element, and everywhere in the arguments of a call it does not:
there a name between the brackets is a use like any other (`AliasAt.records`).  A group without a
name among the arguments hides what stands in it, but brackets do not shield it: parentheses between
them close the group, and a name behind those is a use. -/

namespace GrammarLens

/-- A pair of square brackets. -/
structure Brackets where
  opening : Token
  closing : Token
  opens : opening.kind = .special ∧ opening.value = "["
  closes : closing.kind = .special ∧ closing.value = "]"

/-- The tokens can stand in brackets: none of them closes the brackets or ends the input. -/
def Enclosed (inside : List Token) : Prop := ∀ t ∈ inside, t.isEnd = false ∧ t.isSpecial "]" = false

namespace Brackets

variable (b : Brackets)

/-- The brackets with some tokens between them. -/
def around (inside : List Token) : List Token := b.opening :: (inside ++ [b.closing])

theorem isSpecial_opening (chars : String) :
    b.opening.isSpecial chars = occursIn ['['] chars.toList := by
  rw [Token.isSpecial, b.opens.1, b.opens.2]
  rfl

theorem isSpecial_closing (chars : String) :
    b.closing.isSpecial chars = occursIn [']'] chars.toList := by
  rw [Token.isSpecial, b.closes.1, b.closes.2]
  rfl

theorem isEnd_opening : b.opening.isEnd = false := Token.isEnd_of_kind b.opens.1 (by decide)

theorem isEnd_closing : b.closing.isEnd = false := Token.isEnd_of_kind b.closes.1 (by decide)

theorem isName_opening : b.opening.isName = false := by
  rw [Token.isName, b.opens.1]
  rfl

/-- Brackets behind a name are stepped over, whatever stands between them. -/
theorem skipAlias_around {inside : List Token} (h : Enclosed inside) (last : Token)
    (after : List Token) :
    (Cursor.mk last (b.around inside ++ after)).skipAlias = ⟨b.closing, after⟩ := by
  have hopen : b.opening.isSpecial "[" = true := b.isSpecial_opening "["
  rw [around, List.cons_append, List.append_assoc, Cursor.skipAlias]
  simp only [hopen, if_true]
  exact Written.skipThrough_written h b.isEnd_closing (b.isSpecial_closing "]") b.opening after

end Brackets

/-! ### Where brackets can stand -/

/-- What stands at a place in a body. -/
inductive Level where
  /-- The end of an element that is a name or a call. -/
  | ending
  /-- The start of an element. -/
  | element
  /-- The arguments of a call. -/
  | argument
deriving DecidableEq, Repr

/-- Reading a body from `ts` comes to the tokens `rest` at a level. -/
inductive AliasAt (ts : List Token) : Level → List Token → Prop
  | name {t : Token} {rest : List Token} (h : ElementAt ts (t :: rest)) (hname : t.isName = true)
      (hcall : NoCall rest) : AliasAt ts .ending rest
  | call {t next : Token} {inside : List Token} (h : ElementAt ts (t :: next :: inside))
      (hname : t.isName = true) (hcall : next.isSpecial "(" = true) :
      AliasAt ts .ending (arguments next inside).cursor.rest
  | start {rest : List Token} (h : ElementAt ts rest) : AliasAt ts .element rest
  | argument {depth : Nat} {rest : List Token} (h : ArgumentAt ts depth rest) :
      AliasAt ts .argument rest

/-- At the end of a name or a call, an alias and a sign of repetition are stepped over. -/
theorem AliasAt.ending_split {ts rest : List Token} (h : AliasAt ts .ending rest) (last : Token) :
    ∃ taken uses l, ts = taken ++ rest ∧ ∀ rest', rest'.head? = rest.head? →
      readBody last (taken ++ rest') =
        prependUses uses (readBody (Cursor.mk l rest').skipAlias.skipSuffix.last
          (Cursor.mk l rest').skipAlias.skipSuffix.rest) := by
  cases h with
  | @name t _ hat hname hcall =>
      obtain ⟨taken, uses, l, rfl, hread⟩ := hat.split last
      refine ⟨taken ++ [t], uses ++ [.name t], t, by simp, fun rest' hhead => ?_⟩
      rw [List.append_assoc, List.singleton_append, hread (t :: rest') rfl,
        readBody_of_goes l rest' (Token.endsBody_of_isName hname),
        element_name hname (hcall.congr hhead), Written.prependUses_prependUses]
  | @call t next inside hat hname hcall =>
      obtain ⟨front, uses, l, rfl, hread⟩ := hat.split last
      obtain ⟨taken, hafter, hswap⟩ := arguments_looksAhead next inside
      refine ⟨front ++ t :: next :: taken, uses ++ (element t (next :: inside)).1,
        (arguments next inside).cursor.last, ?_, fun rest' hhead => ?_⟩
      · rw [List.append_assoc, List.cons_append, List.cons_append, ← hafter.split]
      · rw [List.append_assoc, List.cons_append, List.cons_append,
          hread (t :: next :: (taken ++ rest')) rfl,
          readBody_of_goes l _ (Token.endsBody_of_isName hname), element_call hname hcall,
          element_call hname hcall, hswap rest' hhead, Written.prependUses_prependUses]
        rfl

/-! ### Names between brackets that are not stepped over -/

/-- A number of closing parentheses. -/
def closings (depth : Nat) : List Token := List.replicate depth ⟨.special, ")", 0, 0, 1⟩

theorem enclosed_closings (depth : Nat) {t : Token} (hname : t.isName = true) :
    Enclosed (closings depth ++ [t]) := by
  intro u hu
  rcases List.mem_append.mp hu with hu | hu
  · rw [List.eq_of_mem_replicate hu]
    decide
  · rw [List.mem_singleton.mp hu]
    exact ⟨Token.isEnd_of_isName hname, Token.isSpecial_of_kind (eq_of_beq hname) (by decide)⟩

/-- A name behind the parentheses that close all groups is an argument. -/
theorem mem_argumentsIn_closings (depth : Nat) {t : Token} (hname : t.isName = true) (last : Token)
    {rest : List Token} (hcall : NoCall rest) :
    .name t ∈ (argumentsIn depth last (closings depth ++ t :: rest)).uses := by
  induction depth generalizing last with
  | zero =>
      have hspecial : ∀ chars, t.isSpecial chars = false :=
        fun _ => Token.isSpecial_of_kind (eq_of_beq hname) (by decide)
      have hread : argumentsIn 0 last (t :: rest) = .consName t (arguments t rest) :=
        arguments_name (Token.isEnd_of_isName hname) (hspecial ")") (hspecial "(") hname hcall
      rw [closings, List.replicate_zero, List.nil_append, hread]
      exact List.mem_cons_self
  | succ depth ih =>
      rw [closings, List.replicate_succ, List.cons_append,
        argumentsIn_closes (by decide) (by decide)]
      exact ih _

theorem Brackets.noCall_closing (b : Brackets) (after : List Token) :
    NoCall (b.closing :: after) := by
  rintro t ⟨⟩
  exact b.isSpecial_closing "("

/-- At the start of an element and among arguments, any name between the brackets is a use, behind as
many parentheses as close the groups that are open there. -/
theorem AliasAt.records {level : Level} {b : Brackets} {ts rest : List Token}
    (h : AliasAt ts level rest) (hlevel : level ≠ .ending) (hhead : rest.head? = some b.opening)
    (last : Token) (after : List Token) :
    ∃ taken depth, ts = taken ++ rest ∧ ∀ t : Token, t.isName = true →
      .name t ∈ (readBody last (taken ++ (b.around (closings depth ++ [t]) ++ after))).1 := by
  have hsame : ∀ inside, (b.around inside ++ after).head? = rest.head? := fun _ => hhead.symm
  cases h with
  | name | call => exact absurd rfl hlevel
  | start hat =>
      obtain ⟨taken, uses, l, hsplit, hread⟩ := hat.split last
      refine ⟨taken, 0, hsplit, fun t hname => ?_⟩
      have hgoes : b.opening.endsBody = false := by
        rw [Token.endsBody, b.isEnd_opening, b.isSpecial_opening, b.opens.1]
        decide
      have hopen : element b.opening (t :: b.closing :: after) = ([], ⟨b.opening, _⟩) :=
        element_other _ (b.isSpecial_opening "\x7b") (by rw [b.opens.1]; decide) b.isName_opening
          (by rw [b.opens.1]; decide)
      rw [hread _ (hsame _)]
      show _ ∈ uses ++ (readBody l (b.opening :: t :: b.closing :: after)).1
      rw [readBody_of_goes l _ hgoes, hopen, readBody_of_goes _ _ (Token.endsBody_of_isName hname),
        element_name hname (b.noCall_closing after)]
      simp [prependUses]
  | @argument depth _ hat =>
      obtain ⟨taken, l, hsplit, hread⟩ := hat.split last
      refine ⟨taken, depth, hsplit, fun t hname => hread _ (hsame _) ?_⟩
      have hopen : b.opening.isSpecial "(" = false := b.isSpecial_opening "("
      have hclose : b.opening.isSpecial ")" = false := b.isSpecial_opening ")"
      rw [Brackets.around, List.cons_append, List.append_assoc, List.append_assoc]
      refine argumentsIn_other b.isEnd_opening hopen hclose ?_ l
        (mem_argumentsIn_closings depth hname b.opening (b.noCall_closing after))
      intro _ hname'
      rw [b.isName_opening] at hname'
      exact Bool.noConfusion hname'

/-- Some name is none of the tokens. -/
theorem exists_name_not_mem (ts : List Token) : ∃ t : Token, t.isName = true ∧ t ∉ ts := by
  obtain ⟨line, hline⟩ := Infinite.exists_notMem_finset (ts.map (·.line)).toFinset
  refine ⟨⟨.identifier, "", line, 0, 0⟩, rfl, fun hmem => hline ?_⟩
  exact List.mem_toFinset.mpr (List.mem_map_of_mem hmem)

theorem name_not_mem_readBody {t : Token} {ts : List Token} (h : t ∉ ts) (last : Token) :
    .name t ∉ (readBody last ts).1 := by
  intro hmem
  obtain ⟨taken, hafter, huses⟩ := readBody_from last ts
  have htaken : t ∈ taken := huses.named.subset (List.mem_map_of_mem (f := Use.token) hmem)
  rw [hafter.split] at h
  exact h (List.mem_append_left _ htaken)

/-- What stands between brackets in a body leaves no trace just where a name or a call ends: there
the body reads the same with all that can stand in the brackets.  Elsewhere, behind the operand of
`%prec` and among the arguments of a call at any depth, it does not. -/
theorem alias_traceless_iff {level : Level} {b : Brackets} {before inside after : List Token}
    (h : AliasAt (before ++ (b.around inside ++ after)) level (b.around inside ++ after))
    (last : Token) :
    (∀ other, Enclosed other → readBody last (before ++ (b.around other ++ after)) =
      readBody last (before ++ (b.around [] ++ after))) ↔ level = .ending := by
  constructor
  · intro hsame
    by_contra hlevel
    obtain ⟨taken, depth, hsplit, hrecords⟩ := h.records (b := b) hlevel rfl last after
    obtain rfl := List.append_cancel_right hsplit
    obtain ⟨t, hname, hfresh⟩ := exists_name_not_mem (before ++ (b.around [] ++ after))
    have huse := hrecords t hname
    rw [hsame _ (enclosed_closings depth hname)] at huse
    exact name_not_mem_readBody hfresh last huse
  · rintro rfl other hother
    obtain ⟨taken, uses, l, hsplit, hread⟩ := h.ending_split last
    obtain rfl := List.append_cancel_right hsplit
    have hempty : Enclosed [] := fun _ hmem => nomatch hmem
    rw [hread (b.around other ++ after) rfl, hread (b.around [] ++ after) rfl,
      b.skipAlias_around hother, b.skipAlias_around hempty]

/-- A name of one letter at a column. -/
def nameAt (letter : String) (column : Int) : Token := ⟨.identifier, letter, 0, column, 1⟩

/-- A special character at a column. -/
def markAt (char : String) (column : Int) : Token := ⟨.special, char, 0, column, 1⟩

/-- Brackets around one letter, from a column on. -/
def bracketsAt (column : Int) : Brackets :=
  ⟨markAt "[" column, markAt "]" (column + 2), ⟨rfl, rfl⟩, ⟨rfl, rfl⟩⟩

/-- The call `f(x)`, which `[y];` may follow. -/
def callTokens : List Token := [nameAt "f" 0, markAt "(" 1, nameAt "x" 2, markAt ")" 3]

theorem callTokens_alias_traceless :
    AliasAt (callTokens ++ ((bracketsAt 4).around [nameAt "y" 5] ++ [markAt ";" 7])) .ending
        ((bracketsAt 4).around [nameAt "y" 5] ++ [markAt ";" 7]) ∧
      ∀ last other, Enclosed other →
        readBody last (callTokens ++ ((bracketsAt 4).around other ++ [markAt ";" 7])) =
          readBody last (callTokens ++ ((bracketsAt 4).around [] ++ [markAt ";" 7])) := by
  have hrest : (arguments (markAt "(" 1) (callTokens.drop 2 ++
      ((bracketsAt 4).around [nameAt "y" 5] ++ [markAt ";" 7]))).cursor.rest =
        (bracketsAt 4).around [nameAt "y" 5] ++ [markAt ";" 7] := by decide +kernel
  have hat : AliasAt (callTokens ++ ((bracketsAt 4).around [nameAt "y" 5] ++ [markAt ";" 7]))
      .ending (arguments (markAt "(" 1) (callTokens.drop 2 ++
        ((bracketsAt 4).around [nameAt "y" 5] ++ [markAt ";" 7]))).cursor.rest :=
    .call .start rfl rfl
  rw [hrest] at hat
  exact ⟨hat, fun last => (alias_traceless_iff hat last).mpr rfl⟩

/-- A name in brackets behind an argument, as in `f(x[y]);`, is recorded as a use. -/
theorem argument_alias_recorded :
    ¬∀ (b : Brackets) (before inside after : List Token) (t last : Token), t.isName = true →
      ArgumentAt (before ++ t :: (b.around inside ++ after)) 0 (t :: (b.around inside ++ after)) →
      Enclosed inside →
      ∀ u ∈ inside, .name u ∉ (readBody last (before ++ t :: (b.around inside ++ after))).1 := by
  intro h
  have hat : ArgumentAt ([nameAt "f" 0, markAt "(" 1] ++ nameAt "x" 2 ::
      ((bracketsAt 3).around [nameAt "y" 4] ++ [markAt ")" 6, markAt ";" 7])) 0 _ :=
    .first .start rfl rfl
  have huse : ((readBody (nameAt "r" 0) ([nameAt "f" 0, markAt "(" 1] ++ nameAt "x" 2 ::
      ((bracketsAt 3).around [nameAt "y" 4] ++ [markAt ")" 6, markAt ";" 7]))).1.contains
        (.name (nameAt "y" 4))) = true := by decide +kernel
  exact h _ _ _ _ _ (nameAt "r" 0) rfl hat (enclosed_closings 0 rfl) _ List.mem_cons_self
    (List.contains_iff_mem.mp huse)

end GrammarLens
