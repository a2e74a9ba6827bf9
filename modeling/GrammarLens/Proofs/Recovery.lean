import GrammarLens.Proofs.Consumption
import GrammarLens.Proofs.Written

/-! # Reading what was written

Reading the tokens of a well-formed grammar file gives back what the file means.  The lemmas follow
the tree: for each part, reading the tokens of the part and of whatever comes after it hands over
the items and uses of the part, and goes on exactly behind it.  Where a part may end early, because
an alias, a suffix, a type tag or a parenthesis is optional, what comes after it must not look like
the missing piece; `Fresh` is that condition, and every element, bar and semicolon meets it.

The main result is `ofTokens_written`. -/

namespace GrammarLens.Written

/-! ### Special characters -/

theorem isSpecial_mark (p : Place) {char chars : String} {answer : Bool}
    (h : occursIn char.toList chars.toList = answer) : (p.mark char).isSpecial chars = answer := h

theorem isSpecial_suffix (s : Suffix) : s.token.isSpecial "?*+" = true :=
  isSpecial_mark s.place (by cases s.repetition <;> decide)

theorem isSpecial_suffix_bracket (s : Suffix) : s.token.isSpecial "[" = false :=
  isSpecial_mark s.place (by cases s.repetition <;> decide)

theorem isSpecial_suffix_parenthesis (s : Suffix) : s.token.isSpecial "(" = false :=
  isSpecial_mark s.place (by cases s.repetition <;> decide)

/-! ### Blocks -/

theorem skipBalanced_inside {depth depth' : Nat} {inside : List Token}
    (h : openAfter depth inside = some depth') (last : Token) (rest : List Token) :
    ∃ last', skipBalanced "\x7b" "\x7d" (depth + 1) last (inside ++ rest) =
      skipBalanced "\x7b" "\x7d" (depth' + 1) last' rest := by
  induction inside generalizing depth last with
  | nil =>
      obtain rfl : depth = depth' := Option.some.inj h
      exact ⟨last, rfl⟩
  | cons t inside ih =>
      unfold openAfter at h
      rw [List.cons_append, skipBalanced]
      split at h
      · exact absurd h (by simp)
      · rename_i hend
        simp only [hend, Bool.false_eq_true, if_false]
        split at h
        · rename_i ho
          simp only [ho, if_true]
          exact ih h t
        · rename_i ho
          simp only [ho, Bool.false_eq_true, if_false]
          split at h
          · rename_i hc
            simp only [hc, if_true]
            cases depth with
            | zero => exact absurd h (by simp)
            | succ depth =>
                rw [if_neg (by omega)]
                exact ih h t
          · rename_i hc
            simp only [hc, Bool.false_eq_true, if_false]
            exact ih h t

theorem skipBalanced_block (b : Block) (last : Token) (rest : List Token) :
    skipBalanced "\x7b" "\x7d" 1 last (b.inside ++ b.closing.mark "\x7d" :: rest) =
      ⟨b.closing.mark "\x7d", rest⟩ := by
  have hc : (b.closing.mark "\x7d").isSpecial "\x7d" = true := isSpecial_mark _ (by decide)
  have ho : (b.closing.mark "\x7d").isSpecial "\x7b" = false := isSpecial_mark _ (by decide)
  obtain ⟨last', heq⟩ := skipBalanced_inside b.balanced last (b.closing.mark "\x7d" :: rest)
  rw [heq, skipBalanced]
  simp only [Token.isEnd_of_isSpecial hc, hc, ho, Bool.false_eq_true, if_false, if_true,
    Nat.le_refl]

/-! ### Calls -/

/-- An argument before what was read of other arguments. -/
def Argument.before (a : Argument) (read : Arguments) : Arguments :=
  ⟨a.text :: read.names, a.uses ++ read.uses, read.cursor⟩

/-- All arguments of a list, read up to a closing parenthesis. -/
def ArgumentList.read (as : ArgumentList) (closing : Token) (rest : List Token) : Arguments :=
  ⟨as.texts, as.uses, ⟨closing, rest⟩⟩

def MoreArguments.read (more : MoreArguments) (closing : Token) (rest : List Token) : Arguments :=
  ⟨more.texts, more.uses, ⟨closing, rest⟩⟩

theorem MoreArguments.noCall (more : MoreArguments) (closing : Place) (rest : List Token) :
    NoCall (more.tokens ++ closing.mark ")" :: rest) := by
  cases more with
  | nil =>
      rintro t ⟨⟩
      exact isSpecial_mark closing (by decide)
  | cons comma argument more =>
      rintro t ⟨⟩
      exact isSpecial_mark comma (by decide)

theorem arguments_closing (last : Token) (closing : Place) (rest : List Token) :
    arguments last (closing.mark ")" :: rest) = .stop ⟨closing.mark ")", rest⟩ :=
  arguments_close last rest (isSpecial_mark closing (by decide))

mutual

theorem Argument.arguments_tokens (last : Token) {rest : List Token} (hr : NoCall rest) :
    (a : Argument) →
      ∃ last', arguments last (a.tokens ++ rest) = a.before (arguments last' rest)
  | .name w => by
      refine ⟨w.name, ?_⟩
      exact arguments_name rfl rfl rfl rfl hr
  | .literal w => ⟨w.literal, arguments_literal last rest rfl⟩
  | .call f opening arguments closing => by
      refine ⟨closing.mark ")", ?_⟩
      have inner := ArgumentList.arguments_tokens (opening.mark "(") closing rest arguments
      rw [Argument.tokens, List.cons_append, List.cons_append, List.append_assoc,
        List.singleton_append, arguments_call rfl rfl rfl rfl (isSpecial_mark opening (by decide)),
        inner]
      simp only [Arguments.consCall, ArgumentList.read, Argument.before, Argument.uses,
        Argument.text, List.append_assoc, List.singleton_append]
      rfl

theorem ArgumentList.arguments_tokens (last : Token) (closing : Place) (rest : List Token) :
    (as : ArgumentList) →
      arguments last (as.tokens ++ closing.mark ")" :: rest) = as.read (closing.mark ")") rest
  | .empty => arguments_closing last closing rest
  | .list first more => by
      obtain ⟨last', heq⟩ :=
        Argument.arguments_tokens last (more.noCall closing rest) first
      rw [ArgumentList.tokens, List.append_assoc, heq,
        MoreArguments.arguments_tokens last' closing rest more]
      rfl

theorem MoreArguments.arguments_tokens (last : Token) (closing : Place) (rest : List Token) :
    (more : MoreArguments) →
      arguments last (more.tokens ++ closing.mark ")" :: rest) = more.read (closing.mark ")") rest
  | .nil => arguments_closing last closing rest
  | .cons comma argument more => by
      obtain ⟨last', heq⟩ :=
        Argument.arguments_tokens (comma.mark ",") (more.noCall closing rest) argument
      rw [MoreArguments.tokens, List.cons_append, List.append_assoc,
        arguments_other last _ rfl (isSpecial_mark comma (by decide))
          (isSpecial_mark comma (by decide)) rfl nofun, heq,
        MoreArguments.arguments_tokens last' closing rest more]
      rfl

end

/-! ### What an element is not taken for -/

/-- The token does not go on with the element before it: it is no alias, call, suffix or type
tag. -/
structure Fresh (t : Token) : Prop where
  bracket : t.isSpecial "[" = false
  parenthesis : t.isSpecial "(" = false
  suffix : t.isSpecial "?*+" = false
  typeTag : t.kind ≠ .typeTag

/-- The first token, if there is one, does not go on with the element before it. -/
def StartsFresh (ts : List Token) : Prop := ∀ t ∈ ts.head?, Fresh t

theorem StartsFresh.noCall {ts : List Token} (h : StartsFresh ts) : NoCall ts :=
  fun t ht => (h t ht).parenthesis

theorem fresh_of_kind {t : Token} {k : Token.Kind} (h : t.kind = k) (hs : k ≠ .special)
    (ht : k ≠ .typeTag) : Fresh t :=
  ⟨Token.isSpecial_of_kind h hs, Token.isSpecial_of_kind h hs, Token.isSpecial_of_kind h hs, h ▸ ht⟩

theorem fresh_mark (p : Place) {char : String} (hb : occursIn char.toList ['['] = false)
    (hp : occursIn char.toList ['('] = false) (hs : occursIn char.toList ['?', '*', '+'] = false) :
    Fresh (p.mark char) :=
  ⟨isSpecial_mark p hb, isSpecial_mark p hp, isSpecial_mark p hs, nofun⟩

theorem skipIf_of_head {fits : Token → Bool} (last : Token) {ts : List Token}
    (h : ∀ t ∈ ts.head?, fits t = false) : (Cursor.mk last ts).skipIf fits = ⟨last, ts⟩ := by
  cases ts with
  | nil => rfl
  | cons t ts => simp only [Cursor.skipIf, h t rfl, Bool.false_eq_true, if_false]

theorem skipAlias_of_head (last : Token) {ts : List Token}
    (h : ∀ t ∈ ts.head?, t.isSpecial "[" = false) :
    (Cursor.mk last ts).skipAlias = ⟨last, ts⟩ := by
  cases ts with
  | nil => rfl
  | cons t ts => simp only [Cursor.skipAlias, h t rfl, Bool.false_eq_true, if_false]

theorem skipSuffix_written (suffix : Option Suffix) (last : Token) {rest : List Token}
    (h : StartsFresh rest) :
    ∃ last', (Cursor.mk last ((suffix.map Suffix.token).toList ++ rest)).skipSuffix =
      ⟨last', rest⟩ := by
  cases suffix with
  | none => exact ⟨last, skipIf_of_head last fun t ht => (h t ht).suffix⟩
  | some s =>
      refine ⟨s.token, ?_⟩
      simp only [Option.map_some, Option.toList_some, List.singleton_append, Cursor.skipSuffix,
        Cursor.skipIf, isSpecial_suffix, if_true]

theorem skipAlias_written (a : Alias) (last : Token) (rest : List Token) :
    (Cursor.mk last (a.tokens ++ rest)).skipAlias = ⟨a.closing.mark "]", rest⟩ := by
  have ho : (a.opening.mark "[").isSpecial "[" = true := isSpecial_mark _ (by decide)
  have hc : (a.closing.mark "]").isSpecial "]" = true := isSpecial_mark _ (by decide)
  have hn : a.name.name.isSpecial "]" = false := rfl
  simp only [Alias.tokens, List.cons_append, List.nil_append, Cursor.skipAlias, ho, if_true,
    skipThrough, Token.isEnd_of_isSpecial hc, hc, hn, Bool.false_eq_true, if_false]
  rfl

theorem skipEnding_written (alias? : Option Alias) (suffix : Option Suffix) (last : Token)
    {rest : List Token} (h : StartsFresh rest) :
    ∃ last', (Cursor.mk last (endingTokens alias? suffix ++ rest)).skipAlias.skipSuffix =
      ⟨last', rest⟩ := by
  cases alias? with
  | none =>
      have hhead : ∀ t ∈ ((suffix.map Suffix.token).toList ++ rest).head?,
          t.isSpecial "[" = false := by
        cases suffix with
        | none => exact fun t ht => (h t ht).bracket
        | some s =>
            rintro t ⟨⟩
            exact isSpecial_suffix_bracket s
      rw [endingTokens, Option.elim_none, List.nil_append, skipAlias_of_head last hhead]
      exact skipSuffix_written suffix last h
  | some a =>
      rw [endingTokens, Option.elim_some, List.append_assoc, skipAlias_written a last]
      exact skipSuffix_written suffix _ h

theorem endingTokens_noCall (alias? : Option Alias) (suffix : Option Suffix) {rest : List Token}
    (h : StartsFresh rest) : NoCall (endingTokens alias? suffix ++ rest) := by
  cases alias? with
  | some a =>
      rintro t ⟨⟩
      exact isSpecial_mark a.opening (by decide)
  | none =>
      cases suffix with
      | none => exact h.noCall
      | some s =>
          rintro t ⟨⟩
          exact isSpecial_suffix_parenthesis s

/-! ### Bodies -/

/-- One element of a body, which its first token does not end. -/
theorem readBody_cons (last t : Token) (ts : List Token) (hend : t.isEnd = false)
    (hsemi : t.isSpecial ";" = false) (hsep : t.kind ≠ .separator) {uses : List Use} {u : Token}
    {rest : List Token} (he : element t ts = (uses, ⟨u, rest⟩)) :
    readBody last (t :: ts) = prependUses uses (readBody u rest) := by
  rw [readBody, he]
  simp only [hend, hsemi, beq_false_of_ne hsep, Bool.false_eq_true, if_false]

theorem skipTypeTag_written (typeTag : Option Word) (last : Token) {rest : List Token}
    (h : StartsFresh rest) :
    ∃ last', (Cursor.mk last ((typeTag.map Word.tag).toList ++ rest)).skipTypeTag =
      ⟨last', rest⟩ := by
  cases typeTag with
  | none => exact ⟨last, skipIf_of_head last fun t ht => beq_false_of_ne (h t ht).typeTag⟩
  | some w => exact ⟨w.tag, rfl⟩

theorem element_block (b : Block) (typeTag : Option Word) {rest : List Token}
    (h : StartsFresh rest) :
    ∃ last', element (b.opening.mark "\x7b")
        (b.inside ++ b.closing.mark "\x7d" :: ((typeTag.map Word.tag).toList ++ rest)) =
      ([], ⟨last', rest⟩) := by
  obtain ⟨last', heq⟩ := skipTypeTag_written typeTag (b.closing.mark "\x7d") h
  refine ⟨last', ?_⟩
  rw [element_action _ (isSpecial_mark b.opening (by decide)), skipBalanced_block, heq]

theorem element_written_call (f : Word) (opening : Place) (as : ArgumentList) (closing : Place)
    (alias? : Option Alias) (suffix : Option Suffix) {rest : List Token} (h : StartsFresh rest) :
    ∃ last', element f.name (opening.mark "(" ::
        (as.tokens ++ closing.mark ")" :: (endingTokens alias? suffix ++ rest))) =
      (as.uses ++ [.call f.name (closing.mark ")") as.texts], ⟨last', rest⟩) := by
  obtain ⟨last', heq⟩ := skipEnding_written alias? suffix (closing.mark ")") h
  refine ⟨last', ?_⟩
  rw [element_call rfl (isSpecial_mark opening (by decide)), as.arguments_tokens]
  simp only [ArgumentList.read, heq]

theorem Element.readBody_tokens (e : Element) (last : Token) {rest : List Token}
    (h : StartsFresh rest) :
    ∃ last', readBody last (e.tokens ++ rest) = prependUses e.uses (readBody last' rest) := by
  cases e with
  | name w alias? suffix =>
      obtain ⟨last', heq⟩ := skipEnding_written alias? suffix w.name h
      refine ⟨last', ?_⟩
      rw [Element.tokens, List.cons_append]
      refine readBody_cons last w.name _ rfl rfl nofun ?_
      rw [element_name (t := w.name) rfl (endingTokens_noCall alias? suffix h), heq]
      rfl
  | literal w suffix =>
      obtain ⟨last', heq⟩ := skipSuffix_written suffix w.literal h
      refine ⟨last', ?_⟩
      rw [Element.tokens, List.cons_append]
      refine readBody_cons last w.literal _ rfl rfl nofun ?_
      rw [element_literal (t := w.literal) _ rfl, heq]
      rfl
  | string w =>
      refine ⟨w.string, readBody_cons last w.string rest rfl rfl nofun ?_⟩
      exact element_other rest rfl nofun rfl nofun
  | action block typeTag =>
      obtain ⟨last', heq⟩ := element_block block typeTag h
      refine ⟨last', ?_⟩
      rw [Element.tokens, Block.tokens, List.cons_append, List.cons_append, List.append_assoc,
        List.append_assoc, List.singleton_append]
      exact readBody_cons last (block.opening.mark "\x7b") _ rfl
        (isSpecial_mark block.opening (by decide)) nofun heq
  | precedence directive operand =>
      refine ⟨operand.token, readBody_cons last (directive.directive "%prec") _ rfl rfl nofun ?_⟩
      refine element_precedence rest rfl rfl ?_
      cases operand with
      | name w => exact .inl rfl
      | literal w => exact .inr rfl
  | empty directive =>
      refine ⟨directive.directive "%empty",
        readBody_cons last (directive.directive "%empty") rest rfl rfl nofun ?_⟩
      exact element_directive rest rfl (show "%empty" ≠ "%prec" by decide)
  | call f opening arguments closing alias? suffix =>
      obtain ⟨last', heq⟩ := element_written_call f opening arguments closing alias? suffix h
      refine ⟨last', ?_⟩
      rw [Element.tokens, List.cons_append, List.cons_append, List.append_assoc, List.cons_append]
      exact readBody_cons last f.name _ rfl rfl nofun heq

theorem Element.startsFresh (e : Element) (rest : List Token) :
    StartsFresh (e.tokens ++ rest) := by
  cases e with
  | action block typeTag =>
      rintro t ⟨⟩
      exact fresh_mark block.opening (by decide) (by decide) (by decide)
  | _ =>
      rintro t ⟨⟩
      exact fresh_of_kind rfl nofun nofun

theorem startsFresh_elements (es : List Element) {rest : List Token} (h : StartsFresh rest) :
    StartsFresh (es.flatMap Element.tokens ++ rest) := by
  cases es with
  | nil => exact h
  | cons e es =>
      rw [List.flatMap_cons, List.append_assoc]
      exact e.startsFresh _

theorem prependUses_prependUses (uses uses' : List Use) (read : List Use × Cursor) :
    prependUses uses (prependUses uses' read) = prependUses (uses ++ uses') read := by
  simp only [prependUses, List.append_assoc]

theorem readBody_elements (es : List Element) (last : Token) {rest : List Token}
    (h : StartsFresh rest) :
    ∃ last', readBody last (es.flatMap Element.tokens ++ rest) =
      prependUses (es.flatMap Element.uses) (readBody last' rest) := by
  induction es generalizing last with
  | nil => exact ⟨last, rfl⟩
  | cons e es ih =>
      obtain ⟨last', heq⟩ := e.readBody_tokens last (startsFresh_elements es h)
      obtain ⟨last'', heq'⟩ := ih last'
      refine ⟨last'', ?_⟩
      rw [List.flatMap_cons, List.append_assoc, heq, heq', prependUses_prependUses,
        List.flatMap_cons]

theorem readBody_bar (last : Token) (bar : Place) (ts : List Token) :
    readBody last (bar.mark "|" :: ts) = readBody (bar.mark "|") ts :=
  readBody_cons last (bar.mark "|") ts rfl (isSpecial_mark bar (by decide)) nofun
    (element_other ts (isSpecial_mark bar (by decide)) nofun rfl nofun)

theorem readBody_semicolon (last : Token) (semicolon : Place) (ts : List Token) :
    readBody last (semicolon.mark ";" :: ts) = ([], ⟨semicolon.mark ";", ts⟩) := by
  have hs : (semicolon.mark ";").isSpecial ";" = true := isSpecial_mark semicolon (by decide)
  rw [readBody]
  simp only [Token.isEnd_of_isSpecial hs, hs, Bool.false_eq_true, if_false, if_true]

theorem startsFresh_more (more : List (Place × List Element)) (semicolon : Place)
    (rest : List Token) :
    StartsFresh (Alternatives.moreTokens more ++ semicolon.mark ";" :: rest) := by
  cases more with
  | nil =>
      rintro t ⟨⟩
      exact fresh_mark semicolon (by decide) (by decide) (by decide)
  | cons alternative more =>
      rintro t ⟨⟩
      exact fresh_mark alternative.1 (by decide) (by decide) (by decide)

theorem readBody_more (more : List (Place × List Element)) (last : Token) (semicolon : Place)
    (rest : List Token) :
    readBody last (Alternatives.moreTokens more ++ semicolon.mark ";" :: rest) =
      ((more.flatMap Prod.snd).flatMap Element.uses, ⟨semicolon.mark ";", rest⟩) := by
  induction more generalizing last with
  | nil => exact readBody_semicolon last semicolon rest
  | cons alternative more ih =>
      obtain ⟨last', heq⟩ := readBody_elements alternative.2 (alternative.1.mark "|")
        (startsFresh_more more semicolon rest)
      have hsplit : Alternatives.moreTokens (alternative :: more) ++ semicolon.mark ";" :: rest =
          alternative.1.mark "|" :: (alternative.2.flatMap Element.tokens ++
            (Alternatives.moreTokens more ++ semicolon.mark ";" :: rest)) := by
        simp only [Alternatives.moreTokens, List.flatMap_cons, List.cons_append, List.append_assoc]
      rw [hsplit, readBody_bar, heq, ih last', prependUses, List.flatMap_cons, List.flatMap_append]

theorem Alternatives.readBody_tokens (a : Alternatives) (last : Token) (rest : List Token) :
    readBody last (a.tokens ++ rest) = (a.body.uses, ⟨a.body.last, rest⟩) := by
  obtain ⟨last', heq⟩ := readBody_elements a.first last (startsFresh_more a.more a.semicolon rest)
  rw [Alternatives.tokens, List.append_assoc, List.append_assoc, List.singleton_append, heq,
    readBody_more, prependUses, ← List.flatMap_append]
  rfl

/-! ### Rules -/

theorem body?_written (colon : Place) (a : Alternatives) (rest : List Token) :
    body? (colon.mark ":" :: (a.tokens ++ rest)) = (some a.body, rest) := by
  have hc : (colon.mark ":").isSpecial ":" = true := isSpecial_mark colon (by decide)
  simp only [body?, hc, if_true, a.readBody_tokens]

theorem afterAlias_written (alias? : Option Alias) (colon : Place) (rest : List Token) :
    afterAlias (alias?.elim [] Alias.tokens ++ colon.mark ":" :: rest) = colon.mark ":" :: rest := by
  cases alias? with
  | none =>
      have hc : (colon.mark ":").isSpecial "[" = false := isSpecial_mark colon (by decide)
      simp only [Option.elim_none, List.nil_append, afterAlias, hc, Bool.false_eq_true, if_false]
  | some a =>
      have ho : (a.opening.mark "[").isSpecial "[" = true := isSpecial_mark _ (by decide)
      have hn : (a.name.name.value != "]") = true := bne_iff_ne.mpr a.no_bracket
      have hc : ((a.closing.mark "]").value != "]") = false := rfl
      simp only [Option.elim_some, Alias.tokens, List.cons_append, List.nil_append, afterAlias, ho,
        if_true, List.dropWhile_cons, hn, hc, Bool.false_eq_true, if_false, List.drop_succ_cons,
        List.drop_zero]

theorem PlainRule.readRule_tokens (r : PlainRule) (rest : List Token) :
    readRule r.name.name (r.alias?.elim [] Alias.tokens ++
        r.colon.mark ":" :: (r.alternatives.tokens ++ rest)) = ([r.item], rest) := by
  have hk : r.name.name.kind = .identifier := rfl
  simp only [readRule, Token.isName, hk, afterAlias_written, body?_written]
  rfl

theorem skipThrough_written {closes : Token → Bool} {inside : List Token}
    (h : ∀ t ∈ inside, t.isEnd = false ∧ closes t = false) {u : Token}
    (hend : u.isEnd = false) (hc : closes u = true) (last : Token) (rest : List Token) :
    skipThrough closes last (inside ++ u :: rest) = ⟨u, rest⟩ := by
  induction inside generalizing last with
  | nil => simp only [List.nil_append, skipThrough, hend, hc, Bool.false_eq_true, if_false, if_true]
  | cons t inside ih =>
      obtain ⟨ht, hrest⟩ := List.forall_mem_cons.mp h
      simp only [List.cons_append, skipThrough, ht.1, ht.2, Bool.false_eq_true, if_false]
      exact ih hrest t

theorem Parameters.inside_open (ps : Parameters) :
    ∀ t ∈ ps.inside, t.isEnd = false ∧ t.isSpecial ")" = false := by
  obtain ⟨opening, names, closing⟩ := ps
  cases names with
  | none => exact List.forall_mem_nil _
  | some names =>
      refine List.forall_mem_cons.mpr ⟨⟨rfl, rfl⟩, fun t ht => ?_⟩
      obtain ⟨more, -, ht⟩ := List.mem_flatMap.mp ht
      rcases List.mem_cons.mp ht with rfl | ht
      · exact ⟨rfl, isSpecial_mark more.1 (by decide)⟩
      · rw [List.mem_singleton.mp ht]
        exact ⟨rfl, rfl⟩

theorem Parameters.names_inside (ps : Parameters) :
    (ps.inside.filter (·.isName)).map (·.value) = ps.texts := by
  obtain ⟨opening, names, closing⟩ := ps
  cases names with
  | none => rfl
  | some names =>
      obtain ⟨first, more⟩ := names
      refine congrArg (first.text :: ·) ?_
      induction more with
      | nil => rfl
      | cons next more ih => exact congrArg (next.2.text :: ·) ih

theorem Parameters.readParameters_tokens (ps : Parameters) (opening : Token) (rest : List Token) :
    readParameters opening (ps.inside ++ ps.closing.mark ")" :: rest) = (ps.texts, rest) := by
  have hc : (ps.closing.mark ")").isSpecial ")" = true := isSpecial_mark _ (by decide)
  have hin : ∀ t ∈ ps.inside, (!(t.isEnd || t.isSpecial ")")) = true := by
    intro t ht
    simp only [ps.inside_open t ht, Bool.or_self, Bool.not_false]
  rw [readParameters, skipThrough_written ps.inside_open (Token.isEnd_of_isSpecial hc) hc,
    List.takeWhile_append_of_pos hin, List.takeWhile_cons_of_neg (by simp [hc]), List.append_nil,
    ps.names_inside]

theorem parameters?_written (parameters : Option Parameters) {rest : List Token}
    (h : NoCall rest) :
    parameters? (parameters.elim [] Parameters.tokens ++ rest) =
      (parameters.map Parameters.texts, rest) := by
  cases parameters with
  | none =>
      cases rest with
      | nil => rfl
      | cons t rest =>
          simp only [Option.elim_none, List.nil_append, parameters?, h t rfl, Bool.false_eq_true,
            if_false, Option.map_none]
  | some ps =>
      have ho : (ps.opening.mark "(").isSpecial "(" = true := isSpecial_mark _ (by decide)
      simp only [Option.elim_some, Parameters.tokens, List.cons_append, List.append_assoc,
        List.nil_append, parameters?, ho, if_true, ps.readParameters_tokens, Option.map_some]

theorem typeTag?_written (typeTag : Option Word) {rest : List Token}
    (h : ∀ t ∈ rest.head?, t.kind ≠ .typeTag) :
    typeTag? ((typeTag.map Word.tag).toList ++ rest) = (typeTag.map Word.text, rest) := by
  cases typeTag with
  | some w => rfl
  | none =>
      cases rest with
      | nil => rfl
      | cons t rest =>
          simp only [Option.map_none, Option.toList_none, List.nil_append, typeTag?,
            beq_false_of_ne (h t rfl), Bool.false_eq_true, if_false]

theorem skipInline_written (inline : Option Place) (w : Word) (rest : List Token) :
    skipInline ((inline.map (·.directive "%inline")).toList ++ w.name :: rest) = w.name :: rest := by
  cases inline with
  | none => rfl
  | some p => rfl

theorem noCall_typeTag (typeTag : Option Word) (colon : Place) (rest : List Token) :
    NoCall ((typeTag.map Word.tag).toList ++ colon.mark ":" :: rest) := by
  cases typeTag with
  | none =>
      rintro t ⟨⟩
      exact isSpecial_mark colon (by decide)
  | some w =>
      rintro t ⟨⟩
      rfl

theorem DeclaredRule.readDeclaredRule_tokens (r : DeclaredRule) (rest : List Token) :
    readDeclaredRule r.first (r.moreTokens ++ rest) = ([r.item], rest) := by
  have hcolon : ∀ t ∈ (r.colon.mark ":" :: (r.alternatives.tokens ++ rest)).head?,
      t.kind ≠ .typeTag := by
    rintro t ⟨⟩
    exact nofun
  have hsplit : r.moreTokens ++ rest = (r.inline.map (·.directive "%inline")).toList ++
      r.name.name :: (r.parameters.elim [] Parameters.tokens ++ ((r.typeTag.map Word.tag).toList ++
        r.colon.mark ":" :: (r.alternatives.tokens ++ rest))) := by
    simp only [DeclaredRule.moreTokens, List.append_assoc, List.cons_append]
  have hn : r.name.name.isName = true := rfl
  rw [hsplit, readDeclaredRule, skipInline_written]
  simp only [hn, if_true, parameters?_written r.parameters (noCall_typeTag r.typeTag r.colon _),
    typeTag?_written r.typeTag hcolon, body?_written]
  rfl

/-! ### Declarations -/

/-- The first token, if there is one, ends a list before it. -/
def EndsLists (ts : List Token) : Prop := ∀ t ∈ ts.head?, t.endsList = true

theorem listed_written {entries rest : List Token} (h : ∀ t ∈ entries, t.endsList = false)
    (hr : EndsLists rest) : listed (entries ++ rest) = (entries, rest) := by
  have hin : ∀ t ∈ entries, (!t.endsList) = true := fun t ht => by rw [h t ht]; rfl
  rw [listed, List.takeWhile_append_of_pos hin, List.dropWhile_append_of_pos hin]
  cases rest with
  | nil => rw [List.takeWhile_nil, List.append_nil, List.dropWhile_nil]
  | cons t rest =>
      simp only [List.takeWhile_cons, List.dropWhile_cons, hr t rfl, Bool.not_true,
        Bool.false_eq_true, if_false, List.append_nil]

theorem kind_ne_typeTag_of_endsList {t : Token} (h : t.endsList = true) : t.kind ≠ .typeTag := by
  intro hk
  simp [Token.endsList, Token.isEnd, hk] at h

theorem Entry.endsList (e : Entry) : e.token.endsList = false := by
  cases e <;> rfl

theorem Operand.endsList (o : Operand) : o.token.endsList = false := by
  cases o <;> rfl

theorem symbols_entries (entries : List Entry) (kind : Symbol.Kind) (typeTag : Option String) :
    ((entries.map Entry.token).filter (·.isName)).map (Item.symbol · kind typeTag) =
      (entries.filterMap Entry.declared).map fun w => .symbol w.name kind typeTag := by
  induction entries with
  | nil => rfl
  | cons e entries ih =>
      cases e with
      | name w => exact congrArg (Item.symbol w.name kind typeTag :: ·) ih
      | literal w => exact ih
      | string w => exact ih

theorem readSymbols_written (kind : Symbol.Kind) (typeTag : Option Word) (entries : List Entry)
    {rest : List Token} (h : EndsLists rest) :
    readSymbols kind ((typeTag.map Word.tag).toList ++ (entries.map Entry.token ++ rest)) =
      ((entries.filterMap Entry.declared).map fun w =>
        .symbol w.name kind (Declaration.effectiveTag typeTag), rest) := by
  have hentries : ∀ t ∈ entries.map Entry.token, t.endsList = false := by
    intro t ht
    obtain ⟨e, -, rfl⟩ := List.mem_map.mp ht
    exact e.endsList
  have hhead : ∀ t ∈ (entries.map Entry.token ++ rest).head?, t.kind ≠ .typeTag := by
    cases entries with
    | nil => exact fun t ht => kind_ne_typeTag_of_endsList (h t ht)
    | cons e entries =>
        rintro t ⟨⟩
        cases e <;> exact nofun
  simp only [readSymbols, typeTag?_written typeTag hhead, listed_written hentries h,
    symbols_entries]
  rfl

theorem readOperators_written (operands : List Operand) {rest : List Token} (h : EndsLists rest) :
    readOperators (operands.map Operand.token ++ rest) =
      (operands.map fun o => .symbol o.token .token none, rest) := by
  have hlist : ∀ t ∈ operands.map Operand.token, t.endsList = false := by
    intro t ht
    obtain ⟨o, -, rfl⟩ := List.mem_map.mp ht
    exact o.endsList
  have hnamed : ∀ t ∈ operands.map Operand.token,
      (t.isName || t.kind == .character) = true := by
    intro t ht
    obtain ⟨o, -, rfl⟩ := List.mem_map.mp ht
    cases o <;> rfl
  simp only [readOperators, listed_written hlist h, List.filter_eq_self.mpr hnamed, List.map_map]
  rfl

theorem skipCode_written (b : Block) (rest : List Token) : skipCode (b.tokens ++ rest) = rest := by
  have ho : (b.opening.mark "\x7b").isSpecial "\x7b" = true := isSpecial_mark _ (by decide)
  simp only [Block.tokens, List.cons_append, List.append_assoc, List.nil_append, skipCode,
    Token.isEnd_of_isSpecial ho, ho, Bool.false_eq_true, if_false, if_true, skipBalanced_block]

theorem Declaration.readDeclaration_tokens (d : Declaration) {rest : List Token}
    (h : EndsLists rest) : readDeclaration d.first (d.moreTokens ++ rest) = (d.items, rest) := by
  have hk (p : Place) (word : String) : ((p.directive word).kind == .directive) = true := rfl
  have hv (p : Place) (word : String) : (p.directive word).value = word := rfl
  cases d with
  | symbols directive word typeTag entries =>
      have hword : GrammarLens.Declaration.ofDirective? word.text = some (.symbols word.kind) := by
        cases word <;> rfl
      simp only [Declaration.first, Declaration.moreTokens, List.append_assoc, readDeclaration, hk,
        hv, hword, if_true]
      exact readSymbols_written word.kind typeTag entries h
  | start directive w => rfl
  | operators directive word operands =>
      have hword : GrammarLens.Declaration.ofDirective? word.text = some .operators := by
        cases word <;> rfl
      simp only [Declaration.first, Declaration.moreTokens, readDeclaration, hk, hv, hword, if_true]
      exact readOperators_written operands h
  | code directive word block =>
      have hword : GrammarLens.Declaration.ofDirective? word.text = some .code := by
        cases word <;> rfl
      simp only [Declaration.first, Declaration.moreTokens, readDeclaration, hk, hv, hword, if_true,
        skipCode_written]
      rfl
  | prologue opening inside closing no_end =>
      have hin : ∀ t ∈ inside, t.isEnd = false ∧ (t.kind == .prologueEnd) = false :=
        fun t ht => ⟨(no_end t ht).1, beq_false_of_ne (no_end t ht).2⟩
      have hskip := skipThrough_written hin (u := closing.token .prologueEnd "%\x7d") rfl rfl
        (opening.token .prologueStart "%\x7b") rest
      rw [Declaration.first, Declaration.moreTokens, List.append_assoc, List.singleton_append]
      exact congrArg (fun c : Cursor => ([], c.rest)) hskip
  | rule r =>
      have hword : GrammarLens.Declaration.ofDirective? "%rule" = some .rule := rfl
      simp only [Declaration.first, Declaration.moreTokens, DeclaredRule.first, readDeclaration, hk,
        hv, hword, if_true]
      exact r.readDeclaredRule_tokens rest

/-! ### Items -/

theorem prependItems_prependItems (items items' : List Item) (read : List Item × Section) :
    prependItems items (prependItems items' read) = prependItems (items ++ items') read := by
  simp only [prependItems, List.append_assoc]

theorem readItems_cons (place : Section) {t : Token} {ts : List Token} (hend : t.isEnd = false)
    (hsep : t.kind ≠ .separator) {items : List Item} {rest : List Token}
    (h : readItem place t ts = (items, rest)) :
    readItems place (t :: ts) = prependItems items (readItems place rest) := by
  rw [readItems, h]
  simp only [hend, beq_false_of_ne hsep, Bool.false_eq_true, if_false]

theorem readItems_separator (place : Section) (p : Place) (ts : List Token) :
    readItems place (p.separator :: ts) = readItems place.next ts := by
  have hk : p.separator.kind = .separator := rfl
  rw [readItems]
  simp only [Token.isEnd, hk, beq_self_eq_true, if_true]
  rfl

theorem Declaration.first_spec (d : Declaration) :
    d.first.isEnd = false ∧ d.first.kind ≠ .separator ∧ d.first.endsList = true := by
  cases d <;> exact ⟨rfl, nofun, rfl⟩

theorem Declaration.readItems_tokens (d : Declaration) {rest : List Token} (h : EndsLists rest) :
    readItems .declarations (d.tokens ++ rest) =
      prependItems d.items (readItems .declarations rest) :=
  readItems_cons .declarations d.first_spec.1 d.first_spec.2.1 (d.readDeclaration_tokens h)

theorem endsLists_declarations (ds : List Declaration) (separator : Place) (rest : List Token) :
    EndsLists (ds.flatMap Declaration.tokens ++ separator.separator :: rest) := by
  cases ds with
  | nil =>
      rintro t ⟨⟩
      rfl
  | cons d ds =>
      rintro t ⟨⟩
      exact d.first_spec.2.2

theorem readItems_declarations (ds : List Declaration) (separator : Place) (rest : List Token) :
    readItems .declarations (ds.flatMap Declaration.tokens ++ separator.separator :: rest) =
      prependItems (ds.flatMap Declaration.items) (readItems .rules rest) := by
  induction ds with
  | nil => exact readItems_separator .declarations separator rest
  | cons d ds ih =>
      rw [List.flatMap_cons, List.append_assoc,
        d.readItems_tokens (endsLists_declarations ds separator rest), ih,
        prependItems_prependItems, List.flatMap_cons]

theorem Production.readItems_tokens (p : Production) (rest : List Token) :
    readItems .rules (p.tokens ++ rest) = prependItems [p.item] (readItems .rules rest) := by
  cases p with
  | plain r =>
      rw [Production.tokens, PlainRule.tokens, List.cons_append, List.append_assoc, List.cons_append]
      exact readItems_cons .rules (t := r.name.name) rfl nofun (r.readRule_tokens rest)
  | declared r =>
      exact readItems_cons .rules (t := r.first) rfl nofun (r.readDeclaredRule_tokens rest)

theorem readItems_rules (ps : List Production) (rest : List Token) :
    readItems .rules (ps.flatMap Production.tokens ++ rest) =
      prependItems (ps.map Production.item) (readItems .rules rest) := by
  induction ps with
  | nil => rfl
  | cons p ps ih =>
      rw [List.flatMap_cons, List.append_assoc, p.readItems_tokens, ih, prependItems_prependItems]
      rfl

/-- The epilogue says nothing, whatever it holds. -/
theorem readItems_epilogue (ts : List Token) : readItems .epilogue ts = ([], .epilogue) := by
  induction ts with
  | nil => rw [readItems]
  | cons t ts ih =>
      rw [readItems]
      split
      · rfl
      · split
        · exact ih
        · rw [readItem, ih]
          rfl

theorem File.readItems_closing (f : File) :
    readItems .rules f.closingTokens = ([], f.lastSection) := by
  obtain ⟨declarations, separator, rules, epilogue, stop⟩ := f
  cases epilogue with
  | some e =>
      simp only [File.closingTokens, Option.elim_some, List.cons_append, readItems_separator]
      exact readItems_epilogue _
  | none =>
      cases stop with
      | none => exact readItems.eq_1 .rules
      | some p =>
          simp only [File.closingTokens, Option.elim_none, List.nil_append, Option.map_some,
            Option.toList_some]
          rw [readItems]
          rfl

theorem File.readItems_tokens (f : File) :
    readItems .declarations f.tokens = (f.items, f.lastSection) := by
  rw [File.tokens, readItems_declarations, readItems_rules, f.readItems_closing,
    prependItems_prependItems]
  simp only [prependItems, List.append_nil, File.items]

end GrammarLens.Written
