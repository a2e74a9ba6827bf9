import GrammarLens.Proofs.Consumption

/-! # What is read before reading is given up

Reading that is given up has gone the way of reading with no limit: its uses are a beginning of the
uses in the rule that it breaks off, and its items come before that rule
(`overflow?_beginning`).  So placed tokens make `Table.recordOverflow` succeed, and nothing but the
nesting of calls is wrong with them.  Where there is room for as many calls as there are tokens,
reading is never given up. -/

namespace GrammarLens

/-! ### Room enough -/

theorem room_pos {room : Nat} {ts : List Token} (h : callOverflow? room ts = none) : 0 < room := by
  rcases Nat.eq_zero_or_pos room with rfl | hpos
  · rw [callOverflow?] at h
    cases h
  · exact hpos

theorem callOverflow?_eq_none {room : Nat} {ts : List Token} (h : ts.length < room) :
    callOverflow? room ts = none := by
  fun_induction callOverflow? room ts with
  | case1 => exact absurd h (Nat.not_lt_zero _)
  | case2 | case3 | case4 | case6 => rfl
  | case5 room t rest _ _ _ ih =>
      have := length_skipBalanced_le "(" ")" 1 t rest
      refine ih ?_
      rw [List.length_cons] at h
      omega
  | case7 room t _ _ _ _ next after _ uses heq ih =>
      rw [List.length_cons, List.length_cons] at h
      rw [ih (by omega)] at heq
      cases heq
  | case8 room t _ _ _ _ next after _ _ _ ih =>
      have := length_arguments_le next after
      rw [List.length_cons, List.length_cons] at h
      rw [ih (by omega), Option.map_none]
  | case9 room t _ _ _ _ next after _ ih =>
      rw [ih (Nat.lt_of_succ_lt h), Option.map_none]
  | case10 room t rest _ _ _ _ ih => exact ih (Nat.lt_of_succ_lt h)

theorem elementOverflow?_eq_none {limit : Nat} (t : Token) {rest : List Token}
    (h : rest.length ≤ limit) : elementOverflow? limit t rest = none := by
  cases rest with
  | nil => rfl
  | cons next inner =>
      rw [elementOverflow?]
      split
      · exact callOverflow?_eq_none h
      · rfl

theorem bodyOverflow?_eq_none {limit : Nat} {ts : List Token} (h : ts.length ≤ limit) :
    bodyOverflow? limit ts = none := by
  fun_induction bodyOverflow? limit ts with
  | case1 | case2 | case3 | case4 => rfl
  | case5 t rest _ _ _ uses heq =>
      rw [elementOverflow?_eq_none t (Nat.le_of_succ_le h)] at heq
      cases heq
  | case6 t rest _ _ _ _ ih =>
      have := length_element_le t rest
      rw [List.length_cons] at h
      rw [ih (by omega), Option.map_none]

theorem ruleOverflow?_eq_none {limit : Nat} (rule : Rule) {ts : List Token}
    (h : ts.length ≤ limit) : ruleOverflow? limit rule ts = none := by
  cases ts with
  | nil => rfl
  | cons t rest =>
      rw [ruleOverflow?, bodyOverflow?_eq_none (Nat.le_of_succ_le h)]
      split <;> rfl

theorem declaredRuleOverflow?_eq_none {limit : Nat} (directive : Token) {ts : List Token}
    (h : ts.length ≤ limit) : declaredRuleOverflow? limit directive ts = none := by
  have hinline := length_skipInline_le ts
  rw [declaredRuleOverflow?]
  cases hts : skipInline ts with
  | nil => rfl
  | cons name rest =>
      have h1 := length_parameters?_le rest
      have h2 := length_typeTag?_le (parameters? rest).2
      rw [hts, List.length_cons] at hinline
      have hlimit : (typeTag? (parameters? rest).2).2.length ≤ limit := by omega
      simp only [ruleOverflow?_eq_none _ hlimit, ite_self]

theorem itemOverflow?_eq_none {limit : Nat} (place : Section) (t : Token) {rest : List Token}
    (h : rest.length ≤ limit) : itemOverflow? limit place t rest = none := by
  have halias := length_afterAlias_le rest
  unfold itemOverflow?
  rw [declaredRuleOverflow?_eq_none t h, ruleOverflow?_eq_none _ (by omega)]
  repeat' split
  all_goals rfl

theorem overflow?_eq_none {limit : Nat} (place : Section) {ts : List Token}
    (h : ts.length ≤ limit) : overflow? limit place ts = none := by
  fun_induction overflow? limit place ts with
  | case1 | case2 => rfl
  | case3 place t rest _ _ ih => exact ih (Nat.le_of_succ_le h)
  | case4 place t rest _ _ overflow heq =>
      rw [itemOverflow?_eq_none place t (Nat.le_of_succ_le h)] at heq
      cases heq
  | case5 place t rest _ _ _ ih =>
      have := length_readItem_le place t rest
      rw [List.length_cons] at h
      rw [ih (by omega), Option.map_none]

/-! ### The beginning of what is read -/

theorem callOverflow?_beginning {room : Nat} {ts : List Token} {uses : List Use} (last : Token)
    (h : callOverflow? room ts = some uses) : uses <+: (arguments last ts).uses := by
  fun_induction callOverflow? room ts generalizing uses last with
  | case1 =>
      cases h
      exact List.nil_prefix
  | case2 | case3 | case4 | case6 => cases h
  | case5 room t rest _ hc ho ih =>
      rw [arguments_group last rest (by simpa using hc) ho]
      exact ih _ h
  | case7 room t he hc ho hn next after hr uses' heq ih =>
      cases h
      rw [arguments_call (by simpa using he) (by simpa using hc) (by simpa using ho) hn hr]
      exact (ih next heq).trans (List.prefix_append _ _)
  | case8 room t he hc ho hn next after hr _ _ ih =>
      obtain ⟨more, hmore, rfl⟩ := Option.map_eq_some_iff.mp h
      rw [arguments_call (by simpa using he) (by simpa using hc) (by simpa using ho) hn hr]
      rw [Arguments.usesOf, Arguments.consCall, List.append_assoc, List.singleton_append]
      exact (List.prefix_append_right_inj _).mpr (List.cons_prefix_cons.mpr ⟨rfl, ih _ hmore⟩)
  | case9 room t he hc ho hn next after hr ih =>
      obtain ⟨more, hmore, rfl⟩ := Option.map_eq_some_iff.mp h
      rw [arguments_name (by simpa using he) (by simpa using hc) (by simpa using ho) hn
        (by rintro u ⟨⟩; simpa using hr)]
      exact List.cons_prefix_cons.mpr ⟨rfl, ih t hmore⟩
  | case10 room t rest he hc ho hn ih =>
      by_cases hk : t.kind = .character
      · rw [arguments_literal last rest hk]
        exact ih t h
      · rw [arguments_other last rest (by simpa using he) (by simpa using hc) (by simpa using ho)
          (by simpa using hn) hk]
        exact ih t h

theorem elementOverflow?_beginning {limit : Nat} {t : Token} {rest : List Token} {uses : List Use}
    (h : elementOverflow? limit t rest = some uses) : uses <+: (element t rest).1 := by
  cases rest with
  | nil => cases h
  | cons next inner =>
      rw [elementOverflow?] at h
      split at h
      · rename_i hcall
        obtain ⟨hn, hnext⟩ := Bool.and_eq_true_iff.mp hcall
        rw [element_call hn hnext]
        exact (callOverflow?_beginning next h).trans (List.prefix_append _ _)
      · cases h

theorem bodyOverflow?_beginning {limit : Nat} {ts : List Token} {uses : List Use} (last : Token)
    (h : bodyOverflow? limit ts = some uses) : uses <+: (readBody last ts).1 := by
  fun_induction bodyOverflow? limit ts generalizing uses last with
  | case1 | case2 | case3 | case4 => cases h
  | case5 t rest hend hsemi hsep uses' heq =>
      cases h
      rw [readBody]
      simp only [hend, hsemi, hsep, Bool.false_eq_true, if_false]
      exact (elementOverflow?_beginning heq).trans (List.prefix_append _ _)
  | case6 t rest hend hsemi hsep _ ih =>
      obtain ⟨more, hmore, rfl⟩ := Option.map_eq_some_iff.mp h
      rw [readBody]
      simp only [hend, hsemi, hsep, Bool.false_eq_true, if_false]
      exact (List.prefix_append_right_inj _).mpr (ih _ hmore)

/-- The items are a rule whose uses begin with those that were read before it was given up. -/
def Overflow.Begins (overflow : Overflow) (items : List Item) : Prop :=
  overflow.items = [] ∧ ∃ body : Body,
    items = [.rule { overflow.rule with body := some body }] ∧ overflow.uses <+: body.uses

theorem ruleOverflow?_eq_some {limit : Nat} {rule : Rule} {ts : List Token} {overflow : Overflow}
    (h : ruleOverflow? limit rule ts = some overflow) :
    ∃ body uses, (body? ts).1 = some body ∧ overflow = ⟨[], rule, uses⟩ ∧ uses <+: body.uses := by
  cases ts with
  | nil => cases h
  | cons t rest =>
      rw [ruleOverflow?] at h
      split at h
      · rename_i hcolon
        obtain ⟨uses, huses, rfl⟩ := Option.map_eq_some_iff.mp h
        refine ⟨⟨(readBody t rest).1, (readBody t rest).2.last⟩, uses, ?_, rfl,
          bodyOverflow?_beginning t huses⟩
        simp only [body?, hcolon, if_true]
      · cases h

theorem declaredRuleOverflow?_begins {limit : Nat} {directive : Token} {ts : List Token}
    {overflow : Overflow} (h : declaredRuleOverflow? limit directive ts = some overflow) :
    overflow.Begins (readDeclaredRule directive ts).1 := by
  cases hts : skipInline ts with
  | nil =>
      rw [declaredRuleOverflow?, hts] at h
      cases h
  | cons name rest =>
      simp only [declaredRuleOverflow?, hts] at h
      by_cases hn : name.isName = true
      · rw [if_pos hn] at h
        obtain ⟨body, uses, hbody, rfl, huses⟩ := ruleOverflow?_eq_some h
        simp only [readDeclaredRule, hts, hn, hbody, if_true]
        exact ⟨rfl, body, rfl, huses⟩
      · rw [if_neg hn] at h
        cases h

theorem readItem_of_rule {place : Section} {t : Token} (rest : List Token)
    (hplace : place ≠ .epilogue) (h : (t.kind == .directive && t.value == "%rule") = true) :
    readItem place t rest = readDeclaredRule t rest := by
  obtain ⟨hk, hv⟩ := Bool.and_eq_true_iff.mp h
  cases place with
  | declarations =>
      simp only [readItem, readDeclaration, hk, eq_of_beq hv, Declaration.ofDirective?, if_true]
  | rules => simp only [readItem, readRule, h, if_true]
  | epilogue => exact absurd rfl hplace

/-- Reading is given up in a rule that a directive announces, or in one that starts with its name
in the section of rules. -/
theorem itemOverflow?_eq_some {limit : Nat} {place : Section} {t : Token} {rest : List Token}
    {overflow : Overflow} (h : itemOverflow? limit place t rest = some overflow) :
    (place ≠ .epilogue ∧ (t.kind == .directive && t.value == "%rule") = true ∧
        declaredRuleOverflow? limit t rest = some overflow) ∨
      (place = .rules ∧ ¬(t.kind == .directive && t.value == "%rule") = true ∧ t.isName = true ∧
        ruleOverflow? limit ⟨t, t, none, none, none⟩ (afterAlias rest) = some overflow) := by
  by_cases hrule : (t.kind == .directive && t.value == "%rule") = true
  · cases place with
    | declarations | rules =>
        rw [itemOverflow?, if_pos hrule] at h
        exact .inl ⟨by decide, hrule, h⟩
    | epilogue => cases h
  · cases place with
    | declarations =>
        rw [itemOverflow?, if_neg hrule] at h
        cases h
    | rules =>
        rw [itemOverflow?, if_neg hrule] at h
        by_cases hn : t.isName = true
        · rw [if_pos hn] at h
          exact .inr ⟨rfl, hrule, hn, h⟩
        · rw [if_neg hn] at h
          cases h
    | epilogue => cases h

theorem itemOverflow?_begins {limit : Nat} {place : Section} {t : Token} {rest : List Token}
    {overflow : Overflow} (h : itemOverflow? limit place t rest = some overflow) :
    overflow.Begins (readItem place t rest).1 := by
  rcases itemOverflow?_eq_some h with ⟨hplace, hrule, hover⟩ | ⟨rfl, hrule, hn, hover⟩
  · rw [readItem_of_rule rest hplace hrule]
    exact declaredRuleOverflow?_begins hover
  · obtain ⟨body, uses, hbody, rfl, huses⟩ := ruleOverflow?_eq_some hover
    refine ⟨rfl, body, ?_, huses⟩
    rw [readItem, readRule, if_neg hrule, if_pos hn]
    rcases hread : body? (afterAlias rest) with ⟨read, after⟩
    rw [hread] at hbody
    obtain rfl : read = some body := hbody
    rfl

/-- What is read before reading is given up is a beginning of what reading with no limit brings:
some items and, of the rule after them, the name with all that stands before its body, and the first
uses in it. -/
theorem overflow?_beginning {limit : Nat} {place : Section} {ts : List Token} {overflow : Overflow}
    (h : overflow? limit place ts = some overflow) :
    ∃ (body : Body) (more : List Item),
      (readItems place ts).1 =
        overflow.items ++ .rule { overflow.rule with body := some body } :: more ∧
      overflow.uses <+: body.uses := by
  fun_induction overflow? limit place ts generalizing overflow with
  | case1 | case2 => cases h
  | case3 place t rest hend hsep ih =>
      rw [readItems, if_neg hend, if_pos hsep]
      exact ih h
  | case4 place t rest hend hsep overflow' heq =>
      cases h
      obtain ⟨hitems, body, hread, huses⟩ := itemOverflow?_begins heq
      refine ⟨body, (readItems place (readItem place t rest).2).1, ?_, huses⟩
      rw [readItems, if_neg hend, if_neg hsep, prependItems, hread, hitems]
      rfl
  | case5 place t rest hend hsep _ ih =>
      obtain ⟨inner, hinner, rfl⟩ := Option.map_eq_some_iff.mp h
      obtain ⟨body, more, hread, huses⟩ := ih hinner
      refine ⟨body, more, ?_, huses⟩
      rw [readItems, if_neg hend, if_neg hsep, prependItems, hread, Overflow.after,
        List.append_assoc]

/-! ### Placed tokens -/

/-- If the tokens are placed, nothing that is read before reading is given up fails to be
recorded. -/
theorem recordOverflow_eq_ok {limit : Nat} {place : Section} {ts : List Token} {overflow : Overflow}
    (placed : ∀ t ∈ ts, t.Placed) (h : overflow? limit place ts = some overflow) :
    Table.empty.recordOverflow overflow = .ok () := by
  obtain ⟨body, more, hread, hbegin⟩ := overflow?_beginning h
  have hplaced : ∀ item ∈ (readItems place ts).1, ∀ t ∈ item.tokens, t.Placed :=
    fun item hitem t ht => placed t
      ((reads_readItems place ts).tokens_mem t (List.mem_flatMap_of_mem hitem ht))
  rw [hread] at hplaced
  have hrule := hplaced _ (List.mem_append_right _ List.mem_cons_self)
  have hitems : Table.empty.recordItems overflow.items = _ :=
    Table.recordItems_eq_run Table.empty fun t ht => by
      obtain ⟨item, hitem, ht⟩ := List.mem_flatMap.mp ht
      exact hplaced item (List.mem_append_left _ hitem) t ht
  have hname := Token.span_eq_place (hrule overflow.rule.name (by simp [Item.tokens]))
  have huses : ∀ t ∈ overflow.uses.flatMap Use.tokens, t.Placed := by
    intro t ht
    obtain ⟨use, huse, ht⟩ := List.mem_flatMap.mp ht
    refine hrule t ?_
    simp only [Item.tokens, Rule.uses, List.mem_cons]
    exact .inr (.inr (.inr (List.mem_flatMap_of_mem (hbegin.subset huse) ht)))
  obtain ⟨uses, huses, -⟩ := placedUses_eq_ok (overflow.rule.parameters.getD []) huses
  rw [Table.recordOverflow, hitems, hname, huses]
  rfl

/-- A list of placed tokens is read as if there were no limit, or else calls are nested too deeply
in it. -/
theorem ofTokensWithin_eq {ts : List Token} (limit : Nat) (placed : ∀ t ∈ ts, t.Placed) :
    Grammar.ofTokensWithin limit ts =
      if (overflow? limit .declarations ts).isSome then .error .tooDeep
      else (Grammar.ofTokens ts).mapError .span := by
  rw [Grammar.ofTokensWithin]
  cases h : overflow? limit .declarations ts with
  | none => rfl
  | some overflow => simp only [recordOverflow_eq_ok placed h, Option.isSome_some, if_true]

end GrammarLens
