import GrammarLens.Proofs.Progress

/-! # Reading with room for so many open calls

A machine with room for `limit` open calls reads what `Grammar.ofTokensWithin` reads.  Where the
calls are not nested too deeply, the run lemmas of `Progress` lead it to its end.  Where they are,
it gets `Stuck` at the name of the call that is one too many: for every function that tells of an
overflow there is a lemma here which says so. -/

namespace GrammarLens.Machine

/-- The machine comes to a state in which it is stuck, with these items read and these uses
noted. -/
def GivesUp (limit : Nat) (input : List Token) (s : State) (items : List Item) (uses : List Use) :
    Prop :=
  ∃ stuck, RunWithin limit input s stuck ∧ Stuck limit input stuck ∧ stuck.items = items ∧
    stuck.uses = uses

variable {limit : Nat} {input : List Token} {s s' : State}

theorem RunWithin.givesUp {items : List Item} {uses : List Use} (h : RunWithin limit input s s')
    (h' : GivesUp limit input s' items uses) : GivesUp limit input s items uses := by
  obtain ⟨stuck, hrun, hstuck⟩ := h'
  exact ⟨stuck, h.trans hrun, hstuck⟩

/-! ### Calls -/

theorem givesUp_arguments (hin : Ends input) {room : Nat} {ts : List Token} {uses : List Use}
    (hover : callOverflow? room ts = some uses) (hpos : 0 < room) (s : State) (name : Token)
    (names : List String) (h : Ahead input s.position ts) (hroom : s.openCalls + room = limit) :
    GivesUp limit input (s.push [.arguments name names]) s.items (s.uses ++ uses) := by
  fun_induction callOverflow? room ts generalizing uses s name names with
  | case1 => exact absurd hpos (Nat.lt_irrefl 0)
  | case2 | case3 | case4 | case6 => cases hover
  | case5 room t rest _ hc ho ih =>
      obtain ⟨p, hrun, hat⟩ := run_argument_group hin h (Bool.eq_false_iff.mpr hc) ho name names
      exact hrun.givesUp (ih hover hpos (s.moveTo p) name names hat.ahead hroom)
  | case7 room t _ _ _ hn next after hnext uses' hinner ih =>
      cases hover
      cases room with
      | zero =>
          -- There is no room for the inner call.
          rw [callOverflow?] at hinner
          cases hinner
          exact ⟨_, .refl _, stuck_arguments name names h.token hn (h.opens hnext) hroom, rfl,
            (List.append_nil _).symm⟩
      | succ room =>
          have hroom' : s.openCalls + 2 ≤ limit := by omega
          have hopen := RunWithin.call_arguments name names h.token hn (h.opens hnext) hroom' (.refl _)
          refine hopen.givesUp (ih hinner (Nat.succ_pos room) _ t [] h.next.next ?_)
          rw [State.openCalls_push_arguments, Nat.add_right_comm]
          exact hroom
  | case8 room t _ _ _ hn next after hnext hinner _ ih =>
      obtain ⟨more, hmore, rfl⟩ := Option.map_eq_some_iff.mp hover
      have hpos := room_pos hinner
      have hroom' : s.openCalls + 2 ≤ limit := by omega
      obtain ⟨p, hrun, hat⟩ := run_argument_call name names h hn hnext hroom'
        (run_arguments hin hinner next _ t [] h.next.cursor (by
          rw [State.openCalls_push_arguments, Nat.add_right_comm]
          exact Nat.le_of_eq hroom))
      have hrest := ih hmore (Nat.succ_pos room)
        ((s.moveTo p).note ((arguments next after).usesOf t)) name (names ++ [t.value]) hat.ahead
        hroom
      rw [← List.append_assoc]
      exact hrun.givesUp hrest
  | case9 room t _ _ _ hn next after hnext ih =>
      obtain ⟨more, hmore, rfl⟩ := Option.map_eq_some_iff.mp hover
      have hr : NoCall (next :: after) := by
        rintro u ⟨⟩
        exact Bool.eq_false_iff.mpr hnext
      have hrest := ih hmore hpos ((s.pass s.position).note [.name t]) name (names ++ [t.value])
        h.next hroom
      rw [List.append_cons]
      exact (run_argument_name hin h hn hr name names).givesUp hrest
  | case10 room t rest hend hc ho hn ih =>
      exact (run_argument_other h hend hc ho hn name names).givesUp
        (ih hover hpos (s.pass s.position) name _ h.next hroom)

/-! ### Bodies -/

theorem givesUp_element (hin : Ends input) {t : Token} {rest : List Token} {uses : List Use}
    (hover : elementOverflow? limit t rest = some uses) (h : Ahead input s.position (t :: rest))
    (hs : s.openCalls = 0) : GivesUp limit input (s.push [.body]) s.items (s.uses ++ uses) := by
  cases rest with
  | nil => cases hover
  | cons next inner =>
      rw [elementOverflow?] at hover
      split at hover
      · rename_i hcall
        obtain ⟨hn, hnext⟩ := Bool.and_eq_true_iff.mp hcall
        rcases Nat.eq_zero_or_pos limit with rfl | hpos
        · rw [callOverflow?] at hover
          cases hover
          exact ⟨_, .refl _, stuck_body h.token hn (h.opens hnext) hs, rfl,
            (List.append_nil _).symm⟩
        · refine (RunWithin.call_body h.token hn (h.opens hnext) (by omega) (.refl _)).givesUp
            (givesUp_arguments hin hover hpos _ t [] h.next.next ?_)
          exact (congrArg (· + limit) hs).trans (Nat.zero_add limit)
      · cases hover

theorem givesUp_body (hin : Ends input) {ts : List Token} {uses : List Use}
    (hover : bodyOverflow? limit ts = some uses) (s : State) (h : Ahead input s.position ts)
    (hs : s.openCalls = 0) : GivesUp limit input (s.push [.body]) s.items (s.uses ++ uses) := by
  fun_induction bodyOverflow? limit ts generalizing uses s with
  | case1 | case2 | case3 | case4 => cases hover
  | case5 t rest _ _ _ uses' helement =>
      cases hover
      exact givesUp_element hin helement h hs
  | case6 t rest hend hsemi hsep helement ih =>
      obtain ⟨more, hmore, rfl⟩ := Option.map_eq_some_iff.mp hover
      obtain ⟨p, hrun, hat⟩ := run_element hin h (Bool.eq_false_iff.mpr hend)
        (Bool.eq_false_iff.mpr hsemi) (Bool.eq_false_iff.mpr hsep) helement hs
      have hrest := ih hmore ((s.moveTo p).note (element t rest).1) hat.ahead hs
      rw [← List.append_assoc]
      exact hrun.givesUp hrest

/-! ### Rules -/

theorem givesUp_colon (hin : Ends input) {rule : Rule} {ts : List Token} {overflow : Overflow}
    (hover : ruleOverflow? limit rule ts = some overflow) (h : Ahead input s.position ts)
    (hs : s.Idle) :
    GivesUp limit input (s.push [.colon rule]) (s.items ++ overflow.items) overflow.uses := by
  cases ts with
  | nil => cases hover
  | cons t rest =>
      rw [ruleOverflow?] at hover
      split at hover
      · rename_i hcolon
        obtain ⟨uses, huses, rfl⟩ := Option.map_eq_some_iff.mp hover
        have hfirst : RunWithin limit input (s.push [.colon rule])
            (((s.pass s.position).push [.finish rule]).push [.body]) := by
          refine .perform rfl h.token ?_
          simp only [performAt, hcolon, if_true]
          exact .refl _
        have hbody := givesUp_body hin huses ((s.pass s.position).push [.finish rule]) h.next
          hs.openCalls
        rw [List.append_nil]
        rw [show ((s.pass s.position).push [.finish rule]).uses = [] from hs.uses] at hbody
        exact hfirst.givesUp hbody
      · cases hover

theorem givesUp_declaredRule (hin : Ends input) {directive : Token} {ts : List Token}
    {overflow : Overflow} (hover : declaredRuleOverflow? limit directive ts = some overflow)
    (h : Ahead input s.position ts) (hs : s.Idle) :
    GivesUp limit input (s.push [.optional isInline, .ruleName directive])
      (s.items ++ overflow.items) overflow.uses := by
  cases hts : skipInline ts with
  | nil =>
      rw [declaredRuleOverflow?, hts] at hover
      cases hover
  | cons name rest =>
      simp only [declaredRuleOverflow?, hts] at hover
      by_cases hn : name.isName = true
      · rw [if_pos hn] at hover
        obtain ⟨p, hrun, hat⟩ := run_ruleHead hin directive h hts hn
        exact hrun.givesUp (givesUp_colon hin hover (s := s.moveTo p) hat ⟨hs.uses, hs.openCalls⟩)
      · rw [if_neg hn] at hover
        cases hover

/-! ### Items -/

theorem startItem_of_rule {place : Section} {i : Nat} {t : Token} (ht : tokenAt input i = t)
    (hplace : place ≠ .epilogue) (h : (t.kind == .directive && t.value == "%rule") = true) :
    startItem input place i = (i, [.optional isInline, .ruleName t]) := by
  obtain ⟨hk, hv⟩ := Bool.and_eq_true_iff.mp h
  cases place with
  | declarations =>
      simp only [startItem, ht, hk, afterDirective, eq_of_beq hv, Declaration.ofDirective?, if_true]
  | rules => simp only [startItem, ht, h, if_true]
  | epilogue => exact absurd rfl hplace

/-- A rule that starts with its name has a colon where the machine looks for it. -/
theorem givesUp_namedRule (hin : Ends input) {t : Token} {rest : List Token} {overflow : Overflow}
    (hover : ruleOverflow? limit ⟨t, t, none, none, none⟩ (afterAlias rest) = some overflow)
    (h : Ahead input s.position (t :: rest)) (hs : s.Idle) (hn : t.isName = true)
    (hrule : ¬(t.kind == .directive && t.value == "%rule") = true) :
    GivesUp limit input ((s.pass (startItem input .rules s.position).1).push
        (startItem input .rules s.position).2) (s.items ++ overflow.items) overflow.uses := by
  by_cases hc : (tokenAt input (afterName input s.position)).isSpecial ":" = true
  · obtain ⟨colon, after, hafter, hat⟩ := afterAlias_of_colon hin h hc
    rw [hafter, ruleOverflow?, if_pos (hat.token ▸ hc)] at hover
    obtain ⟨uses, huses, rfl⟩ := Option.map_eq_some_iff.mp hover
    have hbody := givesUp_body hin huses ((s.pass (afterName input s.position)).push
      [.finish ⟨t, t, none, none, none⟩]) hat.next hs.openCalls
    rw [show ((s.pass (afterName input s.position)).push
      [.finish ⟨t, t, none, none, none⟩]).uses = [] from hs.uses] at hbody
    simp only [startItem, h.token, hrule, hn, hc, Bool.and_self, Bool.false_eq_true, if_false,
      if_true, List.append_nil]
    exact hbody
  · obtain ⟨body, uses, hbody, -⟩ := ruleOverflow?_eq_some hover
    rw [body?_of_not_colon hin h (Bool.eq_false_iff.mpr hc)] at hbody
    cases hbody

theorem givesUp_item (hin : Ends input) {place : Section} {t : Token} {rest : List Token}
    {overflow : Overflow} (hover : itemOverflow? limit place t rest = some overflow)
    (h : Ahead input s.position (t :: rest)) (hs : s.Idle) :
    GivesUp limit input ((s.pass (startItem input place s.position).1).push
        (startItem input place s.position).2) (s.items ++ overflow.items) overflow.uses := by
  rcases itemOverflow?_eq_some hover with ⟨hplace, hrule, hover'⟩ | ⟨rfl, hrule, hn, hover'⟩
  · rw [startItem_of_rule h.token hplace hrule]
    exact givesUp_declaredRule hin hover' (s := s.pass s.position) h.next ⟨hs.uses, hs.openCalls⟩
  · exact givesUp_namedRule hin hover' h hs hn hrule

theorem givesUp_items (hin : Ends input) {place : Section} {ts : List Token} {overflow : Overflow}
    (hover : overflow? limit place ts = some overflow) (s : State) (h : Ahead input s.position ts)
    (hp : s.place = place) (hs : s.Idle) (hv : Valid input (s.push [.items])) :
    GivesUp limit input (s.push [.items]) (s.items ++ overflow.items) overflow.uses := by
  fun_induction overflow? limit place ts generalizing overflow s with
  | case1 | case2 => cases hover
  | case3 place t rest hend hsep ih =>
      have hfirst := run_separator limit h hend hsep
      exact hfirst.givesUp (ih hover s.toNextSection h.next (by rw [← hp]; rfl)
        ⟨hs.uses, hs.openCalls⟩ (hv.run hin hfirst.run))
  | case4 place t rest hend hsep overflow' hitem =>
      cases hover
      subst hp
      exact (run_startItem limit h hend hsep).givesUp
        (givesUp_item hin hitem (s := s.push [.close s.position, .items]) h ⟨hs.uses, hs.openCalls⟩)
  | case5 place t rest hend hsep hitem ih =>
      subst hp
      obtain ⟨inner, hinner, rfl⟩ := Option.map_eq_some_iff.mp hover
      obtain ⟨p, hfirst, hat⟩ := run_one_item hin h hs hv hend hsep hitem
      have hrest := ih hinner ((s.moveTo p).add (readItem s.place t rest).1) hat rfl
        ⟨hs.uses, hs.openCalls⟩ (hv.run hin hfirst.run)
      rw [Overflow.after, ← List.append_assoc]
      exact hfirst.givesUp hrest

/-! ### From the initial state on -/

/-- The state in which the machine stops: it has read all items, or it is stuck where reading is
given up. -/
theorem exists_stopped (limit : Nat) (ts : List Token) :
    ∃ stopped, RunWithin limit (closed ts) initial stopped ∧
      (overflow? limit .declarations ts = none ∧ stopped.tasks = [] ∧
          stopped.items = (readItems .declarations ts).1 ∧
          stopped.place = (readItems .declarations ts).2 ∨
        Stuck limit (closed ts) stopped ∧
          ∃ rule, overflow? limit .declarations ts = some ⟨stopped.items, rule, stopped.uses⟩) := by
  have hin := ends_closed ts
  cases hover : overflow? limit .declarations ts with
  | none =>
      obtain ⟨p, hrun⟩ := run_items hin hover ⟨0, .declarations, [], [], []⟩ (ahead_closed ts) rfl
        idle_initial (valid_initial hin)
      exact ⟨_, hrun, .inl ⟨rfl, rfl, rfl, rfl⟩⟩
  | some overflow =>
      obtain ⟨stuck, hrun, hstuck, hitems, huses⟩ := givesUp_items hin hover
        ⟨0, .declarations, [], [], []⟩ (ahead_closed ts) rfl idle_initial (valid_initial hin)
      refine ⟨stuck, hrun, .inr ⟨hstuck, overflow.rule, ?_⟩⟩
      rw [hitems, huses]
      rfl

theorem placed_closed {ts : List Token} (h : ∀ t ∈ ts, t.Placed) : ∀ t ∈ closed ts, t.Placed := by
  intro t ht
  unfold closed at ht
  split at ht
  · exact h t ht
  · rcases List.mem_append.mp ht with ht | ht
    · exact h t ht
    · rw [List.mem_singleton.mp ht]
      decide

/-- Reading a list of placed tokens with room for `limit` open calls ends.  From every state that it
passes, it comes to the same state, in which it stops.  There no task is left and recording what it
has read gives the table, the same as with no limit; or as many calls are open as there is room for
and the next step would open another one, and that is the only way in which reading fails.  It does
not happen if there is room for as many calls as there are tokens.  On the way the position stays
inside the input, is never where an item started when the item ends, and has grown whenever reading
is back in its main loop.  The span of a token of the input, and the span from one to another, exist
and do not stop before they start. -/
theorem reading_ends_within (limit : Nat) (ts : List Token) (placed : ∀ t ∈ ts, t.Placed) :
    ∃ stopped g, Grammar.ofTokens ts = .ok g ∧
      (ts.length ≤ limit → Grammar.ofTokensWithin limit ts = .ok g) ∧
      (stopped.tasks = [] ∧ Table.empty.recordItems stopped.items = .ok g.table ∧
          stopped.place = g.lastSection ∧ Grammar.ofTokensWithin limit ts = .ok g ∨
        Stuck limit (closed ts) stopped ∧
          (∃ rule, overflow? limit .declarations ts = some ⟨stopped.items, rule, stopped.uses⟩) ∧
          Grammar.ofTokensWithin limit ts = .error .tooDeep) ∧
      (∀ s, RunWithin limit (closed ts) initial s →
        RunWithin limit (closed ts) s stopped ∧ s.openCalls ≤ limit ∧
        s.position < (closed ts).length ∧
        (∀ start, Task.close start ∈ s.tasks → start < s.position) ∧
        (s.tasks = [.items] → ∀ s', RunWithin limit (closed ts) s s' → s'.tasks = [.items] →
          s' = s ∨ s.position < s'.position)) ∧
      ∀ first ∈ closed ts, ∀ last ∈ closed ts,
        (∃ span, first.span = .ok span ∧ span.start = first.start ∧ span.stop = first.stop ∧
          first.start ≤ first.stop) ∧
        ∃ span, first.extent last = .ok span ∧ span.start = first.start ∧
          span.stop = (if last.stop < first.start then first.stop else last.stop) ∧
          span.start ≤ span.stop := by
  obtain ⟨stopped, hrun, hstopped⟩ := exists_stopped limit ts
  have hin := ends_closed ts
  have hwithin := ofTokensWithin_eq limit placed
  refine ⟨stopped, _, ofTokens_eq_run placed, fun hlimit => ?_, ?_, ?_, ?_⟩
  · rw [hwithin, overflow?_eq_none .declarations hlimit, ofTokens_eq_run placed]
    rfl
  · rcases hstopped with ⟨hno, htasks, hitems, hplace⟩ | ⟨hstuck, rule, hover⟩
    · refine .inl ⟨htasks, ?_, hplace, ?_⟩
      · rw [hitems, recordItems_readItems placed]
      · rw [hwithin, hno, ofTokens_eq_run placed]
        rfl
    · refine .inr ⟨hstuck, ⟨rule, hover⟩, ?_⟩
      rw [hwithin, hover]
      rfl
  · intro s hs
    have hlast : stepWithin limit (closed ts) stopped = none := by
      rcases hstopped with ⟨-, htasks, -⟩ | ⟨hstuck, -⟩
      · rw [stepWithin, step, htasks]
        rfl
      · exact hstuck.stepWithin_eq_none
    have hv := (valid_initial hin).run hin hs.run
    exact ⟨reaches_last hrun hlast hs, hs.openCalls_le (Nat.zero_le limit), hv.position_lt,
      hv.close_lt, fun ht s' hr ht' => hv.position_lt_of_items hin ht hr.run ht'⟩
  · intro first hf last hl
    have hfirst := placed_closed placed first hf
    have hlast := placed_closed placed last hl
    exact ⟨⟨_, Token.span_eq_place hfirst, rfl, rfl, first.start_le_stop⟩,
      ⟨_, Token.extent_eq_through hfirst hlast, Token.through_start first last,
        Token.through_stop_eq_ite first last, (first.through last).start_le_stop⟩⟩

/-- Tokens in no order, of which one is an end token in the middle and one is empty: a rule with an
alias around the end token, and a call that is not closed. -/
def strayTokens : List Token :=
  [⟨.separator, "%%", 0, 0, 2⟩, ⟨.identifier, "rule", 7, 3, 4⟩, ⟨.special, "[", 1, 0, 1⟩,
    ⟨.eof, "", 0, 0, 0⟩, ⟨.string, "]", 9, 9, 3⟩, ⟨.special, ":", 2, 0, 1⟩,
    ⟨.identifier, "list", 1, 5, 4⟩, ⟨.special, "(", 1, 4, 1⟩, ⟨.special, "()", 0, 0, 2⟩,
    ⟨.identifier, "item", 0, 0, 4⟩, ⟨.special, "", 3, 3, 0⟩, ⟨.directive, "%prec", 0, 1, 5⟩]

theorem strayTokens_read :
    (∀ t ∈ strayTokens, t.Placed) ∧
      ∃ stopped g, Grammar.ofTokensWithin 12 strayTokens = .ok g ∧
        ∀ s, RunWithin 12 (closed strayTokens) initial s →
          RunWithin 12 (closed strayTokens) s stopped ∧ s.position < 13 := by
  obtain ⟨stopped, g, -, hg, -, hrun, -⟩ := reading_ends_within 12 strayTokens (by decide)
  exact ⟨by decide, stopped, g, hg (by decide), fun s hs => ⟨(hrun s hs).1, (hrun s hs).2.2.1⟩⟩

/-- The name of a call. -/
def calledName : Token := ⟨.identifier, "f", 0, 0, 1⟩

/-- The parenthesis that opens a call. -/
def callParenthesis : Token := ⟨.special, "(", 0, 0, 1⟩

/-- Calls inside each other, none of which is closed. -/
def openCallTokens : Nat → List Token
  | 0 => []
  | n + 1 => calledName :: callParenthesis :: openCallTokens n

/-- A rule with so many calls inside each other. -/
def nestedTokens (n : Nat) : List Token :=
  [⟨.separator, "%%", 0, 0, 2⟩, ⟨.identifier, "r", 0, 0, 1⟩, ⟨.special, ":", 0, 0, 1⟩] ++
    openCallTokens n

theorem placed_nestedTokens (n : Nat) : ∀ t ∈ nestedTokens n, t.Placed := by
  have hcalls : ∀ t ∈ openCallTokens n, t.Placed := by
    induction n with
    | zero => simp [openCallTokens]
    | succ n ih =>
        simp only [openCallTokens, List.forall_mem_cons]
        exact ⟨by decide, by decide, ih⟩
  exact List.forall_mem_append.mpr ⟨by decide, hcalls⟩

theorem callOverflow?_openCallTokens (n : Nat) : callOverflow? n (openCallTokens n) = some [] := by
  induction n with
  | zero => rw [callOverflow?]
  | succ n ih =>
      have hname : calledName.isName = true := by decide
      have hopen : callParenthesis.isSpecial "(" = true := by decide
      have hs (chars : String) : calledName.isSpecial chars = false :=
        Token.isSpecial_of_kind rfl (by decide)
      rw [openCallTokens, callOverflow?]
      simp only [Token.isEnd_of_isName hname, hname, hs, hopen, ih, Bool.false_eq_true, if_false,
        if_true]

theorem bodyOverflow?_openCallTokens (limit : Nat) :
    bodyOverflow? limit (openCallTokens (limit + 1)) = some [] := by
  have hname : calledName.isName = true := by decide
  have hopen : callParenthesis.isSpecial "(" = true := by decide
  have hs : calledName.isSpecial ";" = false := Token.isSpecial_of_kind rfl (by decide)
  have hsep : (calledName.kind == .separator) = false := by decide
  rw [openCallTokens, bodyOverflow?]
  simp only [Token.isEnd_of_isName hname, hs, hsep, elementOverflow?, hname, hopen, Bool.and_self,
    callOverflow?_openCallTokens, Bool.false_eq_true, if_false, if_true]

theorem overflow?_nestedTokens (limit : Nat) :
    (overflow? limit .declarations (nestedTokens (limit + 1))).isSome = true := by
  have hitem : ∀ ts, itemOverflow? limit .rules ⟨.identifier, "r", 0, 0, 1⟩
      (⟨.special, ":", 0, 0, 1⟩ :: ts) =
        (bodyOverflow? limit ts).map (⟨[], ⟨⟨.identifier, "r", 0, 0, 1⟩,
          ⟨.identifier, "r", 0, 0, 1⟩, none, none, none⟩, ·⟩) := fun _ => rfl
  simp only [nestedTokens, List.cons_append, List.nil_append]
  rw [overflow?, if_neg (by decide), if_pos (by decide), overflow?, if_neg (by decide),
    if_neg (by decide)]
  simp only [Section.next, hitem, bodyOverflow?_openCallTokens, Option.map_some, Option.isSome_some]

/-- However many calls may be open, some list of placed tokens has more of them inside each
other. -/
theorem ofTokensWithin_nestedTokens (limit : Nat) :
    Grammar.ofTokensWithin limit (nestedTokens (limit + 1)) = .error .tooDeep := by
  rw [ofTokensWithin_eq limit (placed_nestedTokens _), if_pos (overflow?_nestedTokens limit)]

/-- Room for 495 calls, about as many as fit on a stack of a thousand frames where each takes two,
is used up by one call more. -/
theorem nestedTokens_not_read :
    (∀ t ∈ nestedTokens 496, t.Placed) ∧
      Grammar.ofTokensWithin 495 (nestedTokens 496) = .error .tooDeep :=
  ⟨placed_nestedTokens 496, ofTokensWithin_nestedTokens 495⟩

end GrammarLens.Machine
