import GrammarLens.Proofs.OpenCalls
import GrammarLens.Proofs.Overflow

/-! # Reading ends and always progresses

The machine reads what `readItems` reads.  For every loop of the machine there is a run lemma: from
a state whose position stands before the tokens that the reading function gets, the machine comes to
a state whose position stands before the tokens that the function leaves, and it has added the items
and noted the uses that the function returns.  The machine looks at an input that is closed by an
end token and the functions at a list that may lack one, which is why `Ahead` leaves open what comes
behind the tokens.

The machine here has room for `limit` open calls.  Where a body is read, a lemma asks that it is not
given up; with room for all calls, `run_all_items` asks for nothing. -/

namespace GrammarLens.Machine

/-- From an index on, the input consists of the tokens `rest`, and of one end token or none behind
them. -/
def Ahead (input : List Token) (i : Nat) (rest : List Token) : Prop :=
  ∃ more, input.drop i = rest ++ more ∧ more.length ≤ 1 ∧ ∀ e ∈ more, e.isEnd = true

/-- The token before an index and the tokens from it on are those of the cursor. -/
structure At (input : List Token) (i : Nat) (c : Cursor) : Prop where
  last : tokenAt input (i - 1) = c.last
  ahead : Ahead input i c.rest

theorem tokenAt_of_drop {input more : List Token} {i : Nat} {t : Token}
    (h : input.drop i = t :: more) : tokenAt input i = t := by
  have : input[i]? = some t := by
    rw [← Nat.add_zero i, ← List.getElem?_drop, h]
    rfl
  rw [tokenAt, List.getD_eq_getElem?_getD, this, Option.getD_some]

namespace Ahead

variable {input rest : List Token} {i : Nat} {t : Token}

theorem token (h : Ahead input i (t :: rest)) : tokenAt input i = t := by
  obtain ⟨more, hd, -⟩ := h
  exact tokenAt_of_drop hd

theorem next (h : Ahead input i (t :: rest)) : Ahead input (i + 1) rest := by
  obtain ⟨more, hd, hl, hm⟩ := h
  exact ⟨more, by rw [← List.drop_drop, hd]; rfl, hl, hm⟩

theorem cursor (h : Ahead input i (t :: rest)) : At input (i + 1) ⟨t, rest⟩ :=
  ⟨h.token, h.next⟩

theorem opens {next : Token} (h : Ahead input i (t :: next :: rest))
    (hnext : next.isSpecial "(" = true) : (tokenAt input (i + 1)).isSpecial "(" = true := by
  rw [h.next.token]
  exact hnext

theorem isEnd (h : Ahead input i []) (hin : Ends input) : (tokenAt input i).isEnd = true := by
  obtain ⟨more, hd, -, hm⟩ := h
  cases more with
  | nil =>
      have hle : input.length ≤ i := List.drop_eq_nil_iff.mp hd
      by_contra hend
      have := hin.succ_lt (Bool.eq_false_iff.mpr hend)
      omega
  | cons e more =>
      rw [tokenAt_of_drop hd]
      exact hm e List.mem_cons_self

end Ahead

variable {limit : Nat} {input : List Token}

/-! ### Steps over tokens -/

theorem run_through (hin : Ends input) (closes : Token → Bool) (rest : List Token) (s : State)
    (last : Token) (h : At input s.position ⟨last, rest⟩) :
    ∃ p, RunWithin limit input (s.push [.through closes]) (s.moveTo p) ∧
      At input p (skipThrough closes last rest) := by
  induction rest generalizing s last with
  | nil =>
      refine ⟨s.position, .perform rfl rfl ?_, h⟩
      simp only [performAt, h.ahead.isEnd hin, if_true]
      exact .refl _
  | cons t rest ih =>
      have hcur := h.ahead.cursor
      unfold skipThrough
      split
      · rename_i hend
        refine ⟨s.position, .perform rfl h.ahead.token ?_, h⟩
        simp only [performAt, hend, if_true]
        exact .refl _
      · rename_i hend
        split
        · rename_i hc
          refine ⟨s.position + 1, .perform rfl h.ahead.token ?_, hcur⟩
          simp only [performAt, hend, hc, if_true]
          exact .refl _
        · rename_i hc
          obtain ⟨p, hrun, hat⟩ := ih (s.pass s.position) t hcur
          refine ⟨p, .perform rfl h.ahead.token ?_, hat⟩
          simp only [performAt, hend, hc]
          exact hrun

theorem run_balanced (hin : Ends input) (opening closing : String) (rest : List Token)
    (depth : Nat) (s : State) (last : Token) (h : At input s.position ⟨last, rest⟩) :
    ∃ p, RunWithin limit input (s.push [.balanced opening closing depth]) (s.moveTo p) ∧
      At input p (skipBalanced opening closing depth last rest) := by
  induction rest generalizing depth s last with
  | nil =>
      refine ⟨s.position, .perform rfl rfl ?_, h⟩
      simp only [performAt, h.ahead.isEnd hin, if_true]
      exact .refl _
  | cons t rest ih =>
      have hcur := h.ahead.cursor
      have more (depth' : Nat) := ih depth' (s.pass s.position) t hcur
      unfold skipBalanced
      split
      · rename_i hend
        refine ⟨s.position, .perform rfl h.ahead.token ?_, h⟩
        simp only [performAt, hend, if_true]
        exact .refl _
      · rename_i hend
        split
        · rename_i ho
          obtain ⟨p, hrun, hat⟩ := more (depth + 1)
          refine ⟨p, .perform rfl h.ahead.token ?_, hat⟩
          simp only [performAt, hend, ho, if_true]
          exact hrun
        · rename_i ho
          split
          · rename_i hc
            split
            · rename_i hd
              refine ⟨s.position + 1, .perform rfl h.ahead.token ?_, hcur⟩
              simp only [performAt, hend, ho, hc, hd, if_true]
              exact .refl _
            · rename_i hd
              obtain ⟨p, hrun, hat⟩ := more (depth - 1)
              refine ⟨p, .perform rfl h.ahead.token ?_, hat⟩
              simp only [performAt, hend, ho, hc, hd, if_true, if_false]
              exact hrun
          · rename_i hc
            obtain ⟨p, hrun, hat⟩ := more depth
            refine ⟨p, .perform rfl h.ahead.token ?_, hat⟩
            simp only [performAt, hend, ho, hc]
            exact hrun

/-- A bracketed region may also be entered before its opening bracket. -/
theorem run_bracket (hin : Ends input) {opening : String} (closing : String) {t : Token}
    {rest : List Token} {s : State} (h : Ahead input s.position (t :: rest))
    (ho : t.isSpecial opening = true) :
    ∃ p, RunWithin limit input (s.push [.balanced opening closing 0]) (s.moveTo p) ∧
      At input p (skipBalanced opening closing 1 t rest) := by
  obtain ⟨p, hrun, hat⟩ := run_balanced hin opening closing rest 1 (s.pass s.position) t h.cursor
  refine ⟨p, .perform rfl h.token ?_, hat⟩
  simp only [performAt, Token.isEnd_of_isSpecial ho, ho, if_true, Bool.false_eq_true, if_false]
  exact hrun

theorem run_optional (hin : Ends input) (fits : Token → Bool)
    (hfits : ∀ t, fits t = true → t.isEnd = false) {s : State} {c : Cursor}
    (h : At input s.position c) :
    ∃ p, RunWithin limit input (s.push [.optional fits]) (s.moveTo p) ∧
      At input p (c.skipIf fits) := by
  obtain ⟨last, rest⟩ := c
  cases rest with
  | nil =>
      refine ⟨s.position, .perform rfl rfl ?_, h⟩
      simp only [performAt, h.ahead.isEnd hin, Bool.not_true, Bool.false_and, Bool.false_eq_true,
        if_false]
      exact .refl _
  | cons t rest =>
      by_cases hf : fits t = true
      · refine ⟨s.position + 1, .perform rfl h.ahead.token ?_, ?_⟩
        · simp only [performAt, hfits t hf, hf, Bool.not_false, Bool.and_self, if_true]
          exact .refl _
        · simpa only [Cursor.skipIf, hf, if_true] using h.ahead.cursor
      · refine ⟨s.position, .perform rfl h.ahead.token ?_, ?_⟩
        · simp only [performAt, hf, Bool.and_false, Bool.false_eq_true, if_false]
          exact .refl _
        · simpa only [Cursor.skipIf, hf, Bool.false_eq_true, if_false] using h

theorem run_bracketed (hin : Ends input) {s : State} {c : Cursor} (h : At input s.position c) :
    ∃ p, RunWithin limit input (s.push [.bracketed]) (s.moveTo p) ∧ At input p c.skipAlias := by
  obtain ⟨last, rest⟩ := c
  cases rest with
  | nil =>
      refine ⟨s.position, .perform rfl rfl ?_, h⟩
      simp only [performAt, Token.isSpecial_of_isEnd (h.ahead.isEnd hin), Bool.false_eq_true,
        if_false]
      exact .refl _
  | cons t rest =>
      by_cases hf : t.isSpecial "[" = true
      · obtain ⟨p, hrun, hat⟩ := run_through hin (·.isSpecial "]") rest (s.pass s.position) t
          h.ahead.cursor
        refine ⟨p, .perform rfl h.ahead.token ?_, ?_⟩
        · simp only [performAt, hf, if_true]
          exact hrun
        · simpa only [Cursor.skipAlias, hf, if_true] using hat
      · refine ⟨s.position, .perform rfl h.ahead.token ?_, ?_⟩
        · simp only [performAt, hf, Bool.false_eq_true, if_false]
          exact .refl _
        · simpa only [Cursor.skipAlias, hf, Bool.false_eq_true, if_false] using h

/-- A sign of repetition after a name in square brackets, both of which may be missing. -/
theorem run_bracketed_suffix (hin : Ends input) {s : State} {c : Cursor}
    (h : At input s.position c) :
    ∃ p, RunWithin limit input (s.push [.bracketed, .optional (·.isSpecial "?*+")]) (s.moveTo p) ∧
      At input p c.skipAlias.skipSuffix := by
  obtain ⟨p, hrun, hat⟩ := run_bracketed hin (s := s.push [.optional (·.isSpecial "?*+")]) h
  obtain ⟨p', hrun', hat'⟩ := run_optional hin (·.isSpecial "?*+")
    (fun _ => Token.isEnd_of_isSpecial) (s := s.moveTo p) hat
  exact ⟨p', hrun.trans hrun', hat'⟩

/-! ### Bodies -/

theorem occursIn_singleton_iff (word : List Char) (c : Char) :
    occursIn word [c] = true ↔ word = [] ∨ word = [c] := by
  cases word with
  | nil => simp [occursIn, offsetOf?]
  | cons a word => cases word <;> simp [occursIn, offsetOf?]

theorem run_call {s : State} {c : Cursor} (h : At input s.position c) (name : Token)
    (names : List String) :
    RunWithin limit input (s.push [.call name names]) (s.note [.call name c.last names]) := by
  refine .perform rfl rfl ?_
  rw [← h.last]
  exact .refl _

theorem noCall_at (hin : Ends input) {i : Nat} {rest : List Token} (h : Ahead input i rest)
    (hr : NoCall rest) : (tokenAt input i).isSpecial "(" = false := by
  cases rest with
  | nil => exact Token.isSpecial_of_isEnd (h.isEnd hin)
  | cons t rest =>
      rw [h.token]
      exact hr t rfl

theorem exists_of_not_noCall {rest : List Token} (h : ¬NoCall rest) :
    ∃ next after, rest = next :: after ∧ next.isSpecial "(" = true := by
  cases rest with
  | nil => exact absurd (fun _ h => by cases h) h
  | cons next after =>
      refine ⟨next, after, rfl, ?_⟩
      by_contra hnot
      refine h ?_
      rintro u ⟨⟩
      exact Bool.eq_false_iff.mpr hnot

/-- The machine goes on with the arguments of a call, and the call, as they are in `read`. -/
def ReadsArguments (limit : Nat) (input : List Token) (s : State) (name : Token)
    (names : List String) (read : Arguments) : Prop :=
  ∃ p, RunWithin limit input (s.push [.arguments name names])
      ((s.moveTo p).note (read.uses ++ [.call name read.cursor.last (names ++ read.names)])) ∧
    At input p read.cursor

theorem readsArguments_stop {s : State} {c : Cursor} (h : At input s.position c)
    (hend : (tokenAt input s.position).isEnd = true) (name : Token) (names : List String) :
    ReadsArguments limit input s name names (.stop c) := by
  refine ⟨s.position, .pass rfl (callsAt_of_isEnd hend) ?_, h⟩
  simp only [performAt, argumentStep, hend, if_true, Arguments.stop, List.append_nil,
    List.nil_append]
  exact run_call h name names

/-- A group in parentheses among arguments. -/
theorem run_argument_group (hin : Ends input) {s : State} {t : Token} {rest : List Token}
    (h : Ahead input s.position (t :: rest)) (hc : t.isSpecial ")" = false)
    (ho : t.isSpecial "(" = true) (name : Token) (names : List String) :
    ∃ p, RunWithin limit input (s.push [.arguments name names])
        ((s.moveTo p).push [.arguments name names]) ∧
      At input p (skipBalanced "(" ")" 1 t rest) := by
  obtain ⟨p, hrun, hat⟩ := run_bracket hin ")" (s := s.push [.arguments name names]) h ho
  refine ⟨p, .pass h.token (callsAt_of_isSpecial ho) ?_, hat⟩
  simp only [performAt, argumentStep, Token.isEnd_of_isSpecial ho, hc, ho, if_true,
    Bool.false_eq_true, if_false]
  exact hrun

/-- A plain name among arguments. -/
theorem run_argument_name (hin : Ends input) {s : State} {t : Token} {rest : List Token}
    (h : Ahead input s.position (t :: rest)) (hn : t.isName = true) (hr : NoCall rest)
    (name : Token) (names : List String) :
    RunWithin limit input (s.push [.arguments name names])
      (((s.pass s.position).note [.name t]).push [.arguments name (names ++ [t.value])]) := by
  have hnext := noCall_at hin h.next hr
  have hs (chars : String) : t.isSpecial chars = false :=
    Token.isSpecial_of_kind (eq_of_beq hn) (by decide)
  refine .pass h.token (by rw [callsAt, hnext, Bool.and_false]) ?_
  simp only [performAt, argumentStep, Token.isEnd_of_isName hn, hs, hn, State.push_nil, hnext,
    if_true, Bool.false_eq_true, if_false]
  exact .refl _

/-- A call among arguments, for which there is room. -/
theorem run_argument_call {s : State} {t next : Token} {after : List Token} (name : Token)
    (names : List String) {inner : Arguments} (h : Ahead input s.position (t :: next :: after))
    (hn : t.isName = true) (hnext : next.isSpecial "(" = true) (hroom : s.openCalls + 2 ≤ limit)
    (hread : ReadsArguments limit input
      ((s.pass (s.position + 1)).push [.arguments name (names ++ [t.value])]) t [] inner) :
    ∃ p, RunWithin limit input (s.push [.arguments name names])
        (((s.moveTo p).note (inner.usesOf t)).push [.arguments name (names ++ [t.value])]) ∧
      At input p inner.cursor := by
  obtain ⟨p, hrun, hat⟩ := hread
  exact ⟨p, .call_arguments name names h.token hn (h.opens hnext) hroom hrun, hat⟩

/-- A token among arguments that starts nothing.  A character literal is an argument all the
same. -/
theorem run_argument_other {s : State} {t : Token} {rest : List Token}
    (h : Ahead input s.position (t :: rest)) (hend : ¬t.isEnd = true) (hc : ¬t.isSpecial ")" = true)
    (ho : ¬t.isSpecial "(" = true) (hn : ¬t.isName = true) (name : Token) (names : List String) :
    RunWithin limit input (s.push [.arguments name names])
      ((s.pass s.position).push
        [.arguments name (if t.kind = .character then names ++ [t.value] else names)]) := by
  refine .pass h.token (callsAt_of_isName (Bool.eq_false_iff.mpr hn)) ?_
  by_cases hk : t.kind = .character
  · simp only [performAt, argumentStep, hend, hc, ho, hn, hk, State.push_nil, if_true,
      Bool.false_eq_true, if_false, beq_self_eq_true]
    exact .refl _
  · simp only [performAt, argumentStep, hend, hc, ho, hn, hk, beq_false_of_ne hk, State.push_nil,
      Bool.false_eq_true, if_false]
    exact .refl _

theorem readsArguments_name (hin : Ends input) {s : State} {t name : Token} {rest : List Token}
    {names : List String} {read : Arguments} (h : Ahead input s.position (t :: rest))
    (hn : t.isName = true) (hr : NoCall rest)
    (hread : ReadsArguments limit input ((s.pass s.position).note [.name t]) name
      (names ++ [t.value]) read) :
    ReadsArguments limit input s name names (.consName t read) := by
  obtain ⟨p, hrun, hat⟩ := hread
  refine ⟨p, (run_argument_name hin h hn hr name names).trans ?_, hat⟩
  simpa only [State.note_moveTo, State.pass_moveTo, State.note_note, Arguments.consName,
    List.append_assoc, List.nil_append, List.cons_append] using hrun

theorem run_arguments (hin : Ends input) {room : Nat} {ts : List Token}
    (hno : callOverflow? room ts = none) (last : Token) (s : State) (name : Token)
    (names : List String) (h : At input s.position ⟨last, ts⟩)
    (hroom : s.openCalls + room ≤ limit) :
    ReadsArguments limit input s name names (arguments last ts) := by
  fun_induction callOverflow? room ts generalizing last s name names with
  | case1 => cases hno
  | case2 =>
      rw [arguments_nil]
      exact readsArguments_stop h (h.ahead.isEnd hin) name names
  | case3 room t rest hend =>
      rw [arguments_end last rest hend]
      exact readsArguments_stop h (h.ahead.token ▸ hend) name names
  | case4 room t rest hend hc =>
      rw [arguments_close last rest hc]
      refine ⟨s.position + 1, .pass h.ahead.token (callsAt_of_isSpecial hc) ?_, h.ahead.cursor⟩
      simp only [performAt, argumentStep, hend, hc, if_true, Arguments.stop, List.append_nil,
        List.nil_append, Bool.false_eq_true, if_false]
      exact run_call (s := s.pass s.position) h.ahead.cursor name names
  | case5 room t rest hend hc ho ih =>
      rw [arguments_group last rest (Bool.eq_false_iff.mpr hc) ho]
      obtain ⟨p, hrun, hat⟩ :=
        run_argument_group hin h.ahead (Bool.eq_false_iff.mpr hc) ho name names
      obtain ⟨p', hrun', hat'⟩ := ih hno _ (s.moveTo p) name names hat hroom
      exact ⟨p', hrun.trans hrun', hat'⟩
  | case6 room t hend hc ho hn =>
      have hr : NoCall [] := fun _ hm => by cases hm
      rw [arguments_name (Bool.eq_false_iff.mpr hend) (Bool.eq_false_iff.mpr hc)
        (Bool.eq_false_iff.mpr ho) hn hr, arguments_nil]
      exact readsArguments_name hin h.ahead hn hr
        (readsArguments_stop h.ahead.cursor (h.ahead.next.isEnd hin) name _)
  | case7 => cases hno
  | case8 room t hend hc ho hn next after hnext hinner ih ih' =>
      rw [arguments_call (Bool.eq_false_iff.mpr hend) (Bool.eq_false_iff.mpr hc)
        (Bool.eq_false_iff.mpr ho) hn hnext]
      have hpos := room_pos hinner
      -- The inner call leaves its uses, and the outer one goes on with one more argument.
      obtain ⟨p, hrun, hat⟩ := run_argument_call name names h.ahead hn hnext (by omega)
        (ih hinner next _ t [] h.ahead.next.cursor
          (by rw [State.openCalls_push_arguments, Nat.add_right_comm]; exact hroom))
      obtain ⟨p', hrun', hat'⟩ := ih' (Option.map_eq_none_iff.mp hno) _
        ((s.moveTo p).note ((arguments next after).usesOf t)) name (names ++ [t.value]) hat hroom
      refine ⟨p', ?_, hat'⟩
      have hall := hrun.trans hrun'
      simp only [State.note_moveTo, State.moveTo_moveTo, State.note_note, Arguments.consCall,
        Arguments.usesOf, List.append_assoc, List.nil_append, List.cons_append] at hall ⊢
      exact hall
  | case9 room t hend hc ho hn next after hnext ih =>
      have hr : NoCall (next :: after) := by
        rintro u ⟨⟩
        exact Bool.eq_false_iff.mpr hnext
      rw [arguments_name (Bool.eq_false_iff.mpr hend) (Bool.eq_false_iff.mpr hc)
        (Bool.eq_false_iff.mpr ho) hn hr]
      exact readsArguments_name hin h.ahead hn hr
        (ih (Option.map_eq_none_iff.mp hno) t _ name _ h.ahead.cursor hroom)
  | case10 room t rest hend hc ho hn ih =>
      obtain ⟨p, hrun, hat⟩ := ih hno t (s.pass s.position) name _ h.ahead.cursor hroom
      have hall := (run_argument_other h.ahead hend hc ho hn name names).trans hrun
      by_cases hk : t.kind = .character
      · rw [arguments_literal last rest hk]
        refine ⟨p, ?_, hat⟩
        simpa only [hk, if_true, State.pass_moveTo, Arguments.consLiteral, List.append_assoc,
          List.nil_append, List.cons_append] using hall
      · rw [arguments_other last rest (Bool.eq_false_iff.mpr hend) (Bool.eq_false_iff.mpr hc)
          (Bool.eq_false_iff.mpr ho) (Bool.eq_false_iff.mpr hn) hk]
        refine ⟨p, ?_, hat⟩
        simpa only [hk, if_false, State.pass_moveTo] using hall

/-- A token between two alternatives, which does not end the body, opens no action. -/
theorem isSpecial_brace_of_bar {t : Token} (hb : t.isSpecial "|" = true)
    (hs : t.isSpecial ";" = false) : t.isSpecial "\x7b" = false := by
  obtain ⟨hk, hv⟩ := Bool.and_eq_true_iff.mp hb
  have hv : t.value.toList = [] ∨ t.value.toList = ['|'] := (occursIn_singleton_iff _ _).mp hv
  rcases hv with hv | hv
  · rw [Token.isSpecial, hk, hv] at hs
    exact absurd hs (by decide)
  · rw [Token.isSpecial, hk, hv]
    decide

/-- The token starts an element of a body that is no action. -/
structure Plain (t : Token) : Prop where
  isEnd : t.isEnd = false
  semicolon : t.isSpecial ";" = false
  separator : (t.kind == .separator) = false
  bar : t.isSpecial "|" = false
  brace : t.isSpecial "\x7b" = false

theorem run_precedence (hin : Ends input) {t : Token} {rest : List Token} {s : State}
    (h : At input s.position ⟨t, rest⟩) (ht : Plain t) (hk : t.kind = .directive)
    (hv : (t.value == "%prec") = true) :
    ∃ p, RunWithin limit input (s.push [.precedence]) ((s.moveTo p).note (element t rest).1) ∧
      At input p (element t rest).2 := by
  cases rest with
  | nil =>
      have heq : element t [] = ([], ⟨t, []⟩) := by simp [element, ht.brace, hk]
      have hend : (tokenAt input s.position).kind = .eof := eq_of_beq (h.ahead.isEnd hin)
      simp only [heq, State.note_nil]
      refine ⟨s.position, .perform rfl rfl ?_, h⟩
      simp only [performAt, hend]
      exact .refl s
  | cons operand after =>
      by_cases ho : (operand.kind == .identifier || operand.kind == .character) = true
      · rw [element_precedence after hk (eq_of_beq hv) (by simpa using ho)]
        refine ⟨s.position + 1, .perform rfl h.ahead.token ?_, h.ahead.cursor⟩
        simp only [performAt, ho, if_true]
        exact .refl _
      · have heq : element t (operand :: after) = ([], ⟨t, operand :: after⟩) := by
          simp only [element, ht.brace, hk, ho, beq_self_eq_true, Bool.and_false, if_true,
            Bool.false_eq_true, if_false]
        simp only [heq, State.note_nil]
        refine ⟨s.position, .perform rfl h.ahead.token ?_, h⟩
        simp only [performAt, ho]
        exact .refl s

theorem run_directive (hin : Ends input) {t : Token} {rest : List Token} {s : State}
    (h : Ahead input s.position (t :: rest)) (ht : Plain t) (hk : t.kind = .directive) :
    ∃ p, RunWithin limit input (s.push [.body])
        (((s.moveTo p).note (element t rest).1).push [.body]) ∧
      At input p (element t rest).2 := by
  have hcalls : callsAt input t s = false := callsAt_of_isName (by rw [Token.isName, hk]; rfl)
  by_cases hv : (t.value == "%prec") = true
  · obtain ⟨p, hrun, hat⟩ :=
      run_precedence hin (s := (s.pass s.position).push [.body]) h.cursor ht hk hv
    refine ⟨p, .pass h.token hcalls ?_, hat⟩
    simp only [performAt, bodyStep, ht.isEnd, ht.semicolon, ht.bar, ht.brace, hk, hv,
      beq_self_eq_true, if_true, Bool.false_eq_true, if_false]
    exact hrun
  · simp only [element_directive rest hk (by simpa using hv), State.note_nil]
    refine ⟨s.position + 1, .pass h.token hcalls ?_, h.cursor⟩
    simp only [performAt, bodyStep, ht.isEnd, ht.semicolon, ht.bar, ht.brace, hk, hv,
      beq_self_eq_true, if_true, Bool.false_eq_true, if_false]
    exact .refl _

theorem run_name (hin : Ends input) {t : Token} {rest : List Token} {s : State}
    (h : Ahead input s.position (t :: rest)) (ht : Plain t) (hn : t.isName = true)
    (hno : elementOverflow? limit t rest = none) (hs : s.openCalls = 0) :
    ∃ p, RunWithin limit input (s.push [.body])
        (((s.moveTo p).note (element t rest).1).push [.body]) ∧
      At input p (element t rest).2 := by
  by_cases hr : NoCall rest
  · obtain ⟨p, hrun, hat⟩ := run_bracketed_suffix hin
      (s := ((s.pass s.position).note [.name t]).push [.body]) h.cursor
    have hk : (t.kind == .directive) = false := by
      rw [show t.kind = .identifier from eq_of_beq hn]
      rfl
    have hnext := noCall_at hin h.next hr
    rw [element_name hn hr]
    refine ⟨p, .pass h.token (by rw [callsAt, hnext, Bool.and_false]) ?_, hat⟩
    simp only [performAt, bodyStep, ht.isEnd, ht.semicolon, ht.separator, ht.bar, ht.brace, hk, hn,
      State.push_nil, hnext, if_true, Bool.false_eq_true, if_false]
    exact hrun
  · obtain ⟨next, after, rfl, hnext⟩ := exists_of_not_noCall hr
    have hcall : callOverflow? limit after = none := by
      simpa only [elementOverflow?, hn, hnext, Bool.and_self, if_true] using hno
    obtain ⟨p, hrun, hat⟩ := run_arguments hin hcall next ((s.pass (s.position + 1)).push
      [.bracketed, .optional (·.isSpecial "?*+"), .body]) t [] h.next.cursor
      (Nat.le_of_eq ((congrArg (· + limit) hs).trans (Nat.zero_add limit)))
    obtain ⟨p', hrun', hat'⟩ := run_bracketed_suffix hin (s := ((s.moveTo p).note
      ((arguments next after).usesOf t)).push [.body]) hat
    have hpos := room_pos hcall
    rw [element_call hn hnext]
    exact ⟨p', .call_body h.token hn (h.opens hnext) (by omega) (hrun.trans hrun'), hat'⟩

theorem run_element (hin : Ends input) {t : Token} {rest : List Token} {s : State}
    (h : Ahead input s.position (t :: rest)) (hend : t.isEnd = false)
    (hsemi : t.isSpecial ";" = false) (hsep : (t.kind == .separator) = false)
    (hno : elementOverflow? limit t rest = none) (hs : s.openCalls = 0) :
    ∃ p, RunWithin limit input (s.push [.body])
        (((s.moveTo p).note (element t rest).1).push [.body]) ∧
      At input p (element t rest).2 := by
  by_cases hbar : t.isSpecial "|" = true
  · have hk : t.kind = .special := eq_of_beq (Bool.and_eq_true_iff.mp hbar).1
    have heq := element_other rest (isSpecial_brace_of_bar hbar hsemi) (by simp [hk])
      (by simp [Token.isName, hk]) (by simp [hk])
    simp only [heq, State.note_nil]
    refine ⟨s.position + 1, .pass h.token (callsAt_of_isSpecial hbar) ?_, h.cursor⟩
    simp only [performAt, bodyStep, hend, hsemi, hsep, hbar, if_true, Bool.false_eq_true, if_false]
    exact .refl _
  by_cases hbrace : t.isSpecial "\x7b" = true
  · obtain ⟨p, hrun, hat⟩ := run_bracket hin "\x7d"
      (s := s.push [.optional (·.kind == .typeTag), .body]) h hbrace
    obtain ⟨p', hrun', hat'⟩ := run_optional hin (·.kind == .typeTag)
      (fun _ hf => Token.isEnd_of_kind (eq_of_beq hf) (by decide))
      (s := (s.moveTo p).push [.body]) hat
    simp only [element_action rest hbrace, State.note_nil]
    refine ⟨p', .pass h.token (callsAt_of_isSpecial hbrace) ?_, hat'⟩
    simp only [performAt, bodyStep, hend, hsemi, hsep, hbar, hbrace, if_true, Bool.false_eq_true,
      if_false]
    exact hrun.trans hrun'
  have plain : Plain t :=
    ⟨hend, hsemi, hsep, Bool.eq_false_iff.mpr hbar, Bool.eq_false_iff.mpr hbrace⟩
  by_cases hdir : t.kind = .directive
  · exact run_directive hin h plain hdir
  by_cases hn : t.isName = true
  · exact run_name hin h plain hn hno hs
  have hcalls : callsAt input t s = false := callsAt_of_isName (Bool.eq_false_iff.mpr hn)
  by_cases hchar : t.kind = .character
  · obtain ⟨p, hrun, hat⟩ := run_optional hin (·.isSpecial "?*+")
      (fun _ => Token.isEnd_of_isSpecial) (s := (s.pass s.position).push [.body]) h.cursor
    simp only [element_literal rest hchar, State.note_nil]
    refine ⟨p, .pass h.token hcalls ?_, hat⟩
    simp only [performAt, bodyStep, hend, hsemi, hbar, hbrace, hn, hchar, beq_self_eq_true, if_true,
      Bool.false_eq_true, if_false]
    exact hrun
  · simp only [element_other rest plain.brace hdir (Bool.eq_false_iff.mpr hn) hchar, State.note_nil]
    refine ⟨s.position + 1, .pass h.token hcalls ?_, h.cursor⟩
    simp only [performAt, bodyStep, hend, hsemi, hsep, hbar, hbrace, beq_false_of_ne hdir, hn,
      beq_false_of_ne hchar, Bool.false_eq_true, if_false]
    exact .refl _

theorem run_body (hin : Ends input) {ts : List Token} (hno : bodyOverflow? limit ts = none)
    (last : Token) (s : State) (h : At input s.position ⟨last, ts⟩) (hs : s.openCalls = 0) :
    ∃ p, RunWithin limit input (s.push [.body]) ((s.moveTo p).note (readBody last ts).1) ∧
      At input p (readBody last ts).2 := by
  fun_induction bodyOverflow? limit ts generalizing last s with
  | case1 =>
      have hend := h.ahead.isEnd hin
      rw [readBody]
      simp only [State.note_nil]
      refine ⟨s.position, .pass rfl (callsAt_of_isEnd hend) ?_, h⟩
      simp only [performAt, bodyStep, hend, if_true]
      exact .refl _
  | case2 t rest hend =>
      rw [readBody, if_pos hend]
      simp only [State.note_nil]
      refine ⟨s.position, .pass h.ahead.token (callsAt_of_isEnd hend) ?_, h⟩
      simp only [performAt, bodyStep, hend, if_true]
      exact .refl _
  | case3 t rest hend hsemi =>
      rw [readBody, if_neg hend, if_pos hsemi]
      simp only [State.note_nil]
      refine ⟨s.position + 1, .pass h.ahead.token (callsAt_of_isSpecial hsemi) ?_, h.ahead.cursor⟩
      simp only [performAt, bodyStep, hend, hsemi, if_true]
      exact .refl _
  | case4 t rest hend hsemi hsep =>
      have hcalls : callsAt input t s = false :=
        callsAt_of_isName (by rw [Token.isName, eq_of_beq hsep]; rfl)
      rw [readBody, if_neg hend, if_neg hsemi, if_pos hsep]
      simp only [State.note_nil]
      refine ⟨s.position, .pass h.ahead.token hcalls ?_, h⟩
      simp only [performAt, bodyStep, hend, hsemi, hsep, if_true]
      exact .refl _
  | case5 => cases hno
  | case6 t rest hend hsemi hsep helement ih =>
      rw [readBody, if_neg hend, if_neg hsemi, if_neg hsep]
      obtain ⟨p, hrun, hat⟩ := run_element hin h.ahead (Bool.eq_false_iff.mpr hend)
        (Bool.eq_false_iff.mpr hsemi) (Bool.eq_false_iff.mpr hsep) helement hs
      obtain ⟨p', hrun', hat'⟩ := ih (Option.map_eq_none_iff.mp hno) _
        ((s.moveTo p).note (element t rest).1) hat hs
      refine ⟨p', ?_, hat'⟩
      have hall := hrun.trans hrun'
      simpa only [State.note_moveTo, State.moveTo_moveTo, State.note_note, prependUses] using hall

/-! ### Declarations -/

/-- The tokens that end a list are no entries of it. -/
theorem entry_of_endsList {t : Token} (h : t.endsList = true) (literals : Bool) :
    (t.isName || literals && t.kind == .character) = false := by
  simp only [Token.endsList, Token.isEnd, Bool.or_eq_true, beq_iff_eq] at h
  rcases h with ((h | h) | h) | h <;> simp [Token.isName, h]

theorem run_listed (hin : Ends input) (literals : Bool) (kind : Symbol.Kind)
    (typeTag : Option String) (ts : List Token) (s : State) (h : Ahead input s.position ts) :
    ∃ p, RunWithin limit input (s.push [.listed literals kind typeTag])
        ((s.moveTo p).add (((listed ts).1.filter fun t =>
          t.isName || literals && t.kind == .character).map
            (.symbol · kind (typeTag.filter (· ≠ ""))))) ∧
      Ahead input p (listed ts).2 := by
  induction ts generalizing s with
  | nil =>
      have hends : (tokenAt input s.position).endsList = true := by
        rw [Token.endsList, h.isEnd hin, Bool.true_or, Bool.true_or, Bool.true_or]
      simp only [listed, List.takeWhile_nil, List.filter_nil, List.map_nil, State.add_nil]
      refine ⟨s.position, .perform rfl rfl ?_, h⟩
      simp only [performAt, entry_of_endsList hends, hends, if_true, Bool.false_eq_true, if_false]
      exact .refl s
  | cons t rest ih =>
      by_cases hends : t.endsList = true
      · simp only [listed, hends, List.takeWhile_cons, List.dropWhile_cons, Bool.not_true,
          Bool.false_eq_true, if_false, List.filter_nil, List.map_nil, State.add_nil]
        refine ⟨s.position, .perform rfl h.token ?_, h⟩
        simp only [performAt, entry_of_endsList hends, hends, if_true, Bool.false_eq_true, if_false]
        exact .refl s
      simp only [listed, hends, List.takeWhile_cons, List.dropWhile_cons, Bool.not_false, if_true,
        List.filter_cons]
      by_cases hentry : (t.isName || literals && t.kind == .character) = true
      · obtain ⟨p, hrun, hat⟩ := ih
          ((s.pass s.position).add [.symbol t kind (typeTag.filter (· ≠ ""))]) h.next
        refine ⟨p, .perform rfl h.token ?_, hat⟩
        simp only [State.add_moveTo, State.pass_moveTo, State.add_add,
          List.singleton_append] at hrun
        simp only [performAt, hentry, if_true, List.map_cons]
        exact hrun
      · obtain ⟨p, hrun, hat⟩ := ih (s.pass s.position) h.next
        refine ⟨p, .perform rfl h.token ?_, hat⟩
        simp only [performAt, hentry, hends, Bool.false_eq_true, if_false]
        exact hrun

theorem run_tagged (hin : Ends input) (kind : Symbol.Kind) {ts : List Token} {s : State}
    (h : Ahead input s.position ts) :
    ∃ p, RunWithin limit input (s.push [.tagged kind]) ((s.moveTo p).add (readSymbols kind ts).1) ∧
      Ahead input p (readSymbols kind ts).2 := by
  cases ts with
  | nil =>
      have hend : (tokenAt input s.position).kind = .eof := eq_of_beq (h.isEnd hin)
      obtain ⟨p, hrun, hat⟩ := run_listed hin false kind none [] s h
      refine ⟨p, .perform rfl rfl ?_, hat⟩
      simp only [performAt, hend]
      exact hrun
  | cons t rest =>
      by_cases hk : (t.kind == .typeTag) = true
      · obtain ⟨p, hrun, hat⟩ :=
          run_listed hin false kind (some t.value) rest (s.pass s.position) h.next
        simp only [readSymbols, typeTag?, hk, if_true]
        simp only [Bool.false_and, Bool.or_false] at hrun
        refine ⟨p, .perform rfl h.token ?_, hat⟩
        simp only [performAt, hk, if_true]
        exact hrun
      · obtain ⟨p, hrun, hat⟩ := run_listed hin false kind none (t :: rest) s h
        simp only [readSymbols, typeTag?, hk, Bool.false_eq_true, if_false]
        simp only [Bool.false_and, Bool.or_false] at hrun
        refine ⟨p, .perform rfl h.token ?_, hat⟩
        simp only [performAt, hk, Bool.false_eq_true, if_false]
        exact hrun

theorem run_operators (hin : Ends input) {ts : List Token} {s : State}
    (h : Ahead input s.position ts) :
    ∃ p, RunWithin limit input (s.push [.listed true .token none])
        ((s.moveTo p).add (readOperators ts).1) ∧
      Ahead input p (readOperators ts).2 := by
  simpa [readOperators] using run_listed hin true .token none ts s h

theorem run_start (hin : Ends input) {ts : List Token} {s : State}
    (h : Ahead input s.position ts) :
    ∃ p, RunWithin limit input (s.push [.start]) ((s.moveTo p).add (readStart ts).1) ∧
      Ahead input p (readStart ts).2 := by
  cases ts with
  | nil =>
      have hend : (tokenAt input s.position).kind = .eof := eq_of_beq (h.isEnd hin)
      simp only [readStart, State.add_nil]
      refine ⟨s.position, .perform rfl rfl ?_, h⟩
      simp only [performAt, Token.isName, hend]
      exact .refl s
  | cons t rest =>
      by_cases hn : t.isName = true
      · simp only [readStart, hn, if_true]
        refine ⟨s.position + 1, .perform rfl h.token ?_, h.next⟩
        simp only [performAt, hn, if_true]
        exact .refl _
      · simp only [readStart, hn, Bool.false_eq_true, if_false, State.add_nil]
        refine ⟨s.position, .perform rfl h.token ?_, h⟩
        simp only [performAt, hn, Bool.false_eq_true, if_false]
        exact .refl s

theorem run_line (hin : Ends input) (number : Int) (ts : List Token) (s : State)
    (h : Ahead input s.position ts) :
    ∃ p, RunWithin limit input (s.push [.line number]) (s.moveTo p) ∧
      Ahead input p (ts.dropWhile fun u => !u.isEnd && u.line == number) := by
  induction ts generalizing s with
  | nil =>
      refine ⟨s.position, .perform rfl rfl ?_, h⟩
      simp only [performAt, h.isEnd hin, Bool.not_true, Bool.false_and, Bool.false_eq_true,
        if_false]
      exact .refl s
  | cons t rest ih =>
      by_cases ht : (!t.isEnd && t.line == number) = true
      · obtain ⟨p, hrun, hat⟩ := ih (s.pass s.position) h.next
        simp only [List.dropWhile_cons, ht, if_true]
        refine ⟨p, .perform rfl h.token ?_, hat⟩
        simp only [performAt, ht, if_true]
        exact hrun
      · simp only [List.dropWhile_cons, ht, Bool.false_eq_true, if_false]
        refine ⟨s.position, .perform rfl h.token ?_, h⟩
        simp only [performAt, ht, Bool.false_eq_true, if_false]
        exact .refl s

theorem run_code (hin : Ends input) (ts : List Token) (s : State)
    (h : Ahead input s.position ts) :
    ∃ p, RunWithin limit input (s.push [.upTo "\x7b", .balanced "\x7b" "\x7d" 0]) (s.moveTo p) ∧
      Ahead input p (skipCode ts) := by
  induction ts generalizing s with
  | nil =>
      refine ⟨s.position, .perform rfl rfl ?_, h⟩
      simp only [performAt, h.isEnd hin, Bool.true_or, if_true]
      refine .perform rfl rfl ?_
      simp only [performAt, h.isEnd hin, if_true]
      exact .refl s
  | cons t rest ih =>
      unfold skipCode
      split
      · rename_i hend
        refine ⟨s.position, .perform rfl h.token ?_, h⟩
        simp only [performAt, hend, Bool.true_or, if_true]
        refine .perform rfl h.token ?_
        simp only [performAt, hend, if_true]
        exact .refl s
      · rename_i hend
        split
        · rename_i hbrace
          obtain ⟨p, hrun, hat⟩ := run_bracket hin "\x7d" h hbrace
          refine ⟨p, .perform rfl h.token ?_, hat.ahead⟩
          simp only [performAt, hbrace, Bool.or_true, if_true]
          exact hrun
        · rename_i hbrace
          obtain ⟨p, hrun, hat⟩ := ih (s.pass s.position) h.next
          refine ⟨p, .perform rfl h.token ?_, hat⟩
          simp only [performAt, hend, hbrace, Bool.or_self, Bool.false_eq_true, if_false]
          exact hrun

/-! ### Rules -/

/-- No body is being read. -/
structure State.Idle (s : State) : Prop where
  uses : s.uses = []
  openCalls : s.openCalls = 0

theorem run_finish {s : State} (hs : s.uses = []) {uses : List Use} {c : Cursor}
    (h : At input s.position c) (rule : Rule) :
    RunWithin limit input ((s.note uses).push [.finish rule])
      (s.add [.rule { rule with body := some ⟨uses, c.last⟩ }]) := by
  refine .perform rfl rfl ?_
  obtain ⟨position, place, items, noted, tasks⟩ := s
  obtain rfl : noted = [] := hs
  simp only [← h.last]
  exact .refl _

/-- The body of a rule, up to the rule that it belongs to. -/
theorem run_body_finish (hin : Ends input) (rule : Rule) {last : Token} {ts : List Token}
    {s : State} (h : At input s.position ⟨last, ts⟩) (hs : s.Idle)
    (hno : bodyOverflow? limit ts = none) :
    ∃ p, RunWithin limit input (s.push [.body, .finish rule])
        ((s.moveTo p).add
          [.rule { rule with body := some ⟨(readBody last ts).1, (readBody last ts).2.last⟩ }]) ∧
      Ahead input p (readBody last ts).2.rest := by
  obtain ⟨p, hrun, hat⟩ := run_body hin hno last (s.push [.finish rule]) h hs.openCalls
  exact ⟨p, hrun.trans (run_finish (s := s.moveTo p) hs.uses hat rule), hat.ahead⟩

theorem run_colon (hin : Ends input) (first name : Token) (parameters : Option (List String))
    (typeTag : Option String) {ts : List Token} {s : State} (h : Ahead input s.position ts)
    (hs : s.Idle)
    (hno : ruleOverflow? limit ⟨first, name, parameters, typeTag, none⟩ ts = none) :
    ∃ p, RunWithin limit input (s.push [.colon ⟨first, name, parameters, typeTag, none⟩])
        ((s.moveTo p).add [.rule ⟨first, name, parameters, typeTag, (body? ts).1⟩]) ∧
      Ahead input p (body? ts).2 := by
  cases ts with
  | nil =>
      refine ⟨s.position, .perform rfl rfl ?_, h⟩
      simp only [performAt, Token.isSpecial_of_isEnd (h.isEnd hin), Bool.false_eq_true, if_false]
      exact .refl _
  | cons t rest =>
      by_cases hc : t.isSpecial ":" = true
      · have hbody : bodyOverflow? limit rest = none := by
          simpa only [ruleOverflow?, hc, if_true, Option.map_eq_none_iff] using hno
        obtain ⟨p, hrun, hat⟩ := run_body_finish hin ⟨first, name, parameters, typeTag, none⟩
          (s := s.pass s.position) h.cursor ⟨hs.uses, hs.openCalls⟩ hbody
        simp only [body?, hc, if_true]
        refine ⟨p, .perform rfl h.token ?_, hat⟩
        simp only [performAt, hc, if_true]
        exact hrun
      · simp only [body?, hc, Bool.false_eq_true, if_false]
        refine ⟨s.position, .perform rfl h.token ?_, h⟩
        simp only [performAt, hc, Bool.false_eq_true, if_false]
        exact .refl _

/-- The type tag of a rule, which may be missing. -/
theorem run_typeTag (hin : Ends input) (first name : Token) (parameters : Option (List String))
    {ts : List Token} {s : State} (h : Ahead input s.position ts) :
    ∃ p, RunWithin limit input (s.push [.typeTag ⟨first, name, parameters, none, none⟩])
        ((s.moveTo p).push [.colon ⟨first, name, parameters, (typeTag? ts).1, none⟩]) ∧
      Ahead input p (typeTag? ts).2 := by
  cases ts with
  | nil =>
      have hend : (tokenAt input s.position).kind = .eof := eq_of_beq (h.isEnd hin)
      refine ⟨s.position, .perform rfl rfl ?_, h⟩
      simp only [performAt, hend]
      exact .refl _
  | cons t rest =>
      by_cases hk : (t.kind == .typeTag) = true
      · simp only [typeTag?, hk, if_true]
        refine ⟨s.position + 1, .perform rfl h.token ?_, h.next⟩
        simp only [performAt, hk, if_true]
        exact .refl _
      · simp only [typeTag?, hk, Bool.false_eq_true, if_false]
        refine ⟨s.position, .perform rfl h.token ?_, h⟩
        simp only [performAt, hk, Bool.false_eq_true, if_false]
        exact .refl _

theorem run_parameterList (hin : Ends input) (rule : Rule) (ts : List Token) (opening : Token)
    (names : List String) (s : State) (h : Ahead input s.position ts) :
    ∃ p, RunWithin limit input (s.push [.parameterList rule names])
        ((s.moveTo p).push
          [.typeTag { rule with parameters := some (names ++ (readParameters opening ts).1) }]) ∧
      Ahead input p (readParameters opening ts).2 := by
  induction ts generalizing opening names s with
  | nil =>
      refine ⟨s.position, .perform rfl rfl ?_, h⟩
      simp only [performAt, h.isEnd hin, if_true, readParameters, List.takeWhile_nil,
        List.filter_nil, List.map_nil, List.append_nil]
      exact .refl _
  | cons t rest ih =>
      unfold readParameters skipThrough
      simp only [List.takeWhile_cons]
      by_cases hend : t.isEnd = true
      · simp only [hend, Bool.true_or, Bool.not_true, Bool.false_eq_true, if_false, if_true,
          List.filter_nil, List.map_nil, List.append_nil]
        refine ⟨s.position, .perform rfl h.token ?_, h⟩
        simp only [performAt, hend, if_true]
        exact .refl _
      by_cases hc : t.isSpecial ")" = true
      · simp only [hend, hc, Bool.or_true, Bool.not_true, Bool.false_eq_true, if_false, if_true,
          List.filter_nil, List.map_nil, List.append_nil]
        refine ⟨s.position + 1, .perform rfl h.token ?_, h.next⟩
        simp only [performAt, hend, hc, if_true]
        exact .refl _
      simp only [hend, hc, Bool.or_self, Bool.not_false, if_true, Bool.false_eq_true, if_false,
        List.filter_cons]
      by_cases hn : t.isName = true
      · obtain ⟨p, hrun, hat⟩ := ih t (names ++ [t.value]) (s.pass s.position) h.next
        simp only [hn, if_true, List.map_cons]
        refine ⟨p, .perform rfl h.token ?_, hat⟩
        simp only [readParameters, List.append_assoc, List.singleton_append] at hrun
        simp only [performAt, hend, hc, hn, if_true]
        exact hrun
      · obtain ⟨p, hrun, hat⟩ := ih t names (s.pass s.position) h.next
        simp only [hn, Bool.false_eq_true, if_false]
        refine ⟨p, .perform rfl h.token ?_, hat⟩
        simp only [performAt, hend, hc, hn]
        exact hrun

theorem run_parameters (hin : Ends input) (first name : Token) {ts : List Token} {s : State}
    (h : Ahead input s.position ts) :
    ∃ p, RunWithin limit input (s.push [.parameters ⟨first, name, none, none, none⟩])
        ((s.moveTo p).push [.typeTag ⟨first, name, (parameters? ts).1, none, none⟩]) ∧
      Ahead input p (parameters? ts).2 := by
  cases ts with
  | nil =>
      refine ⟨s.position, .perform rfl rfl ?_, h⟩
      simp only [performAt, Token.isSpecial_of_isEnd (h.isEnd hin), Bool.false_eq_true, if_false]
      exact .refl _
  | cons t rest =>
      by_cases ho : t.isSpecial "(" = true
      · obtain ⟨p, hrun, hat⟩ := run_parameterList hin ⟨first, name, none, none, none⟩ rest t []
          (s.pass s.position) h.next
        simp only [parameters?, ho, if_true]
        refine ⟨p, .perform rfl h.token ?_, hat⟩
        simp only [performAt, ho, if_true]
        exact hrun
      · simp only [parameters?, ho, Bool.false_eq_true, if_false]
        refine ⟨s.position, .perform rfl h.token ?_, h⟩
        simp only [performAt, ho, Bool.false_eq_true, if_false]
        exact .refl _

theorem skipIf_isInline (last : Token) (ts : List Token) :
    ((Cursor.mk last ts).skipIf isInline).rest = skipInline ts := by
  cases ts with
  | nil => rfl
  | cons t rest =>
      by_cases h : (t.kind == .directive && t.value == "%inline") = true
      · simp only [Cursor.skipIf, skipInline, isInline, h, if_true]
      · simp only [Cursor.skipIf, skipInline, isInline, h, Bool.false_eq_true, if_false]

theorem run_inline (hin : Ends input) {ts : List Token} {s : State}
    (h : Ahead input s.position ts) :
    ∃ p, RunWithin limit input (s.push [.optional isInline]) (s.moveTo p) ∧
      Ahead input p (skipInline ts) := by
  have hat : At input s.position ⟨tokenAt input (s.position - 1), ts⟩ := ⟨rfl, h⟩
  obtain ⟨p, hrun, hat'⟩ := run_optional hin isInline (fun _ hf =>
    Token.isEnd_of_kind (eq_of_beq (Bool.and_eq_true_iff.mp hf).1) (by decide)) hat
  exact ⟨p, hrun, skipIf_isInline _ ts ▸ hat'.ahead⟩

/-- All that stands before the body of a rule that a directive announces. -/
theorem run_ruleHead (hin : Ends input) (directive : Token) {name : Token} {ts rest : List Token}
    {s : State} (h : Ahead input s.position ts) (hts : skipInline ts = name :: rest)
    (hn : name.isName = true) :
    ∃ p, RunWithin limit input (s.push [.optional isInline, .ruleName directive])
        ((s.moveTo p).push [.colon ⟨directive, name, (parameters? rest).1,
          (typeTag? (parameters? rest).2).1, none⟩]) ∧
      Ahead input p (typeTag? (parameters? rest).2).2 := by
  obtain ⟨p, hrun, hat⟩ := run_inline hin (s := s.push [.ruleName directive]) h
  rw [hts] at hat
  obtain ⟨p', hrun', hat'⟩ := run_parameters hin directive name (s := (s.moveTo p).pass p) hat.next
  obtain ⟨p'', hrun'', hat''⟩ :=
    run_typeTag hin directive name (parameters? rest).1 (s := s.moveTo p') hat'
  have hname : RunWithin limit input ((s.moveTo p).push [.ruleName directive])
      (((s.moveTo p).pass p).push [.parameters ⟨directive, name, none, none, none⟩]) := by
    refine .perform rfl hat.token ?_
    simp only [performAt, hn, if_true]
    exact .refl _
  exact ⟨p'', (hrun.trans hname).trans (hrun'.trans hrun''), hat''⟩

theorem run_declaredRule (hin : Ends input) (directive : Token) {ts : List Token} {s : State}
    (h : Ahead input s.position ts) (hs : s.Idle)
    (hno : declaredRuleOverflow? limit directive ts = none) :
    ∃ p, RunWithin limit input (s.push [.optional isInline, .ruleName directive])
        ((s.moveTo p).add (readDeclaredRule directive ts).1) ∧
      Ahead input p (readDeclaredRule directive ts).2 := by
  obtain ⟨p, hrun, hat⟩ := run_inline hin (s := s.push [.ruleName directive]) h
  cases hts : skipInline ts with
  | nil =>
      rw [hts] at hat
      have hend : (tokenAt input p).kind = .eof := eq_of_beq (hat.isEnd hin)
      simp only [readDeclaredRule, hts, State.add_nil]
      refine ⟨p, hrun.trans (.perform (s := s.moveTo p) rfl rfl ?_), hat⟩
      simp only [performAt, Token.isName, State.moveTo, hend]
      exact .refl _
  | cons name rest =>
      rw [hts] at hat
      by_cases hn : name.isName = true
      · simp only [declaredRuleOverflow?, hts, hn, if_true] at hno
        obtain ⟨p', hrun', hat'⟩ := run_ruleHead hin directive h hts hn
        obtain ⟨p'', hrun'', hat''⟩ := run_colon hin directive name (parameters? rest).1
          (typeTag? (parameters? rest).2).1 (s := s.moveTo p') hat' ⟨hs.uses, hs.openCalls⟩ hno
        simp only [readDeclaredRule, hts, hn, if_true]
        exact ⟨p'', hrun'.trans hrun'', hat''⟩
      · simp only [readDeclaredRule, hts, hn, Bool.false_eq_true, if_false, State.add_nil]
        refine ⟨p, hrun.trans (.perform (s := s.moveTo p) rfl hat.token ?_), hat⟩
        simp only [performAt, hn, Bool.false_eq_true, if_false]
        exact .refl _

/-! ### The alias before a colon -/

/-- Looking for the end of an alias stops behind it, or behind the last token if there is none. -/
theorem aliasEnd_spec (hin : Ends input) (rest : List Token) (i : Nat)
    (h : Ahead input i rest) :
    Ahead input (aliasEnd input i + 1) ((rest.dropWhile (·.value != "]")).drop 1) ∨
      (rest.dropWhile (·.value != "]")).drop 1 = [] ∧
        (tokenAt input (aliasEnd input i + 1)).isEnd = true := by
  have atEnd : ∀ j, input.length ≤ j + 1 → (tokenAt input (aliasEnd input j + 1)).isEnd = true := by
    intro j hj
    have hlt := le_aliasEnd input j
    by_contra hend
    have := hin.succ_lt (Bool.eq_false_iff.mpr hend)
    omega
  induction rest generalizing i with
  | nil =>
      obtain ⟨more, hd, hl, -⟩ := h
      have hlen := congrArg List.length hd
      rw [List.length_drop, List.nil_append] at hlen
      exact .inr ⟨rfl, atEnd i (by omega)⟩
  | cons t rest ih =>
      by_cases hi : i + 1 < input.length
      · rw [aliasEnd, if_pos hi, h.token, List.dropWhile_cons]
        split
        · exact ih (i + 1) h.next
        · exact .inl h.next
      · -- Only the last token is left, so nothing comes behind it.
        obtain ⟨more, hd, -, -⟩ := h
        have hlen := congrArg List.length hd
        simp only [List.length_drop, List.length_append, List.length_cons] at hlen
        have hrest : rest = [] := List.eq_nil_of_length_eq_zero (by omega)
        refine .inr ⟨?_, atEnd i (by omega)⟩
        rw [hrest, List.dropWhile_cons]
        split <;> rfl

theorem afterName_spec (hin : Ends input) {i : Nat} {t : Token} {rest : List Token}
    (h : Ahead input i (t :: rest)) :
    Ahead input (afterName input i) (afterAlias rest) ∨
      afterAlias rest = [] ∧ (tokenAt input (afterName input i)).isEnd = true := by
  cases rest with
  | nil =>
      have hend := h.next.isEnd hin
      simp only [afterName, Token.isSpecial_of_isEnd hend, Bool.false_eq_true, if_false]
      exact .inl h.next
  | cons u rest =>
      rw [afterName, afterAlias, h.next.token]
      split
      · exact aliasEnd_spec hin rest (i + 2) h.next.next
      · exact .inl h.next

theorem afterAlias_of_colon (hin : Ends input) {i : Nat} {t : Token} {rest : List Token}
    (h : Ahead input i (t :: rest))
    (hc : (tokenAt input (afterName input i)).isSpecial ":" = true) :
    ∃ colon after, afterAlias rest = colon :: after ∧
      Ahead input (afterName input i) (colon :: after) := by
  have hend : (tokenAt input (afterName input i)).isEnd ≠ true :=
    Bool.eq_false_iff.mp (Token.isEnd_of_isSpecial hc)
  rcases afterName_spec hin h with hat | ⟨-, hat⟩
  · cases hr : afterAlias rest with
    | nil =>
        rw [hr] at hat
        exact absurd (hat.isEnd hin) hend
    | cons colon after => exact ⟨colon, after, rfl, hr ▸ hat⟩
  · exact absurd hat hend

theorem body?_of_not_colon (hin : Ends input) {i : Nat} {t : Token} {rest : List Token}
    (h : Ahead input i (t :: rest))
    (hc : (tokenAt input (afterName input i)).isSpecial ":" = false) :
    body? (afterAlias rest) = (none, afterAlias rest) := by
  cases hr : afterAlias rest with
  | nil => rfl
  | cons u after =>
      rcases afterName_spec hin h with hat | ⟨hnil, -⟩
      · rw [hr] at hat
        rw [hat.token] at hc
        simp only [body?, hc, Bool.false_eq_true, if_false]
      · rw [hr] at hnil
        exact absurd hnil (by simp)

/-! ### Items -/

theorem Declaration.eq_of_rule {value : String} (h : Declaration.ofDirective? value = some .rule) :
    value = "%rule" := by
  unfold Declaration.ofDirective? at h
  split at h <;> simp_all

theorem run_afterDirective (hin : Ends input) {t : Token} {rest : List Token} {s : State}
    (h : Ahead input s.position rest) (hs : s.Idle) (hk : (t.kind == .directive) = true)
    (hno : itemOverflow? limit .declarations t rest = none) :
    ∃ p, RunWithin limit input (s.push (afterDirective t))
        ((s.moveTo p).add (readDeclaration t rest).1) ∧
      Ahead input p (readDeclaration t rest).2 := by
  simp only [readDeclaration, hk, if_true]
  cases hd : Declaration.ofDirective? t.value with
  | none =>
      simp only [afterDirective, hd, State.add_nil]
      exact run_line hin t.line rest s h
  | some announced =>
      cases announced with
      | symbols kind =>
          simp only [afterDirective, hd]
          exact run_tagged hin kind h
      | start =>
          simp only [afterDirective, hd]
          exact run_start hin h
      | operators =>
          simp only [afterDirective, hd]
          exact run_operators hin h
      | code =>
          simp only [afterDirective, hd, State.add_nil]
          exact run_code hin rest s h
      | rule =>
          simp only [afterDirective, hd]
          refine run_declaredRule hin t h hs ?_
          simpa only [itemOverflow?, hk, Declaration.eq_of_rule hd, beq_self_eq_true, Bool.and_self,
            if_true] using hno

theorem run_declaration (hin : Ends input) {t : Token} {rest : List Token} {s : State}
    (h : Ahead input s.position (t :: rest)) (hs : s.Idle)
    (hno : itemOverflow? limit .declarations t rest = none) :
    ∃ p, RunWithin limit input ((s.pass (startItem input .declarations s.position).1).push
          (startItem input .declarations s.position).2)
        ((s.moveTo p).add (readDeclaration t rest).1) ∧
      Ahead input p (readDeclaration t rest).2 := by
  by_cases hk : (t.kind == .directive) = true
  · simp only [startItem, h.token, hk, if_true]
    exact run_afterDirective hin (s := s.pass s.position) h.next ⟨hs.uses, hs.openCalls⟩ hk hno
  by_cases hp : (t.kind == .prologueStart) = true
  · obtain ⟨p, hrun, hat⟩ := run_through hin (·.kind == .prologueEnd) rest (s.pass s.position) t
      h.cursor
    simp only [startItem, readDeclaration, h.token, hk, hp, if_true, Bool.false_eq_true, if_false,
      State.add_nil]
    exact ⟨p, hrun, hat.ahead⟩
  · simp only [startItem, readDeclaration, h.token, hk, hp, Bool.false_eq_true, if_false,
      State.add_nil]
    exact ⟨s.position + 1, .refl _, h.next⟩

theorem run_rule (hin : Ends input) {t : Token} {rest : List Token} {s : State}
    (h : Ahead input s.position (t :: rest)) (hs : s.Idle)
    (hno : itemOverflow? limit .rules t rest = none) :
    ∃ p, RunWithin limit input ((s.pass (startItem input .rules s.position).1).push
          (startItem input .rules s.position).2)
        ((s.moveTo p).add (readRule t rest).1) ∧
      Ahead input p (readRule t rest).2 := by
  by_cases hk : (t.kind == .directive && t.value == "%rule") = true
  · simp only [startItem, readRule, h.token, hk, if_true]
    refine run_declaredRule hin t (s := s.pass s.position) h.next ⟨hs.uses, hs.openCalls⟩ ?_
    simpa only [itemOverflow?, hk, if_true] using hno
  by_cases hn : t.isName = true
  · by_cases hc : (tokenAt input (afterName input s.position)).isSpecial ":" = true
    · obtain ⟨colon, after, hafter, hat⟩ := afterAlias_of_colon hin h hc
      have hcolon : colon.isSpecial ":" = true := hat.token ▸ hc
      have hbody : bodyOverflow? limit after = none := by
        simpa only [itemOverflow?, hk, hn, hafter, ruleOverflow?, hcolon, if_true,
          Bool.false_eq_true, if_false, Option.map_eq_none_iff] using hno
      obtain ⟨p, hrun, hat'⟩ := run_body_finish hin ⟨t, t, none, none, none⟩
        (s := s.pass (afterName input s.position)) hat.cursor ⟨hs.uses, hs.openCalls⟩ hbody
      simp only [startItem, readRule, h.token, hk, hn, hc, hafter, body?, hcolon, if_true,
        Bool.false_eq_true, if_false, Bool.and_self]
      exact ⟨p, hrun, hat'⟩
    · have hbody := body?_of_not_colon hin h (Bool.eq_false_iff.mpr hc)
      simp only [startItem, readRule, h.token, hk, hn, hc, hbody, if_true, Bool.false_eq_true,
        if_false, Bool.and_false, State.add_nil]
      exact ⟨s.position + 1, .refl _, h.next⟩
  · simp only [startItem, readRule, h.token, hk, hn, Bool.false_and, Bool.false_eq_true, if_false,
      State.add_nil]
    exact ⟨s.position + 1, .refl _, h.next⟩

theorem run_item (hin : Ends input) (place : Section) {t : Token} {rest : List Token} {s : State}
    (h : Ahead input s.position (t :: rest)) (hs : s.Idle)
    (hno : itemOverflow? limit place t rest = none) :
    ∃ p, RunWithin limit input ((s.pass (startItem input place s.position).1).push
          (startItem input place s.position).2)
        ((s.moveTo p).add (readItem place t rest).1) ∧
      Ahead input p (readItem place t rest).2 := by
  cases place with
  | declarations => exact run_declaration hin h hs hno
  | rules => exact run_rule hin h hs hno
  | epilogue =>
      simp only [startItem, readItem, State.add_nil]
      exact ⟨s.position + 1, .refl _, h.next⟩

/-- Ending an item, which the position has left behind. -/
theorem run_close {s : State} {start : Nat} (h : start < s.position) :
    RunWithin limit input (s.push [.close start]) s := by
  refine .perform rfl rfl ?_
  have hne : s.position ≠ start := Nat.ne_of_gt h
  simp only [performAt, State.push_nil, hne, if_false]
  exact .refl s

/-- The state behind a separator. -/
def State.toNextSection (s : State) : State :=
  { s.pass s.position with place := s.place.next }

/-- One round of the main loop over a separator. -/
theorem run_separator (limit : Nat) {s : State} {t : Token} {rest : List Token}
    (h : Ahead input s.position (t :: rest)) (hend : ¬t.isEnd = true)
    (hsep : (t.kind == .separator) = true) :
    RunWithin limit input (s.push [.items]) (s.toNextSection.push [.items]) := by
  refine .perform rfl h.token ?_
  simp only [performAt, hend, hsep, if_true]
  exact run_close (s := s.toNextSection.push [.items]) (Nat.lt_succ_self _)

/-- The first step of the main loop over an item. -/
theorem run_startItem (limit : Nat) {s : State} {t : Token} {rest : List Token}
    (h : Ahead input s.position (t :: rest)) (hend : ¬t.isEnd = true)
    (hsep : ¬(t.kind == .separator) = true) :
    RunWithin limit input (s.push [.items])
      (((s.push [.close s.position, .items]).pass (startItem input s.place s.position).1).push
        (startItem input s.place s.position).2) := by
  refine .perform rfl h.token ?_
  simp only [performAt, hend, hsep, Bool.false_eq_true, if_false]
  rw [← State.push_push]
  exact .refl _

/-- One round of the main loop over an item. -/
theorem run_one_item (hin : Ends input) {s : State} {t : Token} {rest : List Token}
    (h : Ahead input s.position (t :: rest)) (hs : s.Idle) (hv : Valid input (s.push [.items]))
    (hend : ¬t.isEnd = true) (hsep : ¬(t.kind == .separator) = true)
    (hno : itemOverflow? limit s.place t rest = none) :
    ∃ p, RunWithin limit input (s.push [.items])
        (((s.moveTo p).add (readItem s.place t rest).1).push [.items]) ∧
      Ahead input p (readItem s.place t rest).2 := by
  obtain ⟨p, hrun, hat⟩ := run_item hin s.place (s := s.push [.close s.position, .items]) h
    ⟨hs.uses, hs.openCalls⟩ hno
  let next : State := (s.moveTo p).add (readItem s.place t rest).1
  have hread : RunWithin limit input (s.push [.items]) (next.push [.close s.position, .items]) :=
    (run_startItem limit h hend hsep).trans hrun
  -- The invariant says that reading the item has moved the position.
  have hlt : s.position < next.position :=
    (hv.run hin hread.run).close_lt s.position List.mem_cons_self
  exact ⟨p, hread.trans (run_close (s := next.push [.items]) hlt), hat⟩

theorem run_items (hin : Ends input) {place : Section} {ts : List Token}
    (hno : overflow? limit place ts = none) (s : State) (h : Ahead input s.position ts)
    (hp : s.place = place) (hs : s.Idle) (hv : Valid input (s.push [.items])) :
    ∃ p, RunWithin limit input (s.push [.items])
      { (s.moveTo p).add (readItems place ts).1 with place := (readItems place ts).2 } := by
  fun_induction overflow? limit place ts generalizing s with
  | case1 place =>
      rw [readItems]
      refine ⟨s.position, .perform rfl rfl ?_⟩
      simp only [performAt, h.isEnd hin, if_true, State.add_nil, ← hp]
      exact .refl s
  | case2 place t rest hend =>
      rw [readItems, if_pos hend]
      refine ⟨s.position, .perform rfl h.token ?_⟩
      simp only [performAt, hend, if_true, State.add_nil, ← hp]
      exact .refl s
  | case3 place t rest hend hsep ih =>
      rw [readItems, if_neg hend, if_pos hsep]
      have hfirst := run_separator limit h hend hsep
      obtain ⟨p, hrun⟩ := ih hno s.toNextSection h.next (by rw [← hp]; rfl)
        ⟨hs.uses, hs.openCalls⟩ (hv.run hin hfirst.run)
      exact ⟨p, hfirst.trans hrun⟩
  | case4 => cases hno
  | case5 place t rest hend hsep hitem ih =>
      subst hp
      rw [readItems, if_neg hend, if_neg hsep]
      obtain ⟨p, hfirst, hat⟩ := run_one_item hin h hs hv hend hsep hitem
      obtain ⟨p', hrun'⟩ := ih (Option.map_eq_none_iff.mp hno)
        ((s.moveTo p).add (readItem s.place t rest).1) hat rfl ⟨hs.uses, hs.openCalls⟩
        (hv.run hin hfirst.run)
      refine ⟨p', ?_⟩
      have hall := hfirst.trans hrun'
      simp only [State.add_moveTo, State.moveTo_moveTo, State.add_add] at hall
      exact hall

theorem ahead_closed (ts : List Token) : Ahead (closed ts) 0 ts := by
  unfold closed
  split
  · exact ⟨[], by simp, by simp, by simp⟩
  · exact ⟨[final], rfl, Nat.le_refl 1, by simp [final, Token.isEnd]⟩

theorem idle_initial : (State.mk 0 .declarations [] [] []).Idle := ⟨rfl, rfl⟩

/-! ### Room for all calls -/

/-- The run over the items of a list, with room for as many calls as there are tokens. -/
theorem run_all_items (hin : Ends input) {ts : List Token} (h : Ahead input 0 ts) :
    ∃ p, Run input initial
      ⟨p, (readItems .declarations ts).2, (readItems .declarations ts).1, [], []⟩ := by
  obtain ⟨p, hrun⟩ := run_items hin (overflow?_eq_none .declarations (Nat.le_refl ts.length))
    ⟨0, .declarations, [], [], []⟩ h rfl idle_initial (valid_initial hin)
  exact ⟨p, hrun.run⟩

end GrammarLens.Machine
