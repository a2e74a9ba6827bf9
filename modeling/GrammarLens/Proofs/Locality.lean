import GrammarLens.Proofs.Progress

/-! # Reading looks one token ahead

The machine decides what to do by the token at its position, by the one before it and, behind a
name, by the one after it.  So two inputs that agree up to some index make it take the same steps as
long as its position has not come to that index (`perform_congr`, `Run.congr`).  The one exception
is the alias of a rule, for which the machine looks ahead without moving (`afterName`).

For the reading functions this means: an item that is read before the end of the input is the same
item whatever the rest of the input is replaced by (`readItem_local`), unless it is a name with an
alias that the input does not end. -/

namespace GrammarLens

/-- Whether the tokens start with an alias that has nothing but the end of the input behind it: it
is not closed, or its closing bracket is the last token. -/
def openAlias (ts : List Token) : Bool :=
  ts.head?.any (·.isSpecial "[") && (afterAlias ts).head?.all (·.isEnd)

theorem exists_afterAlias {ts : List Token} {u : Token} (hhead : ts.head? = some u)
    (hu : u.isEnd = false) (h : openAlias ts = false) :
    ∃ next later, afterAlias ts = next :: later ∧ next.isEnd = false := by
  obtain ⟨rest, rfl⟩ := List.head?_eq_some_iff.mp hhead
  by_cases hb : u.isSpecial "[" = true
  · cases hafter : afterAlias (u :: rest) with
    | nil => simp [openAlias, hb, hafter] at h
    | cons next later => exact ⟨next, later, rfl, by simpa [openAlias, hb, hafter] using h⟩
  · refine ⟨u, rest, ?_, hu⟩
    rw [afterAlias, if_neg hb]

namespace Machine

variable {input input' : List Token}

/-! ### Steps on inputs that agree -/

/-- Behind a name the machine looks at the next token, and it then moves. -/
theorem bodyStep_congr {t : Token} {s : State}
    (hnext : s.position < (bodyStep input t s).position →
      tokenAt input (s.position + 1) = tokenAt input' (s.position + 1)) :
    bodyStep input t s = bodyStep input' t s := by
  by_cases hn : t.isName = true
  · have hk : t.kind = .identifier := eq_of_beq hn
    have hs (chars : String) : t.isSpecial chars = false := Token.isSpecial_of_kind hk (by decide)
    have hstep : ∀ input, bodyStep input t s =
        if (tokenAt input (s.position + 1)).isSpecial "(" then
          (s.pass (s.position + 1)).push
            [.arguments t [], .bracketed, .optional (·.isSpecial "?*+"), .body]
        else ((s.pass s.position).note [.name t]).push
          [.bracketed, .optional (·.isSpecial "?*+"), .body] := by
      intro input
      simp [bodyStep, Token.isEnd_of_isName hn, hs, hk, hn]
    have hmoves : s.position < (bodyStep input t s).position := by
      rw [hstep]
      split
      · exact Nat.lt_succ_of_lt (Nat.lt_succ_self _)
      · exact Nat.lt_succ_self _
    rw [hstep, hstep, hnext hmoves]
  · unfold bodyStep
    simp only [hn, Bool.false_eq_true, if_false]

theorem argumentStep_congr {t name : Token} {names : List String} {s : State}
    (hnext : s.position < (argumentStep input t name names s).position →
      tokenAt input (s.position + 1) = tokenAt input' (s.position + 1)) :
    argumentStep input t name names s = argumentStep input' t name names s := by
  by_cases hn : t.isName = true
  · have hk : t.kind = .identifier := eq_of_beq hn
    have hs (chars : String) : t.isSpecial chars = false := Token.isSpecial_of_kind hk (by decide)
    have hstep : ∀ input, argumentStep input t name names s =
        if (tokenAt input (s.position + 1)).isSpecial "(" then
          (s.pass (s.position + 1)).push [.arguments t [], .arguments name (names ++ [t.value])]
        else ((s.pass s.position).note [.name t]).push
          [.arguments name (names ++ [t.value])] := by
      intro input
      simp [argumentStep, Token.isEnd_of_isName hn, hs, hn]
    have hmoves : s.position < (argumentStep input t name names s).position := by
      rw [hstep]
      split
      · exact Nat.lt_succ_of_lt (Nat.lt_succ_self _)
      · exact Nat.lt_succ_self _
    rw [hstep, hstep, hnext hmoves]
  · unfold argumentStep
    simp only [hn, Bool.false_eq_true, if_false]

/-- What a task does depends on the tokens around the position.  The main loop is left out, since it
looks at the alias of a rule as well. -/
theorem perform_congr {task : Task} {s : State} (hitems : task ≠ .items)
    (hlast : tokenAt input (s.position - 1) = tokenAt input' (s.position - 1))
    (hhere : tokenAt input s.position = tokenAt input' s.position)
    (hnext : s.position < (perform input task s).position →
      tokenAt input (s.position + 1) = tokenAt input' (s.position + 1)) :
    perform input task s = perform input' task s := by
  unfold perform at hnext ⊢
  rw [← hhere]
  cases task with
  | items => exact absurd rfl hitems
  | body => exact bodyStep_congr hnext
  | arguments name names => exact argumentStep_congr hnext
  | call name names => simp only [performAt, hlast]
  | finish rule => simp only [performAt, hlast]
  | _ => rfl

/-! ### Tasks inside of an item -/

/-- No task leads back to the main loop. -/
def Inside (s : State) : Prop := Task.items ∉ s.tasks

theorem inside_bodyStep {t : Token} {s : State} (h : Inside s) : Inside (bodyStep input t s) := by
  unfold bodyStep Inside at *
  repeat' split
  all_goals simpa [State.push, State.pass, State.moveTo, State.note] using h

theorem inside_argumentStep {t name : Token} {names : List String} {s : State} (h : Inside s) :
    Inside (argumentStep input t name names s) := by
  unfold argumentStep Inside at *
  repeat' split
  all_goals simpa [State.push, State.pass, State.moveTo, State.note] using h

theorem inside_perform {task : Task} {s : State} (hitems : task ≠ .items) (h : Inside s) :
    Inside (perform input task s) := by
  unfold perform
  cases task with
  | items => exact absurd rfl hitems
  | body => exact inside_bodyStep h
  | arguments name names => exact inside_argumentStep h
  | _ =>
      simp only [performAt, Inside] at h ⊢
      repeat' split
      all_goals simpa [State.push, State.pass, State.moveTo, State.note, State.add] using h

/-! ### Runs on inputs that agree -/

/-- The inputs have the same tokens before an index. -/
def Agree (input input' : List Token) (n : Nat) : Prop :=
  ∀ i < n, tokenAt input i = tokenAt input' i

theorem Inside.step {s s' : State} (h : Inside s) (hs : step input s = some s') : Inside s' := by
  obtain ⟨task, tasks, htasks, rfl⟩ := exists_task_of_step hs
  rw [Inside, htasks, List.mem_cons, not_or] at h
  exact inside_perform (Ne.symm h.1) h.2

theorem Inside.run {s s' : State} (h : Inside s) (hr : Run input s s') : Inside s' := by
  induction hr with
  | refl => exact h
  | tail _ hs ih => exact ih.step hs

/-- A step inside of an item is the same on an input that agrees beyond where the step leads. -/
theorem step_congr {n : Nat} {s s' : State} (hagree : Agree input input' n) (h : Inside s)
    (hle : s.position ≤ s'.position) (hn : s'.position < n) (hs : step input s = some s') :
    step input' s = some s' := by
  obtain ⟨task, tasks, htasks, rfl⟩ := exists_task_of_step hs
  rw [Inside, htasks, List.mem_cons, not_or] at h
  have hlast := hagree (s.position - 1) (by omega)
  have hhere := hagree s.position (by omega)
  have hperform := perform_congr (s := { s with tasks := tasks }) (Ne.symm h.1) hlast hhere
    fun hlt => hagree (s.position + 1) (Nat.lt_of_le_of_lt hlt hn)
  simp only [step, htasks, hperform]

/-- A run inside of an item is the same on an input that agrees beyond where the run leads. -/
theorem Run.congr {n : Nat} {s s' : State} (hin : Ends input) (hagree : Agree input input' n)
    (hv : Valid input s) (h : Inside s) (hr : Run input s s') (hn : s'.position < n) :
    Run input' s s' := by
  induction hr with
  | refl => exact .refl s
  | @tail m s' hrun hs ih =>
      have hle := (hv.run hin hrun).position_le hin (Relation.ReflTransGen.single hs)
      have hstep := step_congr hagree (h.run hrun) hle hn hs
      exact (ih (Nat.lt_of_le_of_lt hle hn)).tail hstep

/-! ### The alias of a rule -/

theorem aliasEnd_congr {n i : Nat} (hagree : Agree input input' n) (hlen : n ≤ input'.length)
    (hend : aliasEnd input i + 1 < n) (hle : n ≤ input.length) :
    aliasEnd input' i = aliasEnd input i := by
  fun_induction aliasEnd input i with
  | case1 i hlt hvalue ih =>
      have := le_aliasEnd input (i + 1)
      rw [aliasEnd, if_pos (by omega), ← hagree i (by omega), if_pos hvalue]
      exact ih hend
  | case2 i hlt hvalue =>
      rw [aliasEnd, if_pos (by omega), ← hagree i (by omega), if_neg hvalue]
  | case3 i hlt => omega

theorem afterName_congr {n i : Nat} (hagree : Agree input input' n) (hlen : n ≤ input'.length)
    (hle : n ≤ input.length) (hend : afterName input i < n) :
    afterName input' i = afterName input i := by
  have hnext := hagree (i + 1) (Nat.lt_of_le_of_lt (lt_afterName input i) hend)
  unfold afterName at hend ⊢
  rw [← hnext]
  split
  · rename_i hb
    rw [if_pos hb] at hend
    rw [aliasEnd_congr hagree hlen hend hle]
  · rfl

/-- The start of an item is the same on an input that agrees beyond the token after the name, or
beyond the alias if there is one. -/
theorem startItem_congr {n i : Nat} (place : Section) (hagree : Agree input input' n)
    (hlen : n ≤ input'.length) (hle : n ≤ input.length) (hi : i < n)
    (hname : place = .rules → (tokenAt input i).isName = true → afterName input i < n) :
    startItem input place i = startItem input' place i := by
  unfold startItem
  rw [← hagree i hi]
  cases place with
  | declarations => rfl
  | epilogue => rfl
  | rules =>
      by_cases hn : (tokenAt input i).isName = true
      · have hlt := hname rfl hn
        simp only [afterName_congr hagree hlen hle hlt, hagree _ hlt]
      · simp only [hn, Bool.false_and, Bool.false_eq_true, if_false]

/-! ### What is left of the input -/

/-- A list that is the rest of a longer one and its beginning too consists of one token only. -/
theorem eq_of_cons_eq_append {a z : Token} {ts : List Token} (h : a :: ts = ts ++ [z]) :
    ∀ t ∈ ts, t = z := by
  induction ts generalizing a with
  | nil => simp
  | cons b ts ih =>
      rw [List.cons_append, List.cons.injEq] at h
      have hrest := ih h.2
      intro t ht
      rcases List.mem_cons.mp ht with rfl | ht
      · cases ts with
        | nil => simpa using h.2
        | cons c ts =>
            rw [List.cons_append, List.cons.injEq] at h
            rw [h.2.1]
            exact hrest c List.mem_cons_self
      · exact hrest t ht

/-- Tokens that are left of the input, and do not start with its end, are all that is left. -/
theorem Ahead.drop_eq {i : Nat} {t : Token} {rest : List Token}
    (h : Ahead input i (t :: rest)) (hs : (t :: rest) <:+ input) (ht : t.isEnd = false) :
    input.drop i = t :: rest := by
  obtain ⟨more, hd, hl, hm⟩ := h
  cases more with
  | nil => rw [hd, List.append_nil]
  | cons z more =>
      obtain rfl : more = [] := by simpa using hl
      -- One more token would shift the list by one, and it would start with an end token.
      have hshift : (t :: rest) <:+ t :: rest ++ [z] := by
        refine List.suffix_of_suffix_length_le hs ?_ (by simp)
        exact hd ▸ List.drop_suffix i input
      obtain ⟨front, hfront⟩ := hshift
      have hlen := congrArg List.length hfront
      simp only [List.length_append, List.length_cons, List.length_nil] at hlen
      obtain ⟨a, rfl⟩ := List.length_eq_one_iff.mp (show front.length = 1 by omega)
      have hz := eq_of_cons_eq_append hfront t List.mem_cons_self
      rw [hz, hm z List.mem_cons_self] at ht
      exact Bool.noConfusion ht

/-- Where the input goes on with a token that does not end it, that is what is left. -/
theorem Ahead.eq_of_drop_eq {i : Nat} {y : Token} {rest left : List Token} (hin : Ends input)
    (h : Ahead input i left) (hs : left <:+ input) (hdrop : input.drop i = y :: rest)
    (hy : y.isEnd = false) : left = y :: rest := by
  have htoken := tokenAt_of_drop hdrop
  cases left with
  | nil =>
      have hend := h.isEnd hin
      rw [htoken, hy] at hend
      cases hend
  | cons z zs =>
      have hz : z = y := h.token.symm.trans htoken
      rw [← hdrop]
      exact (h.drop_eq hs (hz ▸ hy)).symm

/-! ### Items -/

/-- The state in which the machine has started the item at the beginning of the input. -/
def opening (input : List Token) (place : Section) : State :=
  ((⟨0, place, [], [], []⟩ : State).pass (startItem input place 0).1).push
    (startItem input place 0).2

theorem items_not_mem_afterDirective (t : Token) : Task.items ∉ afterDirective t := by
  unfold afterDirective
  split <;> simp

theorem items_not_mem_startItem (input : List Token) (place : Section) (i : Nat) :
    Task.items ∉ (startItem input place i).2 := by
  unfold startItem
  repeat' split
  · exact items_not_mem_afterDirective _
  all_goals simp

theorem inside_opening (input : List Token) (place : Section) : Inside (opening input place) := by
  simp only [Inside, opening, State.push, State.pass, State.moveTo, List.append_nil]
  exact items_not_mem_startItem input place 0

theorem valid_opening (hin : Ends input) (place : Section)
    (h : (tokenAt input 0).isEnd = false) : Valid input (opening input place) := by
  obtain ⟨-, hend, hinner⟩ := startItem_spec input place h
  refine ⟨hin.succ_lt hend, fun start hm => ?_⟩
  simp only [opening, State.push, State.pass, State.moveTo, List.append_nil] at hm
  exact absurd hm (hinner start)

theorem agree_append (ts more more' : List Token) : Agree (ts ++ more) (ts ++ more') ts.length := by
  intro i hi
  simp only [tokenAt, List.getD_eq_getElem?_getD, List.getElem?_append_left hi,
    List.getElem?_eq_getElem hi, Option.getD_some]

/-- Where the machine stands when it has read an item that something is left behind. -/
theorem position_lt_of_ahead {ts ys : List Token} {e : Token} {p : Nat}
    (h : Ahead (ts ++ [e]) p (ys ++ [e])) (hys : ys ≠ []) : p < ts.length := by
  obtain ⟨more, hd, -, -⟩ := h
  have hlen := congrArg List.length hd
  have hpos := List.length_pos_iff.mpr hys
  simp only [List.length_drop, List.length_append, List.length_singleton] at hlen
  omega

/-- The item that starts the input, read on an input that goes on in another way. -/
theorem opening_congr {t e : Token} {xs more : List Token} {place : Section}
    (hwords : ∀ u ∈ t :: xs, u.isEnd = false) (he : e.isEnd = true) (hxs : xs ≠ [])
    (halias : place = .rules → t.isName = true → openAlias (xs ++ [e]) = false) :
    opening (t :: xs ++ [e]) place = opening (t :: xs ++ more) place := by
  have hin : Ends (t :: xs ++ [e]) := ⟨t :: xs, e, rfl, he⟩
  have ahead : Ahead (t :: xs ++ [e]) 0 (t :: (xs ++ [e])) := ⟨[], by simp, by simp, by simp⟩
  have hname : place = .rules → (tokenAt (t :: xs ++ [e]) 0).isName = true →
      afterName (t :: xs ++ [e]) 0 < (t :: xs).length := by
    intro hplace hn
    obtain ⟨u, rest, rfl⟩ := List.exists_cons_of_ne_nil hxs
    obtain ⟨next, later, hafter, hnext⟩ := exists_afterAlias
      (show (u :: rest ++ [e]).head? = some u from rfl) (hwords u (by simp))
      (halias hplace (ahead.token ▸ hn))
    -- What comes after the alias is a token of the common part.
    have htoken : (tokenAt (t :: u :: rest ++ [e]) (afterName (t :: u :: rest ++ [e]) 0)).isEnd =
        false := by
      rcases afterName_spec hin ahead with hat | ⟨hnil, -⟩
      · rw [hafter] at hat
        rw [hat.token]
        exact hnext
      · rw [hafter] at hnil
        cases hnil
    have hlt := hin.succ_lt htoken
    simp only [List.length_append, List.length_singleton] at hlt
    omega
  have hstart := startItem_congr place (agree_append (t :: xs) [e] more) (by simp) (by simp)
    (by simp) hname
  rw [opening, opening, hstart]

/-- The machine's run over the item at the beginning of an input. -/
theorem run_opening (hin : Ends input) (place : Section) {t : Token} {rest : List Token}
    (h : input = t :: rest) :
    ∃ p, Run input (opening input place) ⟨p, place, (readItem place t rest).1, [], []⟩ ∧
      Ahead input p (readItem place t rest).2 := by
  have ahead : Ahead input 0 (t :: rest) := ⟨[], by simp [h], by simp, by simp⟩
  obtain ⟨p, hrun, hat⟩ := run_item hin place (s := ⟨0, place, [], [], []⟩) ahead ⟨rfl, rfl⟩
    (itemOverflow?_eq_none place t (Nat.le_refl rest.length))
  exact ⟨p, hrun.run, hat⟩

end Machine

theorem readItem_suffix (place : Section) (t : Token) (rest : List Token) :
    (readItem place t rest).2 <:+ rest := by
  obtain ⟨taken, h, -⟩ := readItem_reads place t rest
  exact ⟨taken, h.symm⟩

open Machine in
/-- An item that is read before the end of the input does not depend on what comes behind the token
after it, but for a name among the rules with an open alias. -/
theorem readItem_local {place : Section} {t e : Token} {xs ys more : List Token}
    (hwords : ∀ u ∈ t :: xs, u.isEnd = false) (he : e.isEnd = true) (hmore : Ends more)
    (hread : (readItem place t (xs ++ [e])).2 = ys ++ [e]) (hys : ys ≠ [])
    (halias : place = .rules → t.isName = true → openAlias (xs ++ [e]) = false) :
    readItem place t (xs ++ more) = ((readItem place t (xs ++ [e])).1, ys ++ more) := by
  have hsuffix : ys <:+ xs := by
    have := readItem_suffix place t (xs ++ [e])
    rw [hread] at this
    exact (List.suffix_append_inj_of_length_eq rfl).mp this |>.1
  obtain ⟨y, rest, rfl⟩ := List.exists_cons_of_ne_nil hys
  have hy : y.isEnd = false := hwords y (List.mem_cons_of_mem t (hsuffix.subset List.mem_cons_self))
  have hxs : xs ≠ [] := by
    rintro rfl
    exact hys (List.suffix_nil.mp hsuffix)
  have hin : Ends (t :: xs ++ [e]) := ⟨t :: xs, e, rfl, he⟩
  have hin' : Ends (t :: xs ++ more) := by
    obtain ⟨front, e', rfl, he'⟩ := hmore
    exact ⟨t :: xs ++ front, e', by simp, he'⟩
  -- Both inputs let the machine run over the item, and the runs are the same.
  obtain ⟨p, hrun, hahead⟩ := run_opening hin place List.cons_append
  obtain ⟨p', hrun', hahead'⟩ := run_opening hin' place List.cons_append
  rw [hread] at hahead
  have hp := position_lt_of_ahead hahead hys
  have hsame := Run.congr hin (agree_append (t :: xs) [e] more)
    (valid_opening hin place (hwords t List.mem_cons_self)) (inside_opening _ place) hrun hp
  rw [opening_congr hwords he hxs halias] at hsame
  have hstate := Run.eq_of_tasks_nil (Run.total hsame rfl hrun') rfl
  simp only [State.mk.injEq, true_and, and_true] at hstate
  obtain ⟨rfl, hitems⟩ := hstate
  -- So the same number of tokens is taken from both.
  have hdrop : (t :: xs).drop p = y :: rest := by
    have hwhole := (readItem_suffix place t (xs ++ [e])).trans (List.suffix_cons t _)
    rw [hread] at hwhole
    have hleft : (t :: xs ++ [e]).drop p = y :: rest ++ [e] := hahead.drop_eq hwhole hy
    rw [List.drop_append_of_le_length (Nat.le_of_lt hp)] at hleft
    exact List.append_cancel_right hleft
  have hdrop' : (t :: xs ++ more).drop p = y :: (rest ++ more) := by
    rw [List.drop_append_of_le_length (Nat.le_of_lt hp), hdrop, List.cons_append]
  have hleft : (readItem place t (xs ++ more)).2 = y :: (rest ++ more) := by
    have hwhole := (readItem_suffix place t (xs ++ more)).trans (List.suffix_cons t _)
    exact hahead'.eq_of_drop_eq hin' hwhole hdrop' hy
  exact Prod.ext hitems.symm hleft

end GrammarLens
