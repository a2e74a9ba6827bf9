import GrammarLens.Proofs.Progress
import Mathlib.Data.List.GetD

/-! # The end token says nothing

An input ends with an end token, which stands behind all that is read.  The machine comes to it, and
it looks at it from the tokens before: at the token after a name, at the one after an alias, and,
wherever an index points behind the input, at the last token in its place.  In all these places it
asks whether the token is of some kind, and an end token is of no other kind than its own.  The span
of a call or of a rule ends with the token before the position, and the position has passed at least
one token by then.

So the machine takes the same steps whatever end token closes its input (`step_append_end`,
`Run.append_end`).  A list that lacks an end token is read as if there were one
(`readItems_append_end`), and together this is `endMark_uninformative`. -/

namespace GrammarLens.Machine

/-! ### Looking at the end token -/

theorem tokenAt_append_singleton (ts : List Token) (e : Token) (i : Nat) :
    tokenAt (ts ++ [e]) i = ts.getD i e := by
  rw [tokenAt, List.getLastD_eq_getLast?, List.getLast?_append_of_ne_nil ts (by simp)]
  rcases Nat.lt_or_ge i ts.length with hi | hi
  · rw [List.getD_append _ _ _ _ hi, List.getD_eq_getElem _ _ hi, List.getD_eq_getElem _ _ hi]
  · rw [List.getD_append_right _ _ _ _ hi, List.getD_eq_default _ _ hi]
    cases i - ts.length <;> rfl

section Ends

variable {ts : List Token} {e f : Token}

theorem tokenAt_append_of_lt (e f : Token) {i : Nat} (hi : i < ts.length) :
    tokenAt (ts ++ [e]) i = tokenAt (ts ++ [f]) i := by
  rw [tokenAt_append_singleton, tokenAt_append_singleton, List.getD_eq_getElem _ _ hi,
    List.getD_eq_getElem _ _ hi]

theorem tokenAt_append_of_le {i : Nat} (hi : ts.length ≤ i) : tokenAt (ts ++ [e]) i = e := by
  rw [tokenAt_append_singleton, List.getD_eq_default _ _ hi]

theorem aliasEnd_append_end (i : Nat) : aliasEnd (ts ++ [e]) i = aliasEnd (ts ++ [f]) i := by
  have hlength : (ts ++ [e]).length = (ts ++ [f]).length := by simp
  fun_induction aliasEnd (ts ++ [e]) i with
  | case1 i hlt hvalue ih =>
      have hi : i < ts.length := by simpa using hlt
      rw [tokenAt_append_of_lt e f hi] at hvalue
      rw [ih, aliasEnd.eq_1 (ts ++ [f]) i, if_pos (by rwa [← hlength]), if_pos hvalue]
  | case2 i hlt hvalue =>
      have hi : i < ts.length := by simpa using hlt
      rw [tokenAt_append_of_lt e f hi] at hvalue
      rw [aliasEnd, if_pos (by rwa [← hlength]), if_neg hvalue]
  | case3 i hlt => rw [aliasEnd, if_neg (by rwa [← hlength])]

variable (he : e.isEnd = true) (hf : f.isEnd = true)
include he hf

theorem isSpecial_append_end (i : Nat) (chars : String) :
    (tokenAt (ts ++ [e]) i).isSpecial chars = (tokenAt (ts ++ [f]) i).isSpecial chars := by
  rcases Nat.lt_or_ge i ts.length with hi | hi
  · rw [tokenAt_append_of_lt e f hi]
  · rw [tokenAt_append_of_le hi, tokenAt_append_of_le hi, Token.isSpecial_of_isEnd he,
      Token.isSpecial_of_isEnd hf]

theorem startItem_append_end (place : Section) {i : Nat} (hi : i < ts.length) :
    startItem (ts ++ [e]) place i = startItem (ts ++ [f]) place i := by
  have hafter : afterName (ts ++ [e]) i = afterName (ts ++ [f]) i := by
    rw [afterName, afterName, isSpecial_append_end he hf, aliasEnd_append_end]
  have hcolon : (tokenAt (ts ++ [e]) (afterName (ts ++ [f]) i)).isSpecial ":" =
      (tokenAt (ts ++ [f]) (afterName (ts ++ [f]) i)).isSpecial ":" :=
    isSpecial_append_end he hf _ _
  unfold startItem
  rw [hafter, hcolon, tokenAt_append_of_lt e f hi]

/-- What a task does at an end token depends on the token before it alone. -/
theorem performAt_end {input input' : List Token} {task : Task} {s : State}
    (hlast : task ≠ .items →
      tokenAt input (s.position - 1) = tokenAt input' (s.position - 1)) :
    performAt input e s task = performAt input' f s task := by
  have hk : e.kind = .eof := eq_of_beq he
  have hk' : f.kind = .eof := eq_of_beq hf
  cases task with
  | call name names => simp only [performAt, hlast (by simp)]
  | finish rule => simp only [performAt, hlast (by simp)]
  | _ =>
      simp [performAt, bodyStep, argumentStep, Token.isEnd, Token.isName, Token.isSpecial,
        Token.endsList, hk, hk']

/-- A task does the same whatever token ends the input. -/
theorem perform_append_end {task : Task} {s : State} (hle : s.position ≤ ts.length)
    (hpos : task ≠ .items → 0 < s.position) :
    perform (ts ++ [e]) task s = perform (ts ++ [f]) task s := by
  have hlast (h : task ≠ .items) :
      tokenAt (ts ++ [e]) (s.position - 1) = tokenAt (ts ++ [f]) (s.position - 1) :=
    tokenAt_append_of_lt e f (by have := hpos h; omega)
  unfold perform
  rcases Nat.lt_or_eq_of_le hle with hlt | heq
  · rw [tokenAt_append_of_lt e f hlt]
    cases task with
    | items => simp only [performAt, startItem_append_end he hf _ hlt]
    | body => simp only [performAt, bodyStep, isSpecial_append_end he hf (s.position + 1)]
    | arguments name names =>
        simp only [performAt, argumentStep, isSpecial_append_end he hf (s.position + 1)]
    | call name names => simp only [performAt, hlast (by simp)]
    | finish rule => simp only [performAt, hlast (by simp)]
    | _ => rfl
  · rw [tokenAt_append_of_le (Nat.le_of_eq heq.symm), tokenAt_append_of_le (Nat.le_of_eq heq.symm)]
    exact performAt_end he hf hlast

/-- So does a step. -/
theorem step_append_end {s : State} (hle : s.position ≤ ts.length)
    (hpos : s.tasks = [.items] ∨ s.tasks = [] ∨ 0 < s.position) :
    step (ts ++ [e]) s = step (ts ++ [f]) s := by
  unfold step
  cases htasks : s.tasks with
  | nil => rfl
  | cons task tasks =>
      have hfirst (hitems : task ≠ .items) : 0 < s.position := by
        rcases hpos with h | h | h
        · exact absurd (List.cons.inj (htasks.symm.trans h)).1 hitems
        · cases htasks.symm.trans h
        · exact h
      simp only [perform_append_end he hf (s := { s with tasks := tasks }) hle hfirst]

end Ends

/-- After its first step the machine has passed a token, or there is nothing left to do. -/
theorem Run.initial_cases {input : List Token} {s : State} (hin : Ends input)
    (h : Run input initial s) : s.tasks = [.items] ∨ s.tasks = [] ∨ 0 < s.position := by
  rcases Relation.ReflTransGen.cases_head h with rfl | ⟨m, hstep, hrun⟩
  · exact Or.inl rfl
  rcases lt_position_of_items rfl hstep with hm | hlt
  · rw [Run.eq_of_tasks_nil hrun hm]
    exact Or.inr (Or.inl hm)
  · have hm := (valid_initial hin).step hin hstep
    exact Or.inr (Or.inr (Nat.lt_of_lt_of_le hlt (hm.position_le hin hrun)))

/-- The machine passes the same states whatever token ends the input. -/
theorem Run.append_end {ts : List Token} {e f : Token} {s : State} (he : e.isEnd = true)
    (hf : f.isEnd = true) (h : Run (ts ++ [e]) initial s) : Run (ts ++ [f]) initial s := by
  have hin : Ends (ts ++ [e]) := ⟨ts, e, rfl, he⟩
  induction h with
  | refl => exact .refl initial
  | @tail m s' hrun hs ih =>
      have hlt := ((valid_initial hin).run hin hrun).position_lt
      rw [List.length_append, List.length_singleton] at hlt
      rw [step_append_end he hf (Nat.le_of_lt_succ hlt) (Run.initial_cases hin hrun)] at hs
      exact ih.tail hs

/-! ### Lists without an end token -/

/-- Reading stops at the end of a list as it stops at an end token. -/
theorem readItems_append_end (ts : List Token) {e : Token} (he : e.isEnd = true) :
    readItems .declarations (ts ++ [e]) = readItems .declarations ts := by
  have hin : Ends (ts ++ [e]) := ⟨ts, e, rfl, he⟩
  have hlist : Ahead (ts ++ [e]) 0 ts := ⟨[e], rfl, Nat.le_refl 1, by simpa using he⟩
  have hinput : Ahead (ts ++ [e]) 0 (ts ++ [e]) := ⟨[], by simp, Nat.zero_le 1, by simp⟩
  -- Both lists lie ahead of the machine at the start of one input, so one run reads them both.
  obtain ⟨p, hrun⟩ := run_all_items hin hlist
  obtain ⟨q, hrun'⟩ := run_all_items hin hinput
  have heq := (hrun.total rfl hrun').eq_of_tasks_nil rfl
  exact Prod.ext (congrArg State.items heq).symm (congrArg State.place heq).symm

/-- An end token tells the reader nothing but that the input ends.  Behind any tokens, of which some
may have no place in a text, it can be left out: the outcome is the same table and the same last
section, or the same error.  And whatever its text and its coordinates are, the machine passes the
same states on its way as with an empty end token at the origin. -/
theorem endMark_uninformative (ts : List Token) (value : String) (line column length : Int) :
    Grammar.ofTokens (ts ++ [⟨.eof, value, line, column, length⟩]) = Grammar.ofTokens ts ∧
      ∀ s, Run (ts ++ [⟨.eof, value, line, column, length⟩]) initial s ↔
        Run (ts ++ [final]) initial s := by
  refine ⟨?_, fun s => ⟨Run.append_end rfl rfl, Run.append_end rfl rfl⟩⟩
  rw [Grammar.ofTokens, readItems_append_end ts rfl]
  rfl

end GrammarLens.Machine
