import GrammarLens.Proofs.Machine

/-! # Room for open calls

A call is open while its arguments are being read, and the tasks that read arguments are the stack
of the machine that can grow with the input.  A machine with room for `limit` open calls makes the
same steps, but none that opens one more.  It ends where no task is left, or where it is `Stuck`.

Only a step at a name with an opening parenthesis behind it opens a call
(`openCalls_performAt_le`). -/

namespace GrammarLens.Machine

/-- Whether the task is to read arguments of a call, which is open till then. -/
def Task.isCall : Task → Bool
  | .arguments _ _ => true
  | _ => false

/-- How many calls are open. -/
def State.openCalls (s : State) : Nat := s.tasks.countP (·.isCall)

/-- One step of a machine with room for `limit` open calls. -/
def stepWithin (limit : Nat) (input : List Token) (s : State) : Option State :=
  (step input s).filter fun s' => s'.openCalls ≤ s.openCalls || s'.openCalls ≤ limit

/-- The second state comes from the first one by some steps, with room for `limit` open calls. -/
def RunWithin (limit : Nat) (input : List Token) : State → State → Prop :=
  Relation.ReflTransGen fun s s' => stepWithin limit input s = some s'

/-- As many calls are open as there is room for, and the next step opens another one. -/
def Stuck (limit : Nat) (input : List Token) (s : State) : Prop :=
  s.openCalls = limit ∧ ∃ s', step input s = some s' ∧ s'.openCalls = limit + 1

variable {limit : Nat} {input : List Token} {s s' : State}

theorem stepWithin_eq_some_iff :
    stepWithin limit input s = some s' ↔
      step input s = some s' ∧ (s'.openCalls ≤ s.openCalls ∨ s'.openCalls ≤ limit) := by
  simp [stepWithin, Option.filter_eq_some_iff]

theorem Stuck.stepWithin_eq_none (h : Stuck limit input s) : stepWithin limit input s = none := by
  obtain ⟨hopen, s', hstep, hmore⟩ := h
  rw [Option.eq_none_iff_forall_ne_some]
  intro s'' h''
  obtain ⟨hstep', hroom⟩ := stepWithin_eq_some_iff.mp h''
  obtain rfl : s' = s'' := Option.some.inj (hstep.symm.trans hstep')
  omega

theorem State.openCalls_push (s : State) (tasks : List Task) :
    (s.push tasks).openCalls = tasks.countP (·.isCall) + s.openCalls := List.countP_append

theorem State.openCalls_push_arguments (s : State) (name : Token) (names : List String) :
    (s.push [.arguments name names]).openCalls = s.openCalls + 1 := by
  rw [openCalls_push, Nat.add_comm]
  rfl

/-! ### Which steps open a call -/

/-- Whether a call starts with the token `t` at the position. -/
def callsAt (input : List Token) (t : Token) (s : State) : Bool :=
  t.isName && (tokenAt input (s.position + 1)).isSpecial "("

theorem callsAt_of_isName {t : Token} (h : t.isName = false) : callsAt input t s = false := by
  rw [callsAt, h, Bool.false_and]

theorem callsAt_of_isEnd {t : Token} (h : t.isEnd = true) : callsAt input t s = false := by
  refine callsAt_of_isName (Bool.eq_false_iff.mpr fun hn => ?_)
  rw [Token.isEnd_of_isName hn] at h
  cases h

theorem callsAt_of_isSpecial {t : Token} {chars : String} (h : t.isSpecial chars = true) :
    callsAt input t s = false := by
  have hk : t.kind = .special := eq_of_beq (Bool.and_eq_true_iff.mp h).1
  exact callsAt_of_isName (by rw [Token.isName, hk]; rfl)

/-- Whether performing the task may open a call. -/
def Task.mayCall : Task → Bool
  | .body | .arguments _ _ => true
  | _ => false

theorem countP_isCall_startItem (input : List Token) (place : Section) (i : Nat) :
    (startItem input place i).2.countP (·.isCall) = 0 := by
  unfold startItem afterDirective
  repeat' split
  all_goals rfl

theorem openCalls_bodyStep (t : Token) (h : callsAt input t s = false) :
    (bodyStep input t s).openCalls = s.openCalls := by
  unfold bodyStep
  repeat' split
  all_goals simp_all [callsAt, State.openCalls, State.push, State.pass, State.moveTo, State.note,
    Task.isCall]

theorem openCalls_argumentStep_le (t name : Token) (names : List String)
    (h : callsAt input t s = false) :
    (argumentStep input t name names s).openCalls ≤ s.openCalls + 1 := by
  unfold argumentStep
  repeat' split
  all_goals simp_all [callsAt, State.openCalls, State.push, State.pass, State.moveTo, State.note,
    Task.isCall]

/-- Unless a call starts at the position, performing a task leaves no more calls open. -/
theorem openCalls_performAt_le (t : Token) (task : Task)
    (h : task.mayCall = true → callsAt input t s = false) :
    (performAt input t s task).openCalls ≤ (s.push [task]).openCalls := by
  rw [State.openCalls_push]
  cases task with
  | body =>
      rw [performAt, openCalls_bodyStep t (h rfl)]
      exact Nat.le_add_left _ _
  | arguments name names =>
      rw [performAt, Nat.add_comm]
      exact openCalls_argumentStep_le t name names (h rfl)
  | items =>
      simp only [performAt]
      repeat' split
      · exact Nat.le_add_left _ _
      · simp [State.openCalls, State.push, State.pass, State.moveTo, Task.isCall]
      · rw [State.openCalls_push, List.countP_append, countP_isCall_startItem]
        exact Nat.le_refl _
  | _ =>
      simp only [performAt]
      repeat' split
      all_goals simp [State.openCalls, State.push, State.pass, State.moveTo, State.note, State.add,
        Task.isCall]

/-- A call in a body is opened. -/
theorem bodyStep_call {t : Token} (hn : t.isName = true)
    (hnext : (tokenAt input (s.position + 1)).isSpecial "(" = true) :
    bodyStep input t s = (s.pass (s.position + 1)).push
      [.arguments t [], .bracketed, .optional (·.isSpecial "?*+"), .body] := by
  have hk : t.kind = .identifier := eq_of_beq hn
  have hs (chars : String) : t.isSpecial chars = false := Token.isSpecial_of_kind hk (by decide)
  simp only [bodyStep, Token.isEnd_of_isName hn, hs, hk, hn, hnext, if_true, Bool.false_eq_true,
    if_false]
  rfl

/-- A call among the arguments of another one is opened. -/
theorem argumentStep_call {t : Token} (name : Token) (names : List String) (hn : t.isName = true)
    (hnext : (tokenAt input (s.position + 1)).isSpecial "(" = true) :
    argumentStep input t name names s = (s.pass (s.position + 1)).push
      [.arguments t [], .arguments name (names ++ [t.value])] := by
  have hs (chars : String) : t.isSpecial chars = false :=
    Token.isSpecial_of_kind (eq_of_beq hn) (by decide)
  simp only [argumentStep, Token.isEnd_of_isName hn, hs, hn, hnext, if_true, Bool.false_eq_true,
    if_false]

theorem stuck_body {t : Token} (ht : tokenAt input s.position = t) (hn : t.isName = true)
    (hnext : (tokenAt input (s.position + 1)).isSpecial "(" = true) (hs : s.openCalls = limit) :
    Stuck limit input (s.push [.body]) := by
  refine ⟨hs, bodyStep input t s, by rw [← ht]; rfl, ?_⟩
  rw [bodyStep_call hn hnext, State.openCalls_push, Nat.add_comm, ← hs]
  rfl

theorem stuck_arguments {t : Token} (name : Token) (names : List String)
    (ht : tokenAt input s.position = t) (hn : t.isName = true)
    (hnext : (tokenAt input (s.position + 1)).isSpecial "(" = true) (hs : s.openCalls + 1 = limit) :
    Stuck limit input (s.push [.arguments name names]) := by
  refine ⟨by rw [State.openCalls_push_arguments, hs],
    argumentStep input t name names s, by rw [← ht]; rfl, ?_⟩
  rw [argumentStep_call name names hn hnext, State.openCalls_push, Nat.add_comm, ← hs]
  rfl

/-! ### Runs -/

namespace RunWithin

theorem refl (s : State) : RunWithin limit input s s := Relation.ReflTransGen.refl

theorem trans {s'' : State} (h : RunWithin limit input s s') (h' : RunWithin limit input s' s'') :
    RunWithin limit input s s'' := Relation.ReflTransGen.trans h h'

theorem run (h : RunWithin limit input s s') : Run input s s' :=
  Relation.ReflTransGen.mono (fun _ _ hs => (stepWithin_eq_some_iff.mp hs).1) s s' h

theorem openCalls_le (h : RunWithin limit input s s') (hs : s.openCalls ≤ limit) :
    s'.openCalls ≤ limit := by
  induction h with
  | refl => exact hs
  | tail _ hstep ih =>
      exact (stepWithin_eq_some_iff.mp hstep).2.elim (fun h => Nat.le_trans h ih) id

variable {task : Task} {tasks : List Task} {t : Token}

/-- Performing the first task, which looks at the token `t` and opens a call only if there is room,
and running on. -/
theorem step (ht : tokenAt input s.position = t)
    (hroom :
      (performAt input t (s.push tasks) task).openCalls ≤ (s.push (task :: tasks)).openCalls ∨
        (performAt input t (s.push tasks) task).openCalls ≤ limit)
    (h : RunWithin limit input (performAt input t (s.push tasks) task) s') :
    RunWithin limit input (s.push (task :: tasks)) s' := by
  refine Relation.ReflTransGen.head (stepWithin_eq_some_iff.mpr ⟨?_, hroom⟩) h
  rw [← ht]
  rfl

/-- Performing the first task where no call starts. -/
theorem pass (ht : tokenAt input s.position = t) (hno : callsAt input t s = false)
    (h : RunWithin limit input (performAt input t (s.push tasks) task) s') :
    RunWithin limit input (s.push (task :: tasks)) s' :=
  step ht (.inl (openCalls_performAt_le (s := s.push tasks) t task fun _ => hno)) h

/-- Performing the first task, which is one that opens no calls. -/
theorem perform (hcalm : task.mayCall = false) (ht : tokenAt input s.position = t)
    (h : RunWithin limit input (performAt input t (s.push tasks) task) s') :
    RunWithin limit input (s.push (task :: tasks)) s' :=
  step ht (.inl (openCalls_performAt_le (s := s.push tasks) t task fun h => by simp [hcalm] at h)) h

/-- Opening a call in a body. -/
theorem call_body (ht : tokenAt input s.position = t) (hn : t.isName = true)
    (hnext : (tokenAt input (s.position + 1)).isSpecial "(" = true)
    (hroom : s.openCalls + 1 ≤ limit)
    (h : RunWithin limit input (((s.pass (s.position + 1)).push
      [.bracketed, .optional (·.isSpecial "?*+"), .body]).push [.arguments t []]) s') :
    RunWithin limit input (s.push [.body]) s' := by
  have heq := bodyStep_call (s := s.push []) hn hnext
  refine step ht (.inr ?_) ?_
  · rw [performAt, heq, State.openCalls_push, Nat.add_comm]
    exact hroom
  · rw [performAt, heq]
    exact h

/-- Opening a call among the arguments of another one. -/
theorem call_arguments (name : Token) (names : List String) (ht : tokenAt input s.position = t)
    (hn : t.isName = true) (hnext : (tokenAt input (s.position + 1)).isSpecial "(" = true)
    (hroom : s.openCalls + 2 ≤ limit)
    (h : RunWithin limit input (((s.pass (s.position + 1)).push
      [.arguments name (names ++ [t.value])]).push [.arguments t []]) s') :
    RunWithin limit input (s.push [.arguments name names]) s' := by
  have heq := argumentStep_call (s := s.push []) name names hn hnext
  refine step ht (.inr ?_) ?_
  · rw [performAt, heq, State.openCalls_push, Nat.add_comm]
    exact hroom
  · rw [performAt, heq]
    exact h

end RunWithin

end GrammarLens.Machine
