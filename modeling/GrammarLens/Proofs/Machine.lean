import GrammarLens.Proofs.Consumption
import Mathlib.Logic.Relation

/-! # Reading by single moves of one index

Reading can also be told as the run of a machine.  The machine looks at a fixed token list that
ends with an end token, and its state is

* the `position` in that list, an index that only grows;
* the section, the items read so far and the uses in the body that is being read;
* the `tasks` that are left to do, with the innermost one first.

One step takes the first task, looks at the token at the position, or at one behind it, and then
moves the position at most once.  Loops are tasks that put themselves back.  Reading one item ends
with the task `close`, which remembers where the item started; were the position still there, it
would step over one token by force.

`perform_advances` says what a step can do to the position and `Valid` is the invariant that follows
from it.  That the machine computes what `readItems` computes is shown in
`Progress`, and how far it comes when only so many calls may be open in `CallLimit`. -/

namespace GrammarLens

namespace Machine

/-- The token that ends an input which has no end token of its own. -/
def final : Token := ⟨.eof, "", 0, 0, 0⟩

/-- The token list, with an end token at its end. -/
def closed (ts : List Token) : List Token :=
  if ts.getLast?.any (·.isEnd) then ts else ts ++ [final]

/-- The token at an index; behind the last token there is only the last token. -/
def tokenAt (input : List Token) (i : Nat) : Token := input.getD i (input.getLastD final)

/-- What is left to do. -/
inductive Task where
  /-- Read items to the end of the input. -/
  | items
  /-- End the item that starts at this index. -/
  | close (start : Nat)
  /-- Read a type tag, if there is one, and a list of symbols. -/
  | tagged (kind : Symbol.Kind)
  /-- Read a list of symbols, in which character literals count or not. -/
  | listed (literals : Bool) (kind : Symbol.Kind) (typeTag : Option String)
  /-- Read the start symbol. -/
  | start
  /-- Step over the tokens before a special character. -/
  | upTo (chars : String)
  /-- Step over a bracketed region, of which some brackets are open. -/
  | balanced (opening closing : String) (depth : Nat)
  /-- Step over tokens up to the first that closes, and over that one. -/
  | through (closes : Token → Bool)
  /-- Step over the tokens on a line. -/
  | line (number : Int)
  /-- Step over a token if it fits. -/
  | optional (fits : Token → Bool)
  /-- Step over a name in square brackets. -/
  | bracketed
  /-- Read the name of a rule that a directive announces. -/
  | ruleName (directive : Token)
  /-- Read the parameters of the rule, if there are any. -/
  | parameters (rule : Rule)
  /-- Read more parameters. -/
  | parameterList (rule : Rule) (names : List String)
  /-- Read the type tag of the rule, if there is one. -/
  | typeTag (rule : Rule)
  /-- Read the colon of the rule, if there is one. -/
  | colon (rule : Rule)
  /-- Read the body of a rule. -/
  | body
  /-- Read the operand of `%prec`. -/
  | precedence
  /-- Read more arguments of a call. -/
  | arguments (name : Token) (names : List String)
  /-- Note a call that was read. -/
  | call (name : Token) (names : List String)
  /-- Add a rule whose body was read. -/
  | finish (rule : Rule)

/-- A state of the machine. -/
structure State where
  position : Nat
  place : Section
  items : List Item
  uses : List Use
  tasks : List Task

/-- The state before the first step. -/
def initial : State := ⟨0, .declarations, [], [], [.items]⟩

namespace State

/-- Puts tasks before the others. -/
def push (s : State) (tasks : List Task) : State := { s with tasks := tasks ++ s.tasks }

/-- Moves the position to an index. -/
def moveTo (s : State) (i : Nat) : State := { s with position := i }

/-- Moves the position behind the token at an index. -/
def pass (s : State) (i : Nat) : State := s.moveTo (i + 1)

/-- Adds items. -/
def add (s : State) (items : List Item) : State := { s with items := s.items ++ items }

/-- Notes uses. -/
def note (s : State) (uses : List Use) : State := { s with uses := s.uses ++ uses }

variable (s : State)

theorem push_nil : s.push [] = s := rfl

theorem push_push (tasks tasks' : List Task) :
    (s.push tasks).push tasks' = s.push (tasks' ++ tasks) := by
  simp only [push, List.append_assoc]

theorem moveTo_moveTo (i j : Nat) : (s.moveTo i).moveTo j = s.moveTo j := rfl

theorem pass_moveTo (i j : Nat) : (s.pass i).moveTo j = s.moveTo j := rfl

theorem note_moveTo (uses : List Use) (i : Nat) :
    (s.note uses).moveTo i = (s.moveTo i).note uses := rfl

theorem add_moveTo (items : List Item) (i : Nat) :
    (s.add items).moveTo i = (s.moveTo i).add items := rfl

theorem note_nil : s.note [] = s := by
  simp only [note, List.append_nil]

theorem note_note (uses uses' : List Use) :
    (s.note uses).note uses' = s.note (uses ++ uses') := by
  simp only [note, List.append_assoc]

theorem add_nil : s.add [] = s := by
  simp only [add, List.append_nil]

theorem add_add (items items' : List Item) : (s.add items).add items' = s.add (items ++ items') := by
  simp only [add, List.append_assoc]

end State

/-! ### One step -/

/-- Whether the token is the word `%inline`. -/
def isInline (t : Token) : Bool := t.kind == .directive && t.value == "%inline"

/-- The tasks after a directive among the declarations. -/
def afterDirective (t : Token) : List Task :=
  match Declaration.ofDirective? t.value with
  | some (.symbols kind) => [.tagged kind]
  | some .start => [.start]
  | some .operators => [.listed true .token none]
  | some .code => [.upTo "\x7b", .balanced "\x7b" "\x7d" 0]
  | some .rule => [.optional isInline, .ruleName t]
  | none => [.line t.line]

/-- The index of the token that ends an alias, looked for from an index on but not beyond the
last token. -/
def aliasEnd (input : List Token) (i : Nat) : Nat :=
  if i + 1 < input.length then
    if (tokenAt input i).value != "]" then aliasEnd input (i + 1) else i
  else i
termination_by input.length - i

/-- The index of the token after a name and its alias. -/
def afterName (input : List Token) (i : Nat) : Nat :=
  if (tokenAt input (i + 1)).isSpecial "[" then aliasEnd input (i + 2) + 1 else i + 1

/-- The index of the last token of what starts an item at an index, and the tasks after it. -/
def startItem (input : List Token) (place : Section) (i : Nat) : Nat × List Task :=
  match place with
  | .declarations =>
    if (tokenAt input i).kind == .directive then (i, afterDirective (tokenAt input i))
    else if (tokenAt input i).kind == .prologueStart then (i, [.through (·.kind == .prologueEnd)])
    else (i, [])
  | .rules =>
    if (tokenAt input i).kind == .directive && (tokenAt input i).value == "%rule" then
      (i, [.optional isInline, .ruleName (tokenAt input i)])
    else if (tokenAt input i).isName && (tokenAt input (afterName input i)).isSpecial ":" then
      (afterName input i, [.body, .finish ⟨tokenAt input i, tokenAt input i, none, none, none⟩])
    else (i, [])
  | .epilogue => (i, [])

/-- One step in a body, at the token `t`. -/
def bodyStep (input : List Token) (t : Token) (s : State) : State :=
  if t.isEnd then s
  else if t.isSpecial ";" then s.pass s.position
  else if t.kind == .separator then s
  else if t.isSpecial "|" then (s.pass s.position).push [.body]
  else if t.isSpecial "\x7b" then
    s.push [.balanced "\x7b" "\x7d" 0, .optional (·.kind == .typeTag), .body]
  else if t.kind == .directive then
    if t.value == "%prec" then (s.pass s.position).push [.precedence, .body]
    else (s.pass s.position).push [.body]
  else if t.isName then
    if (tokenAt input (s.position + 1)).isSpecial "(" then
      (s.pass (s.position + 1)).push
        [.arguments t [], .bracketed, .optional (·.isSpecial "?*+"), .body]
    else ((s.pass s.position).note [.name t]).push [.bracketed, .optional (·.isSpecial "?*+"), .body]
  else if t.kind == .character then
    (s.pass s.position).push [.optional (·.isSpecial "?*+"), .body]
  else (s.pass s.position).push [.body]

/-- One step in the arguments of a call, at the token `t`. -/
def argumentStep (input : List Token) (t name : Token) (names : List String) (s : State) : State :=
  if t.isEnd then s.push [.call name names]
  else if t.isSpecial ")" then (s.pass s.position).push [.call name names]
  else if t.isSpecial "(" then s.push [.balanced "(" ")" 0, .arguments name names]
  else if t.isName then
    if (tokenAt input (s.position + 1)).isSpecial "(" then
      (s.pass (s.position + 1)).push [.arguments t [], .arguments name (names ++ [t.value])]
    else ((s.pass s.position).note [.name t]).push [.arguments name (names ++ [t.value])]
  else if t.kind == .character then
    (s.pass s.position).push [.arguments name (names ++ [t.value])]
  else (s.pass s.position).push [.arguments name names]

/-- Performs one task at the token `t`, which stands at the position. -/
def performAt (input : List Token) (t : Token) (s : State) : Task → State
  | .items =>
    if t.isEnd then s
    else if t.kind == .separator then
      { (s.pass s.position).push [.close s.position, .items] with place := s.place.next }
    else
      (s.pass (startItem input s.place s.position).1).push
        ((startItem input s.place s.position).2 ++ [.close s.position, .items])
  | .close start => if s.position = start then s.pass s.position else s
  | .tagged kind =>
    if t.kind == .typeTag then (s.pass s.position).push [.listed false kind (some t.value)]
    else s.push [.listed false kind none]
  | .listed literals kind typeTag =>
    if t.isName || literals && t.kind == .character then
      ((s.pass s.position).add [.symbol t kind (typeTag.filter (· ≠ ""))]).push
        [.listed literals kind typeTag]
    else if t.endsList then s
    else (s.pass s.position).push [.listed literals kind typeTag]
  | .start => if t.isName then (s.pass s.position).add [.start t] else s
  | .upTo chars =>
    if t.isEnd || t.isSpecial chars then s else (s.pass s.position).push [.upTo chars]
  | .balanced opening closing depth =>
    if t.isEnd then s
    else if t.isSpecial opening then
      (s.pass s.position).push [.balanced opening closing (depth + 1)]
    else if t.isSpecial closing then
      if depth ≤ 1 then s.pass s.position
      else (s.pass s.position).push [.balanced opening closing (depth - 1)]
    else (s.pass s.position).push [.balanced opening closing depth]
  | .through closes =>
    if t.isEnd then s
    else if closes t then s.pass s.position
    else (s.pass s.position).push [.through closes]
  | .line number =>
    if !t.isEnd && t.line == number then (s.pass s.position).push [.line number] else s
  | .optional fits => if !t.isEnd && fits t then s.pass s.position else s
  | .bracketed =>
    if t.isSpecial "[" then (s.pass s.position).push [.through (·.isSpecial "]")] else s
  | .ruleName directive =>
    if t.isName then (s.pass s.position).push [.parameters ⟨directive, t, none, none, none⟩] else s
  | .parameters rule =>
    if t.isSpecial "(" then (s.pass s.position).push [.parameterList rule []]
    else s.push [.typeTag rule]
  | .parameterList rule names =>
    if t.isEnd then s.push [.typeTag { rule with parameters := some names }]
    else if t.isSpecial ")" then
      (s.pass s.position).push [.typeTag { rule with parameters := some names }]
    else if t.isName then (s.pass s.position).push [.parameterList rule (names ++ [t.value])]
    else (s.pass s.position).push [.parameterList rule names]
  | .typeTag rule =>
    if t.kind == .typeTag then
      (s.pass s.position).push [.colon { rule with typeTag := some t.value }]
    else s.push [.colon rule]
  | .colon rule =>
    if t.isSpecial ":" then (s.pass s.position).push [.body, .finish rule] else s.add [.rule rule]
  | .body => bodyStep input t s
  | .precedence =>
    if t.kind == .identifier || t.kind == .character then (s.pass s.position).note [.precedence t]
    else s
  | .arguments name names => argumentStep input t name names s
  | .call name names => s.note [.call name (tokenAt input (s.position - 1)) names]
  | .finish rule =>
    { s.add [.rule { rule with body := some ⟨s.uses, tokenAt input (s.position - 1)⟩ }] with
      uses := [] }

/-- Performs one task. -/
def perform (input : List Token) (task : Task) (s : State) : State :=
  performAt input (tokenAt input s.position) s task

/-- One step; there is none if no task is left. -/
def step (input : List Token) (s : State) : Option State :=
  match s.tasks with
  | [] => none
  | task :: tasks => some (perform input task { s with tasks := tasks })

/-- The second state comes from the first one by some steps. -/
def Run (input : List Token) : State → State → Prop :=
  Relation.ReflTransGen fun s s' => step input s = some s'

theorem Run.refl {input : List Token} (s : State) : Run input s s := Relation.ReflTransGen.refl

/-! ### The end of the input -/

/-- The last token is an end token. -/
def Ends (input : List Token) : Prop := ∃ ts e, input = ts ++ [e] ∧ e.isEnd = true

theorem ends_closed (ts : List Token) : Ends (closed ts) := by
  unfold closed
  split
  · rename_i h
    cases hl : ts.getLast? with
    | none => simp [hl] at h
    | some e =>
        rw [hl] at h
        obtain ⟨front, rfl⟩ := List.getLast?_eq_some_iff.mp hl
        exact ⟨front, e, rfl, h⟩
  · exact ⟨ts, final, rfl, rfl⟩

/-- Behind a token that is no end token there is another one. -/
theorem Ends.succ_lt {input : List Token} (h : Ends input) {i : Nat}
    (hi : (tokenAt input i).isEnd = false) : i + 1 < input.length := by
  obtain ⟨ts, e, rfl, he⟩ := h
  refine Nat.lt_of_not_le fun hlt => ?_
  have : tokenAt (ts ++ [e]) i = e := by
    simp only [List.length_append, List.length_singleton] at hlt
    rw [tokenAt, List.getD_eq_getElem?_getD, List.getElem?_append_right (by omega)]
    rcases Nat.eq_zero_or_pos (i - ts.length) with h0 | h0
    · rw [h0]; rfl
    · rw [List.getElem?_eq_none (by simpa using Nat.succ_le_of_lt h0)]
      simp
  rw [this, he] at hi
  exact Bool.noConfusion hi

/-! ### What a step can do -/

/-- No task of the list ends an item. -/
def Inner (tasks : List Task) : Prop := ∀ start, Task.close start ∉ tasks

/-- What performing a task may do to a state: the position stays, or it moves behind a token that is
no end token; an item that is still to end started before, or it starts now and the position has
moved. -/
structure Advances (input : List Token) (s s' : State) : Prop where
  moved : s'.position = s.position ∨
    ∃ i, s.position ≤ i ∧ (tokenAt input i).isEnd = false ∧ s'.position = i + 1
  closes : ∀ start, Task.close start ∈ s'.tasks → Task.close start ∈ s.tasks ∨ start < s'.position

namespace Advances

variable {input : List Token} {s s' : State}

theorem refl (input : List Token) (s : State) : Advances input s s :=
  ⟨.inl rfl, fun _ h => .inl h⟩

theorem pass {i : Nat} (hi : s.position ≤ i) (h : (tokenAt input i).isEnd = false) :
    Advances input s (s.pass i) :=
  ⟨.inr ⟨i, hi, h, rfl⟩, fun _ h => .inl h⟩

theorem push (h : Advances input s s') {tasks : List Task} (ht : Inner tasks) :
    Advances input s (s'.push tasks) := by
  refine ⟨h.moved, fun start hm => ?_⟩
  rcases List.mem_append.mp hm with hm | hm
  · exact absurd hm (ht start)
  · exact h.closes start hm

theorem add (h : Advances input s s') (items : List Item) : Advances input s (s'.add items) :=
  ⟨h.moved, h.closes⟩

theorem note (h : Advances input s s') (uses : List Use) : Advances input s (s'.note uses) :=
  ⟨h.moved, h.closes⟩

theorem position_le (h : Advances input s s') : s.position ≤ s'.position := by
  rcases h.moved with heq | ⟨i, hi, -, heq⟩
  · exact Nat.le_of_eq heq.symm
  · rw [heq]
    exact Nat.le_succ_of_le hi

theorem ite {c : Bool} {a b : State} (ha : c = true → Advances input s a)
    (hb : c = false → Advances input s b) : Advances input s (if c then a else b) := by
  cases c with
  | true => exact ha rfl
  | false => exact hb rfl

end Advances

theorem le_aliasEnd (input : List Token) (i : Nat) : i ≤ aliasEnd input i := by
  fun_induction aliasEnd input i with
  | case1 i _ _ ih => omega
  | case2 => exact Nat.le_refl _
  | case3 => exact Nat.le_refl _

theorem lt_afterName (input : List Token) (i : Nat) : i < afterName input i := by
  have := le_aliasEnd input (i + 2)
  unfold afterName
  split <;> omega

theorem inner_afterDirective (t : Token) : Inner (afterDirective t) := by
  intro start
  unfold afterDirective
  split <;> simp

/-- What starts an item reaches to a token that is no end token. -/
theorem startItem_spec (input : List Token) (place : Section) {i : Nat}
    (h : (tokenAt input i).isEnd = false) :
    i ≤ (startItem input place i).1 ∧
      (tokenAt input (startItem input place i).1).isEnd = false ∧
      Inner (startItem input place i).2 := by
  have hname := lt_afterName input i
  unfold startItem
  repeat' split
  · exact ⟨Nat.le_refl i, h, inner_afterDirective _⟩
  · exact ⟨Nat.le_refl i, h, by simp [Inner]⟩
  · exact ⟨Nat.le_refl i, h, by simp [Inner]⟩
  · exact ⟨Nat.le_refl i, h, by simp [Inner]⟩
  · rename_i hc
    have hcolon := (Bool.and_eq_true_iff.mp hc).2
    exact ⟨Nat.le_of_lt hname, Token.isEnd_of_isSpecial hcolon, by simp [Inner]⟩
  · exact ⟨Nat.le_refl i, h, by simp [Inner]⟩
  · exact ⟨Nat.le_refl i, h, by simp [Inner]⟩

theorem bodyStep_advances (input : List Token) (s : State) :
    Advances input s (bodyStep input (tokenAt input s.position) s) := by
  have here : (tokenAt input s.position).isEnd = false →
      Advances input s (s.pass s.position) := Advances.pass (Nat.le_refl _)
  unfold bodyStep
  split
  · exact .refl input s
  · rename_i hend
    have here := here (Bool.eq_false_iff.mpr hend)
    repeat' split
    · exact here
    · exact .refl input s
    · exact here.push (by simp [Inner])
    · exact (Advances.refl input s).push (by simp [Inner])
    · exact here.push (by simp [Inner])
    · exact here.push (by simp [Inner])
    · rename_i hopen
      exact (Advances.pass (Nat.le_succ _) (Token.isEnd_of_isSpecial hopen)).push (by simp [Inner])
    · exact (here.note _).push (by simp [Inner])
    · exact here.push (by simp [Inner])
    · exact here.push (by simp [Inner])

theorem argumentStep_advances (input : List Token) (name : Token) (names : List String)
    (s : State) :
    Advances input s (argumentStep input (tokenAt input s.position) name names s) := by
  have here : (tokenAt input s.position).isEnd = false →
      Advances input s (s.pass s.position) := Advances.pass (Nat.le_refl _)
  unfold argumentStep
  split
  · exact (Advances.refl input s).push (by simp [Inner])
  · rename_i hend
    have here := here (Bool.eq_false_iff.mpr hend)
    repeat' split
    · exact here.push (by simp [Inner])
    · exact (Advances.refl input s).push (by simp [Inner])
    · rename_i hopen
      exact (Advances.pass (Nat.le_succ _) (Token.isEnd_of_isSpecial hopen)).push (by simp [Inner])
    · exact (here.note _).push (by simp [Inner])
    · exact here.push (by simp [Inner])
    · exact here.push (by simp [Inner])

/-- What performing a task can do.  The fallback at the end of an item is left out by hypothesis. -/
theorem perform_advances (input : List Token) (task : Task) (s : State)
    (hclose : ∀ start, task = .close start → start < s.position) :
    Advances input s (perform input task s) := by
  have stay := Advances.refl input s
  have here : (tokenAt input s.position).isEnd = false →
      Advances input s (s.pass s.position) := Advances.pass (Nat.le_refl _)
  unfold perform
  cases task with
  | items =>
      simp only [performAt]
      split
      · exact stay
      · rename_i hend
        have hend := Bool.eq_false_iff.mpr hend
        split
        · refine ⟨(here hend).moved, fun start hm => ?_⟩
          simp only [State.push, State.pass, List.cons_append, List.nil_append, List.mem_cons,
            Task.close.injEq, reduceCtorEq, false_or] at hm
          rcases hm with rfl | hm
          · exact .inr (Nat.lt_succ_self _)
          · exact .inl hm
        · obtain ⟨hle, hno, hin⟩ := startItem_spec input s.place hend
          refine ⟨(Advances.pass hle hno).moved, fun start hm => ?_⟩
          simp only [State.push, State.pass, List.append_assoc, List.cons_append, List.nil_append,
            List.mem_append, List.mem_cons, Task.close.injEq, reduceCtorEq, false_or] at hm
          rcases hm with hm | rfl | hm
          · exact absurd hm (hin start)
          · exact .inr (Nat.lt_succ_of_le hle)
          · exact .inl hm
  | close start =>
      have hne : s.position ≠ start := Nat.ne_of_gt (hclose start rfl)
      simpa [performAt, hne] using stay
  | tagged kind =>
      refine .ite (fun h => ?_) fun _ => stay.push (by simp [Inner])
      exact (here (Token.isEnd_of_kind (eq_of_beq h) (by decide))).push (by simp [Inner])
  | listed literals kind typeTag =>
      refine .ite (fun h => ?_) fun _ => .ite (fun _ => stay) fun h => ?_
      · have hend : (tokenAt input s.position).isEnd = false := by
          rcases Bool.or_eq_true_iff.mp h with h | h
          · exact Token.isEnd_of_isName h
          · exact Token.isEnd_of_kind (eq_of_beq (Bool.and_eq_true_iff.mp h).2) (by decide)
        exact ((here hend).add _).push (by simp [Inner])
      · exact (here (Token.isEnd_of_endsList h)).push (by simp [Inner])
  | start => exact .ite (fun h => (here (Token.isEnd_of_isName h)).add _) fun _ => stay
  | upTo chars =>
      refine .ite (fun _ => stay) fun h => ?_
      exact (here (Bool.or_eq_false_iff.mp h).1).push (by simp [Inner])
  | balanced opening closing depth =>
      refine .ite (fun _ => stay) fun hend => ?_
      refine .ite (fun _ => (here hend).push (by simp [Inner])) fun _ => ?_
      refine .ite (fun _ => ?_) fun _ => (here hend).push (by simp [Inner])
      split
      · exact here hend
      · exact (here hend).push (by simp [Inner])
  | through closes =>
      refine .ite (fun _ => stay) fun hend => ?_
      exact .ite (fun _ => here hend) fun _ => (here hend).push (by simp [Inner])
  | line number =>
      refine .ite (fun h => ?_) fun _ => stay
      exact (here (by simpa using (Bool.and_eq_true_iff.mp h).1)).push (by simp [Inner])
  | optional fits =>
      exact .ite (fun h => here (by simpa using (Bool.and_eq_true_iff.mp h).1)) fun _ => stay
  | bracketed =>
      refine .ite (fun h => ?_) fun _ => stay
      exact (here (Token.isEnd_of_isSpecial h)).push (by simp [Inner])
  | ruleName directive =>
      refine .ite (fun h => ?_) fun _ => stay
      exact (here (Token.isEnd_of_isName h)).push (by simp [Inner])
  | parameters rule =>
      refine .ite (fun h => ?_) fun _ => stay.push (by simp [Inner])
      exact (here (Token.isEnd_of_isSpecial h)).push (by simp [Inner])
  | parameterList rule names =>
      refine .ite (fun _ => stay.push (by simp [Inner])) fun hend => ?_
      refine .ite (fun _ => (here hend).push (by simp [Inner])) fun _ => ?_
      exact .ite (fun _ => (here hend).push (by simp [Inner]))
        fun _ => (here hend).push (by simp [Inner])
  | typeTag rule =>
      refine .ite (fun h => ?_) fun _ => stay.push (by simp [Inner])
      exact (here (Token.isEnd_of_kind (eq_of_beq h) (by decide))).push (by simp [Inner])
  | colon rule =>
      refine .ite (fun h => ?_) fun _ => stay.add _
      exact (here (Token.isEnd_of_isSpecial h)).push (by simp [Inner])
  | body => exact bodyStep_advances input s
  | precedence =>
      refine .ite (fun h => ?_) fun _ => stay
      have hend : (tokenAt input s.position).isEnd = false := by
        rcases Bool.or_eq_true_iff.mp h with h | h
        · exact Token.isEnd_of_kind (eq_of_beq h) (by decide)
        · exact Token.isEnd_of_kind (eq_of_beq h) (by decide)
      exact (here hend).note _
  | arguments name names => exact argumentStep_advances input name names s
  | call name names => exact stay.note _
  | finish rule => exact ⟨stay.moved, stay.closes⟩

/-! ### What holds throughout a run -/

/-- The position is inside the input, and reading any item has moved it. -/
structure Valid (input : List Token) (s : State) : Prop where
  position_lt : s.position < input.length
  close_lt : ∀ start, Task.close start ∈ s.tasks → start < s.position

theorem valid_initial {input : List Token} (h : Ends input) : Valid input initial := by
  obtain ⟨ts, e, rfl, -⟩ := h
  exact ⟨by simp [initial], by simp [initial]⟩

theorem exists_task_of_step {input : List Token} {s s' : State} (h : step input s = some s') :
    ∃ task tasks, s.tasks = task :: tasks ∧ perform input task { s with tasks := tasks } = s' := by
  unfold step at h
  split at h
  · exact absurd h (by simp)
  · rename_i task tasks heq
    exact ⟨task, tasks, heq, Option.some.inj h⟩

theorem Valid.advances {input : List Token} {s s' : State} (h : Valid input s)
    (hs : step input s = some s') :
    ∃ task tasks, s.tasks = task :: tasks ∧ Advances input { s with tasks := tasks } s' := by
  obtain ⟨task, tasks, htasks, hs'⟩ := exists_task_of_step hs
  refine ⟨task, tasks, htasks, hs' ▸ perform_advances input task _ fun start hstart => ?_⟩
  refine h.close_lt start ?_
  rw [htasks, hstart]
  exact List.mem_cons_self

theorem Valid.step {input : List Token} {s s' : State} (h : Valid input s) (hin : Ends input)
    (hs : step input s = some s') : Valid input s' := by
  obtain ⟨task, tasks, htasks, adv⟩ := h.advances hs
  refine ⟨?_, fun start hm => ?_⟩
  · rcases adv.moved with heq | ⟨i, -, hend, heq⟩
    · rw [heq]
      exact h.position_lt
    · rw [heq]
      exact hin.succ_lt hend
  · rcases adv.closes start hm with hm | hlt
    · have hstart := h.close_lt start (htasks ▸ List.mem_cons_of_mem task hm)
      exact Nat.lt_of_lt_of_le hstart adv.position_le
    · exact hlt

theorem Valid.run {input : List Token} {s s' : State} (h : Valid input s) (hin : Ends input)
    (hr : Run input s s') : Valid input s' := by
  induction hr with
  | refl => exact h
  | tail _ hs ih => exact ih.step hin hs

theorem Valid.position_le {input : List Token} {s s' : State} (h : Valid input s)
    (hin : Ends input) (hr : Run input s s') : s.position ≤ s'.position := by
  induction hr with
  | refl => exact Nat.le_refl _
  | tail hrun hs ih =>
      obtain ⟨task, tasks, -, adv⟩ := (h.run hin hrun).advances hs
      exact Nat.le_trans ih adv.position_le

theorem Run.eq_of_tasks_nil {input : List Token} {s s' : State} (h : Run input s s')
    (ht : s.tasks = []) : s' = s := by
  rcases Relation.ReflTransGen.cases_head h with rfl | ⟨t, hstep, -⟩
  · rfl
  · simp [step, ht] at hstep

/-- The first step of the main loop ends the run or moves the position. -/
theorem lt_position_of_items {input : List Token} {s s' : State} (ht : s.tasks = [.items])
    (hs : step input s = some s') : s'.tasks = [] ∨ s.position < s'.position := by
  simp only [step, ht, Option.some.injEq] at hs
  subst hs
  simp only [perform, performAt]
  split
  · exact .inl rfl
  · rename_i hend
    split
    · exact .inr (Nat.lt_succ_self _)
    · exact .inr (Nat.lt_succ_of_le (startItem_spec input s.place (Bool.eq_false_iff.mpr hend)).1)

/-- Whenever the machine comes back to its main loop, the position has grown. -/
theorem Valid.position_lt_of_items {input : List Token} {s s' : State} (h : Valid input s)
    (hin : Ends input) (ht : s.tasks = [.items]) (hr : Run input s s')
    (ht' : s'.tasks = [.items]) : s' = s ∨ s.position < s'.position := by
  rcases Relation.ReflTransGen.cases_head hr with rfl | ⟨m, hstep, hr'⟩
  · exact .inl rfl
  rcases lt_position_of_items ht hstep with hm | hlt
  · rw [Run.eq_of_tasks_nil hr' hm, hm] at ht'
    exact absurd ht' (by simp)
  · exact .inr (Nat.lt_of_lt_of_le hlt ((h.step hin hstep).position_le hin hr'))

/-- Where a run has come to its last state, every run from the same state leads. -/
theorem reaches_last {next : State → Option State} {s s' last : State}
    (hlast : Relation.ReflTransGen (fun s s' => next s = some s') s last) (hend : next last = none)
    (h : Relation.ReflTransGen (fun s s' => next s = some s') s s') :
    Relation.ReflTransGen (fun s s' => next s = some s') s' last := by
  have unique : Relator.RightUnique fun s s' => next s = some s' :=
    fun _ _ _ h h' => Option.some.inj (h.symm.trans h')
  rcases Relation.ReflTransGen.total_of_right_unique unique hlast h with h | h
  · rcases Relation.ReflTransGen.cases_head h with rfl | ⟨m, hm, -⟩
    · exact .refl
    · rw [hend] at hm
      cases hm
  · exact h

theorem Run.total {input : List Token} {s s' halted : State} (hh : Run input s halted)
    (hend : halted.tasks = []) (h : Run input s s') : Run input s' halted :=
  reaches_last hh (by rw [Machine.step, hend]) h

end Machine

end GrammarLens
