import GrammarLens.Proofs.Recovery

/-! # Places in a body

Reading a body goes from element to element, and inside a call from argument to argument.
`ElementAt` and `ArgumentAt` say to which tokens it comes.

What a token means is decided by that token and the one behind it.  So the tokens behind a place can
be exchanged for others that start with the same token: reading still comes to the place, and what
it has read up to there stays the same (`ElementAt.split`, `ArgumentAt.split`). -/

namespace GrammarLens

/-! ### Moves that look one token ahead -/

/-- The cursor with other tokens to come. -/
def Cursor.before (c : Cursor) (rest : List Token) : Cursor := ⟨c.last, rest⟩

/-- A move over the tokens behind `last` goes forward, and of the tokens that it leaves it looks at
the first at most: it takes the same tokens before others that start alike. -/
def LooksAhead (move : Token → List Token → Cursor) : Prop :=
  ∀ last ts, ∃ taken, Cursor.After last ts taken (move last ts) ∧
    ∀ rest, rest.head? = (move last ts).rest.head? →
      move last (taken ++ rest) = (move last ts).before rest

theorem head?_append_congr {α : Type} {rest rest' : List α} (h : rest'.head? = rest.head?)
    (front : List α) : (front ++ rest').head? = (front ++ rest).head? := by
  rw [List.head?_append, List.head?_append, h]

theorem LooksAhead.comp {f g : Token → List Token → Cursor} (hf : LooksAhead f)
    (hg : LooksAhead g) : LooksAhead fun last ts => g (f last ts).last (f last ts).rest := by
  intro last ts
  obtain ⟨front, hfront, hswap⟩ := hf last ts
  obtain ⟨back, hback, hswap'⟩ := hg (f last ts).last (f last ts).rest
  refine ⟨front ++ back, hfront.trans hback, fun rest hhead => ?_⟩
  have hmid : (back ++ rest).head? = (f last ts).rest.head? := by
    rw [head?_append_congr hhead back, ← hback.split]
  simp only [List.append_assoc, hswap _ hmid]
  exact hswap' rest hhead

/-- Steps over tokens as long as `next` has a state to go on with, and over the token at which it
has none. -/
def skim {σ : Type} (next : σ → Token → Option σ) (s : σ) (last : Token) : List Token → Cursor
  | [] => ⟨last, []⟩
  | t :: rest =>
    if t.isEnd then ⟨last, t :: rest⟩
    else match next s t with
      | none => ⟨t, rest⟩
      | some s' => skim next s' t rest

/-- How the number of open brackets changes; none if the last one is closed. -/
def nextDepth (opening closing : String) (depth : Nat) (t : Token) : Option Nat :=
  if t.isSpecial opening then some (depth + 1)
  else if t.isSpecial closing then if depth ≤ 1 then none else some (depth - 1)
  else some depth

theorem skipThrough_eq_skim (closes : Token → Bool) (last : Token) (ts : List Token) :
    skipThrough closes last ts =
      skim (fun _ t => if closes t then none else some ()) () last ts := by
  induction ts generalizing last with
  | nil => rfl
  | cons t rest ih =>
      rw [skipThrough, skim, ih]
      cases closes t <;> rfl

theorem skipBalanced_eq_skim (opening closing : String) (depth : Nat) (last : Token)
    (ts : List Token) :
    skipBalanced opening closing depth last ts =
      skim (nextDepth opening closing) depth last ts := by
  induction ts generalizing depth last with
  | nil => rfl
  | cons t rest ih =>
      rw [skipBalanced, skim, nextDepth, ih, ih, ih]
      cases t.isSpecial opening <;> cases t.isSpecial closing <;>
        by_cases hdepth : depth ≤ 1 <;> simp [hdepth]

theorem skim_looksAhead {σ : Type} (next : σ → Token → Option σ) (s : σ) :
    LooksAhead (skim next s) := by
  intro last ts
  induction ts generalizing s last with
  | nil =>
      refine ⟨[], .refl last [], fun rest hhead => ?_⟩
      rw [List.head?_eq_none_iff.mp hhead]
      rfl
  | cons t ts ih =>
      by_cases hend : t.isEnd = true
      · have hstop : ∀ more, skim next s last (t :: more) = ⟨last, t :: more⟩ :=
          fun more => if_pos hend
        refine ⟨[], ?_, fun rest hhead => ?_⟩
        · simp only [hstop]
          exact .refl last (t :: ts)
        · simp only [hstop] at hhead ⊢
          obtain ⟨more, rfl⟩ := List.head?_eq_some_iff.mp hhead
          exact hstop more
      · cases hnext : next s t with
        | none =>
            have hclose : ∀ more, skim next s last (t :: more) = ⟨t, more⟩ := by
              intro more
              rw [skim, if_neg hend, hnext]
            simp only [hclose]
            exact ⟨[t], (Cursor.After.refl t ts).cons, fun rest _ => hclose rest⟩
        | some s' =>
            have hgo : ∀ more, skim next s last (t :: more) = skim next s' t more := by
              intro more
              rw [skim, if_neg hend, hnext]
            obtain ⟨taken, hafter, hswap⟩ := ih s' t
            simp only [hgo]
            exact ⟨t :: taken, hafter.cons, fun rest hhead => (hgo _).trans (hswap rest hhead)⟩

theorem skipThrough_looksAhead (closes : Token → Bool) :
    LooksAhead (skipThrough closes) := by
  have h := skim_looksAhead (fun _ t => if closes t then none else some ()) ()
  simpa only [LooksAhead, ← skipThrough_eq_skim] using h

theorem skipBalanced_looksAhead (opening closing : String) (depth : Nat) :
    LooksAhead (skipBalanced opening closing depth) := by
  have h := skim_looksAhead (nextDepth opening closing) depth
  simpa only [LooksAhead, ← skipBalanced_eq_skim] using h

namespace Cursor

theorem skipIf_looksAhead (fits : Token → Bool) :
    LooksAhead fun last ts => (mk last ts).skipIf fits := by
  intro last ts
  cases ts with
  | nil =>
      refine ⟨[], .refl last [], fun rest hhead => ?_⟩
      rw [List.head?_eq_none_iff.mp hhead]
      rfl
  | cons t ts =>
      by_cases hfits : fits t = true
      · have hstep : ∀ more, skipIf fits ⟨last, t :: more⟩ = ⟨t, more⟩ := fun more => if_pos hfits
        simp only [hstep]
        exact ⟨[t], (After.refl t ts).cons, fun rest _ => hstep rest⟩
      · have hstay : ∀ more, skipIf fits ⟨last, t :: more⟩ = ⟨last, t :: more⟩ :=
          fun more => if_neg hfits
        simp only [hstay]
        refine ⟨[], .refl last (t :: ts), fun rest hhead => ?_⟩
        obtain ⟨more, rfl⟩ := List.head?_eq_some_iff.mp hhead
        exact hstay more

theorem skipAlias_looksAhead : LooksAhead fun last ts => (mk last ts).skipAlias := by
  intro last ts
  cases ts with
  | nil =>
      refine ⟨[], .refl last [], fun rest hhead => ?_⟩
      rw [List.head?_eq_none_iff.mp hhead]
      rfl
  | cons t ts =>
      by_cases hopen : t.isSpecial "[" = true
      · have hstep : ∀ more, skipAlias ⟨last, t :: more⟩ = skipThrough (·.isSpecial "]") t more :=
          fun more => if_pos hopen
        obtain ⟨taken, hafter, hswap⟩ := skipThrough_looksAhead (·.isSpecial "]") t ts
        simp only [hstep]
        exact ⟨t :: taken, hafter.cons, fun rest hhead => (hstep _).trans (hswap rest hhead)⟩
      · have hstay : ∀ more, skipAlias ⟨last, t :: more⟩ = ⟨last, t :: more⟩ :=
          fun more => if_neg hopen
        simp only [hstay]
        refine ⟨[], .refl last (t :: ts), fun rest hhead => ?_⟩
        obtain ⟨more, rfl⟩ := List.head?_eq_some_iff.mp hhead
        exact hstay more

/-- What may follow a name is stepped over with one token in view. -/
theorem skipEnding_looksAhead : LooksAhead fun last ts => (mk last ts).skipAlias.skipSuffix :=
  skipAlias_looksAhead.comp (skipIf_looksAhead _)

end Cursor

/-! ### Calls and elements look one token ahead -/

theorem NoCall.congr {rest rest' : List Token} (h : NoCall rest)
    (hhead : rest'.head? = rest.head?) : NoCall rest' := by
  unfold NoCall at h ⊢
  rw [hhead]
  exact h

/-- What was read, with other tokens to come. -/
def Arguments.before (read : Arguments) (rest : List Token) : Arguments :=
  ⟨read.names, read.uses, read.cursor.before rest⟩

/-- The arguments of a call are read with one token in view. -/
theorem arguments_looksAhead (last : Token) (ts : List Token) :
    ∃ taken, Cursor.After last ts taken (arguments last ts).cursor ∧
      ∀ rest, rest.head? = (arguments last ts).cursor.rest.head? →
        arguments last (taken ++ rest) = (arguments last ts).before rest := by
  refine arguments_induction (motive := fun last ts read =>
    ∃ taken, Cursor.After last ts taken read.cursor ∧
      ∀ rest, rest.head? = read.cursor.rest.head? →
        arguments last (taken ++ rest) = read.before rest) ?_ ?_ ?_ ?_ ?_ ?_ ?_ ?_ last ts
  · intro last
    refine ⟨[], .refl last [], fun rest hhead => ?_⟩
    rw [List.head?_eq_none_iff.mp hhead, List.nil_append, arguments_nil]
    rfl
  · intro last t ts hend
    refine ⟨[], .refl last (t :: ts), fun rest hhead => ?_⟩
    obtain ⟨more, rfl⟩ := List.head?_eq_some_iff.mp hhead
    exact arguments_end last more hend
  · intro last t ts _ hclose
    exact ⟨[t], (Cursor.After.refl t ts).cons, fun rest _ => arguments_close last rest hclose⟩
  · rintro last t ts read _ hclose hopen ⟨front, hfront, hswap⟩
    obtain ⟨inside, hinside, hskip⟩ := skipBalanced_looksAhead "(" ")" 1 t ts
    refine ⟨t :: (inside ++ front), (hinside.trans hfront).cons, fun rest hhead => ?_⟩
    have hmid : (front ++ rest).head? = (skipBalanced "(" ")" 1 t ts).rest.head? := by
      rw [head?_append_congr hhead front, ← hfront.split]
    rw [List.cons_append, List.append_assoc, arguments_group last _ hclose hopen, hskip _ hmid]
    exact hswap rest hhead
  · rintro last t ts read hend hclose hopen hname hcall ⟨front, hfront, hswap⟩
    refine ⟨t :: front, hfront.cons, fun rest hhead => ?_⟩
    rw [hfront.split] at hcall
    rw [List.cons_append, arguments_name hend hclose hopen hname
      (hcall.congr (head?_append_congr hhead front)), hswap rest hhead]
    rfl
  · rintro last t next ts inner outer hend hclose hopen hname hcall ⟨front, hfront, hswap⟩
      ⟨back, hback, hswap'⟩
    refine ⟨t :: next :: (front ++ back), (hfront.trans hback).cons.cons, fun rest hhead => ?_⟩
    have hmid : (back ++ rest).head? = inner.cursor.rest.head? := by
      rw [head?_append_congr hhead back, hback.split]
      rfl
    rw [List.cons_append, List.cons_append, List.append_assoc,
      arguments_call hend hclose hopen hname hcall, hswap _ hmid]
    have houter : arguments (inner.before (back ++ rest)).cursor.last
        (inner.before (back ++ rest)).cursor.rest = outer.before rest := hswap' rest hhead
    rw [houter]
    rfl
  · rintro last t ts read _ _ _ _ hkind ⟨front, hfront, hswap⟩
    refine ⟨t :: front, hfront.cons, fun rest hhead => ?_⟩
    rw [List.cons_append, arguments_literal last _ hkind, hswap rest hhead]
    rfl
  · rintro last t ts read hend hclose hopen hname hkind ⟨front, hfront, hswap⟩
    refine ⟨t :: front, hfront.cons, fun rest hhead => ?_⟩
    rw [List.cons_append, arguments_other last _ hend hclose hopen hname hkind, hswap rest hhead]

theorem mk_looksAhead : LooksAhead Cursor.mk := by
  intro last ts
  exact ⟨[], .refl last ts, fun rest _ => rfl⟩

/-- An element that the first token behind it and a move decide is read with one token in view. -/
theorem LooksAhead.element {t : Token} {ts : List Token} {uses : List Use}
    {move : Token → List Token → Cursor} (hmove : LooksAhead move)
    (h : ∀ rest, rest.head? = ts.head? → element t rest = (uses, move t rest)) :
    ∃ taken, Cursor.After t ts taken (element t ts).2 ∧
      ∀ rest, rest.head? = (element t ts).2.rest.head? →
        element t (taken ++ rest) = ((element t ts).1, (element t ts).2.before rest) := by
  obtain ⟨taken, hafter, hswap⟩ := hmove t ts
  rw [h ts rfl]
  refine ⟨taken, hafter, fun rest hhead => ?_⟩
  have hfront : (taken ++ rest).head? = ts.head? := by
    rw [head?_append_congr hhead taken, ← hafter.split]
  rw [h _ hfront, hswap rest hhead]

/-- Whether the token can be the operand of `%prec`. -/
def Token.isOperand (t : Token) : Bool := t.kind == .identifier || t.kind == .character

/-- The word `%prec` is an element with the operand behind it, if there is one. -/
theorem element_operand {t : Token} (hk : t.kind = .directive) (hv : t.value = "%prec")
    (ts : List Token) :
    element t ts = ((ts.head?.filter Token.isOperand).toList.map .precedence,
      (Cursor.mk t ts).skipIf Token.isOperand) := by
  have hbrace : t.isSpecial "\x7b" = false := Token.isSpecial_of_kind hk (by decide)
  cases ts with
  | nil => simp [element, hbrace, hk, Cursor.skipIf]
  | cons operand after =>
      by_cases hoperand : operand.isOperand = true
      · have hkind : operand.kind = .identifier ∨ operand.kind = .character := by
          simpa [Token.isOperand] using hoperand
        simp [element_precedence after hk hv hkind, Cursor.skipIf, Option.filter, hoperand]
      · have hkind : ¬(operand.kind = .identifier ∨ operand.kind = .character) := by
          simpa [Token.isOperand] using hoperand
        simp [element, hbrace, hk, hv, hkind, Cursor.skipIf, Option.filter, hoperand]

/-- The forms of an element: what its first token `t` and the tokens behind it are. -/
inductive ElementForm (t : Token) : List Token → Prop
  | action {ts : List Token} (hbrace : t.isSpecial "\x7b" = true) : ElementForm t ts
  | precedence {ts : List Token} (hkind : t.kind = .directive) (hvalue : t.value = "%prec") :
      ElementForm t ts
  | directive {ts : List Token} (hkind : t.kind = .directive) (hvalue : t.value ≠ "%prec") :
      ElementForm t ts
  | name {ts : List Token} (hname : t.isName = true) (hcall : NoCall ts) : ElementForm t ts
  | call {next : Token} {inside : List Token} (hname : t.isName = true)
      (hcall : next.isSpecial "(" = true) : ElementForm t (next :: inside)
  | literal {ts : List Token} (hkind : t.kind = .character) : ElementForm t ts
  | other {ts : List Token} (hbrace : t.isSpecial "\x7b" = false) (hdirective : t.kind ≠ .directive)
      (hname : t.isName = false) (hliteral : t.kind ≠ .character) : ElementForm t ts

theorem elementForm (t : Token) (ts : List Token) : ElementForm t ts := by
  by_cases hbrace : t.isSpecial "\x7b" = true
  · exact .action hbrace
  by_cases hdirective : t.kind = .directive
  · by_cases hvalue : t.value = "%prec"
    · exact .precedence hdirective hvalue
    · exact .directive hdirective hvalue
  by_cases hname : t.isName = true
  · cases ts with
    | nil => exact .name hname fun _ hmem => by cases hmem
    | cons next inside =>
        by_cases hcall : next.isSpecial "(" = true
        · exact .call hname hcall
        · refine .name hname ?_
          rintro u ⟨⟩
          exact Bool.eq_false_iff.mpr hcall
  by_cases hliteral : t.kind = .character
  · exact .literal hliteral
  · exact .other (Bool.eq_false_iff.mpr hbrace) hdirective (Bool.eq_false_iff.mpr hname) hliteral

/-- An element of a body is read with one token in view. -/
theorem element_looksAhead (t : Token) (ts : List Token) :
    ∃ taken, Cursor.After t ts taken (element t ts).2 ∧
      ∀ rest, rest.head? = (element t ts).2.rest.head? →
        element t (taken ++ rest) = ((element t ts).1, (element t ts).2.before rest) := by
  cases elementForm t ts with
  | action hbrace =>
      exact ((skipBalanced_looksAhead "\x7b" "\x7d" 1).comp
        (Cursor.skipIf_looksAhead (·.kind == .typeTag))).element
          fun rest _ => element_action rest hbrace
  | precedence hkind hvalue =>
      exact (Cursor.skipIf_looksAhead Token.isOperand).element fun rest hhead => by
        rw [element_operand hkind hvalue rest, hhead]
  | directive hkind hvalue =>
      exact mk_looksAhead.element fun rest _ => element_directive rest hkind hvalue
  | name hname hcall =>
      exact Cursor.skipEnding_looksAhead.element fun rest hhead =>
        element_name hname (hcall.congr hhead)
  | @call next inside hname hcall =>
      -- A call reads its arguments first, then what may follow it.
      obtain ⟨front, hfront, hswap⟩ := arguments_looksAhead next inside
      obtain ⟨back, hback, hswap'⟩ := Cursor.skipEnding_looksAhead
        (arguments next inside).cursor.last (arguments next inside).cursor.rest
      rw [element_call hname hcall]
      refine ⟨next :: (front ++ back), (hfront.trans hback).cons, fun rest hhead => ?_⟩
      have hmid : (back ++ rest).head? = (arguments next inside).cursor.rest.head? := by
        rw [hback.split]
        exact head?_append_congr hhead back
      rw [List.cons_append, List.append_assoc, element_call hname hcall, hswap _ hmid]
      exact Prod.ext rfl (hswap' rest hhead)
  | literal hkind =>
      exact (Cursor.skipIf_looksAhead _).element fun rest _ => element_literal rest hkind
  | other hbrace hdirective hname hliteral =>
      exact mk_looksAhead.element fun rest _ =>
        element_other rest hbrace hdirective hname hliteral

/-! ### Where reading comes -/

/-- Whether a body ends before the token or with it. -/
def Token.endsBody (t : Token) : Bool := t.isEnd || t.isSpecial ";" || t.kind == .separator

/-- Reading a body from `ts` comes to the tokens `rest`, and an element of the body starts there
unless the body ends. -/
inductive ElementAt (ts : List Token) : List Token → Prop
  | start : ElementAt ts ts
  | next {t : Token} {rest : List Token} (h : ElementAt ts (t :: rest))
      (hgoes : t.endsBody = false) : ElementAt ts (element t rest).2.rest

theorem readBody_of_goes (last : Token) {t : Token} (rest : List Token)
    (h : t.endsBody = false) :
    readBody last (t :: rest) =
      prependUses (element t rest).1
        (readBody (element t rest).2.last (element t rest).2.rest) := by
  simp only [Token.endsBody, Bool.or_eq_false_iff, beq_eq_false_iff_ne] at h
  exact Written.readBody_cons last t rest h.1.1 h.1.2 h.2 rfl

/-- What is read before a place does not depend on the tokens behind it, but for the first one. -/
theorem ElementAt.split {ts rest : List Token} (h : ElementAt ts rest) (last : Token) :
    ∃ taken uses l, ts = taken ++ rest ∧ ∀ rest', rest'.head? = rest.head? →
      readBody last (taken ++ rest') = prependUses uses (readBody l rest') := by
  induction h with
  | start => exact ⟨[], [], last, rfl, fun rest' _ => rfl⟩
  | @next t rest _ hgoes ih =>
      obtain ⟨front, uses, l, rfl, hread⟩ := ih
      obtain ⟨taken, hafter, hswap⟩ := element_looksAhead t rest
      refine ⟨front ++ t :: taken, uses ++ (element t rest).1, (element t rest).2.last, ?_, ?_⟩
      · rw [List.append_assoc, List.cons_append, ← hafter.split]
      · intro rest' hhead
        rw [List.append_assoc, List.cons_append, hread (t :: (taken ++ rest')) rfl,
          readBody_of_goes l _ hgoes, hswap rest' hhead, Written.prependUses_prependUses]
        rfl

theorem ElementAt.of_mem {ts rest : List Token} (h : ElementAt ts rest) {last : Token} {use : Use}
    (huse : use ∈ (readBody last rest).1) :
    ∃ t rest', ElementAt ts (t :: rest') ∧ t.endsBody = false ∧ use ∈ (element t rest').1 := by
  fun_induction readBody last rest with
  | case1 | case2 | case3 | case4 => exact absurd huse List.not_mem_nil
  | case5 last t rest hend hsemicolon hseparator ih =>
      have hgoes : t.endsBody = false := by
        simp_all [Token.endsBody]
      rcases List.mem_append.mp huse with huse | huse
      · exact ⟨t, rest, h, hgoes, huse⟩
      · exact ih (h.next hgoes) huse

/-- The uses in a body are those in its elements. -/
theorem mem_readBody_iff {last : Token} {ts : List Token} {use : Use} :
    use ∈ (readBody last ts).1 ↔ ∃ t rest, ElementAt ts (t :: rest) ∧ t.endsBody = false ∧
      use ∈ (element t rest).1 := by
  constructor
  · exact ElementAt.start.of_mem
  · rintro ⟨t, rest, hat, hgoes, huse⟩
    obtain ⟨taken, uses, l, rfl, hread⟩ := hat.split last
    rw [hread _ rfl, readBody_of_goes l rest hgoes]
    exact List.mem_append_right uses (List.mem_append_left _ huse)

theorem arguments_named_call {t next : Token} (hname : t.isName = true)
    (hcall : next.isSpecial "(" = true) (last : Token) (inside : List Token) :
    arguments last (t :: next :: inside) = .consCall t (arguments next inside)
      (arguments (arguments next inside).cursor.last (arguments next inside).cursor.rest) := by
  have hspecial : ∀ chars, t.isSpecial chars = false :=
    fun _ => Token.isSpecial_of_kind (eq_of_beq hname) (by decide)
  exact arguments_call (Token.isEnd_of_isName hname) (hspecial ")") (hspecial "(") hname hcall

theorem Token.endsBody_of_isName {t : Token} (h : t.isName = true) : t.endsBody = false := by
  have hk : t.kind = .identifier := eq_of_beq h
  simp [Token.endsBody, Token.isEnd, Token.isSpecial, hk]

/-- Reads on in an argument list in which `depth` groups are open. -/
def argumentsIn (depth : Nat) (last : Token) (ts : List Token) : Arguments :=
  if depth = 0 then arguments last ts
  else arguments (skipBalanced "(" ")" depth last ts).last (skipBalanced "(" ")" depth last ts).rest

/-- Reading a body from `ts` comes to the tokens `rest` in the argument list of a call, with `depth`
groups without a name open there. -/
inductive ArgumentAt (ts : List Token) : Nat → List Token → Prop
  | first {t next : Token} {inside : List Token} (h : ElementAt ts (t :: next :: inside))
      (hname : t.isName = true) (hcall : next.isSpecial "(" = true) : ArgumentAt ts 0 inside
  | inner {t next : Token} {inside : List Token} (h : ArgumentAt ts 0 (t :: next :: inside))
      (hname : t.isName = true) (hcall : next.isSpecial "(" = true) : ArgumentAt ts 0 inside
  | outer {t next : Token} {inside : List Token} (h : ArgumentAt ts 0 (t :: next :: inside))
      (hname : t.isName = true) (hcall : next.isSpecial "(" = true) :
      ArgumentAt ts 0 (arguments next inside).cursor.rest
  | opens {depth : Nat} {t : Token} {rest : List Token} (h : ArgumentAt ts depth (t :: rest))
      (hopen : t.isSpecial "(" = true) (hclose : depth = 0 → t.isSpecial ")" = false) :
      ArgumentAt ts (depth + 1) rest
  | closes {depth : Nat} {t : Token} {rest : List Token} (h : ArgumentAt ts (depth + 1) (t :: rest))
      (hopen : t.isSpecial "(" = false) (hclose : t.isSpecial ")" = true) :
      ArgumentAt ts depth rest
  | other {depth : Nat} {t : Token} {rest : List Token} (h : ArgumentAt ts depth (t :: rest))
      (hend : t.isEnd = false) (hopen : t.isSpecial "(" = false) (hclose : t.isSpecial ")" = false)
      (hcall : depth = 0 → t.isName = true → NoCall rest) : ArgumentAt ts depth rest

theorem argumentsIn_opens {depth : Nat} {t : Token} (hopen : t.isSpecial "(" = true)
    (hclose : depth = 0 → t.isSpecial ")" = false) (last : Token) (rest : List Token) :
    argumentsIn depth last (t :: rest) = argumentsIn (depth + 1) t rest := by
  cases depth with
  | zero => exact arguments_group last rest (hclose rfl) hopen
  | succ depth => simp [argumentsIn, skipBalanced, Token.isEnd_of_isSpecial hopen, hopen]

theorem argumentsIn_closes {depth : Nat} {t : Token} (hopen : t.isSpecial "(" = false)
    (hclose : t.isSpecial ")" = true) (last : Token) (rest : List Token) :
    argumentsIn (depth + 1) last (t :: rest) = argumentsIn depth t rest := by
  cases depth <;>
    simp [argumentsIn, skipBalanced, Token.isEnd_of_isSpecial hclose, hopen, hclose]

/-- A token that is no parenthesis and calls nothing adds its own use at most. -/
theorem argumentsIn_other {depth : Nat} {t : Token} {rest : List Token} (hend : t.isEnd = false)
    (hopen : t.isSpecial "(" = false) (hclose : t.isSpecial ")" = false)
    (hcall : depth = 0 → t.isName = true → NoCall rest) (last : Token) :
    (argumentsIn depth t rest).uses ⊆ (argumentsIn depth last (t :: rest)).uses := by
  cases depth with
  | zero =>
      simp only [argumentsIn, if_true]
      by_cases hname : t.isName = true
      · rw [arguments_name hend hclose hopen hname (hcall rfl hname)]
        exact List.subset_cons_self _ _
      by_cases hliteral : t.kind = .character
      · rw [arguments_literal last rest hliteral]
        exact List.Subset.refl _
      · rw [arguments_other last rest hend hclose hopen (Bool.eq_false_iff.mpr hname) hliteral]
        exact List.Subset.refl _
  | succ depth => simp [argumentsIn, skipBalanced, hend, hopen, hclose]

/-- What is read from a place in an argument list is read in the body, and other tokens that start
like those at the place can stand there. -/
theorem ArgumentAt.split {ts rest : List Token} {depth : Nat} (h : ArgumentAt ts depth rest)
    (last : Token) :
    ∃ taken l, ts = taken ++ rest ∧ ∀ rest', rest'.head? = rest.head? →
      (argumentsIn depth l rest').uses ⊆ (readBody last (taken ++ rest')).1 := by
  induction h with
  | @first t next inside hat hname hcall =>
      obtain ⟨taken, uses, l, rfl, hread⟩ := hat.split last
      refine ⟨taken ++ [t, next], next, by simp, fun rest' _ => ?_⟩
      rw [List.append_assoc, List.cons_append, List.cons_append, List.nil_append,
        hread (t :: next :: rest') rfl, readBody_of_goes l _ (Token.endsBody_of_isName hname),
        element_call hname hcall]
      intro use huse
      exact List.mem_append_right uses (List.mem_append_left _ (List.mem_append_left _ huse))
  | @inner t next inside _ hname hcall ih =>
      obtain ⟨taken, l, rfl, hread⟩ := ih
      refine ⟨taken ++ [t, next], next, by simp, fun rest' _ => ?_⟩
      rw [List.append_assoc, List.cons_append, List.cons_append, List.nil_append]
      refine List.Subset.trans ?_ (hread (t :: next :: rest') rfl)
      simp only [argumentsIn, if_true, arguments_named_call hname hcall]
      exact List.subset_append_left _ _
  | @outer t next inside _ hname hcall ih =>
      obtain ⟨front, l, rfl, hread⟩ := ih
      obtain ⟨taken, hafter, hswap⟩ := arguments_looksAhead next inside
      refine ⟨front ++ t :: next :: taken, (arguments next inside).cursor.last, ?_, ?_⟩
      · rw [List.append_assoc, List.cons_append, List.cons_append, ← hafter.split]
      · intro rest' hhead
        rw [List.append_assoc, List.cons_append, List.cons_append]
        refine List.Subset.trans ?_ (hread (t :: next :: (taken ++ rest')) rfl)
        simp only [argumentsIn, if_true, arguments_named_call hname hcall, hswap rest' hhead]
        intro use huse
        exact List.mem_append_right _ (List.mem_cons_of_mem _ huse)
  | @opens depth t rest _ hopen hclose ih =>
      obtain ⟨taken, l, rfl, hread⟩ := ih
      refine ⟨taken ++ [t], t, by simp, fun rest' _ => ?_⟩
      rw [List.append_assoc, ← argumentsIn_opens hopen hclose l]
      exact hread (t :: rest') rfl
  | @closes depth t rest _ hopen hclose ih =>
      obtain ⟨taken, l, rfl, hread⟩ := ih
      refine ⟨taken ++ [t], t, by simp, fun rest' _ => ?_⟩
      rw [List.append_assoc, ← argumentsIn_closes hopen hclose l]
      exact hread (t :: rest') rfl
  | @other depth t rest _ hend hopen hclose hcall ih =>
      obtain ⟨taken, l, rfl, hread⟩ := ih
      refine ⟨taken ++ [t], t, by simp, fun rest' hhead => ?_⟩
      rw [List.append_assoc]
      exact List.Subset.trans
        (argumentsIn_other hend hopen hclose (fun h0 hn => (hcall h0 hn).congr hhead) l)
        (hread (t :: rest') rfl)

end GrammarLens
