import GrammarLens.Proofs.Consumption
import Mathlib.Order.Bounds.Basic

/-! # Brackets that balance

A token opens a bracket, closes one or does neither; `balance` is what a list of tokens adds to the
number of open brackets.  Stepping over a bracketed region looks at one token after the other and
keeps that number (`skipBalanced_cons`).  It cannot go below zero unseen, since a token closes at
most one bracket.  So the step over the region ends behind the first token after which no bracket
is open, and if there is none before the end of the input, it ends there
(`after_skipBalanced_of_isLeast`, `after_skipBalanced_of_open`).  In particular it is not misled by
what stands between two brackets, as long as that balances (`Balanced.isLeast`). -/

namespace GrammarLens

section Balance

variable (opening closing : String)

/-- What a token adds to the number of open brackets. -/
def Token.weight (t : Token) : Int :=
  if t.isSpecial opening then 1 else if t.isSpecial closing then -1 else 0

/-- What tokens add to the number of open brackets. -/
def balance : List Token → Int
  | [] => 0
  | t :: ts => t.weight opening closing + balance ts

/-- With `depth` brackets open before, none is open after `n` tokens, and the input does not end
among these. -/
structure ClosedAfter (depth : Int) (ts : List Token) (n : Nat) : Prop where
  le_length : n ≤ ts.length
  inside : ∀ t ∈ ts.take n, t.isEnd = false
  level : depth + balance opening closing (ts.take n) = 0

/-- The tokens close the brackets that they open, and no others. -/
structure Balanced (ts : List Token) : Prop where
  inside : ∀ t ∈ ts, t.isEnd = false
  nonneg : ∀ n ≤ ts.length, 0 ≤ balance opening closing (ts.take n)
  level : balance opening closing ts = 0

instance (ts : List Token) : Decidable (Balanced opening closing ts) :=
  decidable_of_iff
    ((∀ t ∈ ts, t.isEnd = false) ∧ (∀ n ≤ ts.length, 0 ≤ balance opening closing (ts.take n)) ∧
      balance opening closing ts = 0)
    ⟨fun h => ⟨h.1, h.2.1, h.2.2⟩, fun h => ⟨h.1, h.2, h.3⟩⟩

end Balance

variable {opening closing : String} {t : Token} {ts : List Token}

theorem balance_append (ts us : List Token) :
    balance opening closing (ts ++ us) =
      balance opening closing ts + balance opening closing us := by
  induction ts with
  | nil => rw [List.nil_append, balance, Int.zero_add]
  | cons t ts ih => rw [List.cons_append, balance, balance, ih, Int.add_assoc]

theorem weight_opening (h : t.isSpecial opening = true) : t.weight opening closing = 1 := if_pos h

theorem weight_closing (ho : t.isSpecial opening = false) (hc : t.isSpecial closing = true) :
    t.weight opening closing = -1 := by
  rw [Token.weight, if_neg (Bool.eq_false_iff.mp ho), if_pos hc]

theorem closedAfter_zero_iff {depth : Int} :
    ClosedAfter opening closing depth ts 0 ↔ depth = 0 := by
  constructor
  · intro h
    simpa [balance] using h.level
  · rintro rfl
    exact ⟨Nat.zero_le _, by simp, by simp [balance]⟩

theorem closedAfter_cons_iff {depth : Int} {n : Nat} (ht : t.isEnd = false) :
    ClosedAfter opening closing depth (t :: ts) (n + 1) ↔
      ClosedAfter opening closing (depth + t.weight opening closing) ts n := by
  have hlevel : depth + balance opening closing ((t :: ts).take (n + 1)) =
      depth + t.weight opening closing + balance opening closing (ts.take n) := by
    rw [List.take_succ_cons, balance, Int.add_assoc]
  constructor
  · intro h
    refine ⟨Nat.le_of_succ_le_succ h.le_length, fun u hu => h.inside u ?_, hlevel ▸ h.level⟩
    rw [List.take_succ_cons]
    exact List.mem_cons_of_mem t hu
  · intro h
    refine ⟨Nat.succ_le_succ h.le_length, ?_, hlevel.trans h.level⟩
    rw [List.take_succ_cons]
    exact List.forall_mem_cons.mpr ⟨ht, h.inside⟩

/-! ### One token -/

/-- A token that does not end the input changes the number of open brackets by its weight, and the
step over the region ends with it just if none is open any more. -/
theorem skipBalanced_cons {depth : Nat} (hdepth : 0 < depth) (ht : t.isEnd = false)
    (last : Token) (rest : List Token) :
    ∃ depth' : Nat, (depth' : Int) = depth + t.weight opening closing ∧
      skipBalanced opening closing depth last (t :: rest) =
        if depth' = 0 then ⟨t, rest⟩ else skipBalanced opening closing depth' t rest := by
  rw [skipBalanced, if_neg (Bool.eq_false_iff.mp ht), Token.weight]
  by_cases ho : t.isSpecial opening = true
  · exact ⟨depth + 1, by simp [ho], by simp [ho]⟩
  · by_cases hc : t.isSpecial closing = true
    · refine ⟨depth - 1, by rw [if_neg ho, if_pos hc]; omega, ?_⟩
      by_cases hlast : depth ≤ 1
      · simp [ho, hc, hlast]
      · rw [if_neg (by omega : ¬depth - 1 = 0)]
        simp [ho, hc, hlast]
    · refine ⟨depth, by simp [ho, hc], ?_⟩
      rw [if_neg (by omega : ¬depth = 0)]
      simp [ho, hc]

theorem skipBalanced_opening (h : t.isSpecial opening = true) (last : Token) (rest : List Token) :
    skipBalanced opening closing 0 last (t :: rest) = skipBalanced opening closing 1 t rest := by
  simp [skipBalanced, Token.isEnd_of_isSpecial h, h]

/-! ### All tokens of a region -/

theorem Cursor.After.eq_mk {last : Token} {taken rest : List Token} {c : Cursor}
    (h : Cursor.After last (taken ++ rest) taken c) : c = ⟨taken.getLastD last, rest⟩ := by
  rw [List.append_cancel_left h.split, ← h.last_eq]

theorem after_skipBalanced_of_isLeast {depth n : Nat} (hdepth : 0 < depth)
    (h : IsLeast {n | ClosedAfter opening closing depth ts n} n) (last : Token) :
    Cursor.After last ts (ts.take n) (skipBalanced opening closing depth last ts) := by
  have hpos : n ≠ 0 := by
    rintro rfl
    have := closedAfter_zero_iff.mp h.1
    omega
  induction ts generalizing depth last n with
  | nil => exact absurd (Nat.le_zero.mp h.1.le_length) hpos
  | cons t rest ih =>
      obtain ⟨m, rfl⟩ := Nat.exists_eq_succ_of_ne_zero hpos
      have ht : t.isEnd = false := h.1.inside t (by simp)
      obtain ⟨depth', hdepth', heq⟩ := skipBalanced_cons hdepth ht last rest
      have hrest : IsLeast {n | ClosedAfter opening closing depth' rest n} m := by
        rw [hdepth']
        exact ⟨(closedAfter_cons_iff ht).mp h.1, fun k hk =>
          Nat.le_of_succ_le_succ (h.2 ((closedAfter_cons_iff ht).mpr hk))⟩
      rw [heq, List.take_succ_cons]
      split
      · rename_i hzero
        subst hzero
        obtain rfl : m = 0 := Nat.le_zero.mp (hrest.2 (closedAfter_zero_iff.mpr rfl))
        exact (Cursor.After.refl t rest).cons
      · rename_i hopen
        refine (ih (Nat.pos_of_ne_zero hopen) hrest t ?_).cons
        rintro rfl
        exact hopen (Int.ofNat_eq_zero.mp (closedAfter_zero_iff.mp hrest.1))

theorem after_skipBalanced_of_open {depth : Nat} (hdepth : 0 < depth)
    (h : ∀ n, ¬ClosedAfter opening closing depth ts n) (last : Token) :
    Cursor.After last ts (ts.takeWhile fun t => !t.isEnd)
      (skipBalanced opening closing depth last ts) := by
  induction ts generalizing depth last with
  | nil => exact .refl last []
  | cons t rest ih =>
      by_cases hend : t.isEnd = true
      · rw [skipBalanced, if_pos hend, List.takeWhile_cons_of_neg (by simp [hend])]
        exact .refl last (t :: rest)
      · have ht := Bool.eq_false_iff.mpr hend
        obtain ⟨depth', hdepth', heq⟩ := skipBalanced_cons hdepth ht last rest
        have hrest : ∀ n, ¬ClosedAfter opening closing depth' rest n := by
          rw [hdepth']
          exact fun n hn => h (n + 1) ((closedAfter_cons_iff ht).mpr hn)
        have hopen : depth' ≠ 0 := by
          rintro rfl
          exact hrest 0 (closedAfter_zero_iff.mpr rfl)
        rw [heq, if_neg hopen, List.takeWhile_cons_of_pos (by simp [ht])]
        exact (ih (Nat.pos_of_ne_zero hopen) hrest t).cons

/-! ### What stands between two brackets -/

theorem Balanced.isLeast {inside : List Token} (h : Balanced opening closing inside)
    (ho : t.isSpecial opening = false) (hc : t.isSpecial closing = true) (rest : List Token) :
    IsLeast {n | ClosedAfter opening closing 1 (inside ++ t :: rest) n} (inside.length + 1) := by
  constructor
  · have htake : (inside ++ t :: rest).take (inside.length + 1) = inside ++ [t] := by
      rw [List.append_cons, List.take_left' (by simp)]
    refine ⟨by simp, ?_, ?_⟩
    · rw [htake]
      intro u hu
      rcases List.mem_append.mp hu with hu | hu
      · exact h.inside u hu
      · rw [List.mem_singleton.mp hu]
        exact Token.isEnd_of_isSpecial hc
    · rw [htake, balance_append, balance, balance, h.level, weight_closing ho hc]
      rfl
  · -- Before the closing bracket, one bracket more is open than the tokens inside say.
    intro n hn
    by_contra hlt
    have hle : n ≤ inside.length := by omega
    have hlevel := hn.level
    rw [List.take_append_of_le_length hle] at hlevel
    have := h.nonneg n hle
    omega

/-- The step over a bracketed region starts on a token that opens it.  It ends behind the first
token after which no bracket is open, if there is one before the input ends, and at the end of the
input otherwise.  So with tokens that balance between an opening and a closing bracket, it ends
right behind the latter. -/
theorem skipBalanced_stops_exactly (opening closing : String) (c : Cursor) (t : Token)
    (rest : List Token) (hstand : c.rest = t :: rest) (hopen : t.isSpecial opening = true) :
    let stop := skipBalanced opening closing 0 c.last c.rest
    stop = skipBalanced opening closing 1 t rest ∧
    (∀ n, IsLeast {n | 0 < n ∧ ClosedAfter opening closing 0 c.rest n} n →
      Cursor.After c.last c.rest (c.rest.take n) stop) ∧
    ((∀ n, 0 < n → ¬ClosedAfter opening closing 0 c.rest n) →
      Cursor.After c.last c.rest (c.rest.takeWhile fun t => !t.isEnd) stop) ∧
    ∀ (inside after : List Token) (close : Token), Balanced opening closing inside →
      close.isSpecial opening = false → close.isSpecial closing = true →
      rest = inside ++ close :: after → stop = ⟨close, after⟩ := by
  have hend := Token.isEnd_of_isSpecial hopen
  -- Behind the opening token one bracket is open, and each number of tokens is less by that one.
  have hnext (n : Nat) : ClosedAfter opening closing 0 (t :: rest) (n + 1) ↔
      ClosedAfter opening closing 1 rest n := by
    rw [closedAfter_cons_iff hend, weight_opening hopen, Int.zero_add]
  rw [hstand, skipBalanced_opening hopen]
  refine ⟨rfl, fun n hn => ?_, fun h => ?_, fun inside after close hinside ho hc hrest => ?_⟩
  · obtain ⟨m, rfl⟩ := Nat.exists_eq_succ_of_ne_zero (Nat.ne_of_gt hn.1.1)
    have hleast : IsLeast {n | ClosedAfter opening closing (1 : Nat) rest n} m :=
      ⟨(hnext m).mp hn.1.2, fun k hk =>
        Nat.le_of_succ_le_succ (hn.2 ⟨Nat.succ_pos k, (hnext k).mpr hk⟩)⟩
    rw [List.take_succ_cons]
    exact (after_skipBalanced_of_isLeast Nat.one_pos hleast t).cons
  · have hopen' : ∀ n, ¬ClosedAfter opening closing (1 : Nat) rest n :=
      fun n hn => h (n + 1) (Nat.succ_pos n) ((hnext n).mpr hn)
    rw [List.takeWhile_cons_of_pos (by simp [hend])]
    exact (after_skipBalanced_of_open Nat.one_pos hopen' t).cons
  · subst hrest
    have hafter := after_skipBalanced_of_isLeast Nat.one_pos (hinside.isLeast ho hc after) t
    rw [List.append_cons, List.take_left' (by simp)] at hafter
    rw [List.append_cons, hafter.eq_mk, getLastD_append]
    rfl

/-- A special character in the first line. -/
def specialAt (column : Int) (char : String) : Token := ⟨.special, char, 0, column, 1⟩

/-- Two blocks side by side, the second with another one inside. -/
def blocksSideBySide : List Token :=
  [specialAt 2 "\x7b", specialAt 3 "\x7d", specialAt 4 "\x7b", specialAt 5 ";", specialAt 6 "\x7b",
    specialAt 7 "\x7d", specialAt 8 "\x7d"]

/-- A region around two blocks ends with its own closing bracket, also if another one follows. -/
theorem blocksSideBySide_skipped :
    Balanced "\x7b" "\x7d" blocksSideBySide ∧
      skipBalanced "\x7b" "\x7d" 0 (specialAt 0 "|")
          (specialAt 1 "\x7b" :: (blocksSideBySide ++ [specialAt 9 "\x7d", specialAt 10 "\x7d"])) =
        ⟨specialAt 9 "\x7d", [specialAt 10 "\x7d"]⟩ := by
  have hbalanced : Balanced "\x7b" "\x7d" blocksSideBySide := by decide
  obtain ⟨-, -, -, hstop⟩ := skipBalanced_stops_exactly "\x7b" "\x7d"
    ⟨specialAt 0 "|", specialAt 1 "\x7b" ::
      (blocksSideBySide ++ [specialAt 9 "\x7d", specialAt 10 "\x7d"])⟩ _ _ rfl (by decide)
  exact ⟨hbalanced, hstop _ _ _ hbalanced (by decide) (by decide) rfl⟩

end GrammarLens
