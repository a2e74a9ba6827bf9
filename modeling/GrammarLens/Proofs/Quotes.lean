import GrammarLens.Proofs.Splitting
import Mathlib.Algebra.Group.Nat.Even
import Mathlib.Order.Bounds.Basic
import Mathlib.Order.Nat

/-! # The quote that closes a literal

A backslash in a literal escapes the character behind it, another backslash too.  So a quote in a
literal is escaped if the run of backslashes right before it has odd length, and the literal ends
with its first quote that is `Unescaped`.

The scan looks at one character before a quote and takes the first `Bare` one, which has no
backslash before it.  A bare quote is unescaped, but a literal whose text ends with an escaped
backslash closes with a quote that is not bare.  The main statement, `closed_by_unescaped_iff`, is
that these are the only literals that the scan closes at a wrong place or not at all. -/

namespace GrammarLens

/-- How many backslashes a text ends with. -/
def endingBackslashes (cs : List Char) : Nat := (cs.reverse.takeWhile (· == '\\')).length

/-- The character at column `i` is a `quote` behind column `start`, with an even number of
backslashes between the two columns right before it. -/
structure Unescaped (chars : List Char) (quote : Char) (start i : Nat) : Prop where
  behind : start < i
  isQuote : chars[i]? = some quote
  even : Even (endingBackslashes ((chars.take i).drop (start + 1)))

instance (chars : List Char) (quote : Char) (start i : Nat) :
    Decidable (Unescaped chars quote start i) :=
  decidable_of_iff (start < i ∧ chars[i]? = some quote ∧
    Even (endingBackslashes ((chars.take i).drop (start + 1))))
    ⟨fun h => ⟨h.1, h.2.1, h.2.2⟩, fun h => ⟨h.behind, h.isQuote, h.even⟩⟩

/-- The character at column `i` is a `quote` behind column `start` with no backslash before it. -/
structure Bare (chars : List Char) (quote : Char) (start i : Nat) : Prop where
  behind : start < i
  isQuote : chars[i]? = some quote
  noBackslash : chars[i - 1]? ≠ some '\\'

/-- The column of the quote with which the scan closes the literal that starts at column
`start`. -/
def closingQuote? (chars : List Char) (start : Nat) : Option Nat :=
  match chars.drop start with
  | [] => none
  | quote :: cs => (literalLength? quote quote cs).map (start + ·)

/-! ### Bare quotes -/

theorem not_bare_zero (chars : List Char) (quote : Char) (start : Nat) :
    ¬Bare chars quote start 0 :=
  fun h => absurd h.behind (Nat.not_lt_zero start)

theorem bare_one_iff {quote previous c : Char} {cs : List Char} :
    Bare (previous :: c :: cs) quote 0 1 ↔ c = quote ∧ previous ≠ '\\' := by
  constructor
  · intro h
    exact ⟨Option.some.inj h.isQuote, fun heq => h.noBackslash (congrArg some heq)⟩
  · rintro ⟨rfl, hprevious⟩
    exact ⟨Nat.one_pos, rfl, fun heq => hprevious (Option.some.inj heq)⟩

theorem bare_succ_succ_iff {quote previous : Char} {cs : List Char} {n : Nat} :
    Bare (previous :: cs) quote 0 (n + 2) ↔ Bare cs quote 0 (n + 1) := by
  constructor
  · intro h
    exact ⟨Nat.succ_pos n, h.isQuote, h.noBackslash⟩
  · intro h
    exact ⟨Nat.succ_pos (n + 1), h.isQuote, h.noBackslash⟩

/-- The length of a literal leads to the first bare quote. -/
theorem literalLength?_isLeast {quote previous : Char} {cs : List Char} {n : Nat} :
    literalLength? quote previous cs = some n ↔
      IsLeast {i | Bare (previous :: cs) quote 0 i} n := by
  induction cs generalizing previous n with
  | nil =>
      constructor
      · intro h
        cases h
      · rintro ⟨hbare, -⟩
        cases n with
        | zero => exact absurd hbare (not_bare_zero _ _ _)
        | succ n => cases hbare.isQuote
  | cons c cs ih =>
      rw [literalLength?]
      split
      · rename_i hclose
        have hbare : Bare (previous :: c :: cs) quote 0 1 := bare_one_iff.mpr hclose
        constructor
        · rintro ⟨⟩
          exact ⟨hbare, fun i hi => hi.behind⟩
        · intro h
          rw [Nat.le_antisymm (h.2 hbare) h.1.behind]
      · rename_i hopen
        -- The quote is not the next character, so the search goes on behind it.
        have hshift : ∀ i, Bare (previous :: c :: cs) quote 0 (i + 1) ↔
            Bare (c :: cs) quote 0 i := by
          intro i
          cases i with
          | zero => exact iff_of_false (mt bare_one_iff.mp hopen) (not_bare_zero _ _ _)
          | succ i => exact bare_succ_succ_iff
        rw [Option.map_eq_some_iff]
        constructor
        · rintro ⟨m, hm, rfl⟩
          obtain ⟨hbare, hleast⟩ := ih.mp hm
          refine ⟨(hshift m).mpr hbare, ?_⟩
          intro i hi
          cases i with
          | zero => exact absurd hi (not_bare_zero _ _ _)
          | succ i => exact Nat.succ_le_succ (hleast ((hshift i).mp hi))
        · rintro ⟨hbare, hleast⟩
          cases n with
          | zero => exact absurd hbare (not_bare_zero _ _ _)
          | succ m =>
              refine ⟨m, ih.mpr ⟨(hshift m).mp hbare, ?_⟩, rfl⟩
              intro i hi
              exact Nat.le_of_succ_le_succ (hleast ((hshift i).mpr hi))

section Columns
variable {chars : List Char} {quote : Char} {start : Nat} (hstart : chars[start]? = some quote)
include hstart

theorem drop_start : chars.drop start = quote :: chars.drop (start + 1) := by
  obtain ⟨hlt, heq⟩ := List.getElem?_eq_some_iff.mp hstart
  rw [List.drop_eq_getElem_cons hlt, heq]

theorem closingQuote?_eq : closingQuote? chars start =
    (literalLength? quote quote (chars.drop (start + 1))).map (start + ·) := by
  rw [closingQuote?, drop_start hstart]

theorem bare_add_iff {n : Nat} :
    Bare (quote :: chars.drop (start + 1)) quote 0 n ↔ Bare chars quote start (start + n) := by
  have hget : ∀ i, (quote :: chars.drop (start + 1))[i]? = chars[start + i]? := by
    intro i
    rw [← drop_start hstart, List.getElem?_drop]
  constructor
  · intro h
    refine ⟨Nat.lt_add_of_pos_right h.behind, (hget n).symm.trans h.isQuote, ?_⟩
    rw [Nat.add_sub_assoc h.behind, ← hget]
    exact h.noBackslash
  · intro h
    have hpos : 0 < n := Nat.pos_of_lt_add_right h.behind
    refine ⟨hpos, (hget n).trans h.isQuote, ?_⟩
    rw [hget, ← Nat.add_sub_assoc hpos]
    exact h.noBackslash

/-- The scan closes a literal at the first bare quote behind its start. -/
theorem closingQuote?_isLeast {i : Nat} :
    closingQuote? chars start = some i ↔ IsLeast {i | Bare chars quote start i} i := by
  rw [closingQuote?_eq hstart, Option.map_eq_some_iff]
  constructor
  · rintro ⟨n, hn, rfl⟩
    obtain ⟨hbare, hleast⟩ := literalLength?_isLeast.mp hn
    refine ⟨(bare_add_iff hstart).mp hbare, ?_⟩
    intro j hj
    obtain ⟨m, rfl⟩ := Nat.exists_eq_add_of_le (Nat.le_of_lt hj.behind)
    exact Nat.add_le_add_left (hleast ((bare_add_iff hstart).mpr hj)) start
  · rintro ⟨hbare, hleast⟩
    obtain ⟨n, rfl⟩ := Nat.exists_eq_add_of_le (Nat.le_of_lt hbare.behind)
    refine ⟨n, literalLength?_isLeast.mpr ⟨(bare_add_iff hstart).mpr hbare, ?_⟩, rfl⟩
    intro m hm
    exact Nat.le_of_add_le_add_left (hleast ((bare_add_iff hstart).mp hm))

end Columns

/-! ### Unescaped quotes -/

theorem endingBackslashes_of_getLast? {cs : List Char} (h : cs.getLast? ≠ some '\\') :
    endingBackslashes cs = 0 := by
  rw [← List.head?_reverse] at h
  unfold endingBackslashes
  cases hcs : cs.reverse with
  | nil => rfl
  | cons c rest =>
      rw [hcs] at h
      have hc : (c == '\\') = false := beq_false_of_ne fun heq => h (congrArg some heq)
      rw [List.takeWhile_cons, hc]
      rfl

/-- A quote with no backslash before it is unescaped. -/
theorem Bare.unescaped {chars : List Char} {quote : Char} {start i : Nat}
    (h : Bare chars quote start i) : Unescaped chars quote start i := by
  refine ⟨h.behind, h.isQuote, ?_⟩
  have hlast : ((chars.take i).drop (start + 1)).getLast? ≠ some '\\' := by
    obtain ⟨hlt, -⟩ := List.getElem?_eq_some_iff.mp h.isQuote
    have hprevious : chars[i - 1]? = some (chars[i - 1]) := List.getElem?_eq_getElem (by omega)
    have hnoBackslash := h.noBackslash
    rw [List.getLast?_drop]
    split
    · exact nofun
    · rw [List.getLast?_take, if_neg (Nat.ne_of_gt (Nat.zero_lt_of_lt h.behind)), hprevious]
      rw [hprevious] at hnoBackslash
      exact hnoBackslash
  rw [endingBackslashes_of_getLast? hlast]
  exact Even.zero

/-- What is unescaped is the first such quote if none of the columns before has one. -/
theorem Unescaped.isLeast {chars : List Char} {quote : Char} {start i : Nat}
    (h : Unescaped chars quote start i) (hfirst : ∀ j < i, ¬Unescaped chars quote start j) :
    IsLeast {i | Unescaped chars quote start i} i :=
  ⟨h, fun j hj => Nat.le_of_not_lt fun hlt => hfirst j hlt hj⟩

/-- An unescaped quote that is the first is the first bare one, if it is bare at all. -/
theorem Unescaped.isLeast_bare {chars : List Char} {quote : Char} {start i : Nat}
    (h : IsLeast {i | Unescaped chars quote start i} i) (hprevious : chars[i - 1]? ≠ some '\\') :
    IsLeast {i | Bare chars quote start i} i :=
  ⟨⟨h.1.behind, h.1.isQuote, hprevious⟩, fun _ hj => h.2 hj.unescaped⟩

/-- The kind of the literals in some quotes. -/
def literalKind (quote : Char) : Token.Kind := if quote = '"' then .string else .character

/-- A literal is a token up to the column at which the scan closes it. -/
theorem first_eq_plain_iff {chars : List Char} {quote : Char} {start : Nat}
    (hquote : quote = '"' ∨ quote = '\'') (hstart : chars[start]? = some quote) {i : Nat}
    (hi : start < i) (hlen : i < chars.length) :
    Piece.first quote (chars.drop (start + 1)) =
        .plain (literalKind quote) ((chars.drop start).take (i + 1 - start)) ↔
      closingQuote? chars start = some i := by
  have hfirst : Piece.first quote (chars.drop (start + 1)) =
      Piece.afterQuote quote (chars.drop (start + 1)) := by
    rcases hquote with rfl | rfl
    · rfl
    · rfl
  rw [hfirst, closingQuote?_eq hstart, drop_start hstart, Piece.afterQuote]
  cases hfound : literalLength? quote quote (chars.drop (start + 1)) with
  | none =>
      refine iff_of_false (fun h => ?_) (fun h => ?_)
      · cases h
      · cases h
  | some n =>
      have hn := literalLength?_le hfound
      have htake : (quote :: chars.drop (start + 1)).take (i + 1 - start) =
          quote :: (chars.drop (start + 1)).take (i - start) := by
        rw [Nat.succ_sub (Nat.le_of_lt hi), List.take_succ_cons]
      rw [htake, Option.map_some, Option.some.injEq]
      constructor
      · intro h
        have hwidth := congrArg Piece.width h
        simp only [Piece.plain, Piece.width, List.length_cons, List.length_take,
          List.length_drop] at hwidth hn
        omega
      · intro h
        have hsame : n = i - start := by omega
        rw [hsame]
        rfl

/-- The scan closes a literal with its first unescaped quote, or leaves it open if there is none,
just if that quote has no backslash before it; and just then the literal is one token. -/
theorem closed_by_unescaped_iff (chars : List Char) (start : Nat) {quote : Char}
    (hquote : quote = '"' ∨ quote = '\'') (hstart : chars[start]? = some quote) :
    ((∀ i, closingQuote? chars start = some i ↔ IsLeast {i | Unescaped chars quote start i} i) ↔
        ∀ i, IsLeast {i | Unescaped chars quote start i} i → chars[i - 1]? ≠ some '\\') ∧
      ∀ i, IsLeast {i | Unescaped chars quote start i} i →
        (Piece.first quote (chars.drop (start + 1)) =
            .plain (literalKind quote) ((chars.drop start).take (i + 1 - start)) ↔
          chars[i - 1]? ≠ some '\\') := by
  have hfound : ∀ {i}, IsLeast {i | Unescaped chars quote start i} i →
      (closingQuote? chars start = some i ↔ chars[i - 1]? ≠ some '\\') := by
    intro i hleast
    rw [closingQuote?_isLeast hstart]
    exact ⟨fun h => h.1.noBackslash, Unescaped.isLeast_bare hleast⟩
  constructor
  · constructor
    · intro hsame i hleast
      exact (hfound hleast).mp ((hsame i).mpr hleast)
    · intro hplain i
      constructor
      · intro h
        -- A bare quote is unescaped, so there is a first unescaped one.
        have hbare := (closingQuote?_isLeast hstart).mp h
        have hleast := Nat.isLeast_find ⟨i, hbare.1.unescaped⟩
        have hfirst := (hfound hleast).mpr (hplain _ hleast)
        rw [h, Option.some.injEq] at hfirst
        rw [hfirst]
        exact hleast
      · exact fun hleast => (hfound hleast).mpr (hplain i hleast)
  · intro i hleast
    have hlen := (List.getElem?_eq_some_iff.mp hleast.1.isQuote).1
    rw [first_eq_plain_iff hquote hstart hleast.1.behind hlen, hfound hleast]

/-- A string with an escaped backslash and an escaped quote in it, and a blank behind. -/
def escapingLine : List Char := "\"a\\\\b\\\"c\" ".toList

theorem escapingLine_closed :
    escapingLine[0]? = some '"' ∧ IsLeast {i | Unescaped escapingLine '"' 0 i} 8 ∧
      closingQuote? escapingLine 0 = some 8 ∧
      Piece.first '"' (escapingLine.drop 1) = .plain .string (escapingLine.take 9) := by
  have hleast : IsLeast {i | Unescaped escapingLine '"' 0 i} 8 :=
    Unescaped.isLeast (by decide) (by decide)
  obtain ⟨hclosed, hpiece⟩ := closed_by_unescaped_iff escapingLine 0 (Or.inl rfl) rfl
  have hplain : ∀ i, IsLeast {i | Unescaped escapingLine '"' 0 i} i →
      escapingLine[i - 1]? ≠ some '\\' := by
    intro i hi
    rw [IsLeast.unique hi hleast]
    decide
  exact ⟨rfl, hleast, (hclosed.mpr hplain 8).mpr hleast, (hpiece 8 hleast).mpr (hplain 8 hleast)⟩

/-- The literal that says a single backslash ends with an unescaped quote, but the scan does not
close it there. -/
theorem backslash_literal_open :
    ¬∀ (chars : List Char) (start : Nat) (quote : Char), quote = '"' ∨ quote = '\'' →
      chars[start]? = some quote →
      ∀ i, closingQuote? chars start = some i ↔ IsLeast {i | Unescaped chars quote start i} i := by
  intro h
  have hleast : IsLeast {i | Unescaped "'\\\\'".toList '\'' 0 i} 3 :=
    Unescaped.isLeast (by decide) (by decide)
  have hclosed := (h _ 0 '\'' (Or.inr rfl) rfl 3).mpr hleast
  exact absurd hclosed (by decide)

end GrammarLens
