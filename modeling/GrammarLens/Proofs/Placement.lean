import GrammarLens.Token
import Mathlib.Order.Defs.LinearOrder

/-! # Tokens with places

A token is `Placed` when none of its three coordinates is negative.  For placed tokens the checks
of `Span.make` and `Position.ofInts` never fail: `Token.place` and `Token.through` are the spans
that `Token.span` and `Token.extent` then give (`span_eq_place`, `extent_eq_through`).  Every later
statement about recorded spans goes through these two functions.

Positions are ordered line first; the order is linear, so the general lemmas about `≤` and `<`
apply to them. -/

namespace GrammarLens

instance : LinearOrder Position where
  le_refl p := by rw [Position.le_def]; omega
  le_trans p q r := by simp only [Position.le_def]; omega
  lt_iff_le_not_ge p q := by simp only [Position.le_def, Position.lt_def]; omega
  le_antisymm := by
    rintro ⟨l, c⟩ ⟨l', c'⟩ h h'
    simp only [Position.le_def] at h h'
    rw [Position.mk.injEq]
    omega
  le_total p q := by simp only [Position.le_def]; omega
  toDecidableLE := inferInstance
  toDecidableLT := inferInstance

namespace Token

/-- No coordinate of the token is negative. -/
structure Placed (t : Token) : Prop where
  line : 0 ≤ t.line
  column : 0 ≤ t.column
  length : 0 ≤ t.length

instance (t : Token) : Decidable t.Placed :=
  decidable_of_iff (0 ≤ t.line ∧ 0 ≤ t.column ∧ 0 ≤ t.length)
    ⟨fun h => ⟨h.1, h.2.1, h.2.2⟩, fun h => ⟨h.1, h.2, h.3⟩⟩

/-- Where a placed token starts. -/
def start (t : Token) : Position := ⟨t.line.toNat, t.column.toNat⟩

/-- Where a placed token stops. -/
def stop (t : Token) : Position := ⟨t.line.toNat, t.column.toNat + t.length.toNat⟩

theorem start_le_stop (t : Token) : t.start ≤ t.stop :=
  Or.inr ⟨rfl, Nat.le_add_right _ _⟩

/-- The span of a placed token. -/
def place (t : Token) : Span := ⟨t.start, t.stop, t.start_le_stop⟩

/-- The span from the start of `first` to the stop of `last`, or `first` alone if `last` stops
before it. -/
def through (first last : Token) : Span :=
  if h : first.start ≤ last.stop then ⟨first.start, last.stop, h⟩ else first.place

@[simp] theorem place_start (t : Token) : t.place.start = t.start := rfl

@[simp] theorem place_stop (t : Token) : t.place.stop = t.stop := rfl

@[simp] theorem through_start (first last : Token) : (first.through last).start = first.start := by
  unfold through
  split <;> rfl

theorem through_stop {first last : Token} (h : first.start ≤ last.stop) :
    (first.through last).stop = last.stop := by rw [through, dif_pos h]

theorem through_stop_eq_ite (first last : Token) :
    (first.through last).stop = if last.stop < first.start then first.stop else last.stop := by
  by_cases h : last.stop < first.start
  · rw [if_pos h, through, dif_neg (not_le.mpr h)]
    rfl
  · rw [if_neg h, through_stop (not_lt.mp h)]

theorem through_self (t : Token) : t.through t = t.place := by
  rw [through, dif_pos t.start_le_stop]
  rfl

/-! ### The checks succeed -/

theorem ofInts_start {t : Token} (h : t.Placed) :
    Position.ofInts t.line t.column = .ok t.start := by
  obtain ⟨hl, hc, -⟩ := h
  rw [Position.ofInts, if_neg (by omega), start]

theorem ofInts_stop {t : Token} (h : t.Placed) :
    Position.ofInts t.line (t.column + t.length) = .ok t.stop := by
  obtain ⟨hl, hc, hn⟩ := h
  rw [Position.ofInts, if_neg (by omega), stop, Int.toNat_add hc hn]

theorem make_eq_ok {p q : Position} (h : p ≤ q) : Span.make p q = .ok ⟨p, q, h⟩ := by
  rw [Span.make, dif_pos h]

theorem span_eq_place {t : Token} (h : t.Placed) : t.span = .ok t.place := by
  rw [span, Span.onLine, Span.ofInts, ofInts_start h, ofInts_stop h]
  exact make_eq_ok t.start_le_stop

theorem extent_eq_through {first last : Token} (hf : first.Placed) (hl : last.Placed) :
    first.extent last = .ok (first.through last) := by
  rw [extent, ofInts_start hf, ofInts_stop hl, ofInts_stop hf]
  show (if last.stop < first.start then _ else _) = _
  by_cases h : last.stop < first.start
  · rw [if_pos h, through, dif_neg (not_le.mpr h)]
    exact make_eq_ok first.start_le_stop
  · rw [if_neg h, through, dif_pos (not_lt.mp h)]
    exact make_eq_ok (not_lt.mp h)

/-! ### Order in the text -/

/-- The token `t` stops before `u` starts, or just there. -/
def Before (t u : Token) : Prop := t.stop ≤ u.start

theorem Before.start_le_stop {t u : Token} (h : t.Before u) : t.start ≤ u.stop :=
  le_trans t.start_le_stop (le_trans h u.start_le_stop)

end Token

end GrammarLens
