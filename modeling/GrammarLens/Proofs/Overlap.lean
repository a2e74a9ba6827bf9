import GrammarLens.Proofs.Caret
import Mathlib.Data.Prod.Lex
import Mathlib.Order.MinMax

/-! # Spans that meet

A caret touches a span just if it lies between the two ends, and the order that this is said in is
the lexicographic one of lines and columns (`coordinates_le_iff`).  So a span is an interval, ends
included.  What two intervals share runs from the later start to the earlier stop
(`contains_both_iff`), and two spans overlap just if that is not empty (`overlaps_eq_true_iff`): the
later start is then a position in both. -/

namespace GrammarLens

/-- Line and column as a pair in lexicographic order. -/
def Position.coordinates (p : Position) : ℕ ×ₗ ℕ := toLex (p.line, p.column)

theorem Position.coordinates_le_iff {p q : Position} : p.coordinates ≤ q.coordinates ↔ p ≤ q :=
  Prod.Lex.toLex_le_toLex

namespace Span

variable (a b : Span)

theorem contains_both_iff (p : Position) :
    a.contains p = true ∧ b.contains p = true ↔
      max a.start b.start ≤ p ∧ p ≤ min a.stop b.stop := by
  rw [contains_iff, contains_iff, max_le_iff, le_min_iff, and_and_and_comm]

theorem overlaps_eq_true_iff :
    a.overlaps b = true ↔ max a.start b.start ≤ min a.stop b.stop := by
  have ha := a.start_le_stop
  have hb := b.start_le_stop
  rw [max_le_iff, le_min_iff, le_min_iff]
  simp only [overlaps, Bool.not_eq_true', Bool.or_eq_false_iff, decide_eq_false_iff_not, not_lt]
  constructor
  · rintro ⟨hba, hab⟩
    exact ⟨⟨ha, hab⟩, hba, hb⟩
  · rintro ⟨⟨-, hab⟩, hba, -⟩
    exact ⟨hba, hab⟩

theorem overlaps_comm : a.overlaps b = b.overlaps a := by
  rw [Bool.eq_iff_iff, overlaps_eq_true_iff, overlaps_eq_true_iff, max_comm, min_comm]

/-- A span contains the positions from its start to its stop, lines first and columns second.  Two
spans overlap just if some position is in both, so overlapping does not depend on which span is
asked. -/
theorem overlaps_iff_shared_position :
    (∀ p : Position, a.contains p = true ↔
      a.start.coordinates ≤ p.coordinates ∧ p.coordinates ≤ a.stop.coordinates) ∧
    (a.overlaps b = true ↔ ∃ p : Position, a.contains p = true ∧ b.contains p = true) ∧
    a.overlaps b = b.overlaps a := by
  refine ⟨fun p => ?_, ⟨fun h => ?_, ?_⟩, overlaps_comm a b⟩
  · rw [contains_iff, Position.coordinates_le_iff, Position.coordinates_le_iff]
  · exact ⟨max a.start b.start, (contains_both_iff a b _).mpr
      ⟨le_refl _, (overlaps_eq_true_iff a b).mp h⟩⟩
  · rintro ⟨p, hp⟩
    obtain ⟨hstart, hstop⟩ := (contains_both_iff a b p).mp hp
    exact (overlaps_eq_true_iff a b).mpr (le_trans hstart hstop)

end Span

end GrammarLens
